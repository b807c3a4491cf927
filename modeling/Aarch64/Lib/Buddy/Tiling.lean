import Aarch64.Lib.Dyadic

/-!
# Tilings by aligned blocks

The geometric half of a buddy allocator. At any time the pages it has been given
are tiled by aligned blocks, some free and some in use. The three ways a tiling
changes are that new pages are released, that two buddies join, and that a block
is halved. A tiling does not know about free lists or page tags.
-/

namespace Buddy

open Dyadic

/-- Aligned, pairwise disjoint blocks of level at most `top` that stay inside
`range` and together have exactly the pages `released`. -/
structure Tiling (top : Nat) (range : Set Nat) (blocks : Set Block) (released : Set Nat) :
    Prop where
  level_le : ∀ b ∈ blocks, b.level ≤ top
  aligned : ∀ b ∈ blocks, b.Aligned
  within : ∀ b ∈ blocks, b.pages ⊆ range
  disjoint : ∀ b ∈ blocks, ∀ c ∈ blocks, b ≠ c → Disjoint b.pages c.pages
  cover : ∀ p, p ∈ released ↔ ∃ b ∈ blocks, p ∈ b.pages

namespace Tiling

variable {top : Nat} {range released : Set Nat} {blocks : Set Block} {b c : Block}

theorem empty : Tiling top range ∅ ∅ := by
  refine ⟨?_, ?_, ?_, ?_, ?_⟩ <;> simp

/-- The block through a page is unique. -/
theorem eq_of_mem {p : Nat} (h : Tiling top range blocks released) (hb : b ∈ blocks)
    (hc : c ∈ blocks) (hpb : p ∈ b.pages) (hpc : p ∈ c.pages) : b = c := by
  by_contra hne
  exact Set.disjoint_left.mp (h.disjoint b hb c hc hne) hpb hpc

theorem subset_released (h : Tiling top range blocks released) (hb : b ∈ blocks) :
    b.pages ⊆ released :=
  fun p hp => (h.cover p).mpr ⟨b, hb, hp⟩

/-- Distinct blocks start at distinct pages. -/
theorem index_ne (h : Tiling top range blocks released) (hb : b ∈ blocks) (hc : c ∈ blocks)
    (hne : b ≠ c) : b.index ≠ c.index := by
  intro heq
  exact hne (h.eq_of_mem hb hc b.index_mem (by rw [heq]; exact c.index_mem))

/-- Give the allocator pages it has never seen. -/
theorem release (h : Tiling top range blocks released) (hlevel : b.level ≤ top)
    (haligned : b.Aligned) (hwithin : b.pages ⊆ range) (hnew : Disjoint b.pages released) :
    Tiling top range (insert b blocks) (released ∪ b.pages) := by
  have hapart : ∀ c ∈ blocks, Disjoint b.pages c.pages := fun c hc =>
    hnew.mono_right (h.subset_released hc)
  refine ⟨?_, ?_, ?_, ?_, ?_⟩
  · rintro c (rfl | hc)
    · exact hlevel
    · exact h.level_le c hc
  · rintro c (rfl | hc)
    · exact haligned
    · exact h.aligned c hc
  · rintro c (rfl | hc)
    · exact hwithin
    · exact h.within c hc
  · rintro c (rfl | hc) d (rfl | hd) hne
    · exact absurd rfl hne
    · exact hapart d hd
    · exact (hapart c hc).symm
    · exact h.disjoint c hc d hd hne
  · intro p
    rw [Set.mem_union, h.cover, Set.exists_mem_insert, or_comm]

/-- Two buddies become their parent. -/
theorem join (h : Tiling top range blocks released) (hb : b ∈ blocks) (hbuddy : b.buddy ∈ blocks)
    (hlevel : b.level < top) :
    Tiling top range (insert b.parent (blocks \ {b, b.buddy})) released := by
  have haligned := h.aligned b hb
  have hpages := Block.parent_pages haligned
  have hapart : ∀ c ∈ blocks \ {b, b.buddy}, Disjoint b.parent.pages c.pages := by
    rintro c ⟨hc, hne⟩
    simp only [Set.mem_insert_iff, Set.mem_singleton_iff, not_or] at hne
    exact Block.parent_disjoint haligned (h.disjoint b hb c hc (Ne.symm hne.1))
      (h.disjoint b.buddy hbuddy c hc (Ne.symm hne.2))
  refine ⟨?_, ?_, ?_, ?_, ?_⟩
  · rintro c (rfl | hc)
    · exact hlevel
    · exact h.level_le c hc.1
  · rintro c (rfl | hc)
    · exact Block.parent_aligned haligned
    · exact h.aligned c hc.1
  · rintro c (rfl | hc)
    · rw [hpages]
      exact Set.union_subset (h.within b hb) (h.within _ hbuddy)
    · exact h.within c hc.1
  · rintro c (rfl | hc) d (rfl | hd) hne
    · exact absurd rfl hne
    · exact hapart d hd
    · exact (hapart c hc).symm
    · exact h.disjoint c hc.1 d hd.1 hne
  · intro p
    rw [h.cover, Set.exists_mem_insert, hpages, Set.mem_union]
    constructor
    · rintro ⟨c, hc, hp⟩
      by_cases hcb : c = b
      · exact .inl (.inl (hcb ▸ hp))
      · by_cases hcb' : c = b.buddy
        · exact .inl (.inr (hcb' ▸ hp))
        · exact .inr ⟨c, ⟨hc, by simp [hcb, hcb']⟩, hp⟩
    · rintro ((hp | hp) | ⟨c, hc, hp⟩)
      · exact ⟨b, hb, hp⟩
      · exact ⟨b.buddy, hbuddy, hp⟩
      · exact ⟨c, hc.1, hp⟩

/-- A block of positive level becomes its two halves. -/
theorem halve (h : Tiling top range blocks released) (haligned : b.Aligned)
    (hb : b.parent ∈ blocks) :
    Tiling top range (insert b (insert b.buddy (blocks \ {b.parent}))) released := by
  have hpages := Block.parent_pages haligned
  have hlevel := h.level_le _ hb
  have hsub : ∀ c, c = b ∨ c = b.buddy → c.pages ⊆ b.parent.pages := by
    rintro c (rfl | rfl)
    · exact Block.subset_parent haligned
    · exact Block.buddy_subset_parent haligned
  have hapart : ∀ c d, c = b ∨ c = b.buddy → d ∈ blocks \ {b.parent} →
      Disjoint c.pages d.pages := by
    rintro c d hc ⟨hd, hne⟩
    exact (h.disjoint _ hb d hd (Ne.symm hne)).mono_left (hsub c hc)
  have hbuddies := Block.buddy_disjoint haligned
  refine ⟨?_, ?_, ?_, ?_, ?_⟩
  · rintro c (rfl | rfl | hc)
    · exact Nat.le_of_succ_le hlevel
    · exact Nat.le_of_succ_le hlevel
    · exact h.level_le c hc.1
  · rintro c (rfl | rfl | hc)
    · exact haligned
    · exact Block.buddy_aligned haligned
    · exact h.aligned c hc.1
  · rintro c (rfl | rfl | hc)
    · exact (hsub _ (.inl rfl)).trans (h.within _ hb)
    · exact (hsub _ (.inr rfl)).trans (h.within _ hb)
    · exact h.within c hc.1
  · rintro c (rfl | rfl | hc) d (rfl | rfl | hd) hne
    · exact absurd rfl hne
    · exact hbuddies
    · exact hapart _ d (.inl rfl) hd
    · exact hbuddies.symm
    · exact absurd rfl hne
    · exact hapart _ d (.inr rfl) hd
    · exact (hapart _ c (.inl rfl) hc).symm
    · exact (hapart _ c (.inr rfl) hc).symm
    · exact h.disjoint c hc.1 d hd.1 hne
  · intro p
    rw [h.cover, Set.exists_mem_insert, Set.exists_mem_insert]
    constructor
    · rintro ⟨c, hc, hp⟩
      by_cases hcb : c = b.parent
      · rw [hcb, hpages] at hp
        exact hp.imp_right .inl
      · exact .inr (.inr ⟨c, ⟨hc, hcb⟩, hp⟩)
    · rintro (hp | hp | ⟨c, hc, hp⟩)
      · exact ⟨_, hb, hsub _ (.inl rfl) hp⟩
      · exact ⟨_, hb, hsub _ (.inr rfl) hp⟩
      · exact ⟨c, hc.1, hp⟩

end Tiling

end Buddy
