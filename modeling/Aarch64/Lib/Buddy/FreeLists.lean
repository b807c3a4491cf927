import Aarch64.Lib.Buddy.Invariant
import Aarch64.Lib.Packing
import Mathlib.Data.List.Range

/-!
# The free lists are determined by the free pages

In a coalesced state the free blocks are the maximal aligned blocks that fit into
the set of free pages. Nothing about the history of the allocator is left in
them, so two runs that end with the same free pages end with the same free
blocks. The last section lists the free blocks and counts their pages.
-/

namespace Buddy

open Dyadic

/-- An aligned block of level at most `top` inside `pages` that is not contained
in a larger one. -/
def IsMaximal (top : Nat) (pages : Set Nat) (b : Block) : Prop :=
  b.Aligned ∧ b.level ≤ top ∧ b.pages ⊆ pages ∧
    ∀ c : Block, c.Aligned → c.level ≤ top → c.pages ⊆ pages → b.pages ⊆ c.pages → c = b

namespace Inv

variable {top : Nat} {range : Set Nat} {v : View} {pending live : List Block}
variable {released exempt : Set Nat} {b c : Block}

/-- Every aligned block of free pages lies inside one free block. The induction
is on the level: the halves lie in free blocks, and if neither of these is large
enough they are two free buddies, which a coalesced state does not have. -/
theorem exists_free_superset (h : Inv top range v pending live released exempt) :
    ∀ l i, Block.Aligned ⟨i, l⟩ → l ≤ top → Block.pages ⟨i, l⟩ ⊆ v.freeSet →
      ∃ c, v.IsFree c ∧ Block.pages ⟨i, l⟩ ⊆ c.pages := by
  intro l
  induction l with
  | zero =>
      intro i haligned _ hsub
      obtain ⟨c, hc, hi⟩ := hsub (Block.index_mem ⟨i, 0⟩)
      exact ⟨c, hc, haligned.nested (h.aligned (.inl hc)) (Nat.zero_le _)
        (Block.index_mem ⟨i, 0⟩) hi⟩
  | succ l ih =>
      intro i haligned hle hsub
      have hparent := Block.parent_of_aligned_succ haligned
      have hlow : Block.Aligned ⟨i, l⟩ := Block.aligned_lower haligned (Nat.le_succ l)
      have hright : Block.Aligned ⟨i ^^^ 2 ^ l, l⟩ := Block.buddy_aligned hlow
      have hsubLeft : Block.pages ⟨i, l⟩ ⊆ Block.pages ⟨i, l + 1⟩ :=
        hparent ▸ Block.subset_parent hlow
      have hsubRight : Block.pages ⟨i ^^^ 2 ^ l, l⟩ ⊆ Block.pages ⟨i, l + 1⟩ :=
        hparent ▸ Block.buddy_subset_parent hlow
      obtain ⟨c, hc, hcsub⟩ := ih i hlow (Nat.le_of_succ_le hle) (hsubLeft.trans hsub)
      obtain ⟨d, hd, hdsub⟩ := ih _ hright (Nat.le_of_succ_le hle) (hsubRight.trans hsub)
      have hcaligned := h.aligned (.inl hc)
      have hdaligned := h.aligned (.inl hd)
      rcases Nat.lt_or_ge l c.level with hlt | hge
      · exact ⟨c, hc, haligned.nested hcaligned hlt (Block.index_mem ⟨i, l + 1⟩)
          (hcsub (Block.index_mem ⟨i, l⟩))⟩
      rcases Nat.lt_or_ge l d.level with hlt | hge'
      · have hi := hdsub (Block.index_mem ⟨i ^^^ 2 ^ l, l⟩)
        exact ⟨d, hd, haligned.nested hdaligned hlt (hsubRight (Block.index_mem ⟨_, l⟩)) hi⟩
      · -- both halves are free themselves, and they are buddies
        exfalso
        obtain rfl := hlow.eq_of_subset hcaligned hge hcsub
        obtain rfl := hright.eq_of_subset hdaligned hge' hdsub
        exact h.coalesced _ hc hle hd

theorem freeSet_subset (hb : v.IsFree b) : b.pages ⊆ v.freeSet := fun _ hp => ⟨b, hb, hp⟩

/-- The free blocks are exactly the maximal aligned blocks of free pages. -/
theorem isFree_iff_isMaximal (h : Inv top range v pending live released exempt) :
    v.IsFree b ↔ IsMaximal top v.freeSet b := by
  constructor
  · intro hb
    refine ⟨h.aligned (.inl hb), h.level_le (.inl hb), freeSet_subset hb, ?_⟩
    intro c hc hle hsub hbc
    obtain ⟨d, hd, hcd⟩ := h.exists_free_superset c.level c.index hc hle hsub
    have heq := h.eq_of_mem (.inl hd) (.inl hb) (hcd (hbc b.index_mem)) b.index_mem
    subst heq
    exact hc.eq_of_subset (h.aligned (.inl hd)) (Block.level_le_of_subset hbc) hcd
  · rintro ⟨haligned, hle, hsub, hmax⟩
    obtain ⟨c, hc, hbc⟩ := h.exists_free_superset b.level b.index haligned hle hsub
    have heq := hmax c (h.aligned (.inl hc)) (h.level_le (.inl hc)) (freeSet_subset hc) hbc
    exact heq ▸ hc

/-- Order independence: two coalesced states with the same free pages have the
same free blocks, whatever their histories were. -/
theorem isFree_congr {v' : View} {range' released' exempt' : Set Nat}
    {pending' live' : List Block} (h : Inv top range v pending live released exempt)
    (h' : Inv top range' v' pending' live' released' exempt') (heq : v.freeSet = v'.freeSet) :
    v.IsFree b ↔ v'.IsFree b := by
  rw [h.isFree_iff_isMaximal, h'.isFree_iff_isMaximal, heq]

/-- The free pages are the released pages that no client and no operation holds. -/
theorem mem_freeSet_iff (h : Inv top range v [] live released exempt) {p : Nat} :
    p ∈ v.freeSet ↔ p ∈ released ∧ ∀ b ∈ live, p ∉ b.pages := by
  constructor
  · rintro ⟨b, hb, hp⟩
    refine ⟨h.subset_released (.inl hb) hp, fun c hc hpc => ?_⟩
    have heq := h.eq_of_mem (.inl hb) (.inr (.inr hc)) hp hpc
    exact h.owned_not_free c (.inr hc) (heq ▸ hb)
  · rintro ⟨hp, hlive⟩
    obtain ⟨b, hb | hb | hb, hpb⟩ := (h.tiling.cover p).mp hp
    · exact ⟨b, hb, hpb⟩
    · exact absurd hb List.not_mem_nil
    · exact absurd hpb (hlive b hb)

/-- Some level from `l` on has a free block exactly when some aligned block of level `l`
consists of free pages. -/
theorem exists_free_iff (h : Inv top range v pending live released exempt) {l : Nat}
    (hl : l ≤ top) : (∃ m, l ≤ m ∧ m ≤ top ∧ v.free m ≠ []) ↔
      ∃ i, Block.Aligned ⟨i, l⟩ ∧ Block.pages ⟨i, l⟩ ⊆ v.freeSet := by
  constructor
  · rintro ⟨m, hlm, _, hne⟩
    obtain ⟨i, hi⟩ := List.exists_mem_of_ne_nil _ hne
    have hb : v.IsFree ⟨i, m⟩ := hi
    have haligned := h.aligned (.inl hb)
    have hlower := Block.aligned_lower haligned hlm
    exact ⟨i, hlower, (hlower.nested haligned hlm (Block.index_mem ⟨i, l⟩)
      (Block.index_mem ⟨i, m⟩)).trans (freeSet_subset hb)⟩
  · rintro ⟨i, haligned, hsub⟩
    obtain ⟨c, hc, hic⟩ := h.exists_free_superset l i haligned hl hsub
    exact ⟨c.level, Block.level_le_of_subset hic, h.level_le (.inl hc), List.ne_nil_of_mem hc⟩

/-- Handing out a block takes its pages from the free ones. -/
theorem freeSet_handedOut {v' : View} {range' exempt' : Set Nat}
    (h : Inv top range v [] live released exempt)
    (h' : Inv top range' v' [] (b :: live) released exempt') :
    v'.freeSet = v.freeSet \ b.pages := by
  ext p
  rw [Set.mem_sdiff, h.mem_freeSet_iff, h'.mem_freeSet_iff, List.forall_mem_cons]
  tauto

end Inv

/-! ## Listing and counting -/

namespace View

/-- The free blocks of levels up to `top`, level by level. -/
def freeBlocks (v : View) (top : Nat) : List Block :=
  (List.range (top + 1)).flatMap fun l => (v.free l).map fun i => ⟨i, l⟩

@[simp] theorem mem_freeBlocks {v : View} {top : Nat} {b : Block} :
    b ∈ v.freeBlocks top ↔ b.level ≤ top ∧ v.IsFree b := by
  obtain ⟨i, l⟩ := b
  simp only [freeBlocks, IsFree, List.mem_flatMap, List.mem_range, List.mem_map,
    Block.mk.injEq, Nat.lt_succ_iff]
  constructor
  · rintro ⟨m, hm, j, hj, rfl, rfl⟩
    exact ⟨hm, hj⟩
  · rintro ⟨hl, hi⟩
    exact ⟨l, hl, i, hi, rfl, rfl⟩

theorem nodup_freeBlocks {v : View} (h : ∀ l, (v.free l).Nodup) (top : Nat) :
    (v.freeBlocks top).Nodup := by
  rw [freeBlocks, List.nodup_flatMap]
  refine ⟨fun l _ => (h l).map fun i j hij => congrArg Block.index hij, ?_⟩
  refine List.Pairwise.imp (fun {l m} hlm => ?_) List.nodup_range
  intro b hb hb'
  obtain ⟨i, _, rfl⟩ := List.mem_map.mp hb
  obtain ⟨j, _, hj⟩ := List.mem_map.mp hb'
  exact hlm (congrArg Block.level hj).symm

/-- The number of pages in the free lists up to level `top`. -/
def freePages (v : View) (top : Nat) : Nat := ((v.freeBlocks top).map Block.size).sum

end View

/-- Free and live blocks together form a list of pairwise disjoint blocks. -/
theorem Inv.pairwise_disjoint {top : Nat} {range : Set Nat} {v : View} {live : List Block}
    {released exempt : Set Nat} (h : Inv top range v [] live released exempt) :
    (v.freeBlocks top ++ live).Pairwise fun b c => Disjoint b.pages c.pages := by
  have hholds : ∀ b ∈ v.freeBlocks top ++ live, v.Holds [] live b := by
    intro b hb
    rcases List.mem_append.mp hb with hb | hb
    · exact .inl (View.mem_freeBlocks.mp hb).2
    · exact .inr (.inr hb)
  have hnd : (v.freeBlocks top ++ live).Nodup := by
    refine List.nodup_append.mpr ⟨View.nodup_freeBlocks h.nodup top, h.ownedNodup, ?_⟩
    rintro b hb c hc rfl
    exact h.owned_not_free b (.inr hc) (View.mem_freeBlocks.mp hb).2
  exact hnd.imp_of_mem fun hb hc hne => h.tiling.disjoint _ (hholds _ hb) _ (hholds _ hc) hne

theorem finite_pages (b : Block) : b.pages.Finite := Packing.finite_cells (b.index, b.size)

@[simp] theorem ncard_pages (b : Block) : b.pages.ncard = b.size := Packing.ncard_cells (b.index, b.size)

/-- Disjoint blocks have as many pages together as their sizes say. -/
theorem ncard_of_pairwise_disjoint {blocks : List Block}
    (h : blocks.Pairwise fun b c => Disjoint b.pages c.pages) :
    {p | ∃ b ∈ blocks, p ∈ b.pages}.Finite ∧
      {p | ∃ b ∈ blocks, p ∈ b.pages}.ncard = (blocks.map Block.size).sum := by
  have hpairs : (blocks.map fun b => (b.index, b.size)).Pairwise
      fun i j => Disjoint (Packing.cells i) (Packing.cells j) := by
    rw [List.pairwise_map]
    exact h
  have hcells := Packing.ncard_of_pairwise_disjoint _ hpairs
  simp only [List.mem_map, exists_exists_and_eq_and, List.map_map] at hcells
  exact hcells

namespace Inv

variable {top : Nat} {range : Set Nat} {v : View} {live : List Block}
variable {released exempt : Set Nat}

/-- Every released page is free or live. The number of free pages is therefore
determined by what has been released and what is held. -/
theorem freePages_add_live (h : Inv top range v [] live released exempt) :
    released.Finite ∧ v.freePages top + (live.map Block.size).sum = released.ncard := by
  have hcover : released = {p | ∃ b ∈ v.freeBlocks top ++ live, p ∈ b.pages} := by
    ext p
    rw [h.tiling.cover]
    constructor
    · rintro ⟨b, hb | hb | hb, hp⟩
      · exact ⟨b, List.mem_append_left _
          (View.mem_freeBlocks.mpr ⟨h.level_le (.inl hb), hb⟩), hp⟩
      · exact absurd hb List.not_mem_nil
      · exact ⟨b, List.mem_append_right _ hb, hp⟩
    · rintro ⟨b, hb, hp⟩
      rcases List.mem_append.mp hb with hb | hb
      · exact ⟨b, .inl (View.mem_freeBlocks.mp hb).2, hp⟩
      · exact ⟨b, .inr (.inr hb), hp⟩
  obtain ⟨hfinite, hcard⟩ := ncard_of_pairwise_disjoint h.pairwise_disjoint
  rw [← hcover] at hfinite hcard
  rw [List.map_append, List.sum_append] at hcard
  exact ⟨hfinite, hcard.symm⟩

/-- There are no more free pages than pages. -/
theorem freePages_le {n : Nat} (h : Inv top range v [] live released exempt)
    (hrange : range.Finite) (hn : range.ncard ≤ n) : v.freePages top ≤ n := by
  have hsub : released ⊆ range := by
    intro p hp
    obtain ⟨b, hb, hpb⟩ := (h.tiling.cover p).mp hp
    exact h.within hb hpb
  calc v.freePages top ≤ v.freePages top + (live.map Block.size).sum := Nat.le_add_right _ _
    _ = released.ncard := h.freePages_add_live.2
    _ ≤ range.ncard := Set.ncard_le_ncard hsub hrange
    _ ≤ n := hn

end Inv

end Buddy
