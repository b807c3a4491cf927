import Aarch64.Lib.Buddy.Tiling
import Mathlib.Data.List.Nodup
import Mathlib.Tactic.Tauto

/-!
# Buddy allocation with stale tags

A buddy allocator keeps one list of block starts for each level and one tag for
each page. The tag says whether the page starts a free block and of which level.
Implementations do not erase the tags of pages that end up inside a larger block,
so a tag alone proves nothing. `Inv` says which tags can be believed: a page that
is tagged free either starts a free block of the tagged level, or it lies inside
a strictly larger block. In the second case the tag is stale, and the merge test
cannot be fooled by it, because the larger block would contain the tested page
together with its buddy.

Blocks outside the free lists are `live`, held by a client, or `pending`, held by
the running operation. The moves below are the atomic steps of every buddy
implementation: a pending block absorbs its free buddy, enters a free list, is
taken from one, is halved, or becomes live. Each move preserves `Inv`, so an
implementation is verified by showing which moves its loops perform.
-/

namespace Buddy

open Dyadic

/-- What the record of one page says. -/
structure Tag where
  isFree : Bool
  level : Nat
  deriving DecidableEq, Repr

/-- The data of an allocator: block starts by level and tags by page. -/
@[ext]
structure View where
  free : Nat → List Nat
  tag : Nat → Tag

namespace View

def IsFree (v : View) (b : Block) : Prop := b.index ∈ v.free b.level

/-- The pages of the free lists. -/
def freeSet (v : View) : Set Nat := {p | ∃ b, v.IsFree b ∧ p ∈ b.pages}

/-- Every block the allocator knows: free, pending or live. -/
def Holds (v : View) (pending live : List Block) (b : Block) : Prop :=
  v.IsFree b ∨ b ∈ pending ∨ b ∈ live

/-- Drop a block from its list. Its tags stay as they are. -/
def remove (v : View) (b : Block) : View :=
  { v with free := Function.update v.free b.level ((v.free b.level).erase b.index) }

/-- Put a block in front of its list and tag its first page. -/
def insert (v : View) (b : Block) : View where
  free := Function.update v.free b.level (b.index :: v.free b.level)
  tag := Function.update v.tag b.index ⟨true, b.level⟩

def retag (v : View) (p : Nat) (t : Tag) : View := { v with tag := Function.update v.tag p t }

@[simp] theorem remove_tag (v : View) (b : Block) : (v.remove b).tag = v.tag := rfl
@[simp] theorem retag_free (v : View) (p : Nat) (t : Tag) : (v.retag p t).free = v.free := rfl

@[simp] theorem retag_isFree {v : View} {p : Nat} {t : Tag} {b : Block} :
    (v.retag p t).IsFree b ↔ v.IsFree b := Iff.rfl

@[simp] theorem retag_tag_self (v : View) (p : Nat) (t : Tag) : (v.retag p t).tag p = t :=
  Function.update_self ..

theorem retag_tag_ne {v : View} {p q : Nat} {t : Tag} (h : q ≠ p) :
    (v.retag p t).tag q = v.tag q := Function.update_of_ne h ..

@[simp] theorem insert_tag_self (v : View) (b : Block) :
    (v.insert b).tag b.index = ⟨true, b.level⟩ := Function.update_self ..

theorem insert_tag_ne {v : View} {b : Block} {q : Nat} (h : q ≠ b.index) :
    (v.insert b).tag q = v.tag q := Function.update_of_ne h ..

@[simp] theorem insert_isFree {v : View} {b c : Block} :
    (v.insert b).IsFree c ↔ c = b ∨ v.IsFree c := by
  obtain ⟨i, l⟩ := b
  obtain ⟨j, m⟩ := c
  by_cases hm : m = l
  · subst hm
    simp [IsFree, insert]
  · simp [IsFree, insert, hm]

theorem remove_isFree {v : View} {b c : Block} (hnd : (v.free b.level).Nodup) :
    (v.remove b).IsFree c ↔ v.IsFree c ∧ c ≠ b := by
  obtain ⟨i, l⟩ := b
  obtain ⟨j, m⟩ := c
  by_cases hm : m = l
  · subst hm
    simp only [IsFree, remove, Function.update_self, ne_eq, Block.mk.injEq, and_true]
    rw [List.Nodup.mem_erase_iff hnd, and_comm]
  · simp [IsFree, remove, hm]

theorem insert_nodup {v : View} {b : Block} (h : ∀ l, (v.free l).Nodup) (hb : ¬ v.IsFree b)
    (l : Nat) : ((v.insert b).free l).Nodup := by
  by_cases hl : l = b.level
  · subst hl
    simpa only [insert, Function.update_self, List.nodup_cons] using ⟨hb, h _⟩
  · simpa only [insert, Function.update_of_ne hl] using h l

theorem remove_nodup {v : View} {b : Block} (h : ∀ l, (v.free l).Nodup) (l : Nat) :
    ((v.remove b).free l).Nodup := by
  by_cases hl : l = b.level
  · subst hl
    simpa only [remove, Function.update_self] using (h _).erase _
  · simpa only [remove, Function.update_of_ne hl] using h l

/-- A page tagged with level `m` whose tag was left behind when a larger block
was formed around it. -/
def Stale (v : View) (pending live : List Block) (p m : Nat) : Prop :=
  Block.Aligned ⟨p, m⟩ ∧ ∃ c, v.Holds pending live c ∧ m < c.level ∧ p ∈ c.pages

end View

/-- The allocator invariant for levels up to `top` and pages in `range`. The
pages `released` so far are exactly those of the known blocks. The pages in
`exempt` are being rewritten by the running operation and are not trusted. -/
structure Inv (top : Nat) (range : Set Nat) (v : View) (pending live : List Block)
    (released exempt : Set Nat) : Prop where
  nodup : ∀ l, (v.free l).Nodup
  ownedNodup : (pending ++ live).Nodup
  owned_not_free : ∀ b, b ∈ pending ∨ b ∈ live → ¬ v.IsFree b
  tiling : Tiling top range {b | v.Holds pending live b} released
  freeTag : ∀ b, v.IsFree b → v.tag b.index = ⟨true, b.level⟩
  liveTag : ∀ b ∈ live, (v.tag b.index).level = b.level
  trust : ∀ p, p ∉ exempt → (v.tag p).isFree = true →
    v.IsFree ⟨p, (v.tag p).level⟩ ∨ v.Stale pending live p (v.tag p).level
  fresh : ∀ p, p ∉ released → v.tag p = ⟨false, 0⟩
  coalesced : ∀ b, v.IsFree b → b.level < top → ¬ v.IsFree b.buddy

namespace Inv

variable {top : Nat} {range : Set Nat} {v : View} {pending live : List Block}
variable {released exempt : Set Nat} {b c : Block}

theorem eq_of_mem {p : Nat} (h : Inv top range v pending live released exempt)
    (hb : v.Holds pending live b) (hc : v.Holds pending live c) (hpb : p ∈ b.pages)
    (hpc : p ∈ c.pages) : b = c :=
  h.tiling.eq_of_mem hb hc hpb hpc

theorem aligned (h : Inv top range v pending live released exempt)
    (hb : v.Holds pending live b) : b.Aligned := h.tiling.aligned b hb

theorem level_le (h : Inv top range v pending live released exempt)
    (hb : v.Holds pending live b) : b.level ≤ top := h.tiling.level_le b hb

theorem within (h : Inv top range v pending live released exempt)
    (hb : v.Holds pending live b) : b.pages ⊆ range := h.tiling.within b hb

theorem subset_released (h : Inv top range v pending live released exempt)
    (hb : v.Holds pending live b) : b.pages ⊆ released := h.tiling.subset_released hb

theorem index_ne (h : Inv top range v pending live released exempt)
    (hb : v.Holds pending live b) (hc : v.Holds pending live c) (hne : b ≠ c) :
    b.index ≠ c.index := h.tiling.index_ne hb hc hne

/-- The state in which nothing has been released. -/
theorem empty {v : View} (hfree : ∀ l, v.free l = []) (htag : ∀ p, v.tag p = ⟨false, 0⟩) :
    Inv top range v [] [] ∅ ∅ := by
  have hno : ∀ b, ¬ v.IsFree b := fun b hb => by simp [View.IsFree, hfree] at hb
  have hblocks : {b | v.Holds [] [] b} = ∅ := by
    ext b
    simp [View.Holds, hno b]
  refine ⟨?_, List.nodup_nil, fun b _ => hno b, ?_, fun b hb => absurd hb (hno b),
    fun b hb => absurd hb List.not_mem_nil, ?_, fun p _ => htag p,
    fun b hb => absurd hb (hno b)⟩
  · intro l
    rw [hfree l]
    exact List.nodup_nil
  · rw [hblocks]
    exact Tiling.empty
  · intro p _ hp
    simp [htag] at hp

/-! ## What the merge test proves -/

/-- A page tagged free at the level of a block's buddy really starts a free
block, provided the block itself is not in the free lists. -/
theorem buddy_free_of_tag (h : Inv top range v pending live released exempt)
    (hb : b ∈ pending ∨ b ∈ live) (hexempt : b.buddy.index ∉ exempt)
    (hfree : (v.tag b.buddy.index).isFree = true)
    (hlevel : (v.tag b.buddy.index).level = b.level) : v.IsFree b.buddy := by
  have hholds : v.Holds pending live b := .inr hb
  have haligned := h.aligned hholds
  rcases h.trust b.buddy.index hexempt hfree with hreal | ⟨_, c, hc, hlt, hmem⟩
  · rw [hlevel] at hreal
    exact hreal
  · -- a stale tag would put the whole parent inside a larger block
    exfalso
    rw [hlevel] at hlt
    have hsub := Block.parent_subset (b := b.buddy) (Block.buddy_aligned haligned)
      (h.aligned hc) hlt b.buddy.index_mem hmem
    rw [Block.parent_buddy] at hsub
    have heq := h.eq_of_mem hholds hc b.index_mem
      (hsub (Block.subset_parent haligned b.index_mem))
    rw [heq] at hlt
    exact Nat.lt_irrefl _ hlt

/-! ## Moves -/

/-- Trusting fewer pages weakens the invariant. -/
theorem mono_exempt {exempt' : Set Nat} (h : Inv top range v pending live released exempt)
    (hsub : exempt ⊆ exempt') : Inv top range v pending live released exempt' :=
  { h with trust := fun p hp => h.trust p fun hmem => hp (hsub hmem) }

/-- Stale tags survive every move after which each old block lies inside a known
block at least as large. -/
theorem stale_mono {v v' : View} {pending' live' : List Block} {p m : Nat}
    (hlarger : ∀ c, v.Holds pending live c → m < c.level → p ∈ c.pages →
      ∃ d, v'.Holds pending' live' d ∧ m < d.level ∧ p ∈ d.pages)
    (h : v.Stale pending live p m) : v'.Stale pending' live' p m := by
  obtain ⟨haligned, c, hc, hlt, hp⟩ := h
  exact ⟨haligned, hlarger c hc hlt hp⟩

/-- Unreleased pages enter as a pending block. -/
theorem release (h : Inv top range v [] live released ∅) (hlevel : b.level ≤ top)
    (haligned : b.Aligned) (hwithin : b.pages ⊆ range) (hnew : Disjoint b.pages released) :
    Inv top range v [b] live (released ∪ b.pages) ∅ := by
  have hunknown : ¬ v.Holds [] live b := fun hb =>
    Set.disjoint_left.mp hnew b.index_mem (h.subset_released hb b.index_mem)
  simp only [View.Holds, List.not_mem_nil, false_or, not_or] at hunknown
  have hblocks : {c | v.Holds [b] live c} = insert b {c | v.Holds [] live c} := by
    ext c
    simp only [View.Holds, Set.mem_ofPred_eq, Set.mem_insert_iff, List.mem_singleton,
      List.not_mem_nil, false_or]
    exact or_left_comm
  refine ⟨h.nodup, ?_, ?_, ?_, h.freeTag, h.liveTag, ?_, ?_, h.coalesced⟩
  · exact List.nodup_cons.mpr ⟨hunknown.2, h.ownedNodup⟩
  · rintro c (hc | hc)
    · rw [List.mem_singleton.mp hc]
      exact hunknown.1
    · exact h.owned_not_free c (.inr hc)
  · rw [hblocks]
    exact h.tiling.release hlevel haligned hwithin hnew
  · intro p hp hfree
    refine (h.trust p hp hfree).imp_right (stale_mono fun c hc hlt hpc => ⟨c, ?_, hlt, hpc⟩)
    exact hc.imp_right (Or.imp_left fun hnil => absurd hnil List.not_mem_nil)
  · intro p hp
    exact h.fresh p fun hr => hp (.inl hr)

/-- A live block handed back becomes pending. -/
theorem handBack (h : Inv top range v [] live released ∅) (hb : b ∈ live) :
    Inv top range v [b] (live.erase b) released ∅ := by
  have hnd : live.Nodup := h.ownedNodup
  have hmem : ∀ c, c ∈ [b] ∨ c ∈ live.erase b ↔ c ∈ [] ∨ c ∈ live := by
    intro c
    rw [List.mem_singleton, hnd.mem_erase_iff]
    by_cases hc : c = b <;> simp [hc, hb]
  have hholds : ∀ c, v.Holds [b] (live.erase b) c ↔ v.Holds [] live c := fun c =>
    or_congr_right (hmem c)
  refine ⟨h.nodup, ?_, ?_, ?_, h.freeTag, ?_, ?_, h.fresh, h.coalesced⟩
  · exact (List.perm_cons_erase hb).nodup_iff.mp hnd
  · exact fun c hc => h.owned_not_free c ((hmem c).mp hc)
  · simpa only [hholds] using h.tiling
  · exact fun c hc => h.liveTag c (List.mem_of_mem_erase hc)
  · intro p hp hfree
    exact (h.trust p hp hfree).imp_right
      (stale_mono fun c hc hlt hpc => ⟨c, (hholds c).mpr hc, hlt, hpc⟩)

/-- The known blocks once the pending block has absorbed its free buddy. -/
theorem holds_merge (h : Inv top range v [b] live released exempt) (hbuddy : v.IsFree b.buddy) :
    {c | (v.remove b.buddy).Holds [b.parent] live c} =
      Insert.insert b.parent ({c | v.Holds [b] live c} \ {b, b.buddy}) := by
  have hblive : b ∉ live := (List.nodup_cons.mp h.ownedNodup).1
  have hbuddylive : b.buddy ∉ live := fun hl => h.owned_not_free _ (.inr hl) hbuddy
  have hbfree : ¬ v.IsFree b := h.owned_not_free b (.inl (List.mem_singleton.mpr rfl))
  ext c
  simp only [View.Holds, View.remove_isFree (h.nodup _), Set.mem_ofPred_eq, Set.mem_insert_iff,
    Set.mem_sdiff, Set.mem_singleton_iff, List.mem_singleton, not_or]
  constructor
  · rintro (⟨hc, hne⟩ | rfl | hc)
    · exact .inr ⟨.inl hc, fun heq => hbfree (heq ▸ hc), hne⟩
    · exact .inl rfl
    · exact .inr ⟨.inr (.inr hc), fun heq => hblive (heq ▸ hc), fun heq => hbuddylive (heq ▸ hc)⟩
  · rintro (rfl | ⟨hc | hc | hc, hne, hneb⟩)
    · exact .inr (.inl rfl)
    · exact .inl ⟨hc, hneb⟩
    · exact absurd hc hne
    · exact .inr (.inr hc)

/-- The pending block absorbs its free buddy. -/
theorem merge (h : Inv top range v [b] live released ∅) (hlevel : b.level < top)
    (hbuddy : v.IsFree b.buddy) :
    Inv top range (v.remove b.buddy) [b.parent] live released ∅ := by
  have hb : v.Holds [b] live b := .inr (.inl (List.mem_singleton.mpr rfl))
  have haligned := h.aligned hb
  have hsub := Block.subset_parent haligned
  have hbsub := Block.buddy_subset_parent haligned
  have hfree : ∀ c, (v.remove b.buddy).IsFree c ↔ v.IsFree c ∧ c ≠ b.buddy := fun c =>
    View.remove_isFree (h.nodup _)
  -- no known block is the parent: it would swallow the pending block
  have hparent : ¬ v.Holds [b] live b.parent := by
    intro hp
    have heq := h.eq_of_mem hp hb (hsub b.index_mem) b.index_mem
    have hlev := congrArg Block.level heq
    rw [Block.parent_level] at hlev
    exact Nat.succ_ne_self _ hlev
  have hblocks := h.holds_merge hbuddy
  have htiling : Tiling top range {c | (v.remove b.buddy).Holds [b.parent] live c} released := by
    rw [hblocks]
    exact h.tiling.join hb (.inl hbuddy) hlevel
  -- a block of the old state survives or lies inside the parent
  have hlarger : ∀ c, v.Holds [b] live c → (v.remove b.buddy).Holds [b.parent] live c ∨
      (c.level = b.level ∧ c.pages ⊆ b.parent.pages) := by
    intro c hc
    by_cases hcb : c = b ∨ c = b.buddy
    · right
      rcases hcb with rfl | rfl
      · exact ⟨rfl, hsub⟩
      · exact ⟨rfl, hbsub⟩
    · left
      have hmem : c ∈ {c | (v.remove b.buddy).Holds [b.parent] live c} := by
        rw [hblocks]
        exact .inr ⟨hc, hcb⟩
      exact hmem
  have hholdsParent : (v.remove b.buddy).Holds [b.parent] live b.parent :=
    .inr (.inl (List.mem_singleton.mpr rfl))
  refine ⟨View.remove_nodup h.nodup, ?_, ?_, htiling, ?_, h.liveTag, ?_, h.fresh, ?_⟩
  · refine List.nodup_cons.mpr ⟨fun hl => hparent (.inr (.inr hl)), ?_⟩
    exact (List.nodup_cons.mp h.ownedNodup).2
  · rintro c (hc | hc) hcfree
    · rw [List.mem_singleton.mp hc, hfree] at hcfree
      exact hparent (.inl hcfree.1)
    · exact h.owned_not_free c (.inr hc) ((hfree c).mp hcfree).1
  · exact fun c hc => h.freeTag c ((hfree c).mp hc).1
  · intro p hp htag
    rcases h.trust p hp htag with hreal | hstale
    · by_cases heq : (⟨p, (v.tag p).level⟩ : Block) = b.buddy
      · -- the absorbed buddy keeps its tag, which is stale from now on
        right
        have hlev : (v.tag p).level = b.level := congrArg Block.level heq
        have hindex : p = b.buddy.index := congrArg Block.index heq
        refine ⟨?_, b.parent, hholdsParent, ?_, ?_⟩
        · rw [View.remove_tag, heq]
          exact Block.buddy_aligned haligned
        · rw [View.remove_tag, hlev]
          exact Nat.lt_succ_self _
        · rw [hindex]
          exact hbsub b.buddy.index_mem
      · exact .inl ((hfree _).mpr ⟨hreal, heq⟩)
    · right
      refine stale_mono (fun c hc hlt hpc => ?_) hstale
      rcases hlarger c hc with hc' | ⟨hlev, hsubc⟩
      · exact ⟨c, hc', hlt, hpc⟩
      · exact ⟨b.parent, hholdsParent, Nat.lt_succ_of_lt (hlev ▸ hlt), hsubc hpc⟩
  · exact fun c hc hlt hcb => h.coalesced c ((hfree c).mp hc).1 hlt ((hfree _).mp hcb).1

/-- The pending block enters its free list. Its buddy must not be free, unless
the block has the top level and cannot be merged. -/
theorem insert {rest : List Block}
    (h : Inv top range v (b :: rest) live released (Insert.insert b.index exempt))
    (hbuddy : b.level < top → ¬ v.IsFree b.buddy) :
    Inv top range (v.insert b) rest live released exempt := by
  have hb : v.Holds (b :: rest) live b := .inr (.inl List.mem_cons_self)
  have hbfree : ¬ v.IsFree b := h.owned_not_free b (.inl List.mem_cons_self)
  have hnd := List.nodup_cons.mp h.ownedNodup
  have hholds : ∀ c, (v.insert b).Holds rest live c ↔ v.Holds (b :: rest) live c := by
    intro c
    simp only [View.Holds, View.insert_isFree, List.mem_cons]
    tauto
  have hne : ∀ c, v.Holds (b :: rest) live c → c ≠ b → (v.insert b).tag c.index = v.tag c.index :=
    fun c hc hcb => View.insert_tag_ne (h.index_ne hc hb hcb)
  refine ⟨View.insert_nodup h.nodup hbfree, hnd.2, ?_, ?_, ?_, ?_, ?_, ?_, ?_⟩
  · intro c hc hcfree
    rw [View.insert_isFree] at hcfree
    rcases hcfree with rfl | hcfree
    · exact hnd.1 (List.mem_append.mpr hc)
    · exact h.owned_not_free c (hc.imp_left (List.mem_cons_of_mem b)) hcfree
  · simpa only [hholds] using h.tiling
  · intro c hc
    rw [View.insert_isFree] at hc
    rcases hc with rfl | hc
    · exact View.insert_tag_self v c
    · rw [hne c (.inl hc) fun heq => hbfree (heq ▸ hc)]
      exact h.freeTag c hc
  · intro c hc
    have hcb : c ≠ b := fun heq => hnd.1 (List.mem_append_right rest (heq ▸ hc))
    rw [hne c (.inr (.inr hc)) hcb]
    exact h.liveTag c hc
  · intro p hp htag
    by_cases hpb : p = b.index
    · left
      subst hpb
      rw [View.insert_tag_self, View.insert_isFree]
      exact .inl rfl
    · rw [View.insert_tag_ne hpb] at htag ⊢
      have hp' : p ∉ Insert.insert b.index exempt := by
        simp only [Set.mem_insert_iff, not_or]
        exact ⟨hpb, hp⟩
      refine (h.trust p hp' htag).imp (fun hf => View.insert_isFree.mpr (.inr hf)) ?_
      exact stale_mono fun c hc hlt hpc => ⟨c, (hholds c).mpr hc, hlt, hpc⟩
  · intro p hp
    have hpb : p ≠ b.index := by
      rintro rfl
      exact hp (h.subset_released hb b.index_mem)
    rw [View.insert_tag_ne hpb]
    exact h.fresh p hp
  · intro c hc hlt hcb
    rw [View.insert_isFree] at hc hcb
    rcases hc with rfl | hc
    · exact hcb.elim (fun heq => Block.buddy_ne c heq) (hbuddy hlt)
    · rcases hcb with heq | hcb
      · have hcbuddy : c = b.buddy := by rw [← heq, Block.buddy_buddy]
        have hlev : c.level = b.level := (Block.buddy_level c).symm.trans (congrArg Block.level heq)
        exact hbuddy (hlev ▸ hlt) (hcbuddy ▸ hc)
      · exact h.coalesced c hc hlt hcb

/-- A free block is taken out of its list. Its first page keeps the free tag
until the operation rewrites it. -/
theorem take (h : Inv top range v [] live released ∅) (hb : v.IsFree b) :
    Inv top range (v.remove b) [b] live released {b.index} := by
  have hfree : ∀ c, (v.remove b).IsFree c ↔ v.IsFree c ∧ c ≠ b := fun c =>
    View.remove_isFree (h.nodup _)
  have hblive : b ∉ live := fun hl => h.owned_not_free b (.inr hl) hb
  have hholds : ∀ c, (v.remove b).Holds [b] live c ↔ v.Holds [] live c := by
    intro c
    simp only [View.Holds, hfree, List.mem_singleton, List.not_mem_nil, false_or]
    by_cases hc : c = b <;> simp [hc, hb]
  refine ⟨View.remove_nodup h.nodup, ?_, ?_, ?_, ?_, h.liveTag, ?_, h.fresh, ?_⟩
  · exact List.nodup_cons.mpr ⟨hblive, h.ownedNodup⟩
  · rintro c (hc | hc) hcfree
    · exact ((hfree c).mp hcfree).2 (List.mem_singleton.mp hc)
    · exact h.owned_not_free c (.inr hc) ((hfree c).mp hcfree).1
  · simpa only [hholds] using h.tiling
  · exact fun c hc => h.freeTag c ((hfree c).mp hc).1
  · intro p hp htag
    rcases h.trust p (Set.notMem_empty p) htag with hreal | hstale
    · refine .inl ((hfree _).mpr ⟨hreal, fun heq => hp ?_⟩)
      exact congrArg Block.index heq
    · exact .inr (stale_mono (fun c hc hlt hpc => ⟨c, (hholds c).mpr hc, hlt, hpc⟩) hstale)
  · exact fun c hc hlt hcb => h.coalesced c ((hfree c).mp hc).1 hlt ((hfree _).mp hcb).1

/-- A half of the pending block is no known block, since it lies inside that block. -/
theorem not_holds_half {i l : Nat} (h : Inv top range v [⟨i, l + 1⟩] live released exempt)
    (hc : c = ⟨i, l⟩ ∨ c = ⟨i ^^^ 2 ^ l, l⟩) : ¬ v.Holds [⟨i, l + 1⟩] live c := by
  intro hholds
  have hbig : v.Holds [⟨i, l + 1⟩] live ⟨i, l + 1⟩ := .inr (.inl (List.mem_singleton.mpr rfl))
  have hlow : Block.Aligned ⟨i, l⟩ := Block.aligned_lower (h.aligned hbig) (Nat.le_succ l)
  have hsub : c.pages ⊆ Block.pages ⟨i, l + 1⟩ := by
    rw [← Block.parent_of_aligned_succ (h.aligned hbig)]
    rcases hc with rfl | rfl
    · exact Block.subset_parent hlow
    · exact Block.buddy_subset_parent hlow
  have heq := h.eq_of_mem hholds hbig c.index_mem (hsub c.index_mem)
  have hlev : c.level = l := by
    rcases hc with rfl | rfl <;> rfl
  rw [heq] at hlev
  exact Nat.succ_ne_self l hlev

/-- The known blocks once the pending block has been halved. -/
theorem holds_halve {i l : Nat} (h : Inv top range v [⟨i, l + 1⟩] live released exempt) :
    {c | v.Holds [⟨i ^^^ 2 ^ l, l⟩, ⟨i, l⟩] live c} =
      Insert.insert ⟨i, l⟩ (Insert.insert (Block.buddy ⟨i, l⟩)
        ({c | v.Holds [⟨i, l + 1⟩] live c} \ {⟨i, l + 1⟩})) := by
  have hbigfree : ¬ v.IsFree ⟨i, l + 1⟩ := h.owned_not_free _ (.inl (List.mem_singleton.mpr rfl))
  have hbiglive : (⟨i, l + 1⟩ : Block) ∉ live := (List.nodup_cons.mp h.ownedNodup).1
  ext c
  simp only [View.Holds, Set.mem_ofPred_eq, Set.mem_insert_iff, Set.mem_sdiff,
    Set.mem_singleton_iff, List.mem_cons, List.not_mem_nil, or_false]
  change _ ↔ c = ⟨i, l⟩ ∨ c = ⟨i ^^^ 2 ^ l, l⟩ ∨ _
  constructor
  · rintro (hc | (hc | hc) | hc)
    · exact .inr (.inr ⟨.inl hc, fun heq => hbigfree (heq ▸ hc)⟩)
    · exact .inr (.inl hc)
    · exact .inl hc
    · exact .inr (.inr ⟨.inr (.inr hc), fun heq => hbiglive (heq ▸ hc)⟩)
  · rintro (hc | hc | ⟨hc | hc | hc, hne⟩)
    · exact .inr (.inl (.inr hc))
    · exact .inr (.inl (.inl hc))
    · exact .inl hc
    · exact absurd hc hne
    · exact .inr (.inr hc)

/-- A pending block splits. The right half still has to be tagged, so its first
page is not trusted yet. -/
theorem halve {i l : Nat}
    (h : Inv top range v [⟨i, l + 1⟩] live released {i}) :
    Inv top range v [⟨i ^^^ 2 ^ l, l⟩, ⟨i, l⟩] live released {i ^^^ 2 ^ l, i} := by
  have hbig : v.Holds [⟨i, l + 1⟩] live ⟨i, l + 1⟩ := .inr (.inl (List.mem_singleton.mpr rfl))
  have hparent := Block.parent_of_aligned_succ (h.aligned hbig)
  have hlow : Block.Aligned ⟨i, l⟩ := Block.aligned_lower (h.aligned hbig) (Nat.le_succ l)
  have hblocks := h.holds_halve
  have htiling : Tiling top range {c | v.Holds [⟨i ^^^ 2 ^ l, l⟩, ⟨i, l⟩] live c} released := by
    have hhalves := h.tiling.halve hlow (by rw [hparent]; exact hbig)
    rw [hparent] at hhalves
    rw [hblocks]
    exact hhalves
  have hne : (⟨i ^^^ 2 ^ l, l⟩ : Block) ≠ ⟨i, l⟩ := Block.buddy_ne ⟨i, l⟩
  refine ⟨h.nodup, ?_, ?_, htiling, h.freeTag, h.liveTag, ?_, h.fresh, h.coalesced⟩
  · refine List.nodup_cons.mpr ⟨?_, List.nodup_cons.mpr ⟨?_, (List.nodup_cons.mp h.ownedNodup).2⟩⟩
    · intro hmem
      rcases List.mem_cons.mp hmem with heq | hl
      · exact hne heq
      · exact h.not_holds_half (.inr rfl) (.inr (.inr hl))
    · exact fun hl => h.not_holds_half (.inl rfl) (.inr (.inr hl))
  · intro c hc hcfree
    rcases hc with hc | hc
    · simp only [List.mem_cons, List.not_mem_nil, or_false] at hc
      exact h.not_holds_half hc.symm (.inl hcfree)
    · exact h.owned_not_free c (.inr hc) hcfree
  · intro p hp htag
    simp only [Set.mem_insert_iff, Set.mem_singleton_iff, not_or] at hp
    refine (h.trust p hp.2 htag).imp_right ?_
    rintro ⟨haligned, c, hc, hlt, hpc⟩
    refine ⟨haligned, ?_⟩
    by_cases hcbig : c = ⟨i, l + 1⟩
    · subst hcbig
      have hhalves : p ∈ Block.pages ⟨i, l⟩ ∨ p ∈ Block.pages ⟨i ^^^ 2 ^ l, l⟩ := by
        rw [← hparent, Block.parent_pages hlow] at hpc
        exact hpc
      -- a stale tag of level `l` would belong to the first page of a half
      have hlt' : (v.tag p).level < l := by
        refine lt_of_le_of_ne (Nat.le_of_lt_succ hlt) fun hlev => ?_
        rw [hlev] at haligned
        rcases hhalves with hpl | hpr
        · exact hp.2 (congrArg Block.index
            (haligned.eq_of_level_eq hlow rfl (Block.index_mem ⟨p, l⟩) hpl))
        · exact hp.1 (congrArg Block.index
            (haligned.eq_of_level_eq (Block.buddy_aligned hlow) rfl (Block.index_mem ⟨p, l⟩) hpr))
      rcases hhalves with hpl | hpr
      · exact ⟨⟨i, l⟩, .inr (.inl (by simp)), hlt', hpl⟩
      · exact ⟨⟨i ^^^ 2 ^ l, l⟩, .inr (.inl (by simp)), hlt', hpr⟩
    · have hmem : c ∈ {c | v.Holds [⟨i ^^^ 2 ^ l, l⟩, ⟨i, l⟩] live c} := by
        rw [hblocks]
        exact .inr (.inr ⟨hc, hcbig⟩)
      exact ⟨c, hmem, hlt, hpc⟩

/-- One round of splitting: the right half goes to its free list. Its buddy is
the pending left half and hence not free. -/
theorem split {i l : Nat} (h : Inv top range v [⟨i, l + 1⟩] live released {i}) :
    Inv top range (v.insert ⟨i ^^^ 2 ^ l, l⟩) [⟨i, l⟩] live released {i} := by
  refine h.halve.insert fun _ hfree => ?_
  have hbuddy : Block.buddy ⟨i ^^^ 2 ^ l, l⟩ = ⟨i, l⟩ := Block.buddy_buddy ⟨i, l⟩
  rw [hbuddy] at hfree
  exact h.halve.owned_not_free _ (.inl (by simp)) hfree

/-- Rewriting the tag of the first page of a pending block, with the free flag
cleared, makes the page trusted again. -/
theorem retag {rest : List Block} (k : Nat)
    (h : Inv top range v (b :: rest) live released (Insert.insert b.index exempt)) :
    Inv top range (v.retag b.index ⟨false, k⟩) (b :: rest) live released exempt := by
  have hb : v.Holds (b :: rest) live b := .inr (.inl List.mem_cons_self)
  have hbfree : ¬ v.IsFree b := h.owned_not_free b (.inl List.mem_cons_self)
  have hnd := List.nodup_cons.mp h.ownedNodup
  have hne : ∀ c, v.Holds (b :: rest) live c → c ≠ b →
      (v.retag b.index ⟨false, k⟩).tag c.index = v.tag c.index :=
    fun c hc hcb => View.retag_tag_ne (h.index_ne hc hb hcb)
  refine ⟨h.nodup, h.ownedNodup, h.owned_not_free, h.tiling, ?_, ?_, ?_, ?_, h.coalesced⟩
  · intro c hc
    rw [hne c (.inl hc) fun heq => hbfree (heq ▸ hc)]
    exact h.freeTag c hc
  · intro c hc
    rw [hne c (.inr (.inr hc)) fun heq => hnd.1 (List.mem_append_right rest (heq ▸ hc))]
    exact h.liveTag c hc
  · intro p hp htag
    by_cases hpb : p = b.index
    · subst hpb
      simp at htag
    · rw [View.retag_tag_ne hpb] at htag ⊢
      refine h.trust p ?_ htag
      simp only [Set.mem_insert_iff, not_or]
      exact ⟨hpb, hp⟩
  · intro p hp
    have hpb : p ≠ b.index := by
      rintro rfl
      exact hp (h.subset_released hb b.index_mem)
    rw [View.retag_tag_ne hpb]
    exact h.fresh p hp

/-- A pending block whose first page carries its level is handed to the client. -/
theorem handOut (h : Inv top range v [b] live released exempt)
    (htag : (v.tag b.index).level = b.level) :
    Inv top range v [] (b :: live) released exempt := by
  have hmem : ∀ c, c ∈ [] ∨ c ∈ b :: live ↔ c ∈ [b] ∨ c ∈ live := by
    simp
  have hholds : ∀ c, v.Holds [] (b :: live) c ↔ v.Holds [b] live c := fun c =>
    or_congr_right (hmem c)
  refine ⟨h.nodup, h.ownedNodup, fun c hc => h.owned_not_free c ((hmem c).mp hc), ?_,
    h.freeTag, ?_, ?_, h.fresh, h.coalesced⟩
  · simpa only [hholds] using h.tiling
  · intro c hc
    rcases List.mem_cons.mp hc with rfl | hc
    · exact htag
    · exact h.liveTag c hc
  · intro p hp hfree
    exact (h.trust p hp hfree).imp_right
      (stale_mono fun c hc hlt hpc => ⟨c, (hholds c).mpr hc, hlt, hpc⟩)

end Inv

end Buddy
