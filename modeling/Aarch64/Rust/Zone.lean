import Aarch64.Rust.Buddy.Run
import Aarch64.Rust.Numeric
import Mathlib.Data.List.Perm.Basic

/-!
# Zones of the Rust kernel

`Zone` of `kernel/memory/src/lib.rs` is a `BuddySystem` behind a lock together
with its page range. `free_page_range` seeds a run of pages with the largest
aligned blocks that fit, read off the lowest set bit of the index and the highest
set bit of the length. The lock is a placeholder in the source and is left out.
-/

namespace Aarch64.Rust

open Dyadic (Block)
open Buddy (Inv View IsMaximal)

structure Zone where
  freelist : BuddySystem
  space : Range

namespace Zone

def new (pages : Slice Page) (offset : Nat) : Zone :=
  ⟨BuddySystem.new pages offset, ⟨offset, Word64.add offset pages.len⟩⟩

def allocatePages (z : Zone) (order : Nat) : Option (Option Nat × Zone) :=
  (z.freelist.allocatePages order).map fun (index, s) => (index, { z with freelist := s })

def freePages (z : Zone) (page : Nat) : Option Zone :=
  (z.freelist.freePages page).map fun s => { z with freelist := s }

def freePagesAtLevel (z : Zone) (page level : Nat) : Option Zone :=
  (z.freelist.freePagesAtLevel page level).map fun s => { z with freelist := s }

/-- The order of the block that `free_page_range` frees at `index`. -/
def rangeOrder (index stop : Nat) : Option Nat := do
  let log ← Numeric.ilog2 (Word64.sub stop index)
  return min (LEVELS - 1) (min log (Numeric.lsb index - 1))

/-- The loop of `free_page_range`. A round that still has to run without fuel
left stands for a loop that does not end. -/
def freePageRangeLoop (fuel : Nat) (z : Zone) (index stop : Nat) : Option Zone :=
  if index < stop then
    match fuel with
    | 0 => none
    | fuel + 1 => do
        let order ← rangeOrder index stop
        let z ← z.freePagesAtLevel index order
        freePageRangeLoop fuel z (Word64.add index (1 <<< order)) stop
  else some z

def freePageRange (z : Zone) (range : Range) : Option Zone :=
  freePageRangeLoop (range.stop - range.start) z range.start range.stop

def pageRange (z : Zone) : Range := z.space

def contains (z : Zone) (page : Nat) : Bool := z.space.contains page

/-! ## The decomposition of a page range -/

/-- The chosen block is aligned and ends inside the range. -/
theorem rangeOrder_spec {index stop : Nat} (hlt : index < stop) (hstop : stop < 2 ^ 64) :
    ∃ order, rangeOrder index stop = some order ∧ order < LEVELS ∧
      Block.Aligned ⟨index, order⟩ ∧ index + 2 ^ order ≤ stop := by
  have hsub : Word64.sub stop index = stop - index := Word64.sub_of_le hlt.le hstop
  obtain ⟨k, hk, hle, _⟩ := Numeric.ilog2_spec (x := stop - index) (by omega) (by omega)
  refine ⟨_, by rw [rangeOrder, hsub, hk]; rfl, ?_, ?_, ?_⟩
  · exact Nat.lt_succ_of_le (Nat.min_le_left _ _)
  · -- an index of zero is aligned to everything
    rcases Nat.eq_zero_or_pos index with rfl | hpos
    · exact Nat.dvd_zero _
    · obtain ⟨m, hm, hdvd, _⟩ := Numeric.lsb_spec hpos (by omega)
      refine (Nat.pow_dvd_pow 2 ?_).trans hdvd
      rw [hm, Nat.add_sub_cancel]
      exact (Nat.min_le_right _ _).trans (Nat.min_le_right _ _)
  · have hpow : 2 ^ min (LEVELS - 1) (min k (Numeric.lsb index - 1)) ≤ 2 ^ k :=
      Nat.pow_le_pow_right (by decide) ((Nat.min_le_right _ _).trans (Nat.min_le_left _ _))
    omega

variable {live : List Block} {released : Set Nat}

/-- Freeing a range of unreleased pages releases exactly this range, whatever
blocks it is cut into. The induction is on the pages left. -/
theorem freePageRangeLoop_spec {stop : Nat} (hstop : stop < 2 ^ 64) : ∀ fuel (z : Zone) index
    (released : Set Nat), stop - index ≤ fuel → z.freelist.Holding [] live released ∅ →
    Set.Ico index stop ⊆ z.freelist.indices → Disjoint (Set.Ico index stop) released →
    ∃ t : Zone, freePageRangeLoop fuel z index stop = some t ∧ t.space = z.space ∧
      z.freelist.SameZone t.freelist ∧
      t.freelist.Holding [] live (released ∪ Set.Ico index stop) ∅ := by
  intro fuel
  induction fuel with
  | zero =>
      intro z index released hfuel h _ _
      refine ⟨z, ?_, rfl, BuddySystem.SameZone.refl _, ?_⟩
      · rw [freePageRangeLoop, if_neg (by omega)]
      · rw [Set.Ico_eq_empty (by omega), Set.union_empty]
        exact h
  | succ fuel ih =>
      intro z index released hfuel h hwithin hnew
      rw [freePageRangeLoop]
      by_cases hlt : index < stop
      · obtain ⟨order, horder, hlevel, haligned, hfits⟩ := rangeOrder_spec hlt hstop
        have hpos := Nat.two_pow_pos order
        have hsplit : Set.Ico index stop =
            Block.pages ⟨index, order⟩ ∪ Set.Ico (index + 2 ^ order) stop := by
          ext p
          simp only [Set.mem_Ico, Set.mem_union, Block.mem_pages]
          omega
        have hadd : Word64.add index (1 <<< order) = index + 2 ^ order := by
          rw [Nat.one_shiftLeft]
          exact Word64.add_of_lt (by omega)
        rw [hsplit] at hwithin hnew
        obtain ⟨t, ht, hzone, hholding⟩ := BuddySystem.seed_spec h hlevel haligned
          (Set.subset_union_left.trans hwithin) (hnew.mono_left Set.subset_union_left)
        obtain ⟨u, hu, hspace, hzone', hholding'⟩ := ih ⟨t, z.space⟩ (index + 2 ^ order) _
          (by omega) hholding
          (by
            rw [hzone.indices_eq]
            exact Set.subset_union_right.trans hwithin)
          (by
            refine Set.disjoint_union_right.mpr ⟨hnew.mono_left Set.subset_union_right, ?_⟩
            rw [Set.disjoint_left]
            intro p hp hp'
            exact Nat.not_lt_of_le hp.1 hp'.2)
        refine ⟨u, ?_, hspace, hzone.trans hzone', ?_⟩
        · rw [if_pos hlt, horder]
          simp only [Option.bind_eq_bind, Option.bind_some, freePagesAtLevel, ht,
            Option.map_some, hadd]
          exact hu
        · rw [hsplit, ← Set.union_assoc]
          exact hholding'
      · refine ⟨z, by rw [if_neg hlt], rfl, BuddySystem.SameZone.refl _, ?_⟩
        rw [Set.Ico_eq_empty (by omega), Set.union_empty]
        exact h

theorem freePageRange_spec {z : Zone} (range : Range) (h : z.freelist.Holding [] live released ∅)
    (hwithin : Set.Ico range.start range.stop ⊆ z.freelist.indices)
    (hnew : Disjoint (Set.Ico range.start range.stop) released) :
    ∃ t : Zone, z.freePageRange range = some t ∧ t.space = z.space ∧
      z.freelist.SameZone t.freelist ∧
      t.freelist.Holding [] live (released ∪ Set.Ico range.start range.stop) ∅ := by
  rcases Nat.lt_or_ge range.start range.stop with hlt | hge
  · have hlast : range.stop - 1 ∈ z.freelist.indices := hwithin ⟨by omega, by omega⟩
    have hword := Word64.add_lt z.freelist.offset z.freelist.pages.len
    have hstop : range.stop - 1 < Word64.add z.freelist.offset z.freelist.pages.len := hlast.2
    exact freePageRangeLoop_spec (by omega) _ z _ released (Nat.le_refl _) h hwithin hnew
  · refine ⟨z, ?_, rfl, BuddySystem.SameZone.refl _, ?_⟩
    · rw [freePageRange, freePageRangeLoop.eq_def, if_neg (Nat.not_lt_of_le hge)]
    · rw [Set.Ico_eq_empty (Nat.not_lt_of_le hge), Set.union_empty]
      exact h

/-- The blocks that `free_page_range` frees, in the order of the calls. -/
def rangeBlocks : Nat → Nat → Nat → List Block
  | 0, _, _ => []
  | fuel + 1, index, stop =>
      if index < stop then
        match rangeOrder index stop with
        | none => []
        | some order => ⟨index, order⟩ :: rangeBlocks fuel (Word64.add index (1 <<< order)) stop
      else []

/-- Free the listed blocks in the order of the list. -/
def freeBlocks (z : Zone) (blocks : List Block) : Option Zone :=
  blocks.foldlM (fun z b => z.freePagesAtLevel b.index b.level) z

@[simp] theorem freeBlocks_append (z : Zone) (bs cs : List Block) :
    z.freeBlocks (bs ++ cs) = (z.freeBlocks bs).bind fun z => z.freeBlocks cs :=
  List.foldlM_append

/-- The calls that `free_page_range` makes free disjoint blocks that make up the
range. -/
theorem rangeBlocks_spec {stop : Nat} (hstop : stop < 2 ^ 64) : ∀ fuel index (z : Zone),
    stop - index ≤ fuel →
    z.freeBlocks (rangeBlocks fuel index stop) = freePageRangeLoop fuel z index stop ∧
      (rangeBlocks fuel index stop).Pairwise (fun a b => Disjoint a.pages b.pages) ∧
      ∀ p, (∃ b ∈ rangeBlocks fuel index stop, p ∈ b.pages) ↔ index ≤ p ∧ p < stop := by
  intro fuel
  induction fuel with
  | zero =>
      intro index z hfuel
      refine ⟨?_, List.Pairwise.nil, fun p => ?_⟩
      · rw [freePageRangeLoop, if_neg (by omega)]
        rfl
      · simp only [rangeBlocks, List.not_mem_nil, false_and, exists_false, false_iff]
        omega
  | succ fuel ih =>
      intro index z hfuel
      rw [rangeBlocks, freePageRangeLoop]
      by_cases hlt : index < stop
      · obtain ⟨order, horder, _, _, hfits⟩ := rangeOrder_spec hlt hstop
        have hpos := Nat.two_pow_pos order
        have hadd : Word64.add index (1 <<< order) = index + 2 ^ order := by
          rw [Nat.one_shiftLeft]
          exact Word64.add_of_lt (by omega)
        have hrest := fun z => ih (index + 2 ^ order) z (by omega)
        simp only [if_pos hlt, horder, hadd, Option.bind_eq_bind, Option.bind_some]
        refine ⟨?_, List.pairwise_cons.mpr ⟨fun b hb => ?_, (hrest z).2.1⟩, fun p => ?_⟩
        · simp only [freeBlocks, List.foldlM_cons, Option.bind_eq_bind]
          exact congrArg _ (funext fun z => (hrest z).1)
        · rw [Set.disjoint_left]
          intro p hp hpb
          have := ((hrest z).2.2 p).mp ⟨b, hb, hpb⟩
          have hlast : p < index + 2 ^ order := hp.2
          omega
        · rw [List.exists_mem_cons_iff, (hrest z).2.2]
          change (index ≤ p ∧ p < index + 2 ^ order) ∨ _ ↔ _
          omega
      · simp only [if_neg hlt]
        refine ⟨rfl, List.Pairwise.nil, fun p => ?_⟩
        simp only [List.not_mem_nil, false_and, exists_false, false_iff]
        omega

/-! ## Freeing pages one at a time -/

/-- Free the listed pages at level zero, in the order of the list. -/
def freeEach (s : BuddySystem) : List Nat → Option BuddySystem
  | [] => some s
  | page :: rest => do freeEach (← s.freePagesAtLevel page 0) rest

theorem freeEach_spec : ∀ (pages : List Nat) (s : BuddySystem) (released : Set Nat),
    s.Holding [] live released ∅ → pages.Nodup → (∀ p ∈ pages, p ∈ s.indices ∧ p ∉ released) →
    ∃ t, freeEach s pages = some t ∧ s.SameZone t ∧
      t.Holding [] live (released ∪ {p | p ∈ pages}) ∅ := by
  intro pages
  induction pages with
  | nil =>
      intro s released h _ _
      exact ⟨s, rfl, BuddySystem.SameZone.refl s, by simpa using h⟩
  | cons page rest ih =>
      intro s released h hnd hpages
      obtain ⟨hnotin, hnd⟩ := List.nodup_cons.mp hnd
      obtain ⟨hmem, hnew⟩ := hpages page List.mem_cons_self
      have hsingle : Block.pages ⟨page, 0⟩ = {page} := by
        ext p
        simp only [Block.mem_pages, Nat.pow_zero, Set.mem_singleton_iff]
        omega
      obtain ⟨t, ht, hzone, hholding⟩ := BuddySystem.seed_spec h (by decide : 0 < LEVELS)
        (Nat.one_dvd _) (by rw [hsingle]; exact Set.singleton_subset_iff.mpr hmem)
        (by rw [hsingle]; exact Set.disjoint_singleton_left.mpr hnew)
      obtain ⟨u, hu, hzone', hholding'⟩ := ih t _ hholding hnd (fun p hp => by
        obtain ⟨hp', hpnew⟩ := hpages p (List.mem_cons_of_mem _ hp)
        refine ⟨by rw [hzone.indices_eq]; exact hp', ?_⟩
        rw [hsingle, Set.mem_union, Set.mem_singleton_iff, not_or]
        exact ⟨hpnew, fun heq => hnotin (heq ▸ hp)⟩)
      refine ⟨u, by simp only [freeEach, ht]; exact hu, hzone.trans hzone', ?_⟩
      have hset : {p | p ∈ page :: rest} = {page} ∪ {p | p ∈ rest} := by
        ext p
        simp
      rw [hset, ← Set.union_assoc, ← hsingle]
      exact hholding'

/-! ## Order independence -/

/-- The free blocks carry no history: they are the maximal aligned blocks of free
pages, and a run of pages may be freed in any order or as one range. -/
structure Canonical (c : BuddySystem.Config) : Prop where
  mem_freeSet : ∀ p, p ∈ c.system.view.freeSet ↔ p ∈ c.released ∧ ∀ b ∈ c.live, p ∉ b.pages
  maximal : ∀ b, c.system.view.IsFree b ↔ IsMaximal (LEVELS - 1) c.system.view.freeSet b
  coalesced : ∀ b, c.system.view.IsFree b → b.level < LEVELS - 1 → ¬ c.system.view.IsFree b.buddy
  range : ∀ (space : Range) (start stop : Nat) (order : List Nat),
    Set.Ico start stop ⊆ c.system.indices → Disjoint (Set.Ico start stop) c.released →
    order.Perm (List.range' start (stop - start)) →
    ∃ t u, freePageRange ⟨c.system, space⟩ ⟨start, stop⟩ = some t ∧
      freeEach c.system order = some u ∧ ∀ b, t.freelist.view.IsFree b ↔ u.view.IsFree b

theorem canonical_of_valid {c : BuddySystem.Config} (h : c.Valid) : Canonical c where
  mem_freeSet _ := h.mem_freeSet_iff
  maximal _ := h.isFree_iff_isMaximal
  coalesced := h.coalesced
  range space start stop order hwithin hnew hperm := by
    have hmem : ∀ p, p ∈ order ↔ p ∈ Set.Ico start stop := by
      intro p
      rw [hperm.mem_iff, List.mem_range'_1, Set.mem_Ico]
      omega
    obtain ⟨t, ht, _, _, hrange⟩ :=
      freePageRange_spec (z := ⟨c.system, space⟩) ⟨start, stop⟩ h hwithin hnew
    obtain ⟨u, hu, _, heach⟩ := freeEach_spec order c.system c.released h
      (hperm.nodup_iff.mpr List.nodup_range') fun p hp =>
        ⟨hwithin ((hmem p).mp hp), Set.disjoint_left.mp hnew ((hmem p).mp hp)⟩
    refine ⟨t, u, ht, hu, fun b => hrange.isFree_congr heach ?_⟩
    ext p
    rw [hrange.mem_freeSet_iff, heach.mem_freeSet_iff]
    have hset : {p | p ∈ order} = Set.Ico start stop := Set.ext hmem
    rw [hset]

/-- The free lists carry no history. In every reachable state the free blocks are determined by the
free pages, two buddies below the largest order are never free side by side, and a range of pages
may be freed at once or page by page in any order. So two runs that end with the same free pages
have the same free blocks, even in different zones. -/
theorem reachable_canonical {pages : Slice Page} {offset : Nat} {c : BuddySystem.Config}
    (hzero : ∀ p ∈ pages.items, p = Page.new) (hrun : BuddySystem.Reachable pages offset c) :
    Canonical c ∧ ∀ (pages' : Slice Page) (offset' : Nat) (d : BuddySystem.Config),
      (∀ p ∈ pages'.items, p = Page.new) → BuddySystem.Reachable pages' offset' d →
      c.system.view.freeSet = d.system.view.freeSet →
      ∀ b, c.system.view.IsFree b ↔ d.system.view.IsFree b := by
  obtain ⟨_, hvalid⟩ := hrun.valid hzero
  refine ⟨canonical_of_valid hvalid, fun pages' offset' d hzero' hrun' heq b => ?_⟩
  obtain ⟨_, hvalid'⟩ := hrun'.valid hzero'
  exact hvalid.isFree_congr hvalid' heq

theorem reachable_canonical_half :
    ∃ c : BuddySystem.Config, c.live = [⟨4, 1⟩] ∧ Canonical c ∧
      ∀ (pages' : Slice Page) (offset' : Nat) (d : BuddySystem.Config),
        (∀ p ∈ pages'.items, p = Page.new) → BuddySystem.Reachable pages' offset' d →
        c.system.view.freeSet = d.system.view.freeSet →
        ∀ b, c.system.view.IsFree b ↔ d.system.view.IsFree b := by
  obtain ⟨c, hrun, hlive⟩ := BuddySystem.reachable_half
  exact ⟨c, hlive, reachable_canonical (fun p hp => List.eq_of_mem_replicate hp) hrun⟩

end Zone

end Aarch64.Rust
