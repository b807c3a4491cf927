import Aarch64.Lib.Buddy.FreeLists
import Aarch64.Rust.Buddy.Refinement
import Mathlib.Logic.Relation

/-!
# Runs of the Rust buddy allocator

A configuration adds to a `BuddySystem` what its callers know: the blocks they
hold and the pages they have released so far. The four operations are those of
the kernel: seeding an aligned block, seeding one page, allocating, and freeing a
block that is held. Every allowed operation returns, and every reachable state
satisfies the allocator invariant.
-/

namespace Aarch64.Rust.BuddySystem

open Dyadic (Block)
open Buddy (Inv View IsMaximal)

variable {s : BuddySystem} {live : List Block} {released : Set Nat}

/-! ## Single calls -/

/-- A zone of zeroed pages satisfies the invariant with nothing released. -/
theorem new_holding {pages : Slice Page} (hzero : ∀ p ∈ pages.items, p = Page.new)
    (offset : Nat) : (new pages offset).Holding [] [] ∅ ∅ := by
  refine Inv.empty (fun l => ?_) (fun p => ?_)
  · simp [view, freeItems, new, PageList.new]
  · change (new pages offset).tagOf p = _
    rw [tagOf]
    split
    · split
      next q hq =>
        rw [hzero q (List.mem_of_getElem? hq)]
        rfl
      next => rfl
    · rfl

/-- Seeding an aligned block of unreleased pages. -/
theorem seed_spec {index level : Nat} (h : s.Holding [] live released ∅)
    (hlevel : level < LEVELS) (haligned : Block.Aligned ⟨index, level⟩)
    (hwithin : Block.pages ⟨index, level⟩ ⊆ s.indices)
    (hnew : Disjoint (Block.pages ⟨index, level⟩) released) :
    ∃ t, s.freePagesAtLevel index level = some t ∧ SameZone s t ∧
      t.Holding [] live (released ∪ Block.pages ⟨index, level⟩) ∅ :=
  freePagesAtLevel_spec (h.release (Nat.le_pred_of_lt hlevel) haligned hwithin hnew)

/-- `free_pages` takes the level from the state of the first page. -/
theorem freePages_eq {index : Nat} (hmem : index ∈ s.indices) :
    s.freePages index = s.freePagesAtLevel index (s.view.tag index).level := by
  obtain ⟨p, hp, htag⟩ := get_of_mem hmem
  rw [htag, freePages, hp]
  rfl

/-- The state of an unreleased page still says level zero. -/
theorem seedPage_spec {index : Nat} (h : s.Holding [] live released ∅)
    (hmem : index ∈ s.indices) (hnew : index ∉ released) :
    ∃ t, s.freePages index = some t ∧ SameZone s t ∧
      t.Holding [] live (released ∪ Block.pages ⟨index, 0⟩) ∅ := by
  have hpages : Block.pages ⟨index, 0⟩ = {index} := by
    ext p
    simp only [Block.mem_pages, Nat.pow_zero, Set.mem_singleton_iff]
    omega
  rw [freePages_eq hmem, h.fresh index hnew]
  apply seed_spec h (by decide) (Nat.one_dvd _)
  · rw [hpages]
    exact Set.singleton_subset_iff.mpr hmem
  · rw [hpages]
    exact Set.disjoint_singleton_left.mpr hnew

/-- The state of the first page of a live block still says the level of the
block, since nothing between allocation and release has written it. -/
theorem freeLive_spec {b : Block} (h : s.Holding [] live released ∅) (hb : b ∈ live) :
    ∃ t, s.freePages b.index = some t ∧ SameZone s t ∧
      t.Holding [] (live.erase b) released ∅ := by
  have hmem : b.index ∈ s.indices := h.within (.inr (.inr hb)) b.index_mem
  rw [freePages_eq hmem, h.liveTag b hb]
  exact freePagesAtLevel_spec (h.handBack hb)

/-- Allocation either finds every sufficient level empty and changes nothing, or
returns the start of a free block of the smallest sufficient level. -/
theorem allocatePages_spec (order : Nat) (h : s.Holding [] live released ∅) :
    ((∀ m, order ≤ m → m < LEVELS → s.view.free m = []) ∧
        s.allocatePages order = some (none, s)) ∨
      ∃ index m t, order ≤ m ∧ m < LEVELS ∧ s.view.IsFree ⟨index, m⟩ ∧
        (∀ k, order ≤ k → k < m → s.view.free k = []) ∧
        s.allocatePages order = some (some index, t) ∧ SameZone s t ∧
        t.Holding [] (⟨index, order⟩ :: live) released ∅ := by
  rw [allocatePages]
  rcases Nat.lt_or_ge order LEVELS with hlt | hge
  · have hsum : order + (LEVELS - order) = LEVELS := Nat.add_sub_cancel' hlt.le
    simpa only [hsum] using allocateLoop_spec h (LEVELS - order) order (Nat.le_refl _) hsum.le
  · left
    refine ⟨fun m hm hlt => by omega, ?_⟩
    rw [Nat.sub_eq_zero_of_le hge]
    rfl

/-! ## Runs -/

/-- A `BuddySystem` together with the blocks its callers hold and the pages they
have released so far. -/
structure Config where
  system : BuddySystem
  live : List Block
  released : Set Nat

inductive Op
  | seed (index level : Nat)
  | seedPage (index : Nat)
  | allocate (order : Nat)
  | free (b : Block)

/-- What the callers have to respect. Allocation is always allowed. -/
def Op.Allowed (c : Config) : Op → Prop
  | .seed index level => level < LEVELS ∧ Block.Aligned ⟨index, level⟩ ∧
      Block.pages ⟨index, level⟩ ⊆ c.system.indices ∧
      Disjoint (Block.pages ⟨index, level⟩) c.released
  | .seedPage index => index ∈ c.system.indices ∧ index ∉ c.released
  | .allocate _ => True
  | .free b => b ∈ c.live

/-- One call. It is `none` when the source panics. -/
def Op.run (c : Config) : Op → Option Config
  | .seed index level => do
      let t ← c.system.freePagesAtLevel index level
      return ⟨t, c.live, c.released ∪ Block.pages ⟨index, level⟩⟩
  | .seedPage index => do
      let t ← c.system.freePages index
      return ⟨t, c.live, c.released ∪ Block.pages ⟨index, 0⟩⟩
  | .allocate order => do
      match ← c.system.allocatePages order with
      | (none, t) => return ⟨t, c.live, c.released⟩
      | (some index, t) => return ⟨t, ⟨index, order⟩ :: c.live, c.released⟩
  | .free b => do
      let t ← c.system.freePages b.index
      return ⟨t, c.live.erase b, c.released⟩

def Step (c d : Config) : Prop := ∃ op : Op, op.Allowed c ∧ op.run c = some d

def initial (pages : Slice Page) (offset : Nat) : Config := ⟨new pages offset, [], ∅⟩

def Reachable (pages : Slice Page) (offset : Nat) (c : Config) : Prop :=
  Relation.ReflTransGen Step (initial pages offset) c

def Config.Valid (c : Config) : Prop := c.system.Holding [] c.live c.released ∅

/-- Every allowed call returns and keeps the invariant. -/
theorem Op.run_spec {c : Config} (h : c.Valid) (op : Op) (hop : op.Allowed c) :
    ∃ d, op.run c = some d ∧ SameZone c.system d.system ∧ d.Valid := by
  cases op with
  | seed index level =>
      obtain ⟨hlevel, haligned, hwithin, hnew⟩ := hop
      obtain ⟨t, ht, hzone, hholding⟩ := seed_spec h hlevel haligned hwithin hnew
      exact ⟨⟨t, c.live, _⟩, by simp [Op.run, ht], hzone, hholding⟩
  | seedPage index =>
      obtain ⟨t, ht, hzone, hholding⟩ := seedPage_spec h hop.1 hop.2
      exact ⟨⟨t, c.live, _⟩, by simp [Op.run, ht], hzone, hholding⟩
  | allocate order =>
      rcases allocatePages_spec order h with
        ⟨_, heq⟩ | ⟨index, m, t, _, _, _, _, heq, hzone, hholding⟩
      · exact ⟨c, by simp [Op.run, heq], SameZone.refl _, h⟩
      · exact ⟨⟨t, ⟨index, order⟩ :: c.live, _⟩, by simp [Op.run, heq], hzone, hholding⟩
  | free b =>
      obtain ⟨t, ht, hzone, hholding⟩ := freeLive_spec h hop
      exact ⟨⟨t, c.live.erase b, _⟩, by simp [Op.run, ht], hzone, hholding⟩

/-- The invariant holds in every reachable state. -/
theorem Reachable.valid {pages : Slice Page} {offset : Nat} {c : Config}
    (hzero : ∀ p ∈ pages.items, p = Page.new) (hrun : Reachable pages offset c) :
    SameZone (new pages offset) c.system ∧ c.Valid := by
  induction hrun with
  | refl => exact ⟨SameZone.refl _, new_holding hzero offset⟩
  | tail _ hstep ih =>
      obtain ⟨op, hop, heq⟩ := hstep
      obtain ⟨d, hd, hzone, hvalid⟩ := op.run_spec ih.2 hop
      rw [heq] at hd
      obtain rfl := Option.some.inj hd
      exact ⟨ih.1.trans hzone, hvalid⟩

/-! ## The run invariant -/

/-- The blocks of the free lists and the blocks held by callers. -/
def Config.blocks (c : Config) : List Block := c.system.view.freeBlocks (LEVELS - 1) ++ c.live

/-- The free and the live blocks tile the released pages. -/
structure Config.Tiled (range : Range) (c : Config) : Prop where
  disjoint : c.blocks.Pairwise fun a b => Disjoint a.pages b.pages
  aligned : ∀ b ∈ c.blocks, b.Aligned
  inRange : ∀ b ∈ c.blocks, ∀ p ∈ b.pages, range.contains p = true
  cover : ∀ p, p ∈ c.released ↔ ∃ b ∈ c.blocks, p ∈ b.pages

theorem Config.Valid.mem_blocks {c : Config} (h : c.Valid) {b : Block} :
    b ∈ c.blocks ↔ c.system.view.Holds [] c.live b := by
  rw [Config.blocks, List.mem_append, View.mem_freeBlocks]
  constructor
  · rintro (hb | hb)
    · exact .inl hb.2
    · exact .inr (.inr hb)
  · rintro (hb | hb | hb)
    · exact .inl ⟨h.level_le (.inl hb), hb⟩
    · exact absurd hb List.not_mem_nil
    · exact .inr hb

theorem Config.Valid.tiled {c : Config} (h : c.Valid) : c.Tiled c.system.pageRange where
  disjoint := h.pairwise_disjoint
  aligned b hb := h.aligned (h.mem_blocks.mp hb)
  inRange b hb p hp := Range.contains_iff.mpr (h.within (h.mem_blocks.mp hb) hp)
  cover p := by
    rw [h.tiling.cover]
    simp only [h.mem_blocks]
    rfl

/-- A successful allocation returns an aligned block of released pages that no
caller holds. -/
theorem Config.Valid.allocated {c : Config} (h : c.Valid) {order index : Nat} {t : BuddySystem}
    (heq : c.system.allocatePages order = some (some index, t)) :
    Block.Aligned ⟨index, order⟩ ∧ ∀ p ∈ Block.pages ⟨index, order⟩, p ∈ c.released ∧
      ∀ b ∈ c.live, p ∉ b.pages := by
  rcases allocatePages_spec order h with ⟨_, hnone⟩ | ⟨i, m, u, _, _, _, _, hsome, _, hholding⟩
  · rw [hnone] at heq
    cases heq
  · rw [hsome] at heq
    obtain ⟨hindex, rfl⟩ := Prod.mk.inj (Option.some.inj heq)
    obtain rfl := Option.some.inj hindex
    have hnew : u.view.Holds [] (⟨i, order⟩ :: c.live) ⟨i, order⟩ := .inr (.inr List.mem_cons_self)
    refine ⟨hholding.aligned hnew, fun p hp => ⟨hholding.subset_released hnew hp, ?_⟩⟩
    intro b hb hpb
    have hsame := hholding.eq_of_mem hnew (.inr (.inr (List.mem_cons_of_mem _ hb))) hp hpb
    exact (List.nodup_cons.mp hholding.ownedNodup).1 (hsame ▸ hb)

/-- A run in a zone of four zeroed pages: all of them are released as one block
and a caller allocates the left half. -/
theorem reachable_half : ∃ c, Reachable ⟨0x1000, List.replicate 4 Page.new⟩ 4 c ∧
    c.live = [⟨4, 1⟩] := by
  set pages : Slice Page := ⟨0x1000, List.replicate 4 Page.new⟩ with hpages
  have hcalls : (((new pages 4).freePagesAtLevel 4 2).bind fun t => t.allocatePages 1).map
      Prod.fst = some (some 4) := by
    decide +kernel
  obtain ⟨⟨_, u⟩, hcalls, rfl⟩ := Option.map_eq_some_iff.mp hcalls
  obtain ⟨t, ht, hu⟩ := Option.bind_eq_some_iff.mp hcalls
  have hseeded : Step (initial pages 4) ⟨t, [], ∅ ∪ Block.pages ⟨4, 2⟩⟩ := by
    refine ⟨.seed 4 2, ⟨by decide, by decide, ?_, Set.disjoint_empty _⟩, ?_⟩
    · intro p hp
      exact hp
    · simp only [Op.run, initial]
      rw [ht]
      rfl
  have hallocated : Step ⟨t, [], ∅ ∪ Block.pages ⟨4, 2⟩⟩
      ⟨u, [⟨4, 1⟩], ∅ ∪ Block.pages ⟨4, 2⟩⟩ := by
    refine ⟨.allocate 1, trivial, ?_⟩
    simp only [Op.run]
    rw [hu]
    rfl
  exact ⟨_, (Relation.ReflTransGen.single hseeded).tail hallocated, rfl⟩

/-- In every run of the allocator, from zeroed pages and empty free lists, the blocks on the free
lists and those that callers hold tile the released pages: they are disjoint, aligned and in range,
and together they cover exactly what was released. No call that is allowed panics, and a block that
is handed out is aligned, was released before and is held by nobody else. The runs may release and
free pages, and allocate any order, in any order of calls. -/
theorem reachable_tiled {pages : Slice Page} {offset : Nat} {c : Config}
    (hzero : ∀ p ∈ pages.items, p = Page.new) (hrun : Reachable pages offset c) :
    c.Tiled (new pages offset).pageRange ∧
      (∀ op : Op, op.Allowed c → ∃ d, op.run c = some d) ∧
      ∀ order index t, c.system.allocatePages order = some (some index, t) →
        2 ^ order ∣ index ∧ ∀ p ∈ Block.pages ⟨index, order⟩, p ∈ c.released ∧
          ∀ b ∈ c.live, p ∉ b.pages := by
  obtain ⟨hzone, hvalid⟩ := hrun.valid hzero
  refine ⟨hzone.pageRange_eq ▸ hvalid.tiled, fun op hop => ?_, fun order index t heq => ?_⟩
  · obtain ⟨d, hd, _, _⟩ := op.run_spec hvalid hop
    exact ⟨d, hd⟩
  · exact hvalid.allocated heq

theorem reachable_tiled_half :
    ∃ c : Config, c.live = [⟨4, 1⟩] ∧
      c.Tiled (new ⟨0x1000, List.replicate 4 Page.new⟩ 4).pageRange ∧
      (∀ op : Op, op.Allowed c → ∃ d, op.run c = some d) ∧
      ∀ order index t, c.system.allocatePages order = some (some index, t) →
        2 ^ order ∣ index ∧ ∀ p ∈ Block.pages ⟨index, order⟩, p ∈ c.released ∧
          ∀ b ∈ c.live, p ∉ b.pages := by
  obtain ⟨c, hrun, hlive⟩ := reachable_half
  exact ⟨c, hlive, reachable_tiled (fun p hp => List.eq_of_mem_replicate hp) hrun⟩

/-! ## Allocation is complete and tight -/

/-- A call of `allocate_pages`. It fails, and changes nothing, exactly when no aligned
block of the order is free. Otherwise the block comes from a free block of the smallest
sufficient level, and the free pages lose its pages. -/
structure Allocates (s : BuddySystem) (order : Nat) (result : Option Nat) (t : BuddySystem) :
    Prop where
  none_iff : result = none ↔ LEVELS ≤ order ∨
    ∀ i, Block.Aligned ⟨i, order⟩ → ¬ Block.pages ⟨i, order⟩ ⊆ s.view.freeSet
  unchanged : result = none → t = s
  carved : ∀ index, result = some index → ∃ b, s.view.IsFree b ∧ order ≤ b.level ∧
    Block.pages ⟨index, order⟩ ⊆ b.pages ∧
    ∀ m, order ≤ m → m < b.level → s.view.free m = []
  aligned : ∀ index, result = some index → Block.Aligned ⟨index, order⟩
  freeSet_eq : ∀ index, result = some index →
    t.view.freeSet = s.view.freeSet \ Block.pages ⟨index, order⟩

theorem Holding.allocates (h : s.Holding [] live released ∅) (order : Nat) :
    ∃ result t, s.allocatePages order = some (result, t) ∧ Allocates s order result t := by
  rcases allocatePages_spec order h with
    ⟨hempty, hcall⟩ | ⟨index, m, t, hle, hlt, hfree, hbelow, hcall, _, hholding⟩
  · refine ⟨none, s, hcall, iff_of_true rfl ?_, fun _ => rfl, nofun, nofun, nofun⟩
    rcases Nat.lt_or_ge order LEVELS with hlt | hge
    · right
      intro i haligned hsub
      obtain ⟨m, hm, hmtop, hne⟩ :=
        (h.exists_free_iff (Nat.le_pred_of_lt hlt)).mpr ⟨i, haligned, hsub⟩
      exact hne (hempty m hm (Nat.lt_of_le_of_lt hmtop (by decide)))
    · exact .inl hge
  · have haligned := h.aligned (.inl hfree)
    have hlower := Block.aligned_lower haligned hle
    have hsub : Block.pages ⟨index, order⟩ ⊆ Block.pages ⟨index, m⟩ :=
      hlower.nested haligned hle (Block.index_mem ⟨index, order⟩) (Block.index_mem ⟨index, m⟩)
    refine ⟨some index, t, hcall, iff_of_false nofun ?_, nofun, ?_, ?_, ?_⟩
    · rintro (hge | hno)
      · omega
      · exact hno index hlower (hsub.trans (Inv.freeSet_subset hfree))
    · rintro _ ⟨⟩
      exact ⟨⟨index, m⟩, hfree, hle, hsub, hbelow⟩
    · rintro _ ⟨⟩
      exact hlower
    · rintro _ ⟨⟩
      exact h.freeSet_handedOut hholding

/-- In every reachable state and for every order, those that are too large included,
`allocate_pages` returns, and what `Allocates` says of its result holds: no block is refused that
could be made, and what is handed out is cut from a smallest free block that suffices. -/
theorem reachable_allocates {pages : Slice Page} {offset : Nat} {c : Config}
    (hzero : ∀ p ∈ pages.items, p = Page.new) (hrun : Reachable pages offset c) (order : Nat) :
    ∃ result t, c.system.allocatePages order = some (result, t) ∧
      Allocates c.system order result t :=
  (hrun.valid hzero).2.allocates order

theorem reachable_allocates_half :
    ∃ c : Config, c.live = [⟨4, 1⟩] ∧ ∃ result t,
      c.system.allocatePages 1 = some (result, t) ∧ Allocates c.system 1 result t := by
  obtain ⟨c, hrun, hlive⟩ := reachable_half
  exact ⟨c, hlive, reachable_allocates (fun p hp => List.eq_of_mem_replicate hp) hrun 1⟩

end Aarch64.Rust.BuddySystem
