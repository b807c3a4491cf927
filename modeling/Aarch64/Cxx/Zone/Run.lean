import Aarch64.Cxx.Zone.Refinement
import Mathlib.Logic.Relation

/-!
# Runs of a zone

A configuration adds to a zone what its callers know: the blocks they hold, by
page offset, and the pages they have released so far. `Available()` is not part of
the allocator invariant: since every released page is either free or held, the
number of free pages is known from the callers' side, and each call changes the
counter by exactly that difference.
-/

namespace Aarch64.Cxx.Zone

open Dyadic (Block)
open Buddy (Inv View)

variable {z : Zone} {live : List Block} {released : Set Nat}

def freeBlocks (z : Zone) : List Block := z.view.freeBlocks kMaxOrder

/-- The block of an order that starts at a page. -/
def pageBlock (z : Zone) (page order : Nat) : Block := ⟨z.pageOffset page, order⟩

/-- The invariant between two calls: `available_` counts the free pages. -/
structure Valid (z : Zone) (live : List Block) (released : Set Nat) : Prop where
  holding : z.Holding [] live released ∅
  accounted : z.available = z.view.freePages kMaxOrder

/-! ## Counting -/

theorem Holding.freePages_lt {exempt : Set Nat} (h : z.Holding [] live released exempt) :
    z.view.freePages kMaxOrder < 2 ^ 64 := by
  have hword := z.offset_add_pages_lt
  have hcard : z.offsets.ncard = z.pages := by
    rw [offsets, ← Finset.coe_Ico, Set.ncard_coe_finset, Nat.card_Ico, Nat.add_sub_cancel_left]
  have hle : z.view.freePages kMaxOrder ≤ z.pages :=
    Inv.freePages_le h (Set.finite_Ico ..) hcard.le
  omega

/-- Allocating takes the pages of the new block from the free ones. -/
theorem freePages_allocated {w : Zone} {b : Block} (h : z.Holding [] live released ∅)
    (h' : w.Holding [] (b :: live) released ∅) :
    w.view.freePages kMaxOrder + b.size = z.view.freePages kMaxOrder := by
  have hbefore := (Inv.freePages_add_live h).2
  have hafter := (Inv.freePages_add_live h').2
  rw [List.map_cons, List.sum_cons] at hafter
  omega

theorem freePages_freed {w : Zone} {b : Block} (h : z.Holding [] live released ∅) (hb : b ∈ live)
    (h' : w.Holding [] (live.erase b) released ∅) :
    w.view.freePages kMaxOrder = z.view.freePages kMaxOrder + b.size := by
  have hbefore := (Inv.freePages_add_live h).2
  have hafter := (Inv.freePages_add_live h').2
  have hsum := ((List.perm_cons_erase hb).map Block.size).sum_eq
  rw [List.map_cons, List.sum_cons] at hsum
  omega

theorem freePages_seeded {w : Zone} {b : Block} (h : z.Holding [] live released ∅)
    (hnew : Disjoint b.pages released) (h' : w.Holding [] live (released ∪ b.pages) ∅) :
    w.view.freePages kMaxOrder = z.view.freePages kMaxOrder + b.size := by
  obtain ⟨hfinite, hbefore⟩ := Inv.freePages_add_live h
  have hafter := (Inv.freePages_add_live h').2
  rw [Set.ncard_union_eq hnew.symm hfinite (Buddy.finite_pages b), Buddy.ncard_pages] at hafter
  omega

/-! ## Single calls -/

theorem shl_one {order : Nat} (h : order ≤ kMaxOrder) : Word64.shl 1 order = 2 ^ order := by
  have hlt : 1 * 2 ^ order < 2 ^ 64 := by
    rw [Nat.one_mul]
    exact Nat.pow_lt_pow_right (by decide) (Nat.lt_of_le_of_lt h (by decide))
  rw [Word64.shl_of_lt hlt, Nat.one_mul]

/-- A zone over zeroed records satisfies the invariant with nothing released. -/
theorem new_valid {page : List Page} {fromAddress toAddress : Nat}
    (hfits : page.length * 32 ≤ 2 ^ 64) (hfrom : fromAddress < 2 ^ 64)
    (hzero : ∀ p ∈ page, p = Page.zero) :
    (new page fromAddress toAddress hfits hfrom).Valid [] ∅ := by
  have hfree : ∀ l, (new page fromAddress toAddress hfits hfrom).view.free l = [] := by
    intro l
    simp [view, freeItems, new]
  refine ⟨Inv.empty hfree fun p => ?_, ?_⟩
  · change (new page fromAddress toAddress hfits hfrom).tagOf p = _
    rw [tagOf]
    split
    · split
      next q hq =>
        rw [hzero q (List.mem_of_getElem? hq)]
        rfl
      next => rfl
    · rfl
  · have hblocks : (new page fromAddress toAddress hfits hfrom).view.freeBlocks kMaxOrder = [] := by
      simp only [View.freeBlocks, hfree, List.map_nil, List.flatMap_eq_nil_iff, implies_true]
    rw [View.freePages, hblocks]
    rfl

/-- Freeing a pending block whose record carries its order. The counter goes up by
that order, whatever `Unite` has written meanwhile. -/
theorem freePages_spec {index order : Nat} (h : z.Holding [⟨index, order⟩] live released ∅)
    (htag : (z.view.tag index).level = order) :
    ∃ w, z.freePages (z.pageAt index) = some w ∧ SameZone z w ∧
      w.Holding [] live released ∅ ∧ w.available = Word64.add z.available (2 ^ order) := by
  obtain ⟨hmem, hlevel, _⟩ := h.head_spec
  change order ≤ kMaxOrder at hlevel
  obtain ⟨p, hp, hread⟩ := get_of_mem hmem
  rw [hread] at htag
  change p.order = order at htag
  obtain ⟨w, hw, hzone, havailable, hholding⟩ := unite_spec h
  refine ⟨{ w with available := Word64.add w.available (2 ^ order) }, ?_,
    ⟨hzone.from, hzone.pages⟩, hholding, by rw [havailable]⟩
  have hshift : p.order < 64 := by
    rw [htag]
    exact Nat.lt_of_le_of_lt hlevel (by decide)
  rw [freePages, hp]
  simp only [Option.bind_eq_bind, Option.bind_some, if_pos hshift]
  rw [htag, hw, Option.bind_some, shl_one hlevel]
  rfl

/-- Seeding an aligned block of unreleased pages. Its order is stored first. -/
theorem freePagesOrder_spec {addr order : Nat} (h : z.Valid live released)
    (horder : order ≤ kMaxOrder) (haligned : Block.Aligned ⟨addr >>> kPageBits, order⟩)
    (hwithin : Block.pages ⟨addr >>> kPageBits, order⟩ ⊆ z.offsets)
    (hnew : Disjoint (Block.pages ⟨addr >>> kPageBits, order⟩) released) :
    ∃ w, z.freePagesOrder addr order = some w ∧ SameZone z w ∧
      w.Valid live (released ∪ Block.pages ⟨addr >>> kPageBits, order⟩) := by
  set index := addr >>> kPageBits with hindex
  have hmem : index ∈ z.offsets := hwithin (Block.index_mem ⟨index, order⟩)
  obtain ⟨p, hp, hread⟩ := get_of_mem hmem
  have hfresh := h.holding.fresh index
    (Set.disjoint_left.mp hnew (Block.index_mem ⟨index, order⟩))
  have hbusy : p.isFree = false := by
    rw [hread] at hfresh
    exact congrArg Buddy.Tag.isFree hfresh
  have hpending := h.holding.release horder haligned hwithin hnew
  -- the record is rewritten while the block is pending
  have hretag := view_setPage hmem { p with order }
  have hsame := sameZone_setPage z (z.pageAt index) { p with order }
  have hstored : (z.setPage (z.pageAt index) { p with order }).Holding [⟨index, order⟩] live
      (released ∪ Block.pages ⟨index, order⟩) ∅ := by
    refine Holding.of_view (v := z.view.retag index ⟨false, order⟩) ?_ hsame ?_
    · exact Inv.retag order (hpending.mono_exempt (Set.empty_subset (insert index ∅)))
    · rw [hretag]
      exact congrArg (fun f => z.view.retag index ⟨f, order⟩) hbusy
  obtain ⟨w, hw, hzone, hholding, havailable⟩ :=
    freePages_spec hstored (by rw [hretag, View.retag_tag_self])
  have hcount := freePages_seeded h.holding hnew hholding
  refine ⟨w, ?_, hsame.trans hzone, hholding, ?_⟩
  · rw [freePagesOrder, ← hindex, hp]
    rw [hsame.pageAt_eq] at hw
    exact hw
  · have hlt := hholding.freePages_lt
    rw [hcount, Block.size] at hlt
    change w.available = Word64.add z.available _ at havailable
    rw [havailable, h.accounted, hcount, Word64.add_of_lt hlt, Block.size]

/-- Freeing a live block. Its record still carries its order. -/
theorem freePages_live {b : Block} (h : z.Valid live released) (hb : b ∈ live) :
    ∃ w, z.freePages (z.pageAt b.index) = some w ∧ SameZone z w ∧
      w.Valid (live.erase b) released := by
  obtain ⟨w, hw, hzone, hholding, havailable⟩ :=
    freePages_spec (h.holding.handBack hb) (h.holding.liveTag b hb)
  have hcount := freePages_freed h.holding hb hholding
  refine ⟨w, hw, hzone, hholding, ?_⟩
  have hlt := hholding.freePages_lt
  rw [hcount, Block.size] at hlt
  rw [havailable, h.accounted, hcount, Word64.add_of_lt hlt, Block.size]

/-- Allocation takes the first block of the smallest sufficient order and hands
out its left end, or changes nothing when there is none. -/
theorem allocateLoop_spec {order : Nat} (h : z.Valid live released) : ∀ n «from»,
    order ≤ «from» → «from» + n ≤ kMaxOrder + 1 →
    ((∀ m, «from» ≤ m → m < «from» + n → z.view.free m = []) ∧
        z.allocateLoop order ( List.range' «from» n) = some (none, z)) ∨
      ∃ page w, z.allocateLoop order ( List.range' «from» n) = some (some page, w) ∧
        page < z.pages ∧ SameZone z w ∧ w.Valid (w.pageBlock page order :: live) released := by
  intro n
  induction n with
  | zero =>
      intro m _ _
      exact .inl ⟨fun k hge hlt => by omega, rfl⟩
  | succ n ih =>
      intro «from» hle hbound
      rw [List.range'_succ, allocateLoop]
      have hfrom : «from» ≤ kMaxOrder := by omega
      rcases popFront_spec (z := z) hfrom with
        ⟨hempty, hpop⟩ | ⟨page, u, hpop, hzone, havailable, hfree, hview⟩
      · rw [hpop, Option.bind_eq_bind, Option.bind_some]
        rcases ih («from» + 1) (Nat.le_succ_of_le hle) (by omega) with ⟨hnone, heq⟩ | hsome
        · refine .inl ⟨fun m hge hlt => ?_, heq⟩
          rcases Nat.eq_or_lt_of_le hge with rfl | hgt
          · exact hempty
          · exact hnone m hgt (by omega)
        · exact .inr hsome
      · right
        have hmem : z.offset + page ∈ z.offsets := h.holding.within (.inl hfree) (Block.index_mem _)
        -- the counter is updated between taking the block and splitting it
        set u' : Zone := { u with available := Word64.sub u.available (Word64.shl 1 order) } with hu'
        have hzone' : SameZone z u' := ⟨hzone.from, hzone.pages⟩
        have htaken : u'.Holding [⟨z.offset + page, «from»⟩] live released {z.offset + page} :=
          Holding.of_view (h.holding.take hfree) hzone' hview
        obtain ⟨w, hw, hzone'', havailable', hholding⟩ := split_spec hle htaken
        have hposition : u'.pageAt (z.offset + page) = page := by
          rw [hzone'.pageAt_eq, pageAt_add hmem]
        have hall := hzone'.trans hzone''
        have hindex : w.pageOffset page = z.offset + page := by
          have hinverse := pageOffset_pageAt (z := w) (by rw [hall.offsets_eq]; exact hmem)
          rwa [hall.pageAt_eq, pageAt_add hmem] at hinverse
        refine ⟨page, w, ?_, Nat.lt_of_add_lt_add_left hmem.2, hall, ?_, ?_⟩
        · rw [hposition] at hw
          simp only [hpop, Option.bind_eq_bind, Option.bind_some]
          rw [← hu', hw]
          rfl
        · rw [pageBlock, hindex]
          exact hholding
        · have hcount := freePages_allocated h.holding hholding
          have hlt := h.holding.freePages_lt
          change w.view.freePages kMaxOrder + 2 ^ order = _ at hcount
          have hread : w.available = Word64.sub z.available (Word64.shl 1 order) := by
            rw [havailable', hu', havailable]
          rw [hread, shl_one (Nat.le_trans hle hfrom), h.accounted,
            Word64.sub_of_le (by omega) hlt]
          omega

theorem allocatePages_spec (order : Nat) (h : z.Valid live released) :
    ((∀ m, order ≤ m → m ≤ kMaxOrder → z.view.free m = []) ∧
        z.allocatePages order = some (none, z)) ∨
      ∃ page w, z.allocatePages order = some (some page, w) ∧ page < z.pages ∧ SameZone z w ∧
        w.Valid (w.pageBlock page order :: live) released := by
  rw [allocatePages]
  rcases Nat.lt_or_ge kMaxOrder order with hgt | hle
  · left
    refine ⟨fun m hm hlt => by omega, ?_⟩
    rw [Nat.sub_eq_zero_of_le hgt]
    rfl
  · have hsum : order + (kMaxOrder + 1 - order) = kMaxOrder + 1 := by omega
    rcases allocateLoop_spec h (kMaxOrder + 1 - order) order (Nat.le_refl _) hsum.le with
      ⟨hnone, heq⟩ | hsome
    · exact .inl ⟨fun m hge hm => hnone m hge (by omega), heq⟩
    · exact .inr hsome

/-! ## Runs -/

/-- A zone together with the blocks its callers hold, by page offset, and the
pages they have released so far. -/
structure Config where
  zone : Zone
  live : List Block
  released : Set Nat

inductive Op
  | seed (addr order : Nat)
  | allocate (order : Nat)
  | freePage (page order : Nat)
  | freeAddr (addr order : Nat)

/-- The block of an order whose first page contains an address. -/
def addrBlock (addr order : Nat) : Block := ⟨addr >>> kPageBits, order⟩

/-- What the callers have to respect. Allocation is always allowed, with any order. -/
def Op.Allowed (c : Config) : Op → Prop
  | .seed addr order => order ≤ kMaxOrder ∧ (addrBlock addr order).Aligned ∧
      (addrBlock addr order).pages ⊆ c.zone.offsets ∧
      Disjoint (addrBlock addr order).pages c.released
  | .allocate _ => True
  | .freePage page order => page < c.zone.pages ∧ c.zone.pageBlock page order ∈ c.live
  | .freeAddr addr order => addrBlock addr order ∈ c.live

/-- One call. -/
def Op.run (c : Config) : Op → Option Config
  | .seed addr order => do
      let w ← c.zone.freePagesOrder addr order
      return ⟨w, c.live, c.released ∪ (addrBlock addr order).pages⟩
  | .allocate order => do
      match ← c.zone.allocatePages order with
      | (none, w) => return ⟨w, c.live, c.released⟩
      | (some page, w) => return ⟨w, w.pageBlock page order :: c.live, c.released⟩
  | .freePage page order => do
      let w ← c.zone.freePages page
      return ⟨w, c.live.erase (c.zone.pageBlock page order), c.released⟩
  | .freeAddr addr order => do
      let w ← c.zone.freePagesAt addr
      return ⟨w, c.live.erase (addrBlock addr order), c.released⟩

def Step (c d : Config) : Prop := ∃ op : Op, op.Allowed c ∧ op.run c = some d

def Reachable (z : Zone) (c : Config) : Prop := Relation.ReflTransGen Step ⟨z, [], ∅⟩ c

def Config.Valid (c : Config) : Prop := c.zone.Valid c.live c.released

/-- Every allowed call returns and keeps the invariant. -/
theorem Op.run_spec {c : Config} (h : c.Valid) (op : Op) (hop : op.Allowed c) :
    ∃ d, op.run c = some d ∧ SameZone c.zone d.zone ∧ d.Valid := by
  cases op with
  | seed addr order =>
      obtain ⟨horder, haligned, hwithin, hnew⟩ := hop
      obtain ⟨w, hw, hzone, hvalid⟩ :=
        Zone.freePagesOrder_spec h horder haligned hwithin hnew
      exact ⟨⟨w, c.live, _⟩, by simp only [Op.run, hw]; rfl, hzone, hvalid⟩
  | allocate order =>
      rcases Zone.allocatePages_spec order h with ⟨_, heq⟩ | ⟨page, w, heq, _, hzone, hvalid⟩
      · exact ⟨c, by simp [Op.run, heq], SameZone.refl _, h⟩
      · exact ⟨⟨w, _, c.released⟩, by simp only [Op.run, heq]; rfl, hzone, hvalid⟩
  | freePage page order =>
      obtain ⟨hpage, hlive⟩ := hop
      obtain ⟨w, hw, hzone, hvalid⟩ := Zone.freePages_live h hlive
      have hoffset : c.zone.pageOffset page = c.zone.offset + page := by
        have hword := c.zone.offset_add_pages_lt
        exact Word64.add_of_lt (by omega)
      have hposition : c.zone.pageAt (c.zone.pageOffset page) = page := by
        rw [hoffset]
        exact pageAt_add ⟨Nat.le_add_right _ _, Nat.add_lt_add_left hpage _⟩
      change c.zone.freePages (c.zone.pageAt (c.zone.pageOffset page)) = _ at hw
      rw [hposition] at hw
      exact ⟨⟨w, _, c.released⟩, by simp only [Op.run, hw]; rfl, hzone, hvalid⟩
  | freeAddr addr order =>
      obtain ⟨w, hw, hzone, hvalid⟩ := Zone.freePages_live h hop
      change c.zone.freePagesAt addr = _ at hw
      exact ⟨⟨w, _, c.released⟩, by simp only [Op.run, hw]; rfl, hzone, hvalid⟩

/-- The invariant holds in every reachable state. -/
theorem Reachable.valid {c : Config} (hz : z.Valid [] ∅) (hrun : Reachable z c) :
    SameZone z c.zone ∧ c.Valid := by
  induction hrun with
  | refl => exact ⟨SameZone.refl _, hz⟩
  | tail _ hstep ih =>
      obtain ⟨op, hop, heq⟩ := hstep
      obtain ⟨d, hd, hzone, hvalid⟩ := op.run_spec ih.2 hop
      rw [heq] at hd
      obtain rfl := Option.some.inj hd
      exact ⟨ih.1.trans hzone, hvalid⟩

/-! ## The run invariant -/

def Config.blocks (c : Config) : List Block := c.zone.freeBlocks ++ c.live

/-- The free and the live blocks tile the released pages, and the counter is the
number of pages in the free blocks. -/
structure Config.Accounted (z : Zone) (c : Config) : Prop where
  disjoint : c.blocks.Pairwise fun a b => Disjoint a.pages b.pages
  aligned : ∀ b ∈ c.blocks, 2 ^ b.level ∣ b.index
  within : ∀ b ∈ c.blocks, b.level ≤ kMaxOrder ∧ z.offset ≤ b.index ∧
    b.index + 2 ^ b.level ≤ z.offset + z.pages
  cover : ∀ p, p ∈ c.released ↔ ∃ b ∈ c.blocks, p ∈ b.pages
  available : c.zone.available = (c.zone.freeBlocks.map fun b => 2 ^ b.level).sum

theorem Config.Valid.mem_blocks {c : Config} (h : c.Valid) {b : Block} :
    b ∈ c.blocks ↔ c.zone.view.Holds [] c.live b := by
  rw [Config.blocks, List.mem_append, freeBlocks, View.mem_freeBlocks]
  constructor
  · rintro (hb | hb)
    · exact .inl hb.2
    · exact .inr (.inr hb)
  · rintro (hb | hb | hb)
    · exact .inl ⟨h.holding.level_le (.inl hb), hb⟩
    · exact absurd hb List.not_mem_nil
    · exact .inr hb

theorem Config.Valid.toAccounted {c : Config} (h : c.Valid) (hzone : SameZone z c.zone) :
    c.Accounted z where
  disjoint := h.holding.pairwise_disjoint
  aligned b hb := h.holding.aligned (h.mem_blocks.mp hb)
  within b hb := by
    have hholds := h.mem_blocks.mp hb
    have hsub := h.holding.within hholds
    rw [hzone.offsets_eq] at hsub
    have hpos := Nat.two_pow_pos b.level
    have hfirst := hsub b.index_mem
    have hlast : b.index + 2 ^ b.level - 1 ∈ z.offsets := hsub ⟨by omega, by omega⟩
    refine ⟨h.holding.level_le hholds, hfirst.1, ?_⟩
    have := hlast.2
    omega
  cover p := by
    rw [h.holding.tiling.cover]
    simp only [h.mem_blocks]
    rfl
  available := h.accounted

/-- Two states of one zone with the same pages released and the same blocks held
have the same number of free pages. -/
theorem Config.Valid.available_eq {c d : Config} (h : c.Valid) (h' : d.Valid)
    (hreleased : d.released = c.released) (hlive : d.live.Perm c.live) :
    d.zone.available = c.zone.available := by
  have hc := (Inv.freePages_add_live h.holding).2
  have hd := (Inv.freePages_add_live h'.holding).2
  rw [hreleased, (hlive.map Block.size).sum_eq] at hd
  rw [h.accounted, h'.accounted]
  omega

/-- A run in a zone of four zeroed pages: all of them are released as one block
and a caller allocates two of them. -/
theorem reachable_two : ∃ c, Reachable (new (List.replicate 4 Page.zero) 0x4000 0x8000
    (by decide) (by decide)) c ∧ c.live = [⟨4, 1⟩] := by
  set z := new (List.replicate 4 Page.zero) 0x4000 0x8000 (by decide) (by decide) with hz
  have hcalls : ((z.freePagesOrder 0x4000 2).bind fun w => w.allocatePages 1).map
      (fun r => (r.1, r.2.offset)) = some (some 0, 4) := by
    decide +kernel
  obtain ⟨⟨page, u⟩, hcalls, heq⟩ := Option.map_eq_some_iff.mp hcalls
  obtain ⟨rfl, hoffset⟩ := Prod.mk.inj heq
  obtain ⟨w, hw, hu⟩ := Option.bind_eq_some_iff.mp hcalls
  have hseeded : Step ⟨z, [], ∅⟩ ⟨w, [], ∅ ∪ Block.pages ⟨4, 2⟩⟩ := by
    refine ⟨.seed 0x4000 2, ⟨by decide, by decide, ?_, Set.disjoint_empty _⟩, ?_⟩
    · intro p hp
      exact hp
    · simp only [Op.run]
      rw [hw]
      rfl
  have hallocated : Step ⟨w, [], ∅ ∪ Block.pages ⟨4, 2⟩⟩
      ⟨u, [u.pageBlock 0 1], ∅ ∪ Block.pages ⟨4, 2⟩⟩ := by
    refine ⟨.allocate 1, trivial, ?_⟩
    simp only [Op.run]
    rw [hu]
    rfl
  refine ⟨_, (Relation.ReflTransGen.single hseeded).tail hallocated, ?_⟩
  change [(⟨Word64.add u.offset 0, 1⟩ : Block)] = _
  rw [show u.offset = 4 from hoffset]
  rfl

/-- In every run of a zone, from zeroed records and a counter of zero, the free and the live blocks
tile the released pages, the counter is the number of free pages, and no call that is allowed fails.
The last part is what the counter is there for: once everything that was allocated since an earlier
state is freed again, in whatever order, it is back at its value in that state. -/
theorem reachable_accounted {page : List Page} {fromAddress toAddress : Nat}
    (hfits : page.length * 32 ≤ 2 ^ 64) (hfrom : fromAddress < 2 ^ 64)
    (hzero : ∀ p ∈ page, p = Page.zero) {c : Config}
    (hrun : Reachable (new page fromAddress toAddress hfits hfrom) c) :
    c.Accounted (new page fromAddress toAddress hfits hfrom) ∧
      (∀ op : Op, op.Allowed c → ∃ d, op.run c = some d) ∧
      ∀ d, Relation.ReflTransGen Step c d → d.released = c.released → d.live.Perm c.live →
        d.zone.available = c.zone.available := by
  obtain ⟨hzone, hvalid⟩ := hrun.valid (new_valid hfits hfrom hzero)
  refine ⟨hvalid.toAccounted hzone, fun op hop => ?_, fun d hlater hreleased hlive => ?_⟩
  · obtain ⟨d, hd, _, _⟩ := op.run_spec hvalid hop
    exact ⟨d, hd⟩
  · have hrun' : Reachable (new page fromAddress toAddress hfits hfrom) d := hrun.trans hlater
    obtain ⟨_, hvalid'⟩ := hrun'.valid (new_valid hfits hfrom hzero)
    exact hvalid.available_eq hvalid' hreleased hlive

theorem reachable_accounted_two :
    ∃ c : Config, c.live = [⟨4, 1⟩] ∧
      c.Accounted (new (List.replicate 4 Page.zero) 0x4000 0x8000 (by decide) (by decide)) ∧
      (∀ op : Op, op.Allowed c → ∃ d, op.run c = some d) ∧
      ∀ d, Relation.ReflTransGen Step c d → d.released = c.released → d.live.Perm c.live →
        d.zone.available = c.zone.available := by
  obtain ⟨c, hrun, hlive⟩ := reachable_two
  exact ⟨c, hlive, reachable_accounted (by decide) (by decide)
    (fun p hp => List.eq_of_mem_replicate hp) hrun⟩

end Aarch64.Cxx.Zone
