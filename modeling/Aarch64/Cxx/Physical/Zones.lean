import Aarch64.Cxx.FixedVector
import Aarch64.Cxx.Physical.Basic
import Aarch64.Cxx.Zone.Run
import Aarch64.Lib.Packing

/-!
# Physical memory is made of zones

`AllocatePhysical` and `FreePhysical` of `memory/memory.cc` over the zones of the
system, and that they are a `PhysicalMemory`. The blocks that are held are those
that the runs of the single zones call live, under their addresses.
-/

namespace Aarch64.Cxx

open Dyadic (Block)

/-- The variable `AllZones`. -/
abbrev Zones : Type := FixedVector Zone 32

namespace Zones

/-- The loop of `AllocatePhysical` over the zones still to be tried. -/
def allocateLoop (zones : Zones) (order : Nat) : List Nat → Option (Option Contigous × Zones)
  | [] => some (none, zones)
  | it :: rest => do
      let z ← zones.items[it]?
      match ← z.allocatePages order with
      | (some pages, z) =>
          return (some ⟨it, some pages, order, z.pageAddress pages⟩, zones.set it z)
      | (none, z) => allocateLoop (zones.set it z) order rest

def allocatePhysical (zones : Zones) (size : Nat) : Option (Option Contigous × Zones) :=
  if size = 0 then some (some Contigous.null, zones)
  else if orderFor size > kMaxOrder then some (none, zones)
  else zones.allocateLoop (orderFor size) (List.range zones.size)

/-- `FreePhysical` of a block. -/
def freePhysical (zones : Zones) (mem : Contigous) : Option Zones := do
  if mem.size = 0 then return zones
  let z ← zones.items[mem.zone]?
  let pages ← mem.pages
  let z ← z.freePages pages
  return zones.set mem.zone z

/-- The position of the zone that contains an address. -/
def addressZone (zones : Zones) (addr : Nat) : Option Nat :=
  zones.items.findIdx? fun z => decide (z.fromAddress ≤ addr) && decide (addr < z.toAddress)

/-- `FreePhysical` of an address. An address outside of all zones is a null pointer. -/
def freePhysicalAt (zones : Zones) (addr : Nat) : Option Zones := do
  if addr = 0 then return zones
  let it ← zones.addressZone addr
  let z ← zones.items[it]?
  let z ← z.freePagesAt addr
  return zones.set it z

/-! ## Addresses -/

/-- A zone as `CreateZone` makes it: whole pages, below the last page of the
address space. -/
structure PageAligned (z : Zone) : Prop where
  aligned : 2 ^ kPageBits ∣ z.fromAddress
  fits : z.fromAddress + z.pages * 2 ^ kPageBits < 2 ^ 64

def addresses (z : Zone) : Set Nat :=
  Set.Ico z.fromAddress (z.fromAddress + z.pages * 2 ^ kPageBits)

/-- The memory of a block of zone number `i`. -/
def contigous (z : Zone) (i : Nat) (b : Block) : Contigous :=
  ⟨i, some (z.pageAt b.index), b.level, z.pageAddress (z.pageAt b.index)⟩

variable {z w : Zone} {i : Nat} {b : Block}

theorem PageAligned.congr (hz : PageAligned z) (hsame : Zone.SameZone z w) : PageAligned w := by
  refine ⟨?_, ?_⟩
  · rw [hsame.from]
    exact hz.aligned
  · rw [hsame.from, hsame.pages]
    exact hz.fits

theorem contigous_congr (hsame : Zone.SameZone z w) (i : Nat) (b : Block) :
    contigous w i b = contigous z i b := by
  rw [contigous, contigous, hsame.pageAt_eq, Zone.pageAddress, Zone.pageAddress, hsame.from]

theorem addresses_congr (hsame : Zone.SameZone z w) : addresses w = addresses z := by
  rw [addresses, addresses, hsame.from, hsame.pages]

theorem PageAligned.from_eq (hz : PageAligned z) : z.fromAddress = z.offset * 2 ^ kPageBits := by
  rw [Zone.offset, Nat.shiftRight_eq_div_pow, Nat.div_mul_cancel hz.aligned]

/-- The address of a page is its offset, counted in pages. -/
theorem PageAligned.address_eq (hz : PageAligned z) (hmem : b.index ∈ z.offsets) :
    (contigous z i b).fromAddress = b.index * 2 ^ kPageBits := by
  have hfrom := hz.from_eq
  have hfits := hz.fits
  obtain ⟨hpos, hlt⟩ := Zone.pageAt_of_mem hmem
  have hsum := Zone.offset_add_pageAt hmem
  change z.pageAddress (z.pageAt b.index) = _
  change z.fromAddress + z.pages * 4096 < _ at hfits
  change z.fromAddress = z.offset * 4096 at hfrom
  have heq : z.fromAddress + z.pageAt b.index * 4096 = b.index * 4096 := by omega
  have hle : z.pageAt b.index ≤ z.pages := by omega
  have hlast : z.fromAddress + z.pageAt b.index * 4096 < 2 ^ 64 :=
    Nat.lt_of_le_of_lt (Nat.add_le_add_left (Nat.mul_le_mul_right 4096 hle) _) hfits
  have hshift : Word64.shl (z.pageAt b.index) kPageBits = z.pageAt b.index * 4096 :=
    Word64.shl_of_lt (n := 12) (Nat.lt_of_le_of_lt (Nat.le_add_left ..) hlast)
  rw [Zone.pageAddress, hshift, Word64.add_of_lt hlast, heq]
  rfl

/-- A block that lies in the zone is a block of memory. -/
theorem PageAligned.proper (hz : PageAligned z) (hlevel : b.level ≤ kMaxOrder)
    (haligned : b.Aligned) (hwithin : b.pages ⊆ z.offsets) :
    (contigous z i b).Proper ∧ (contigous z i b).bytes ⊆ addresses z ∧
      (contigous z i b).bytes =
        Packing.cells (b.index * 2 ^ kPageBits, b.size * 2 ^ kPageBits) := by
  have hmem : b.index ∈ z.offsets := hwithin b.index_mem
  have haddress := hz.address_eq (i := i) hmem
  have hpos := Nat.two_pow_pos b.level
  have hlast : b.index + 2 ^ b.level - 1 ∈ z.offsets := hwithin ⟨by omega, by omega⟩
  have hfrom := hz.from_eq
  have hfits := hz.fits
  have hpow : 2 ^ (b.level + kPageBits) = 2 ^ b.level * 4096 := Nat.pow_add ..
  obtain ⟨hge, _⟩ := hmem
  obtain ⟨_, hlt⟩ := hlast
  change z.fromAddress + z.pages * 4096 < _ at hfits
  change z.fromAddress = z.offset * 4096 at hfrom
  change _ = b.index * 4096 at haddress
  have hproper : (contigous z i b).Proper := by
    refine ⟨rfl, ?_, ?_, ?_⟩
    · change b.level + 12 < 64
      change b.level ≤ 20 at hlevel
      omega
    · rw [haddress]
      change 2 ^ (b.level + kPageBits) ∣ _
      rw [hpow]
      exact Nat.mul_dvd_mul_right haligned 4096
    · rw [haddress]
      change _ + 2 ^ (b.level + kPageBits) < _
      rw [hpow]
      omega
  have hbytes : (contigous z i b).bytes =
      Packing.cells (b.index * 2 ^ kPageBits, b.size * 2 ^ kPageBits) := by
    have hsize : (contigous z i b).size = 2 ^ b.level * 4096 := by
      rw [hproper.size_eq]
      exact hpow
    rw [Contigous.bytes, haddress, hsize]
    rfl
  refine ⟨hproper, ?_, hbytes⟩
  rw [hbytes]
  rintro p ⟨hp, hp'⟩
  change b.index * 4096 ≤ p at hp
  change p < b.index * 4096 + 2 ^ b.level * 4096 at hp'
  refine ⟨by omega, ?_⟩
  change p < z.fromAddress + z.pages * 4096
  omega

/-- Blocks without common pages have no common bytes. -/
theorem disjoint_cells {a b : Block} (h : Disjoint a.pages b.pages) :
    Disjoint (Packing.cells (a.index * 2 ^ kPageBits, a.size * 2 ^ kPageBits))
      (Packing.cells (b.index * 2 ^ kPageBits, b.size * 2 ^ kPageBits)) := by
  have hapart := Packing.apart_of_disjoint (i := (a.index, a.size)) (j := (b.index, b.size))
    a.size_pos b.size_pos h
  apply Packing.disjoint_of_apart
  change a.index * 4096 + a.size * 4096 ≤ b.index * 4096 ∨
    b.index * 4096 + b.size * 4096 ≤ a.index * 4096
  change a.index + a.size ≤ b.index ∨ b.index + b.size ≤ a.index at hapart
  omega

/-! ## The ledger -/

/-- Every zone satisfies its invariant, for some blocks `live`, the zones do not
overlap, and the blocks that are held are the live ones. -/
structure Ledger (zones : Zones) (held : List Contigous) (live : Nat → List Block)
    (released : Nat → Set Nat) : Prop where
  valid : ∀ (i : Nat) (z : Zone), zones.items[i]? = some z → z.Valid (live i) (released i)
  aligned : ∀ (i : Nat) (z : Zone), zones.items[i]? = some z → PageAligned z
  apart : ∀ (i j : Nat) (z w : Zone), zones.items[i]? = some z → zones.items[j]? = some w → i ≠ j →
    Disjoint (addresses z) (addresses w)
  nodup : held.Nodup
  mem : ∀ m, m ∈ held ↔ ∃ (i : Nat) (z : Zone), zones.items[i]? = some z ∧ ∃ b ∈ live i, m = contigous z i b

def Holds (zones : Zones) (held : List Contigous) : Prop :=
  ∃ live released, Ledger zones held live released

variable {zones : Zones} {held : List Contigous} {live : Nat → List Block}
variable {released : Nat → Set Nat}

theorem Ledger.block (h : Ledger zones held live released) (hz : zones.items[i]? = some z)
    (hb : b ∈ live i) : (contigous z i b).Proper ∧ (contigous z i b).bytes ⊆ addresses z ∧
      (contigous z i b).bytes =
        Packing.cells (b.index * 2 ^ kPageBits, b.size * 2 ^ kPageBits) := by
  have hholding := (h.valid i z hz).holding
  exact (h.aligned i z hz).proper (hholding.level_le (.inr (.inr hb)))
    (hholding.aligned (.inr (.inr hb))) (hholding.within (.inr (.inr hb)))

/-- Different live blocks have disjoint memory. -/
theorem Ledger.disjoint {j : Nat} {a : Block} (h : Ledger zones held live released)
    (hz : zones.items[i]? = some z) (hw : zones.items[j]? = some w) (ha : a ∈ live i)
    (hb : b ∈ live j) (hne : contigous z i a ≠ contigous w j b) :
    Disjoint (contigous z i a).bytes (contigous w j b).bytes := by
  obtain ⟨_, hsub, hbytes⟩ := h.block hz ha
  obtain ⟨_, hsub', hbytes'⟩ := h.block hw hb
  by_cases hij : i = j
  · subst hij
    rw [hz] at hw
    obtain rfl := Option.some.inj hw
    rw [hbytes, hbytes']
    apply disjoint_cells
    exact (h.valid i z hz).holding.tiling.disjoint _ (.inr (.inr ha)) _ (.inr (.inr hb))
      fun heq => hne (heq ▸ rfl)
  · exact (h.apart i j z w hz hw hij).mono hsub hsub'

theorem items_set (zones : Zones) (hz : zones.items[i]? = some z) (w : Zone) (j : Nat) :
    (zones.set i w).items[j]? = if j = i then some w else zones.items[j]? := by
  have hi : i < zones.items.length := (List.getElem?_eq_some_iff.mp hz).1
  rw [FixedVector.items_set]
  by_cases hj : j = i
  · subst hj
    rw [if_pos rfl, List.getElem?_set_self hi]
  · rw [if_neg hj, List.getElem?_set_ne (Ne.symm hj)]

/-- One zone has changed what it holds. -/
theorem Ledger.update {held' : List Contigous} {blocks : List Block} {pages : Set Nat}
    (h : Ledger zones held live released) (hz : zones.items[i]? = some z)
    (hsame : Zone.SameZone z w) (hvalid : w.Valid blocks pages) (hnodup : held'.Nodup)
    (hmem : ∀ m, m ∈ held' ↔ (m ∈ held ∧ m.zone ≠ i) ∨ ∃ b ∈ blocks, m = contigous z i b) :
    Ledger (zones.set i w) held' (Function.update live i blocks)
      (Function.update released i pages) := by
  have hread := items_set zones hz w
  -- the zone at each position is the old one, as far as its addresses are concerned
  have hold : ∀ (j : Nat) (u : Zone), (zones.set i w).items[j]? = some u →
      ∃ v, zones.items[j]? = some v ∧ Zone.SameZone v u := by
    intro j u hu
    rw [hread] at hu
    by_cases hj : j = i
    · subst hj
      rw [if_pos rfl] at hu
      obtain rfl := Option.some.inj hu
      exact ⟨z, hz, hsame⟩
    · rw [if_neg hj] at hu
      exact ⟨u, hu, Zone.SameZone.refl u⟩
  refine ⟨fun j u hu => ?_, fun j u hu => ?_, fun j k u v hu hv hjk => ?_, hnodup, fun m => ?_⟩
  · rw [hread] at hu
    by_cases hj : j = i
    · subst hj
      rw [if_pos rfl] at hu
      obtain rfl := Option.some.inj hu
      rw [Function.update_self, Function.update_self]
      exact hvalid
    · rw [if_neg hj] at hu
      rw [Function.update_of_ne hj, Function.update_of_ne hj]
      exact h.valid j u hu
  · obtain ⟨v, hv, hvu⟩ := hold j u hu
    exact (h.aligned j v hv).congr hvu
  · obtain ⟨u', hu', husame⟩ := hold j u hu
    obtain ⟨v', hv', hvsame⟩ := hold k v hv
    rw [addresses_congr husame, addresses_congr hvsame]
    exact h.apart j k u' v' hu' hv' hjk
  · rw [hmem, h.mem]
    constructor
    · rintro (⟨⟨j, u, hu, b, hb, rfl⟩, hne⟩ | ⟨b, hb, rfl⟩)
      · change j ≠ i at hne
        refine ⟨j, u, ?_, b, ?_, rfl⟩
        · rw [hread, if_neg hne]
          exact hu
        · rw [Function.update_of_ne hne]
          exact hb
      · refine ⟨i, w, ?_, b, ?_, (contigous_congr hsame i b).symm⟩
        · rw [hread, if_pos rfl]
        · rw [Function.update_self]
          exact hb
    · rintro ⟨j, u, hu, b, hb, rfl⟩
      by_cases hj : j = i
      · subst hj
        rw [hread, if_pos rfl] at hu
        obtain rfl := Option.some.inj hu
        rw [Function.update_self] at hb
        exact .inr ⟨b, hb, contigous_congr hsame j b⟩
      · rw [hread, if_neg hj] at hu
        rw [Function.update_of_ne hj] at hb
        exact .inl ⟨⟨j, u, hu, b, hb, rfl⟩, hj⟩

/-- The blocks that are held are those of one zone and those of the others. -/
theorem Ledger.mem_iff (h : Ledger zones held live released) (hz : zones.items[i]? = some z)
    (m : Contigous) :
    m ∈ held ↔ (m ∈ held ∧ m.zone ≠ i) ∨ ∃ b ∈ live i, m = contigous z i b := by
  constructor
  · intro hm
    by_cases hzone : m.zone = i
    · obtain ⟨j, u, hu, b, hb, rfl⟩ := (h.mem m).mp hm
      change j = i at hzone
      subst hzone
      rw [hz] at hu
      obtain rfl := Option.some.inj hu
      exact .inr ⟨b, hb, rfl⟩
    · exact .inl ⟨hm, hzone⟩
  · rintro (⟨hm, _⟩ | ⟨b, hb, rfl⟩)
    · exact hm
    · exact (h.mem _).mpr ⟨i, z, hz, b, hb, rfl⟩

theorem contigous_injective {a : Block} (ha : a.index ∈ z.offsets) (hb : b.index ∈ z.offsets)
    (heq : contigous z i a = contigous z i b) : a = b := by
  simp only [contigous, Contigous.mk.injEq, Option.some.injEq] at heq
  have hindex : a.index = b.index := by
    rw [← Zone.offset_add_pageAt ha, ← Zone.offset_add_pageAt hb, heq.2.1]
  obtain ⟨_, _⟩ := a
  obtain ⟨_, _⟩ := b
  rw [Block.mk.injEq]
  exact ⟨hindex, heq.2.2.1⟩

theorem Ledger.index_mem (h : Ledger zones held live released) (hz : zones.items[i]? = some z)
    (hb : b ∈ live i) : b.index ∈ z.offsets :=
  (h.valid i z hz).holding.within (.inr (.inr hb)) b.index_mem

/-! ## Operations -/

theorem set_self (hz : zones.items[i]? = some z) : zones.set i z = zones := by
  obtain ⟨hi, rfl⟩ := List.getElem?_eq_some_iff.mp hz
  have hitems : (zones.set i zones.items[i]).items = zones.items := by
    rw [FixedVector.items_set, List.set_getElem_self]
  cases zones
  simp only [FixedVector.set, FixedVector.mk.injEq]
  exact hitems

/-- A call has handed out `m`, which lies in one of the zones. -/
structure HandsOut (zones : Zones) (held : List Contigous) (released : Nat → Set Nat)
    (order : Nat) (m : Contigous) (t : Zones) : Prop where
  order_eq : m.order = order
  inside : ∃ z, zones.items[m.zone]? = some z ∧ m.bytes ⊆ addresses z
  ledger : ∃ live, Ledger t (m :: held) live released

/-- A zone hands out a block. -/
theorem Ledger.allocated {page order : Nat} (h : Ledger zones held live released)
    (hz : zones.items[i]? = some z) (hpage : page < z.pages) (hsame : Zone.SameZone z w)
    (hvalid : w.Valid (w.pageBlock page order :: live i) (released i)) :
    HandsOut zones held released order ⟨i, some page, order, w.pageAddress page⟩
      (zones.set i w) := by
  set b := w.pageBlock page order with hb
  have hword := z.offset_add_pages_lt
  have hindex : b.index = z.offset + page := by
    change Word64.add w.offset page = _
    rw [hsame.offset_eq, Word64.add_of_lt (by omega)]
  have hmem : b.index ∈ z.offsets := by
    rw [hindex]
    exact ⟨Nat.le_add_right _ _, Nat.add_lt_add_left hpage _⟩
  have hposition : z.pageAt b.index = page := by
    rw [hindex] at hmem ⊢
    exact Zone.pageAt_add hmem
  have hblock : (⟨i, some page, order, w.pageAddress page⟩ : Contigous) = contigous z i b := by
    rw [contigous, hposition, Zone.pageAddress, Zone.pageAddress, hsame.from]
    rfl
  have hnew : b ∉ live i := (List.nodup_cons.mp hvalid.holding.ownedNodup).1
  rw [hblock]
  have hnodup : (contigous z i b :: held).Nodup := by
    refine List.nodup_cons.mpr ⟨fun hheld => ?_, h.nodup⟩
    rcases (h.mem_iff hz _).mp hheld with ⟨_, hne⟩ | ⟨a, ha, heq⟩
    · exact hne rfl
    · exact hnew (contigous_injective hmem (h.index_mem hz ha) heq ▸ ha)
  have hledger : Ledger (zones.set i w) (contigous z i b :: held)
      (Function.update live i (b :: live i)) released := by
    have hupdated := h.update hz hsame hvalid hnodup fun m => ?_
    · rwa [Function.update_eq_self] at hupdated
    have hold := h.mem_iff hz m
    rw [List.mem_cons]
    constructor
    · rintro (rfl | hheld)
      · exact .inr ⟨b, List.mem_cons_self, rfl⟩
      · rcases hold.mp hheld with hother | ⟨a, ha, heq⟩
        · exact .inl hother
        · exact .inr ⟨a, List.mem_cons_of_mem b ha, heq⟩
    · rintro (hother | ⟨a, ha, heq⟩)
      · exact .inr hother.1
      · rcases List.mem_cons.mp ha with rfl | ha
        · exact .inl heq
        · exact .inr (hold.mpr (.inr ⟨a, ha, heq⟩))
  refine ⟨rfl, ⟨z, hz, ?_⟩, _, hledger⟩
  have hw : (zones.set i w).items[i]? = some w := by
    rw [items_set zones hz w, if_pos rfl]
  have hlive : b ∈ Function.update live i (b :: live i) i := by
    rw [Function.update_self]
    exact List.mem_cons_self
  have hsub := (hledger.block hw hlive).2.1
  rwa [contigous_congr hsame, addresses_congr hsame] at hsub

/-- The first zone that has a block hands it out. -/
theorem allocateLoop_spec (h : Ledger zones held live released) (order : Nat) :
    ∀ its : List Nat, (∀ it ∈ its, it < zones.size) →
    (zones.allocateLoop order its = some (none, zones) ∧
        ∀ it ∈ its, ∀ z, zones.items[it]? = some z →
          ∀ m, order ≤ m → m ≤ kMaxOrder → z.view.free m = []) ∨
      ∃ m t, zones.allocateLoop order its = some (some m, t) ∧
        HandsOut zones held released order m t := by
  intro its
  induction its with
  | nil =>
      intro _
      exact .inl ⟨rfl, nofun⟩
  | cons it rest ih =>
      intro hits
      obtain ⟨z, hz⟩ : ∃ z, zones.items[it]? = some z :=
        ⟨_, List.getElem?_eq_getElem (hits it List.mem_cons_self)⟩
      rw [allocateLoop, hz]
      rcases Zone.allocatePages_spec order (h.valid it z hz) with
        ⟨hempty, heq⟩ | ⟨page, w, heq, hpage, hsame, hvalid⟩
      · simp only [Option.bind_eq_bind, Option.bind_some, heq, set_self hz]
        refine (ih fun j hj => hits j (List.mem_cons_of_mem it hj)).imp_left fun hnone => ?_
        refine ⟨hnone.1, fun j hj u hu => ?_⟩
        rcases List.mem_cons.mp hj with rfl | hj
        · rw [hz] at hu
          obtain rfl := Option.some.inj hu
          exact hempty
        · exact hnone.2 j hj u hu
      · simp only [Option.bind_eq_bind, Option.bind_some, heq]
        exact .inr ⟨_, _, rfl, h.allocated hz hpage hsame hvalid⟩

/-- A call fails because the order is too large, or because no zone has a free block of
it or a larger one. -/
theorem Ledger.allocatePhysical {size : Nat} (h : Ledger zones held live released)
    (hpos : 0 < size) :
    (zones.allocatePhysical size = some (none, zones) ∧
        (kMaxOrder < orderFor size ∨ ∀ z ∈ zones.items,
          ∀ m, orderFor size ≤ m → m ≤ kMaxOrder → z.view.free m = [])) ∨
      ∃ m t, zones.allocatePhysical size = some (some m, t) ∧ orderFor size ≤ kMaxOrder ∧
        HandsOut zones held released (orderFor size) m t := by
  rw [Zones.allocatePhysical, if_neg hpos.ne']
  split
  next hgt => exact .inl ⟨rfl, .inl hgt⟩
  next hle =>
    rcases allocateLoop_spec h (orderFor size) (List.range zones.size)
      (fun it hit => List.mem_range.mp hit) with ⟨hcall, hempty⟩ | ⟨m, t, hcall, hm⟩
    · refine .inl ⟨hcall, .inr fun z hz => ?_⟩
      obtain ⟨it, hit⟩ := List.mem_iff_getElem?.mp hz
      exact hempty it (List.mem_range.mpr (List.getElem?_eq_some_iff.mp hit).1) z hit
    · exact .inr ⟨m, t, hcall, Nat.le_of_not_lt hle, hm⟩

theorem allocatePhysical_spec {size : Nat} (h : Holds zones held) (hpos : 0 < size) :
    zones.allocatePhysical size = some (none, zones) ∨
      ∃ m t, zones.allocatePhysical size = some (some m, t) ∧ m.order = orderFor size ∧
        Holds t (m :: held) := by
  obtain ⟨live, released, hledger⟩ := h
  rcases hledger.allocatePhysical hpos with ⟨hcall, _⟩ | ⟨m, t, hcall, _, hm⟩
  · exact .inl hcall
  · obtain ⟨live', hledger'⟩ := hm.ledger
    exact .inr ⟨m, t, hcall, hm.order_eq, live', released, hledger'⟩

theorem Ledger.freePhysical {m : Contigous} (h : Ledger zones (m :: held) live released) :
    ∃ t live', zones.freePhysical m = some t ∧ Ledger t held live' released := by
  obtain ⟨i, z, hz, b, hb, rfl⟩ := (h.mem m).mp List.mem_cons_self
  obtain ⟨hproper, _, _⟩ := h.block hz hb
  obtain ⟨w, hw, hsame, hvalid⟩ := Zone.freePages_live (h.valid i z hz) hb
  obtain ⟨hnew, hnodup⟩ := List.nodup_cons.mp h.nodup
  have hlive : (live i).Nodup := (h.valid i z hz).holding.ownedNodup
  refine ⟨zones.set i w, Function.update live i ((live i).erase b), ?_, ?_⟩
  · rw [Zones.freePhysical, if_neg hproper.size_pos.ne']
    change zones.items[i]?.bind _ = _
    rw [hz, Option.bind_some]
    change (z.freePages (z.pageAt b.index)).bind _ = _
    rw [hw]
    rfl
  · have hupdated := h.update hz hsame hvalid hnodup fun m => ?_
    · rwa [Function.update_eq_self] at hupdated
    have hmem := h.mem_iff hz m
    constructor
    · intro hm
      have hne : m ≠ contigous z i b := fun heq => hnew (heq ▸ hm)
      rcases hmem.mp (List.mem_cons_of_mem _ hm) with hother | ⟨a, ha, rfl⟩
      · exact .inl hother
      · exact .inr ⟨a, (hlive.mem_erase_iff).mpr ⟨fun heq => hne (heq ▸ rfl), ha⟩, rfl⟩
    · intro hm
      have hheld : m ∈ contigous z i b :: held ∧ m ≠ contigous z i b := by
        rcases hm with hother | ⟨a, ha, rfl⟩
        · exact ⟨hother.1, fun heq => hother.2 (heq ▸ rfl)⟩
        · obtain ⟨hne, ha⟩ := (hlive.mem_erase_iff).mp ha
          refine ⟨hmem.mpr (.inr ⟨a, ha, rfl⟩), fun heq => hne ?_⟩
          exact contigous_injective (h.index_mem hz ha) (h.index_mem hz hb) heq
      exact (List.mem_cons.mp hheld.1).resolve_left hheld.2

theorem freePhysical_spec {m : Contigous} (h : Holds zones (m :: held)) :
    ∃ t, zones.freePhysical m = some t ∧ Holds t held := by
  obtain ⟨live, released, hledger⟩ := h
  obtain ⟨t, live', hcall, hledger'⟩ := hledger.freePhysical
  exact ⟨t, hcall, live', released, hledger'⟩

theorem Ledger.proper (h : Ledger zones held live released) : ∀ m ∈ held, m.Proper := by
  intro m hm
  obtain ⟨i, z, hz, b, hb, rfl⟩ := (h.mem m).mp hm
  exact (h.block hz hb).1

theorem Ledger.pairwise_disjoint (h : Ledger zones held live released) :
    held.Pairwise fun m n => Disjoint m.bytes n.bytes := by
  refine h.nodup.imp_of_mem ?_
  intro m n hm hn hne
  obtain ⟨i, z, hz, a, ha, rfl⟩ := (h.mem m).mp hm
  obtain ⟨j, w, hw, b, hb, rfl⟩ := (h.mem n).mp hn
  exact h.disjoint hz hw ha hb hne

theorem Ledger.perm {held' : List Contigous} (h : Ledger zones held live released)
    (hperm : held.Perm held') : Ledger zones held' live released :=
  { h with
    nodup := hperm.nodup_iff.mp h.nodup
    mem := fun m => hperm.mem_iff.symm.trans (h.mem m) }

theorem Holds.proper (h : Holds zones held) : ∀ m ∈ held, m.Proper := by
  obtain ⟨live, released, hledger⟩ := h
  exact hledger.proper

theorem Holds.disjoint (h : Holds zones held) :
    held.Pairwise fun m n => Disjoint m.bytes n.bytes := by
  obtain ⟨live, released, hledger⟩ := h
  exact hledger.pairwise_disjoint

theorem Holds.perm {held' : List Contigous} (h : Holds zones held) (hperm : held.Perm held') :
    Holds zones held' := by
  obtain ⟨live, released, hledger⟩ := h
  exact ⟨live, released, hledger.perm hperm⟩

/-- The zones keep the promise that the clients of physical memory rely on. -/
def memory : PhysicalMemory Zones where
  allocate := allocatePhysical
  free := freePhysical
  Holds := Holds
  perm := Holds.perm
  proper := Holds.proper
  disjoint := Holds.disjoint
  allocate_spec h hpos _ := by
    rcases allocatePhysical_spec h hpos with hnone | hsome
    · exact .inl ⟨_, hnone, h⟩
    · exact .inr hsome
  free_spec := freePhysical_spec

/-! ## One zone -/

/-- A system of one zone: `pages` pages from number `index` on, the first `2 ^ order`
of them free and the others reserved. -/
def board (index pages order : Nat) (hfits : pages * 32 ≤ 2 ^ 64)
    (hfrom : index * 2 ^ kPageBits < 2 ^ 64) : Option Zones := do
  let z ← (Zone.new (List.replicate pages Page.zero) (index * 2 ^ kPageBits)
    (Word64.add (index * 2 ^ kPageBits) (Word64.shl pages kPageBits))
    (by rwa [List.length_replicate]) hfrom).freePagesOrder (index * 2 ^ kPageBits) order
  return ⟨[z], (by decide : 1 ≤ 32)⟩

/-- Nobody holds memory of it. -/
theorem board_spec (index pages order : Nat) (hfits : pages * 32 ≤ 2 ^ 64)
    (hend : index * 2 ^ kPageBits + pages * 2 ^ kPageBits < 2 ^ 64) (horder : order ≤ kMaxOrder)
    (hroom : 2 ^ order ≤ pages) (haligned : 2 ^ order ∣ index) :
    ∃ zones, board index pages order hfits (Nat.lt_of_le_of_lt (Nat.le_add_right ..) hend) =
      some zones ∧ Holds zones [] := by
  have hfrom := Nat.lt_of_le_of_lt (Nat.le_add_right ..) hend
  have hlength : (List.replicate pages Page.zero).length * 32 ≤ 2 ^ 64 := by
    rwa [List.length_replicate]
  set z := Zone.new (List.replicate pages Page.zero) (index * 2 ^ kPageBits)
    (Word64.add (index * 2 ^ kPageBits) (Word64.shl pages kPageBits)) hlength hfrom with hz
  have hpages : z.pages = pages := List.length_replicate
  have hshift : (index * 2 ^ kPageBits) >>> kPageBits = index := by
    rw [Nat.shiftRight_eq_div_pow, Nat.mul_div_cancel _ (Nat.two_pow_pos _)]
  have hoffset : z.offset = index := hshift
  have hwithin : Block.pages ⟨index, order⟩ ⊆ z.offsets := by
    rw [Zone.offsets, hpages, hoffset]
    exact Set.Ico_subset_Ico_right (Nat.add_le_add_left hroom index)
  have hvalid : z.Valid [] ∅ :=
    Zone.new_valid hlength hfrom fun p hp => List.eq_of_mem_replicate hp
  have haligned' : 2 ^ order ∣ (index * 2 ^ kPageBits) >>> kPageBits := by rwa [hshift]
  have hwithin' : Block.pages ⟨(index * 2 ^ kPageBits) >>> kPageBits, order⟩ ⊆ z.offsets := by
    rwa [hshift]
  obtain ⟨w, hw, hsame, hreleased⟩ :=
    Zone.freePagesOrder_spec hvalid horder haligned' hwithin' (Set.disjoint_empty _)
  have hpage : PageAligned z := ⟨Nat.dvd_mul_left .., by rw [hpages]; exact hend⟩
  set released := ∅ ∪ Block.pages ⟨(index * 2 ^ kPageBits) >>> kPageBits, order⟩
  have honly : ∀ (i : Nat) (u : Zone), [w][i]? = some u → u = w ∧ i = 0 := by
    intro i u hu
    cases i with
    | zero => exact ⟨(Option.some.inj hu).symm, rfl⟩
    | succ i => cases hu
  refine ⟨⟨[w], (by decide : 1 ≤ 32)⟩, ?_, fun _ => [], fun _ => released, ?_, ?_, ?_,
    List.nodup_nil, ?_⟩
  · rw [board, ← hz, hw]
    rfl
  · intro i u hu
    obtain ⟨rfl, _⟩ := honly i u hu
    exact hreleased
  · intro i u hu
    obtain ⟨rfl, _⟩ := honly i u hu
    exact hpage.congr hsame
  · intro i j u v hu hv hne
    exact absurd ((honly i u hu).2.trans (honly j v hv).2.symm) hne
  · intro m
    refine ⟨fun hm => absurd hm List.not_mem_nil, ?_⟩
    rintro ⟨_, _, _, _, hb, _⟩
    exact absurd hb List.not_mem_nil

end Zones

end Aarch64.Cxx
