import Aarch64.Cxx.Physical.Zones

/-!
# Runs of physical memory

The system is the zones, the blocks that its callers hold, and the pages that have
been released to each zone. Whether memory is free is defined by the callers' side
alone: it has been released, and no block that is held contains it. The free lists
are complete for that notion, so an allocation fails only if nothing fits.
-/

namespace Aarch64.Cxx

open Dyadic (Block)

/-! ## The bounds of a zone -/

namespace Zone

/-- The fields that no call writes. -/
def bounds (z : Zone) : Nat × Nat × Nat := (z.fromAddress, z.toAddress, z.pages)

variable {z w : Zone} {page order : Nat}

@[simp] theorem bounds_setPage (z : Zone) (page : Nat) (p : Page) : (z.setPage page p).bounds = z.bounds := by
  simp only [bounds, setPage, pages, List.length_set]

theorem bounds_link (h : z.link order page = some w) : w.bounds = z.bounds := by
  rw [link] at h
  split at h
  · split at h
    · cases h
    · cases h
      rfl
  · cases h

theorem bounds_unlink (h : z.unlink order page = some w) : w.bounds = z.bounds := by
  rw [unlink] at h
  split at h
  · split at h
    · cases h
      rfl
    · cases h
  · cases h

theorem bounds_popFront {head : Option Nat} (h : z.popFront order = some (head, w)) :
    w.bounds = z.bounds := by
  rw [popFront] at h
  split at h
  · split at h <;> cases h <;> rfl
  · cases h

theorem bounds_splitLoop {index : Nat} : ∀ (orders : List Nat) (z : Zone),
    z.splitLoop index orders = some w → w.bounds = z.bounds := by
  intro orders
  induction orders with
  | nil =>
      intro z h
      cases h
      rfl
  | cons order rest ih =>
      intro z h
      simp only [splitLoop, Option.bind_eq_bind, Option.bind_eq_some_iff] at h
      obtain ⟨p, _, u, hlink, hrest⟩ := h
      exact (ih u hrest).trans ((bounds_link hlink).trans (bounds_setPage ..))

theorem bounds_split {level : Nat} (h : z.split page level order = some w) :
    w.bounds = z.bounds := by
  simp only [split, Option.bind_eq_bind, Option.bind_eq_some_iff] at h
  obtain ⟨u, hloop, p, _, h⟩ := h
  cases h
  exact (bounds_setPage ..).trans (bounds_splitLoop _ z hloop)

theorem bounds_allocateLoop {head : Option Nat} : ∀ (orders : List Nat) (z : Zone),
    z.allocateLoop order orders = some (head, w) → w.bounds = z.bounds := by
  intro orders
  induction orders with
  | nil =>
      intro z h
      cases h
      rfl
  | cons level rest ih =>
      intro z h
      simp only [allocateLoop, Option.bind_eq_bind, Option.bind_eq_some_iff] at h
      obtain ⟨⟨front, u⟩, hpop, h⟩ := h
      have hbounds := bounds_popFront hpop
      cases front with
      | none => exact (ih u h).trans hbounds
      | some first =>
          obtain ⟨v, hsplit, h⟩ := Option.bind_eq_some_iff.mp h
          cases h
          exact (bounds_split hsplit).trans hbounds

theorem bounds_uniteLoop {index : Nat} {result : Nat × Nat}
    (h : z.uniteLoop page index order = some (w, result)) : w.bounds = z.bounds := by
  induction z, page, index, order using uniteLoop.induct with
  | case1 z page index order hlt buddyOffset hout =>
      rw [uniteLoop, if_pos hlt, if_pos hout] at h
      cases h
      rfl
  | case2 z page index order hlt buddyOffset hin buddy ih =>
      rw [uniteLoop, if_pos hlt, if_neg hin, Option.bind_eq_bind, Option.bind_eq_some_iff] at h
      obtain ⟨p, _, h⟩ := h
      split at h
      next =>
        cases h
        rfl
      next hfree =>
        obtain ⟨u, hunlink, h⟩ := Option.bind_eq_some_iff.mp h
        exact (ih p hfree u h).trans (bounds_unlink hunlink)
  | case3 z page index order hge =>
      rw [uniteLoop, if_neg hge] at h
      cases h
      rfl

theorem bounds_unite {level : Nat} (h : z.unite page level = some w) : w.bounds = z.bounds := by
  simp only [unite, Option.bind_eq_bind, Option.bind_eq_some_iff] at h
  obtain ⟨⟨u, page', order'⟩, hloop, p, _, hlink⟩ := h
  exact (bounds_link hlink).trans ((bounds_setPage ..).trans (bounds_uniteLoop hloop))

theorem bounds_freePages (h : z.freePages page = some w) : w.bounds = z.bounds := by
  simp only [freePages, Option.bind_eq_bind, Option.bind_eq_some_iff] at h
  obtain ⟨p, _, u, hunite, h⟩ := h
  have hbounds := bounds_unite hunite
  split at h
  · cases h
    exact hbounds
  · cases h

theorem bounds_freePagesOrder {addr : Nat} (h : z.freePagesOrder addr order = some w) :
    w.bounds = z.bounds := by
  simp only [freePagesOrder, Option.bind_eq_bind, Option.bind_eq_some_iff] at h
  obtain ⟨p, _, h⟩ := h
  exact (bounds_freePages h).trans (bounds_setPage ..)

end Zone

namespace Zones

def bounds (zones : Zones) : List (Nat × Nat × Nat) := zones.items.map Zone.bounds

variable {zones t : Zones} {z w : Zone} {i : Nat}

theorem bounds_set (hz : zones.items[i]? = some z) (h : w.bounds = z.bounds) :
    Zones.bounds (zones.set i w) = zones.bounds := by
  obtain ⟨hi, rfl⟩ := List.getElem?_eq_some_iff.mp hz
  rw [bounds, FixedVector.items_set, List.map_set, h, ← List.getElem_map Zone.bounds,
    List.set_getElem_self]
  · rfl
  · rwa [List.length_map]

theorem bounds_allocateLoop {order : Nat} {mem : Option Contigous} :
    ∀ (its : List Nat) (zones : Zones), zones.allocateLoop order its = some (mem, t) →
      t.bounds = zones.bounds := by
  intro its
  induction its with
  | nil =>
      intro zones h
      cases h
      rfl
  | cons it rest ih =>
      intro zones h
      simp only [allocateLoop, Option.bind_eq_bind, Option.bind_eq_some_iff] at h
      obtain ⟨z, hz, ⟨pages, w⟩, hcall, h⟩ := h
      have hset := bounds_set hz (Zone.bounds_allocateLoop _ z hcall)
      cases pages with
      | none => exact (ih _ h).trans hset
      | some pages =>
          cases h
          exact hset

theorem bounds_allocatePhysical {size : Nat} {mem : Option Contigous}
    (h : zones.allocatePhysical size = some (mem, t)) : t.bounds = zones.bounds := by
  rw [allocatePhysical] at h
  split at h
  · cases h
    rfl
  · split at h
    · cases h
      rfl
    · exact bounds_allocateLoop _ zones h

theorem bounds_freePhysical {mem : Contigous} (h : zones.freePhysical mem = some t) :
    t.bounds = zones.bounds := by
  simp only [freePhysical] at h
  split at h
  · cases h
    rfl
  · simp only [Option.bind_eq_bind, Option.bind_eq_some_iff] at h
    obtain ⟨z, hz, pages, _, w, hcall, h⟩ := h
    cases h
    exact bounds_set hz (Zone.bounds_freePages hcall)

/-! ## Runs -/

/-- Zones as `CreateZones` makes them: over zeroed records and apart from each other. -/
structure Fresh (zones : Zones) : Prop where
  zeroed : ∀ z ∈ zones.items, ∃ page fromAddress toAddress hfits hfrom,
    z = Zone.new page fromAddress toAddress hfits hfrom ∧ ∀ p ∈ page, p = Page.zero
  aligned : ∀ z ∈ zones.items, PageAligned z
  toAddress_eq : ∀ z ∈ zones.items, z.toAddress = z.fromAddress + z.pages * 2 ^ kPageBits
  apart : zones.items.Pairwise fun z w => Disjoint (addresses z) (addresses w)

structure Config where
  zones : Zones
  held : List Contigous
  released : Nat → Set Nat

inductive Op
  | seed (it addr order : Nat)
  | allocate (size : Nat)
  | free (mem : Contigous)
  | freeAt (addr : Nat)

/-- What the callers have to respect. Any number of bytes may be asked for. -/
def Op.Allowed (c : Config) : Op → Prop
  | .seed it addr order => ∃ z, c.zones.items[it]? = some z ∧ order ≤ kMaxOrder ∧
      (Zone.addrBlock addr order).Aligned ∧ (Zone.addrBlock addr order).pages ⊆ z.offsets ∧
      Disjoint (Zone.addrBlock addr order).pages (c.released it)
  | .allocate size => size < 2 ^ 64
  | .free mem => mem ∈ c.held
  | .freeAt addr => ∃ m ∈ c.held, m.fromAddress = addr

/-- One call. Nobody holds the block of no bytes, and a block at address 0 stays held
when it is freed by its address. -/
def Op.run (c : Config) : Op → Option Config
  | .seed it addr order => do
      let z ← c.zones.items[it]?
      let z ← z.freePagesOrder addr order
      return ⟨c.zones.set it z, c.held,
        Function.update c.released it (c.released it ∪ (Zone.addrBlock addr order).pages)⟩
  | .allocate size => do
      let (mem, zones) ← c.zones.allocatePhysical size
      return ⟨zones, (mem.toList.filter fun m => !m.isNull) ++ c.held, c.released⟩
  | .free mem => do
      let zones ← c.zones.freePhysical mem
      return ⟨zones, c.held.erase mem, c.released⟩
  | .freeAt addr => do
      let zones ← c.zones.freePhysicalAt addr
      return ⟨zones, if addr = 0 then c.held else c.held.eraseP fun m => m.fromAddress = addr,
        c.released⟩

def Step (c d : Config) : Prop := ∃ op : Op, op.Allowed c ∧ op.run c = some d

def Reachable (zones : Zones) (c : Config) : Prop :=
  Relation.ReflTransGen Step ⟨zones, [], fun _ => ∅⟩ c

structure Config.Valid (c : Config) : Prop where
  ledger : ∃ live, Ledger c.zones c.held live c.released
  toAddress_eq : ∀ b ∈ c.zones.bounds, b.2.1 = b.1 + b.2.2 * 2 ^ kPageBits

theorem Fresh.valid (h : Fresh zones) : Config.Valid ⟨zones, [], fun _ => ∅⟩ := by
  refine ⟨⟨fun _ => [], fun i z hz => ?_, fun i z hz => ?_, fun i j z w hz hw hij => ?_,
    List.nodup_nil, fun m => ⟨nofun, ?_⟩⟩, fun b hb => ?_⟩
  · obtain ⟨page, _, _, hfits, hfrom, rfl, hzero⟩ := h.zeroed z (List.mem_of_getElem? hz)
    exact Zone.new_valid hfits hfrom hzero
  · exact h.aligned z (List.mem_of_getElem? hz)
  · obtain ⟨hi, rfl⟩ := List.getElem?_eq_some_iff.mp hz
    obtain ⟨hj, rfl⟩ := List.getElem?_eq_some_iff.mp hw
    have hapart := List.pairwise_iff_getElem.mp h.apart
    rcases Nat.lt_or_gt_of_ne hij with hlt | hgt
    · exact hapart i j hi hj hlt
    · exact (hapart j i hj hi hgt).symm
  · rintro ⟨_, _, _, _, hb, _⟩
    exact absurd hb List.not_mem_nil
  · obtain ⟨z, hz, rfl⟩ := List.mem_map.mp hb
    exact h.toAddress_eq z hz

variable {held : List Contigous} {live : Nat → List Block} {released : Nat → Set Nat}

/-- Freeing a block by its address is freeing the block. -/
theorem Ledger.freePhysicalAt_eq {m : Contigous} (h : Ledger zones held live released)
    (hends : ∀ b ∈ zones.bounds, b.2.1 = b.1 + b.2.2 * 2 ^ kPageBits) (hm : m ∈ held)
    (haddr : m.fromAddress ≠ 0) :
    zones.freePhysicalAt m.fromAddress = zones.freePhysical m := by
  obtain ⟨i, z, hz, b, hb, rfl⟩ := (h.mem m).mp hm
  obtain ⟨hproper, hsub, _⟩ := h.block hz hb
  have haddress := (h.aligned i z hz).address_eq (i := i) (h.index_mem hz hb)
  have hfirst : (contigous z i b).fromAddress ∈ (contigous z i b).bytes :=
    ⟨Nat.le_refl _, Nat.lt_add_of_pos_right hproper.size_pos⟩
  have hinside : ∀ w ∈ zones.items, (decide (w.fromAddress ≤ (contigous z i b).fromAddress) &&
      decide ((contigous z i b).fromAddress < w.toAddress)) = true ↔
        (contigous z i b).fromAddress ∈ addresses w := by
    intro w hw
    have hend : w.toAddress = _ := hends _ (List.mem_map_of_mem hw)
    rw [Bool.and_eq_true, decide_eq_true_eq, decide_eq_true_eq, hend]
    exact Iff.rfl
  have hfind : zones.addressZone (contigous z i b).fromAddress = some i := by
    obtain ⟨hi, rfl⟩ := List.getElem?_eq_some_iff.mp hz
    rw [addressZone, List.findIdx?_eq_some_iff_getElem]
    refine ⟨hi, (hinside _ (List.getElem_mem hi)).mpr (hsub hfirst), fun j hj hother => ?_⟩
    have hjlt := Nat.lt_trans hj hi
    have hmem := (hinside _ (List.getElem_mem hjlt)).mp hother
    exact Set.disjoint_left.mp (h.apart j i _ _ (List.getElem?_eq_getElem hjlt) hz hj.ne) hmem
      (hsub hfirst)
  have hoffset : (contigous z i b).fromAddress >>> kPageBits = b.index := by
    rw [haddress, Nat.shiftRight_eq_div_pow, Nat.mul_div_cancel _ (Nat.two_pow_pos _)]
  rw [freePhysicalAt, if_neg haddr, hfind, Zones.freePhysical, if_neg hproper.size_pos.ne']
  change zones.items[i]?.bind _ = zones.items[i]?.bind _
  rw [hz, Option.bind_some, Option.bind_some, Zone.freePagesAt, hoffset]
  rfl

theorem Ledger.seed {it addr order : Nat} (h : Ledger zones held live released)
    (hz : zones.items[it]? = some z) (horder : order ≤ kMaxOrder)
    (haligned : (Zone.addrBlock addr order).Aligned)
    (hwithin : (Zone.addrBlock addr order).pages ⊆ z.offsets)
    (hnew : Disjoint (Zone.addrBlock addr order).pages (released it)) :
    ∃ w, z.freePagesOrder addr order = some w ∧ Ledger (zones.set it w) held live
      (Function.update released it (released it ∪ (Zone.addrBlock addr order).pages)) := by
  obtain ⟨w, hw, hsame, hvalid⟩ :=
    Zone.freePagesOrder_spec (h.valid it z hz) horder haligned hwithin hnew
  refine ⟨w, hw, ?_⟩
  have hupdated := h.update hz hsame hvalid h.nodup (h.mem_iff hz)
  rwa [Function.update_eq_self] at hupdated

/-- Every allowed call returns and keeps the invariant. -/
theorem Op.run_spec {c : Config} (h : c.Valid) (op : Op) (hop : op.Allowed c) :
    ∃ d, op.run c = some d ∧ d.Valid := by
  obtain ⟨⟨live, hledger⟩, hends⟩ := h
  cases op with
  | seed it addr order =>
      obtain ⟨z, hz, horder, haligned, hwithin, hnew⟩ := hop
      obtain ⟨w, hw, hledger'⟩ := hledger.seed hz horder haligned hwithin hnew
      refine ⟨_, by simp only [run, Option.bind_eq_bind, hz, Option.bind_some, hw]; rfl,
        ⟨live, hledger'⟩, ?_⟩
      rw [bounds_set hz (Zone.bounds_freePagesOrder hw)]
      exact hends
  | allocate size =>
      by_cases hzero : size = 0
      · subst hzero
        exact ⟨c, rfl, ⟨live, hledger⟩, hends⟩
      · rcases hledger.allocatePhysical (Nat.pos_of_ne_zero hzero) with
          ⟨hcall, _⟩ | ⟨m, t, hcall, _, hm⟩
        · exact ⟨c, by simp only [run, hcall]; rfl, ⟨live, hledger⟩, hends⟩
        · obtain ⟨live', hledger'⟩ := hm.ledger
          have hnonnull := (hledger'.proper m List.mem_cons_self).nonnull
          refine ⟨⟨t, m :: c.held, c.released⟩, ?_, ⟨live', hledger'⟩, ?_⟩
          · simp [run, hcall, hnonnull]
          · rw [bounds_allocatePhysical hcall]
            exact hends
  | free mem =>
      have hperm := List.perm_cons_erase (l := c.held) hop
      obtain ⟨t, live', hcall, hledger'⟩ := (hledger.perm hperm).freePhysical
      refine ⟨⟨t, _, c.released⟩, by simp only [run, hcall]; rfl, ⟨live', hledger'⟩, ?_⟩
      rw [bounds_freePhysical hcall]
      exact hends
  | freeAt addr =>
      obtain ⟨m, hm, haddr⟩ := hop
      by_cases hzero : addr = 0
      · subst hzero
        exact ⟨c, rfl, ⟨live, hledger⟩, hends⟩
      · obtain ⟨a, front, rest, _, ha, hsplit, herase⟩ := List.exists_of_eraseP
          (p := fun m : Contigous => decide (m.fromAddress = addr)) hm (decide_eq_true haddr)
        obtain rfl := of_decide_eq_true ha
        have hperm : c.held.Perm (a :: (front ++ rest)) := by
          rw [hsplit]
          exact List.perm_middle
        obtain ⟨t, live', hcall, hledger'⟩ := (hledger.perm hperm).freePhysical
        refine ⟨⟨t, front ++ rest, c.released⟩, ?_, ⟨live', hledger'⟩, ?_⟩
        · have hmem : a ∈ c.held := hperm.mem_iff.mpr List.mem_cons_self
          simp only [run, hledger.freePhysicalAt_eq hends hmem hzero, hcall, if_neg hzero, herase]
          rfl
        · rw [bounds_freePhysical hcall]
          exact hends

theorem Reachable.valid {c : Config} (hzones : Fresh zones) (hrun : Reachable zones c) :
    c.Valid := by
  induction hrun with
  | refl => exact hzones.valid
  | tail _ hstep ih =>
      obtain ⟨op, hop, heq⟩ := hstep
      obtain ⟨d, hd, hvalid⟩ := op.run_spec ih hop
      rw [heq] at hd
      obtain rfl := Option.some.inj hd
      exact hvalid

/-! ## Allocation -/

/-- The size of the block for a request: the least power of two that holds the request and
a page. -/
def IsBlockSize (size p : Nat) : Prop :=
  IsLeast {q | (∃ k, q = 2 ^ k) ∧ max size (2 ^ kPageBits) ≤ q} p

theorem isBlockSize_orderFor {size : Nat} (hpos : 0 < size) (hword : size < 2 ^ 64) :
    IsBlockSize size (2 ^ (orderFor size + kPageBits)) := by
  refine ⟨⟨⟨_, rfl⟩, Nat.max_le.mpr ⟨le_orderFor hpos hword, ?_⟩⟩, ?_⟩
  · exact Nat.pow_le_pow_right (by decide) (Nat.le_add_left _ _)
  · rintro _ ⟨⟨k, rfl⟩, hle⟩
    obtain ⟨hsize, hpage⟩ := Nat.max_le.mp hle
    have hk : kPageBits ≤ k := (Nat.pow_le_pow_iff_right (by decide)).mp hpage
    refine Nat.pow_le_pow_right (by decide) ?_
    rcases Nat.eq_or_lt_of_le hpos with hone | hone
    · subst hone
      change 0 + kPageBits ≤ k
      omega
    · obtain ⟨j, hj, _, hlt⟩ := roundUp_spec hone hword
      have hjk : j < k + 1 := by
        refine (Nat.pow_lt_pow_iff_right (by decide : 1 < 2)).mp ?_
        rw [Nat.pow_succ]
        omega
      rw [orderFor, Word64.sub_of_le hpos hword, Int.add_comm, hj, Int.toNat_natCast,
        Nat.sub_add_cancel (Nat.le_max_right ..)]
      exact Nat.max_le.mpr ⟨Nat.le_of_lt_succ hjk, hk⟩

/-- The addresses that were released to zone number `it` and belong to no block that is
held. -/
def Config.freeBytes (c : Config) (it : Nat) : Set Nat :=
  {x | x / 2 ^ kPageBits ∈ c.released it ∧ ∀ m ∈ c.held, x ∉ m.bytes}

/-- A call of `AllocatePhysical`, where `p` is the size of the block for the request. It
fails, and changes nothing, exactly when no block of that size can exist or no zone has
one that is free. -/
structure Allocates (c : Config) (p : Nat) (result : Option Contigous) (t : Zones) : Prop where
  size_eq : ∀ m, result = some m → m.size = p
  aligned : ∀ m, result = some m → m.size ∣ m.fromAddress
  inside : ∀ m, result = some m → ∃ z ∈ c.zones.items,
    Set.Ico m.fromAddress m.toAddress ⊆ addresses z
  apart : ∀ m, result = some m → ∀ n ∈ c.held,
    Disjoint (Set.Ico m.fromAddress m.toAddress) (Set.Ico n.fromAddress n.toAddress)
  none_iff : result = none ↔ 2 ^ (kMaxOrder + kPageBits) < p ∨
    ∀ it < c.zones.size, ∀ a, p ∣ a → ¬ Set.Ico a (a + p) ⊆ c.freeBytes it
  unchanged : result = none → t = c.zones

theorem mem_pages_iff {x : Nat} {b : Block} : x / 2 ^ kPageBits ∈ b.pages ↔
    x ∈ Packing.cells (b.index * 2 ^ kPageBits, b.size * 2 ^ kPageBits) := by
  change b.index ≤ x / 4096 ∧ x / 4096 < b.index + b.size ↔
    b.index * 4096 ≤ x ∧ x < b.index * 4096 + b.size * 4096
  omega

/-- An address is free exactly when its page is in a free block of the zone. -/
theorem Ledger.mem_freeBytes_iff {c : Config} {live : Nat → List Block} {it x : Nat}
    (h : Ledger c.zones c.held live c.released) (hz : c.zones.items[it]? = some z) :
    x ∈ c.freeBytes it ↔ x / 2 ^ kPageBits ∈ z.view.freeSet := by
  have hinv := (h.valid it z hz).holding
  rw [Buddy.Inv.mem_freeSet_iff hinv]
  refine and_congr_right fun hreleased => ⟨fun hheld b hb hx => ?_, fun hlive m hm hx => ?_⟩
  · refine hheld (contigous z it b) ((h.mem _).mpr ⟨it, z, hz, b, hb, rfl⟩) ?_
    rw [(h.block hz hb).2.2]
    exact mem_pages_iff.mp hx
  · obtain ⟨j, w, hw, b, hb, rfl⟩ := (h.mem m).mp hm
    obtain ⟨_, hsub, hbytes⟩ := h.block hw hb
    by_cases hij : it = j
    · subst hij
      rw [hz] at hw
      obtain rfl := Option.some.inj hw
      rw [hbytes] at hx
      exact hlive b hb (mem_pages_iff.mpr hx)
    · refine Set.disjoint_left.mp (h.apart it j z w hz hw hij) ?_ (hsub hx)
      obtain ⟨b', hb', hpage⟩ := (hinv.tiling.cover _).mp hreleased
      have hoffset : x / 4096 ∈ z.offsets := hinv.within hb' hpage
      have hfrom := (h.aligned it z hz).from_eq
      change z.fromAddress = z.offset * 4096 at hfrom
      obtain ⟨hge, hlt⟩ := hoffset
      change z.fromAddress ≤ x ∧ x < z.fromAddress + z.pages * 4096
      omega

/-- A zone has free memory for an order exactly when one of its lists from there on has a
block. -/
theorem Ledger.exists_free_iff {c : Config} {live : Nat → List Block} {it order : Nat}
    (h : Ledger c.zones c.held live c.released) (hz : c.zones.items[it]? = some z)
    (horder : order ≤ kMaxOrder) :
    (∃ m, order ≤ m ∧ m ≤ kMaxOrder ∧ z.view.free m ≠ []) ↔
      ∃ a, 2 ^ (order + kPageBits) ∣ a ∧
        Set.Ico a (a + 2 ^ (order + kPageBits)) ⊆ c.freeBytes it := by
  rw [Buddy.Inv.exists_free_iff (h.valid it z hz).holding horder]
  have hpow : 2 ^ (order + kPageBits) = 2 ^ order * 4096 := Nat.pow_add ..
  rw [hpow]
  constructor
  · rintro ⟨i, haligned, hsub⟩
    refine ⟨i * 4096, Nat.mul_dvd_mul_right haligned 4096, fun x hx => ?_⟩
    rw [h.mem_freeBytes_iff hz]
    exact hsub (mem_pages_iff.mpr hx)
  · rintro ⟨_, ⟨q, rfl⟩, hsub⟩
    refine ⟨2 ^ order * q, Nat.dvd_mul_right _ q, ?_⟩
    rintro j ⟨hge, hlt⟩
    change 2 ^ order * q ≤ j at hge
    change j < 2 ^ order * q + 2 ^ order at hlt
    have hstart : 2 ^ order * 4096 * q = 2 ^ order * q * 4096 := by ring
    have hx := hsub (a := j * 4096) ⟨by omega, by omega⟩
    rw [h.mem_freeBytes_iff hz] at hx
    change j * 4096 / 4096 ∈ _ at hx
    rwa [Nat.mul_div_cancel _ (by decide)] at hx

theorem Ledger.allocates {c : Config} {live : Nat → List Block} {size : Nat}
    (h : Ledger c.zones c.held live c.released) (hpos : 0 < size) :
    ∃ result t, c.zones.allocatePhysical size = some (result, t) ∧
      Allocates c (2 ^ (orderFor size + kPageBits)) result t := by
  rcases h.allocatePhysical hpos with ⟨hcall, hempty⟩ | ⟨m, t, hcall, hle, hm⟩
  · refine ⟨none, c.zones, hcall, nofun, nofun, nofun, nofun, iff_of_true rfl ?_, fun _ => rfl⟩
    rcases Nat.lt_or_ge kMaxOrder (orderFor size) with hgt | hle
    · exact .inl (Nat.pow_lt_pow_right (by decide) (Nat.add_lt_add_right hgt _))
    · refine .inr fun it hit a haligned hfree => ?_
      have hz := List.getElem?_eq_getElem (l := c.zones.items) hit
      obtain ⟨m, hm, hmax, hne⟩ := (h.exists_free_iff hz hle).mpr ⟨a, haligned, hfree⟩
      have hnone := hempty.resolve_left (Nat.not_lt_of_le hle)
      exact hne (hnone _ (List.getElem_mem hit) m hm hmax)
  · obtain ⟨live', hledger⟩ := hm.ledger
    have hproper := hledger.proper m List.mem_cons_self
    have hsize : m.size = 2 ^ (orderFor size + kPageBits) := by
      rw [hproper.size_eq, hm.order_eq]
    have hdisjoint := (List.pairwise_cons.mp hledger.pairwise_disjoint).1
    have hbytes : ∀ n ∈ m :: c.held, Set.Ico n.fromAddress n.toAddress = n.bytes := by
      intro n hn
      rw [(hledger.proper n hn).toAddress_eq]
      rfl
    have hself := hbytes m List.mem_cons_self
    obtain ⟨z, hz, hsub⟩ := hm.inside
    refine ⟨some m, t, hcall, ?_, ?_, ?_, ?_, iff_of_false nofun ?_, nofun⟩
    · rintro _ ⟨⟩
      exact hsize
    · rintro _ ⟨⟩
      rw [hproper.size_eq]
      exact hproper.aligned
    · rintro _ ⟨⟩
      rw [hself]
      exact ⟨z, List.mem_of_getElem? hz, hsub⟩
    · rintro _ ⟨⟩ n hn
      rw [hself, hbytes n (List.mem_cons_of_mem _ hn)]
      exact hdisjoint n hn
    · rintro (hgt | hno)
      · exact absurd hgt (Nat.not_lt_of_le (Nat.pow_le_pow_right (by decide)
          (Nat.add_le_add_right hle _)))
      · -- the block itself was free before the call
        refine hno m.zone (List.getElem?_eq_some_iff.mp hz).1 m.fromAddress
          (hm.order_eq ▸ hproper.aligned) fun x hx => ?_
        rw [← hsize] at hx
        refine ⟨?_, fun n hn hxn => Set.disjoint_left.mp (hdisjoint n hn) hx hxn⟩
        obtain ⟨i, w, hw, b, hb, rfl⟩ := (hledger.mem m).mp List.mem_cons_self
        change x ∈ (contigous w i b).bytes at hx
        rw [(hledger.block hw hb).2.2] at hx
        exact (hledger.valid i w hw).holding.subset_released (.inr (.inr hb))
          (mem_pages_iff.mpr hx)

/-- In every reachable state of the zones and for every size, `AllocatePhysical` returns a block
whose size is the least power of two of pages for it, aligned to that size, inside one zone and
apart from all blocks that are held, or nothing, exactly when no zone has such a block. -/
theorem reachable_allocatesBlock {c : Config} {size : Nat} (hzones : Fresh zones)
    (hrun : Reachable zones c) (hpos : 0 < size) (hword : size < 2 ^ 64) :
    ∃ p result t, IsBlockSize size p ∧ c.zones.allocatePhysical size = some (result, t) ∧
      Allocates c p result t := by
  obtain ⟨live, hledger⟩ := (hrun.valid hzones).ledger
  obtain ⟨result, t, hcall, hallocates⟩ := hledger.allocates hpos
  exact ⟨_, result, t, isBlockSize_orderFor hpos hword, hcall, hallocates⟩

/-- A zone of four pages, all of them released as one block. -/
theorem reachable_four : ∃ zones c, Fresh zones ∧ Reachable zones c ∧
    c.released 0 = Block.pages ⟨4, 2⟩ := by
  set z := Zone.new (List.replicate 4 Page.zero) 0x4000 0x8000 (by decide) (by decide) with hz
  set zones : Zones := ⟨[z], by decide⟩ with hzones
  have hfresh : Fresh zones := by
    refine ⟨fun w hw => ?_, fun w hw => ?_, fun w hw => ?_, List.pairwise_singleton ..⟩ <;>
      obtain rfl := List.mem_singleton.mp hw
    · exact ⟨_, _, _, _, _, hz, fun p hp => List.eq_of_mem_replicate hp⟩
    · exact ⟨by decide, by decide⟩
    · decide
  have hallowed : (Op.seed 0 0x4000 2).Allowed ⟨zones, [], fun _ => ∅⟩ :=
    ⟨z, rfl, by decide, by decide, fun p hp => hp, Set.disjoint_empty _⟩
  obtain ⟨d, hd, _⟩ := (Op.seed 0 0x4000 2).run_spec hfresh.valid hallowed
  refine ⟨zones, d, hfresh, .single ⟨_, hallowed, hd⟩, ?_⟩
  obtain ⟨w, _, hw⟩ : ∃ w, z.freePagesOrder 0x4000 2 = some w ∧ _ = some d :=
    Option.bind_eq_some_iff.mp hd
  cases hw
  change Function.update (fun _ : Nat => (∅ : Set Nat)) 0 (∅ ∪ Block.pages ⟨4, 2⟩) 0 = _
  rw [Function.update_self, Set.empty_union]

theorem reachable_allocatesBlock_four : ∃ c : Config, c.released 0 = Block.pages ⟨4, 2⟩ ∧
    ∃ p result t, IsBlockSize 5000 p ∧ c.zones.allocatePhysical 5000 = some (result, t) ∧
      Allocates c p result t := by
  obtain ⟨zones, c, hfresh, hrun, hreleased⟩ := reachable_four
  exact ⟨c, hreleased, reachable_allocatesBlock hfresh hrun (by decide) (by decide)⟩

end Zones

end Aarch64.Cxx
