import Aarch64.Cxx.Physical.Allocator
import Aarch64.Cxx.Physical.Run
import Aarch64.Lib.Packing
import Mathlib.Algebra.BigOperators.Group.List.Basic
import Mathlib.Algebra.BigOperators.Ring.List
import Mathlib.Algebra.Order.BigOperators.Group.List

/-!
# What is available

`AvailablePhysical` of `memory/memory.cc`. The counters of the zones add up to what has been
released and is not held, so what is available does not depend on the calls that led there. The
same holds of the number of blocks that can be allocated until nothing is left of their order.
-/

namespace Aarch64.Cxx.Zones

open Dyadic (Block)

variable {zones t : Zones} {held held' : List Contigous} {live live' : Nat → List Block}
variable {released : Nat → Set Nat}

/-! ## The counters -/

/-- The free pages of all zones. -/
def freePages (zones : Zones) : Nat := (zones.items.map Zone.available).sum

def heldPages (held : List Contigous) : Nat := (held.map fun m => 2 ^ m.order).sum

theorem heldPages_cons (m : Contigous) (held : List Contigous) :
    heldPages (m :: held) = 2 ^ m.order + heldPages held := List.sum_cons

@[simp] theorem heldPages_append (held held' : List Contigous) :
    heldPages (held ++ held') = heldPages held + heldPages held' := by
  rw [heldPages, List.map_append, List.sum_append]
  rfl

theorem heldPages_of_order {order : Nat} (h : ∀ m ∈ held, m.order = order) :
    heldPages held = held.length * 2 ^ order := by
  rw [heldPages, List.map_congr_left fun m hm => congrArg (2 ^ ·) (h m hm), List.map_const',
    List.sum_replicate_nat]

/-- The blocks that are held, zone after zone. -/
theorem Ledger.perm_blocks (h : Ledger zones held live released) :
    held.Perm (zones.items.zipIdx.flatMap fun p => (live p.2).map (contigous p.1 p.2)) := by
  refine (List.perm_ext_iff_of_nodup h.nodup (List.nodup_flatMap.mpr ⟨?_, ?_⟩)).mpr fun m => ?_
  · rintro ⟨z, i⟩ hz
    rw [List.mem_zipIdx_iff_getElem?] at hz
    refine (h.valid i z hz).holding.ownedNodup.map_on fun a ha b hb heq => ?_
    exact contigous_injective (h.index_mem hz ha) (h.index_mem hz hb) heq
  · have hnodup : (zones.items.zipIdx.map Prod.snd).Nodup := by
      rw [List.zipIdx_map_snd]
      exact List.nodup_range'
    refine (List.pairwise_map.mp hnodup).imp fun hne => ?_
    refine List.disjoint_left.mpr fun m hm hm' => hne ?_
    obtain ⟨_, _, rfl⟩ := List.mem_map.mp hm
    obtain ⟨_, _, heq⟩ := List.mem_map.mp hm'
    exact (congrArg Contigous.zone heq).symm
  · rw [h.mem, List.mem_flatMap]
    constructor
    · rintro ⟨i, z, hz, b, hb, rfl⟩
      exact ⟨(z, i), List.mem_zipIdx_iff_getElem?.mpr hz, List.mem_map_of_mem hb⟩
    · rintro ⟨⟨z, i⟩, hz, hm⟩
      obtain ⟨b, hb, rfl⟩ := List.mem_map.mp hm
      exact ⟨i, z, List.mem_zipIdx_iff_getElem?.mp hz, b, hb, rfl⟩

/-- Every released page is free or held. -/
theorem Ledger.accounts (h : Ledger zones held live released) :
    zones.freePages + heldPages held =
      ((List.range zones.size).map fun it => (released it).ncard).sum := by
  have hfree : zones.freePages = (zones.items.zipIdx.map fun p => p.1.available).sum := by
    rw [freePages, ← List.zipIdx_map_fst 0 zones.items, List.map_map, List.zipIdx_map_fst]
    rfl
  have hheld : heldPages held =
      (zones.items.zipIdx.map fun p => ((live p.2).map Block.size).sum).sum := by
    rw [heldPages, (h.perm_blocks.map fun m => 2 ^ m.order).sum_eq, List.map_flatMap,
      List.flatMap_def, List.sum_flatten, List.map_map]
    refine congrArg List.sum (List.map_congr_left fun p _ => ?_)
    rw [Function.comp_apply, List.map_map]
    rfl
  have hrange : List.range zones.size = zones.items.zipIdx.map Prod.snd := by
    rw [List.zipIdx_map_snd, ← List.range_eq_range']
    rfl
  rw [hfree, hheld, hrange, List.map_map, ← List.sum_map_add]
  refine congrArg List.sum (List.map_congr_left fun p hp => ?_)
  have hvalid := h.valid p.2 p.1 (List.mem_zipIdx_iff_getElem?.mp hp)
  rw [hvalid.accounted]
  exact (Buddy.Inv.freePages_add_live hvalid.holding).2

/-- Calls that hold and release the same leave as many pages free. -/
theorem Ledger.freePages_eq (h : Ledger zones held live released)
    (h' : Ledger t held' live' released) (hsize : t.size = zones.size) :
    t.freePages + heldPages held' = zones.freePages + heldPages held := by
  rw [h.accounts, h'.accounts, hsize]

/-! ## The number of bytes -/

/-- A sum of words that fits is exact. -/
theorem foldl_add {α : Type} (f : α → Nat) (xs : List α) {total : Nat}
    (hlt : total + (xs.map f).sum < 2 ^ 64) :
    xs.foldl (fun total x => Word64.add total (f x)) total = total + (xs.map f).sum := by
  induction xs generalizing total with
  | nil => rfl
  | cons x xs ih =>
      rw [List.map_cons, List.sum_cons, ← Nat.add_assoc] at hlt ⊢
      rw [List.foldl_cons, Word64.add_of_lt (Nat.lt_of_le_of_lt (Nat.le_add_right _ _) hlt)]
      exact ih hlt

/-- The zones fit in the address space. -/
theorem Ledger.pages_lt (h : Ledger zones held live released) :
    (zones.items.map fun z => z.pages * 2 ^ kPageBits).sum < 2 ^ 64 := by
  have hdisjoint : (zones.items.map fun z => (z.fromAddress, z.pages * 2 ^ kPageBits)).Pairwise
      fun i j => Disjoint (Packing.cells i) (Packing.cells j) := by
    rw [List.pairwise_map, List.pairwise_iff_getElem]
    intro i j hi hj hij
    exact h.apart i j _ _ (List.getElem?_eq_getElem hi) (List.getElem?_eq_getElem hj) hij.ne
  have hcard := (Packing.ncard_of_pairwise_disjoint _ hdisjoint).2
  rw [List.map_map] at hcard
  have hsub : {p | ∃ i ∈ zones.items.map fun z => (z.fromAddress, z.pages * 2 ^ kPageBits),
      p ∈ Packing.cells i} ⊆ Set.Iio (2 ^ 64 - 1) := by
    rintro p ⟨i, hi, hp⟩
    obtain ⟨z, hz, rfl⟩ := List.mem_map.mp hi
    obtain ⟨it, hit⟩ := List.mem_iff_getElem?.mp hz
    have hfits := (h.aligned it z hit).fits
    obtain ⟨_, hlt⟩ := hp
    change p < z.fromAddress + z.pages * 2 ^ kPageBits at hlt
    change p < 2 ^ 64 - 1
    omega
  have hle := Set.ncard_le_ncard hsub (Set.finite_Iio _)
  rw [hcard, ← Finset.coe_Iio, Set.ncard_coe_finset, Nat.card_Iio] at hle
  change (zones.items.map fun z => z.pages * 2 ^ kPageBits).sum ≤ _ at hle
  omega

theorem Ledger.available_le (h : Ledger zones held live released) :
    ∀ z ∈ zones.items, z.available ≤ z.pages := by
  intro z hz
  obtain ⟨it, hit⟩ := List.mem_iff_getElem?.mp hz
  have hvalid := h.valid it z hit
  have hcard : z.offsets.ncard = z.pages := by
    rw [Zone.offsets, ← Finset.coe_Ico, Set.ncard_coe_finset, Nat.card_Ico, Nat.add_sub_cancel_left]
  rw [hvalid.accounted]
  exact Buddy.Inv.freePages_le hvalid.holding (Set.finite_Ico ..) hcard.le

theorem Ledger.available_sum_le (h : Ledger zones held live released) :
    (zones.items.map fun z => z.available * 2 ^ kPageBits).sum ≤
      (zones.items.map fun z => z.pages * 2 ^ kPageBits).sum :=
  List.sum_le_sum fun z hz => Nat.mul_le_mul_right _ (h.available_le z hz)

/-- `AvailablePhysical` is exact: pages that are free, in bytes. -/
theorem Ledger.availablePhysical_eq (h : Ledger zones held live released) :
    zones.availablePhysical = zones.freePages * 2 ^ kPageBits := by
  have hsum := h.available_sum_le.trans_lt h.pages_lt
  have hshift : ∀ z ∈ zones.items,
      Word64.shl z.available kPageBits = z.available * 2 ^ kPageBits := by
    intro z hz
    refine Word64.shl_of_lt (Nat.lt_of_le_of_lt ?_ hsum)
    exact List.single_le_sum (fun _ _ => Nat.zero_le _) _ (List.mem_map_of_mem hz)
  have hmap := List.map_congr_left hshift
  have hlt : 0 + (zones.items.map fun z => Word64.shl z.available kPageBits).sum < 2 ^ 64 := by
    rw [hmap, Nat.zero_add]
    exact hsum
  rw [availablePhysical, foldl_add _ _ hlt, hmap, Nat.zero_add, freePages, List.sum_map_mul_right]

theorem Ledger.freePages_lt (h : Ledger zones held live released) : zones.freePages < 2 ^ 52 := by
  have hsum := h.available_sum_le.trans_lt h.pages_lt
  rw [List.sum_map_mul_right] at hsum
  change zones.freePages * 4096 < 2 ^ 64 at hsum
  omega

/-! ## Blocks of one order -/

/-- A byte of a block that is held is a released one of its zone. -/
theorem Ledger.released_of_mem {m : Contigous} {x : Nat} (h : Ledger zones held live released)
    (hm : m ∈ held) (hx : x ∈ m.bytes) :
    x / 2 ^ kPageBits ∈ released m.zone ∧ m.zone < zones.size := by
  obtain ⟨i, z, hz, b, hb, rfl⟩ := (h.mem m).mp hm
  rw [(h.block hz hb).2.2] at hx
  exact ⟨(h.valid i z hz).holding.subset_released (.inr (.inr hb)) (mem_pages_iff.mpr hx),
    (List.getElem?_eq_some_iff.mp hz).1⟩

theorem Ledger.mem_addresses {it x : Nat} {z : Zone} (h : Ledger zones held live released)
    (hz : zones.items[it]? = some z) (hx : x / 2 ^ kPageBits ∈ released it) : x ∈ addresses z := by
  have hholding := (h.valid it z hz).holding
  obtain ⟨b, hb, hpage⟩ := (hholding.tiling.cover _).mp hx
  obtain ⟨hge, hlt⟩ : x / 4096 ∈ z.offsets := hholding.within hb hpage
  have hfrom := (h.aligned it z hz).from_eq
  change z.fromAddress = z.offset * 4096 at hfrom
  change z.fromAddress ≤ x ∧ x < z.fromAddress + z.pages * 4096
  omega

/-- A byte of a block that is held is not released to any other zone. -/
theorem Ledger.zone_eq {m : Contigous} {it x : Nat} (h : Ledger zones held live released)
    (hm : m ∈ held) (hx : x ∈ m.bytes) (hit : it < zones.size)
    (hreleased : x / 2 ^ kPageBits ∈ released it) : m.zone = it := by
  by_contra hne
  obtain ⟨hown, hlt⟩ := h.released_of_mem hm hx
  have hz := List.getElem?_eq_getElem (l := zones.items) hlt
  have hw := List.getElem?_eq_getElem (l := zones.items) hit
  exact Set.disjoint_left.mp (h.apart _ _ _ _ hz hw hne) (h.mem_addresses hz hown)
    (h.mem_addresses hw hreleased)

theorem Ledger.disjoint_of_ne {m n : Contigous} (h : Ledger zones held live released)
    (hm : m ∈ held) (hn : n ∈ held) (hne : m ≠ n) : Disjoint m.bytes n.bytes := by
  obtain ⟨i, z, hz, a, ha, rfl⟩ := (h.mem m).mp hm
  obtain ⟨j, w, hw, b, hb, rfl⟩ := (h.mem n).mp hn
  exact h.disjoint hz hw ha hb hne

/-- The blocks of an order that are free as a whole, by their zones and addresses. -/
def Config.freeBlocks (c : Config) (order : Nat) : Set (Nat × Nat) :=
  {p | p.1 < c.zones.size ∧ 2 ^ (order + kPageBits) ∣ p.2 ∧
    Set.Ico p.2 (p.2 + 2 ^ (order + kPageBits)) ⊆ c.freeBytes p.1}

/-- Two aligned blocks of one size with a common byte are the same. -/
theorem eq_of_aligned {p a b x : Nat} (ha : p ∣ a) (hb : p ∣ b) (hxa : a ≤ x ∧ x < a + p)
    (hxb : b ≤ x ∧ x < b + p) : a = b := by
  obtain ⟨i, rfl⟩ := ha
  obtain ⟨j, rfl⟩ := hb
  have hi : x / p = i := Nat.div_eq_of_lt_le (by rw [Nat.mul_comm]; exact hxa.1)
    (by rw [Nat.mul_comm, Nat.mul_succ]; exact hxa.2)
  have hj : x / p = j := Nat.div_eq_of_lt_le (by rw [Nat.mul_comm]; exact hxb.1)
    (by rw [Nat.mul_comm, Nat.mul_succ]; exact hxb.2)
  rw [← hi, hj]

theorem Ledger.bytes_eq {m : Contigous} (h : Ledger zones held live released) (hm : m ∈ held) :
    m.bytes = Set.Ico m.fromAddress (m.fromAddress + 2 ^ (m.order + kPageBits)) := by
  rw [Contigous.bytes, (h.proper m hm).size_eq]

theorem Ledger.order_le {m : Contigous} (h : Ledger zones held live released) (hm : m ∈ held) :
    m.order ≤ kMaxOrder := by
  obtain ⟨i, z, hz, b, hb, rfl⟩ := (h.mem m).mp hm
  exact (h.valid i z hz).holding.level_le (.inr (.inr hb))

/-- A block that has been allocated since was free. -/
theorem Ledger.mem_freeBlocks {c : Config} {ms : List Contigous} {m : Contigous}
    (h : Ledger t (ms ++ c.held) live' c.released) (hsize : t.size = c.zones.size) (hm : m ∈ ms) :
    (m.zone, m.fromAddress) ∈ c.freeBlocks m.order := by
  have hmem : m ∈ ms ++ c.held := List.mem_append_left _ hm
  have hbytes := h.bytes_eq hmem
  have hfirst : m.fromAddress ∈ m.bytes := by
    rw [hbytes]
    exact ⟨Nat.le_refl _, Nat.lt_add_of_pos_right (Nat.two_pow_pos _)⟩
  refine ⟨hsize ▸ (h.released_of_mem hmem hfirst).2, (h.proper m hmem).aligned, ?_⟩
  rw [← hbytes]
  refine fun x hx => ⟨(h.released_of_mem hmem hx).1, fun n hn hxn => ?_⟩
  have hne : m ≠ n := (List.nodup_append.mp h.nodup).2.2 m hm n hn
  exact Set.disjoint_left.mp (h.disjoint_of_ne hmem (List.mem_append_right _ hn) hne) hx hxn

/-- Where blocks of one order are allocated until none is left, as many are allocated as were
free. -/
theorem filled_length {c : Config} {ms : List Contigous} {order : Nat}
    (h : Ledger t (ms ++ c.held) live' c.released) (hsize : t.size = c.zones.size)
    (horder : ∀ m ∈ ms, m.order = order)
    (hnone : (⟨t, ms ++ c.held, c.released⟩ : Config).freeBlocks order = ∅) :
    ms.length = (c.freeBlocks order).ncard := by
  have hnodup : ms.Nodup := (List.nodup_append.mp h.nodup).1
  have hbytes : ∀ m ∈ ms,
      m.bytes = Set.Ico m.fromAddress (m.fromAddress + 2 ^ (order + kPageBits)) := fun m hm =>
    horder m hm ▸ h.bytes_eq (List.mem_append_left _ hm)
  have hpow := Nat.two_pow_pos (order + kPageBits)
  have himage : c.freeBlocks order = (fun m => (m.zone, m.fromAddress)) '' {m | m ∈ ms} := by
    ext ⟨it, a⟩
    constructor
    · rintro ⟨hit, ha, hfree⟩
      change it < c.zones.size at hit
      change 2 ^ (order + kPageBits) ∣ a at ha
      -- some byte of it has been allocated since
      have hnot : (it, a) ∉ (⟨t, ms ++ c.held, c.released⟩ : Config).freeBlocks order := by
        rw [hnone]
        exact Set.notMem_empty _
      have hused : ∃ x ∈ Set.Ico a (a + 2 ^ (order + kPageBits)), ∃ m ∈ ms, x ∈ m.bytes := by
        by_contra hunused
        refine hnot ⟨hsize ▸ hit, ha, fun x hx => ⟨(hfree hx).1, fun m hm hxm => ?_⟩⟩
        rcases List.mem_append.mp hm with hm | hm
        · exact hunused ⟨x, hx, m, hm, hxm⟩
        · exact (hfree hx).2 m hm hxm
      obtain ⟨x, hx, m, hm, hxm⟩ := hused
      refine ⟨m, hm, Prod.ext ?_ ?_⟩
      · exact h.zone_eq (List.mem_append_left _ hm) hxm (hsize ▸ hit) (hfree hx).1
      · rw [hbytes m hm] at hxm
        have haligned := (h.proper m (List.mem_append_left _ hm)).aligned
        rw [horder m hm] at haligned
        exact eq_of_aligned haligned ha hxm hx
    · rintro ⟨m, hm, heq⟩
      obtain ⟨rfl, rfl⟩ := Prod.mk.inj heq
      exact horder m hm ▸ h.mem_freeBlocks hsize hm
  have hinj : Set.InjOn (fun m : Contigous => (m.zone, m.fromAddress)) {m | m ∈ ms} := by
    intro m hm n hn heq
    have haddr : m.fromAddress = n.fromAddress := (Prod.mk.inj heq).2
    by_contra hne
    have hapart :=
      h.disjoint_of_ne (List.mem_append_left _ hm) (List.mem_append_left _ hn) hne
    rw [hbytes m hm, hbytes n hn, haddr, disjoint_self] at hapart
    exact (Set.nonempty_Ico.mpr (Nat.lt_add_of_pos_right hpow)).ne_empty hapart
  have hfinite : {m | m ∈ ms} = (ms.toFinset : Set Contigous) := by
    ext m
    rw [Finset.mem_coe, List.mem_toFinset]
    rfl
  rw [himage, hinj.ncard_image, hfinite, Set.ncard_coe_finset,
    List.toFinset_card_of_nodup hnodup]

/-- An allocation that fails finds no free block of its order. -/
theorem Ledger.allocate_order {c : Config} {size : Nat}
    (h : Ledger c.zones c.held live c.released) (hpos : 0 < size)
    (hmax : orderFor size ≤ kMaxOrder) :
    (c.zones.allocatePhysical size = some (none, c.zones) ∧ c.freeBlocks (orderFor size) = ∅) ∨
      ∃ m t, c.zones.allocatePhysical size = some (some m, t) ∧
        HandsOut c.zones c.held c.released (orderFor size) m t := by
  rcases h.allocatePhysical hpos with ⟨hcall, _⟩ | ⟨m, t, hcall, _, hm⟩
  · obtain ⟨result, t, hcall', hallocates⟩ := h.allocates hpos
    obtain ⟨rfl, rfl⟩ := Prod.mk.inj (Option.some.inj (hcall.symm.trans hcall'))
    refine .inl ⟨hcall, Set.eq_empty_iff_forall_notMem.mpr fun p hp => ?_⟩
    rcases hallocates.none_iff.mp rfl with hgt | hno
    · have hle := Nat.pow_le_pow_right (by decide : 0 < 2) (Nat.add_le_add_right hmax kPageBits)
      exact Nat.lt_irrefl _ (hgt.trans_le hle)
    · exact hno p.1 hp.1 p.2 hp.2.1 hp.2.2
  · exact .inr ⟨m, t, hcall, hm⟩

/-- Where no page is free, nothing is. -/
theorem Ledger.freePages_eq_zero {c : Config} (h : Ledger c.zones c.held live c.released)
    (hnone : c.freeBlocks 0 = ∅) : c.zones.freePages = 0 := by
  refine List.sum_eq_zero fun n hn => ?_
  obtain ⟨z, hz, rfl⟩ := List.mem_map.mp hn
  obtain ⟨it, hit⟩ := List.mem_iff_getElem?.mp hz
  rw [(h.valid it z hit).accounted, Buddy.View.freePages]
  suffices hempty : z.view.freeBlocks kMaxOrder = [] by
    rw [hempty]
    rfl
  refine List.eq_nil_iff_forall_not_mem.mpr fun b hb => ?_
  obtain ⟨hlevel, hfree⟩ := Buddy.View.mem_freeBlocks.mp hb
  have hne : z.view.free b.level ≠ [] := List.ne_nil_of_mem hfree
  obtain ⟨a, ha, hsub⟩ := (h.exists_free_iff hit (Nat.zero_le _)).mp
    ⟨b.level, Nat.zero_le _, hlevel, hne⟩
  have hmem : (it, a) ∈ c.freeBlocks 0 := ⟨(List.getElem?_eq_some_iff.mp hit).1, ha, hsub⟩
  rw [hnone] at hmem
  exact hmem

/-! ## The memory behind an allocator -/

/-- The zones, with what has been released to them and where they are. -/
def memoryOf (bounds : List (Nat × Nat × Nat)) (released : Nat → Set Nat) :
    PhysicalMemory Zones where
  allocate := allocatePhysical
  free := freePhysical
  Holds zones held := zones.bounds = bounds ∧ ∃ live, Ledger zones held live released
  perm h hperm := ⟨h.1, h.2.imp fun _ hledger => hledger.perm hperm⟩
  proper h := h.2.elim fun _ hledger => hledger.proper
  disjoint h := h.2.elim fun _ hledger => hledger.pairwise_disjoint
  allocate_spec h hpos _ := by
    obtain ⟨hbounds, live, hledger⟩ := h
    rcases hledger.allocatePhysical hpos with ⟨hcall, _⟩ | ⟨m, t, hcall, _, hm⟩
    · exact .inl ⟨_, hcall, hbounds, live, hledger⟩
    · exact .inr ⟨m, t, hcall, hm.order_eq, (bounds_allocatePhysical hcall).trans hbounds,
        hm.ledger⟩
  free_spec h := by
    obtain ⟨hbounds, live, hledger⟩ := h
    obtain ⟨t, live', hcall, hledger'⟩ := hledger.freePhysical
    exact ⟨t, hcall, (bounds_freePhysical hcall).trans hbounds, live', hledger'⟩

@[simp] theorem memoryOf_allocate (bounds : List (Nat × Nat × Nat)) (released : Nat → Set Nat) :
    (memoryOf bounds released).allocate = allocatePhysical := rfl

end Aarch64.Cxx.Zones
