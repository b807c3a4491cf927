import Aarch64.Rust.Memory.Run

/-!
# Pages that are released later

`free_pages` also takes a page that was never released: its state says level zero, so it is
taken for a block of one page. The page joins the released ones and is handed out like them
from then on.
-/

namespace Aarch64.Rust

open Dyadic (Block)
open Segments (Canonical)

variable {pages : Set Nat} {live : List Block} {zones : List Zone} {z : Zone} {p : Nat}

theorem ZoneHolds.insert_of_not (h : ZoneHolds pages live z) (hz : ¬ z.contains p = true) :
    ZoneHolds (insert p pages) live z := by
  refine ⟨h.indices_eq, ?_⟩
  have hset : {q | z.contains q = true ∧ q ∈ insert p pages} =
      {q | z.contains q = true ∧ q ∈ pages} := by
    ext q
    refine and_congr_right fun hq => Set.mem_insert_iff.trans (or_iff_right fun heq => hz ?_)
    rwa [← heq]
  rw [hset]
  exact h.holding

theorem ZoneHolds.seedPage (h : ZoneHolds pages live z) (hz : z.contains p = true)
    (hp : p ∉ pages) : ∃ t, z.freePages p = some t ∧ SameSpace z t ∧
      ZoneHolds (insert p pages) live t := by
  have hmem : p ∈ z.freelist.indices := by
    rw [h.indices_eq]
    exact hz
  obtain ⟨s, hs, hzone, hholding⟩ :=
    BuddySystem.seedPage_spec h.holding hmem fun hreleased => hp hreleased.2
  have hset : {q | z.contains q = true ∧ q ∈ insert p pages} =
      {q | z.contains q = true ∧ q ∈ pages} ∪ Block.pages ⟨p, 0⟩ := by
    ext q
    simp only [Set.mem_union, Set.mem_ofPred_eq, Set.mem_insert_iff, Block.mem_pages, Nat.pow_zero]
    constructor
    · rintro ⟨hq, rfl | hq'⟩
      · exact Or.inr ⟨Nat.le_refl _, Nat.lt_succ_self _⟩
      · exact Or.inl ⟨hq, hq'⟩
    · rintro (⟨hq, hq'⟩ | hq)
      · exact ⟨hq, Or.inr hq'⟩
      · obtain rfl : q = p := by omega
        exact ⟨hz, Or.inl rfl⟩
  refine ⟨⟨s, z.space⟩, by simp [Zone.freePages, hs], ⟨rfl, hzone⟩,
    hzone.indices_eq.trans h.indices_eq, ?_⟩
  rw [← hset] at hholding
  exact hholding

theorem freeLoop_seed (hzones : ∀ z ∈ zones, ZoneHolds pages live z) (hapart : ZonesApart zones)
    (hp : p ∉ pages) (hin : ∃ z ∈ zones, z.contains p = true) :
    ∃ ts, Memory.freeLoop p zones = some ts ∧ List.Forall₂ SameSpace zones ts ∧
      ∀ t ∈ ts, ZoneHolds (insert p pages) live t := by
  induction zones with
  | nil =>
      obtain ⟨z, hz, _⟩ := hin
      exact absurd hz List.not_mem_nil
  | cons z zones ih =>
      obtain ⟨hz, hrest⟩ := List.forall_mem_cons.mp hzones
      obtain ⟨hfirst, hapart⟩ := List.pairwise_cons.mp hapart
      rw [Memory.freeLoop]
      by_cases hzin : z.contains p = true
      · obtain ⟨t, ht, hsame, hholds⟩ := hz.seedPage hzin hp
        refine ⟨t :: zones, by simp [hzin, ht], List.Forall₂.cons hsame (sameSpace_refl zones), ?_⟩
        exact List.forall_mem_cons.mpr ⟨hholds, fun y hy =>
          (hrest y hy).insert_of_not (hfirst y hy _ hzin)⟩
      · obtain ⟨ts, hts, hsame, hholds⟩ := ih hrest hapart (by
          obtain ⟨y, hy, hyin⟩ := hin
          rcases List.mem_cons.mp hy with rfl | hy
          · exact absurd hyin hzin
          · exact ⟨y, hy, hyin⟩)
        refine ⟨z :: ts, by simp [hzin, hts], List.Forall₂.cons (SameSpace.refl z) hsame, ?_⟩
        exact List.forall_mem_cons.mpr ⟨hz.insert_of_not hzin, hholds⟩

/-! ## Where the control arrays are -/

section Taken

variable {m malloc malloc' : MemoryMap}

/-- The addresses are free in the map. -/
def MemoryMap.FreeAt (m : MemoryMap) (taken : Set Nat) : Prop :=
  ∀ x ∈ taken, ∃ memtype, lookup m.memory x = some (memtype, .free)

/-- What is free later was free before. -/
theorem MemoryMap.FreeAt.of_carved {s t : Set Nat} (h : malloc.FreeAt t)
    (hcarved : Carved m malloc s) : m.FreeAt t := by
  intro x hx
  obtain ⟨memtype, hfree⟩ := h x hx
  exact ⟨memtype, (hcarved.free x memtype hfree).1⟩

theorem freeAt_of_allocateInRange (hm : Canonical (segments malloc.memory))
    (hbelow : malloc.Below (2 ^ 52)) {limit : Range} {size a : Nat} (hsize : size < 2 ^ 63)
    (h : malloc.allocateInRange limit size PAGE_SIZE = some (some a, malloc')) :
    malloc.FreeAt (Set.Ico a (a + size)) := by
  have hfits : malloc.FitsBelow (2 ^ 12 + size) := hbelow.fitsBelow hm (by omega)
  rcases MemoryMap.allocateInRange_spec hm limit (by decide : 12 < 64) hfits with
    hnone | ⟨a', m', hsome, halloc⟩
  · cases hnone.symm.trans h
  · cases hsome.symm.trans h
    exact fun x hx => ⟨_, halloc.wasFree x hx.1 hx.2⟩

theorem freeAt_of_allocateWithHint (hm : Canonical (segments malloc.memory))
    (hbelow : malloc.Below (2 ^ 52)) {hint : Range} {size a : Nat} (hsize : size < 2 ^ 63)
    (h : malloc.allocateWithHint hint size PAGE_SIZE = some (some a, malloc')) :
    malloc.FreeAt (Set.Ico a (a + size)) := by
  rcases MemoryMap.allocateWithHint_cases h with hwithin | ⟨_, hanywhere⟩
  · exact freeAt_of_allocateInRange hm hbelow hsize hwithin
  · exact freeAt_of_allocateInRange hm hbelow hsize hanywhere

theorem createPages_freeAt (hm : Canonical (segments malloc.memory))
    (hbelow : malloc.Below (2 ^ 52)) {first last : Nat} (hlast : last ≤ 2 ^ 40)
    (hfirst : first ≤ last + 1) {pages : Slice Page}
    (h : createPages ⟨first * PAGE_SIZE, last * PAGE_SIZE⟩ PAGE_SIZE malloc =
      some (some pages, malloc')) :
    malloc.FreeAt (Set.Ico pages.ptr (pages.ptr + pages.len * sizeOfPage)) := by
  obtain ⟨hcall, hitems, _⟩ := createPages_cases h
  obtain ⟨-, hlength, -⟩ := createPages_spec hm hbelow hlast hfirst h
  have hlen : pages.len = last - first := by rw [Slice.len, hlength, List.length_replicate]
  have hcount : Word64.sub (last * PAGE_SIZE) (first * PAGE_SIZE) / PAGE_SIZE = pages.len := by
    rw [Slice.len, hitems, List.length_replicate]
  rw [hcount, Word64.mul_of_lt (by simp only [sizeOfPage]; omega)] at hcall
  exact freeAt_of_allocateWithHint hm hbelow (by simp only [sizeOfPage]; omega) hcall

theorem createZonesLoop_freeAt : ∀ (ranges : List MemoryRange) (malloc : MemoryMap),
    Canonical (segments malloc.memory) → malloc.Below (2 ^ 52) →
    (∀ r ∈ ranges, r.range.start < r.range.stop ∧ r.range.stop ≤ 2 ^ 52) →
    ∀ zones malloc', createZonesLoop PAGE_SIZE ranges malloc = some (zones, malloc') →
      malloc.FreeAt {x | ∃ z ∈ zones, x ∈ z.pageArray} := by
  intro ranges
  induction ranges with
  | nil =>
      intro malloc _ _ _ zones malloc' h
      cases h
      rintro x ⟨z, hz, _⟩
      exact absurd hz List.not_mem_nil
  | cons r ranges ih =>
      intro malloc hm hbelow hranges zones malloc' h
      obtain ⟨⟨hlt, hstop⟩, hrest⟩ := List.forall_mem_cons.mp hranges
      simp only [createZonesLoop, alignUp_pageSize (x := r.range.start)
        (by simp only [PAGE_SIZE]; omega), alignDown_pageSize (x := r.range.stop) (by omega),
        Option.bind_eq_bind, Option.bind_some, Option.bind_eq_some_iff] at h
      obtain ⟨⟨_, malloc₁⟩, hpages, pages, rfl, ⟨zones', malloc₂⟩, hloop, h⟩ := h
      cases h
      have hfirst : (r.range.start + (PAGE_SIZE - 1)) / PAGE_SIZE ≤
          r.range.stop / PAGE_SIZE + 1 := by
        simp only [PAGE_SIZE]
        omega
      have hlast : r.range.stop / PAGE_SIZE ≤ 2 ^ 40 := by
        simp only [PAGE_SIZE]
        omega
      have hthis := createPages_freeAt hm hbelow hlast hfirst hpages
      obtain ⟨-, -, hcarved⟩ := createPages_spec hm hbelow hlast hfirst hpages
      have hothers := (ih malloc₁ hcarved.canonical hcarved.below hrest _ _ hloop).of_carved hcarved
      rintro x ⟨z, hz, hx⟩
      rcases List.mem_cons.mp hz with rfl | hz
      · exact hthis x hx
      · exact hothers x ⟨z, hz, hx⟩

/-- The control arrays stand in memory that was free. -/
theorem createZones_freeAt {mmap : MemoryMap} (hreg : mmap.Registered)
    (hbelow : mmap.Below (2 ^ 52)) {zones : Slice Zone}
    (h : createZones PAGE_SIZE mmap mmap = some (some zones, malloc)) :
    mmap.FreeAt (controlArrays zones) := by
  have hlen : zones.len = mmap.zones.length :=
    (createZones_spec hreg hbelow h).1.length_eq.symm
  have hranges : ∀ r ∈ mmap.zones, r.range.start < r.range.stop ∧ r.range.stop ≤ 2 ^ 52 :=
    fun r hr => hreg.zone_range hbelow hr
  have hlength : mmap.zones.length ≤ 2 ^ 52 := by
    have hle := hreg.canonical.2.length_le 0 (2 ^ 52) (fun _ _ => Nat.zero_le _) (fun s hs => by
      obtain ⟨r, hr, rfl⟩ := List.mem_map.mp hs
      exact (hranges r hr).2)
    simpa [segments] using hle
  have hbytes : Word64.mul mmap.zones.length sizeOfZone = mmap.zones.length * sizeOfZone :=
    Word64.mul_of_lt (by simp only [sizeOfZone]; omega)
  obtain ⟨malloc₁, hcall, hloop, _⟩ := createZones_cases h
  rw [hbytes] at hcall
  have hsize : mmap.zones.length * sizeOfZone < 2 ^ 63 := by
    simp only [sizeOfZone]
    omega
  have hcarved := (carved_of_allocateInRange hreg.canonical.1 hbelow hsize hcall).2
  have hthis := freeAt_of_allocateInRange hreg.canonical.1 hbelow hsize hcall
  have harrays := (createZonesLoop_freeAt _ _ hcarved.canonical hcarved.below hranges _ _
    hloop).of_carved hcarved
  rintro x (hx | hx)
  · rw [zoneArray, hlen] at hx
    exact hthis x hx
  · exact harrays x hx

end Taken

namespace Memory

variable {c : Config}

theorem addressPage_mul {m : Memory} (hsize : m.pageSize = PAGE_SIZE) (p : Nat) :
    m.addressPage (PAGE_SIZE * p) = p := by
  rw [addressPage, hsize]
  exact Nat.mul_div_cancel_left _ (by decide)

/-- The address of a page passes the check of `free_pages`. -/
theorem freePages_eq {m : Memory} (hsize : m.pageSize = PAGE_SIZE) (p : Nat) :
    m.freePages (PAGE_SIZE * p) =
      (freeLoop p m.zones.items).map fun zones => ⟨⟨m.zones.ptr, zones⟩, m.pageSize⟩ := by
  have hmask : PAGE_SIZE * p &&& Word64.sub m.pageSize 1 = 0 := by
    rw [hsize, show PAGE_SIZE = 2 ^ 12 from rfl, Word64.sub_one_two_pow (by decide),
      Word64.and_low_mask_eq_zero]
    exact Nat.dvd_mul_right _ _
  rw [freePages, if_pos hmask, addressPage_mul hsize]
  cases freeLoop p m.zones.items with
  | none => rfl
  | some zones => rfl

theorem Config.Valid.seedPage (h : c.Valid pages) (hp : p ∉ pages)
    (hin : ∃ z ∈ c.memory.zones.items, z.contains p = true) :
    ∃ memory, c.memory.freePages (PAGE_SIZE * p) = some memory ∧
      Config.Valid (insert p pages) ⟨memory, c.live⟩ ∧ SameZones c.memory memory := by
  obtain ⟨ts, hts, hsame, hholds⟩ := freeLoop_seed h.holds h.apart hp hin
  refine ⟨⟨⟨c.memory.zones.ptr, ts⟩, c.memory.pageSize⟩, ?_,
    ⟨h.pageSize_eq, zonesApart_of_sameSpace hsame h.apart, hholds, fun b hb => ?_⟩, rfl, hsame⟩
  · rw [freePages_eq h.pageSize_eq, hts]
    rfl
  · exact exists_contains_of_sameSpace hsame (h.owned b hb)

/-- In a state, every allowed call returns, and a block that an allocation gives is aligned,
consists of usable bytes, and meets neither the arrays nor a live block. -/
structure Serves (usable arrays : Set Nat) (c : Config) : Prop where
  returns : ∀ op : Op, op.Allowed c → ∃ d, op.run c = some d
  gives : ∀ order addr memory, c.memory.allocatePages order = some (some addr, memory) →
    PAGE_SIZE ∣ addr ∧ blockBytes addr order ⊆ usable ∧ Disjoint (blockBytes addr order) arrays ∧
      ∀ b ∈ c.live, Disjoint (blockBytes addr order) (blockBytes (PAGE_SIZE * b.index) b.level)

theorem Config.Valid.serves (h : c.Valid pages)
    (hsmall : ∀ p ∈ pages, PAGE_SIZE * (p + 1) < 2 ^ 64) {usable arrays : Set Nat}
    (husable : ∀ x, x / PAGE_SIZE ∈ pages → x ∈ usable ∧ x ∉ arrays) : Serves usable arrays c := by
  refine ⟨fun op hop => ?_, fun order addr memory hcall => ?_⟩
  · obtain ⟨d, hd, _⟩ := h.run_spec hsmall op hop
    exact ⟨d, hd⟩
  · rcases h.allocatePages_spec hsmall order with hnone | ⟨index, m', hsome, hvalid, _⟩
    · cases hnone.symm.trans hcall
    cases hsome.symm.trans hcall
    have hpages : ∀ x ∈ blockBytes (PAGE_SIZE * index) order, x / PAGE_SIZE ∈ pages := fun x hx =>
      hvalid.subset_pages List.mem_cons_self (div_mem_of_mem_blockBytes (b := ⟨index, order⟩) hx)
    refine ⟨Nat.dvd_mul_right _ _, fun x hx => (husable x (hpages x hx)).1, ?_, fun b hb => ?_⟩
    · exact Set.disjoint_left.mpr fun x hx => (husable x (hpages x hx)).2
    · exact disjoint_blockBytes (a := ⟨index, order⟩) ((List.pairwise_cons.mp hvalid.live_disjoint).1 b hb)

/-- The page is in a free block of a zone. -/
def FreePage (m : Memory) (p : Nat) : Prop :=
  ∃ z ∈ m.zones.items, p ∈ z.freelist.view.freeSet

/-- The free pages are the released ones that no caller holds. A block that does not start
in the zone of a page does not reach it. -/
theorem Config.Valid.freePage_iff (h : c.Valid pages)
    (hcover : ∀ p ∈ pages, ∃ z ∈ c.memory.zones.items, z.contains p = true) :
    c.memory.FreePage p ↔ p ∈ pages ∧ ∀ b ∈ c.live, p ∉ b.pages := by
  constructor
  · rintro ⟨z, hz, hfree⟩
    obtain ⟨⟨hzin, hp⟩, hlive⟩ := (h.holds z hz).holding.mem_freeSet_iff.mp hfree
    refine ⟨hp, fun b hb hpb => ?_⟩
    obtain ⟨y, hy, hyin⟩ := h.owned b hb
    have hpy := ((h.holds y hy).mem hb hyin hpb).1
    obtain rfl := h.apart.eq_of_contains hy hz hpy hzin
    exact hlive b (Zone.mem_liveIn.mpr ⟨hb, hyin⟩) hpb
  · rintro ⟨hp, hlive⟩
    obtain ⟨z, hz, hzin⟩ := hcover p hp
    refine ⟨z, hz, (h.holds z hz).holding.mem_freeSet_iff.mpr ⟨⟨hzin, hp⟩, fun b hb => ?_⟩⟩
    exact hlive b (Zone.mem_liveIn.mp hb).1

theorem SameZones.exists_contains {m m' : Memory} (h : SameZones m m')
    (hin : ∃ z ∈ m.zones.items, z.contains p = true) :
    ∃ z ∈ m'.zones.items, z.contains p = true :=
  exists_contains_of_sameSpace h.2 hin

end Memory

end Aarch64.Rust
