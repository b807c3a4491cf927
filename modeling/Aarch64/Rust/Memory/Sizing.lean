import Aarch64.Rust.Memory.New
import Mathlib.Data.Set.Card

/-!
# The size of a zone

`create_zones` rounds the start of a zone up and its end down, and `create_pages` counts the
pages between them with a difference of words. A zone may be a reservation of any size, so
it may lie inside one page. Then the end is below the start, the difference wraps, and the
zone asks for `2 ^ 52 - 1` records. The bootstrap leaves such a zone out.
-/

namespace Aarch64.Rust

/-- The bounds that `create_zones` passes to `create_pages`. -/
def zoneBounds (zone : Range) (pageSize : Nat) : Option Range := do
  let start ← Numeric.alignUp zone.start pageSize
  let stop ← Numeric.alignDown zone.stop pageSize
  return ⟨start, stop⟩

/-- The number of pages that `create_pages` computes. -/
def pageCount (zone : Range) (pageSize : Nat) : Nat := Word64.sub zone.stop zone.start / pageSize

/-! ## The count in the code -/

theorem len_of_createPages {zone : Range} {pageSize : Nat} {malloc malloc' : MemoryMap}
    {pages : Slice Page} (h : createPages zone pageSize malloc = some (some pages, malloc')) :
    pages.len = pageCount zone pageSize := by
  rw [Slice.len, (createPages_cases h).2.1, List.length_replicate]
  rfl

/-- The zones that `create_zones` makes have that many pages. -/
theorem createZonesLoop_len {pageSize : Nat} : ∀ (ranges : List MemoryRange)
    (malloc malloc' : MemoryMap) (zones : List Zone),
    createZonesLoop pageSize ranges malloc = some (zones, malloc') →
    List.Forall₂ (fun r z => ∃ bounds, zoneBounds r.range pageSize = some bounds ∧
      z.freelist.pages.len = pageCount bounds pageSize) ranges zones := by
  intro ranges
  induction ranges with
  | nil =>
      intro malloc malloc' zones h
      cases h
      exact .nil
  | cons r ranges ih =>
      intro malloc malloc' zones h
      simp only [createZonesLoop, Option.bind_eq_bind, Option.bind_eq_some_iff] at h
      obtain ⟨start, hstart, stop, hstop, ⟨_, malloc₁⟩, hpages, pages, rfl, ⟨zones', malloc₂⟩,
        hloop, h⟩ := h
      cases h
      refine .cons ⟨⟨start, stop⟩, ?_, len_of_createPages hpages⟩ (ih _ _ _ hloop)
      simp only [zoneBounds, hstart, hstop, Option.bind_eq_bind, Option.bind_some]
      rfl

/-! ## When it is right -/

/-- The count is the number of whole pages of the zone, and nothing on the way to it and to
the size of the array wraps. -/
structure CountsPages (zone bounds : Range) : Prop where
  rounds : zone.start + PAGE_SIZE < 2 ^ 64
  bounds_eq : zoneBounds zone PAGE_SIZE = some bounds
  sub_le : bounds.start ≤ bounds.stop
  mul_lt : pageCount bounds PAGE_SIZE * sizeOfPage < 2 ^ 64
  count_eq : pageCount bounds PAGE_SIZE = {p | PageIn zone p}.ncard

variable {zone : Range}

theorem zoneBounds_pageSize (hlt : zone.start < zone.stop) (hword : zone.stop ≤ 2 ^ 64 - 4096) :
    zoneBounds zone PAGE_SIZE = some ⟨(zone.start + (PAGE_SIZE - 1)) / PAGE_SIZE * PAGE_SIZE,
      zone.stop / PAGE_SIZE * PAGE_SIZE⟩ := by
  have hstart : zone.start + PAGE_SIZE < 2 ^ 64 := by
    simp only [PAGE_SIZE]
    omega
  rw [zoneBounds, alignUp_pageSize hstart, alignDown_pageSize (by omega)]
  rfl

theorem ncard_pageIn (zone : Range) : {p | PageIn zone p}.ncard =
    zone.stop / PAGE_SIZE - (zone.start + (PAGE_SIZE - 1)) / PAGE_SIZE := by
  have hset : {p | PageIn zone p} =
      ↑(Finset.Ico ((zone.start + (PAGE_SIZE - 1)) / PAGE_SIZE) (zone.stop / PAGE_SIZE)) := by
    ext p
    rw [Finset.coe_Ico]
    exact pageIn_iff
  rw [hset, Set.ncard_coe_finset, Nat.card_Ico]

theorem pageCount_of_le {first last : Nat} (hle : first ≤ last)
    (hlast : last * PAGE_SIZE < 2 ^ 64) :
    pageCount ⟨first * PAGE_SIZE, last * PAGE_SIZE⟩ PAGE_SIZE = last - first := by
  rw [pageCount, Word64.sub_of_le (Nat.mul_le_mul_right _ hle) hlast, ← Nat.sub_mul,
    Nat.mul_div_cancel _ (by decide)]

/-- The count of a zone inside one page, whose rounded bounds have crossed. -/
theorem pageCount_of_crossed {last : Nat} (hlast : last * PAGE_SIZE + PAGE_SIZE ≤ 2 ^ 64) :
    pageCount ⟨(last + 1) * PAGE_SIZE, last * PAGE_SIZE⟩ PAGE_SIZE = 2 ^ 52 - 1 := by
  simp only [pageCount, Word64.sub, PAGE_SIZE] at hlast ⊢
  omega

/-- Rounding does not cross exactly if the zone meets a page boundary, at its ends at least. -/
theorem countsPages_iff (hlt : zone.start < zone.stop) (hword : zone.stop ≤ 2 ^ 64 - 4096) :
    (∃ bounds, CountsPages zone bounds) ↔
      ∃ p, zone.start ≤ PAGE_SIZE * p ∧ PAGE_SIZE * p ≤ zone.stop := by
  have hbounds := zoneBounds_pageSize hlt hword
  have hncard := ncard_pageIn zone
  obtain ⟨first, hfirst⟩ : ∃ first, first = (zone.start + (PAGE_SIZE - 1)) / PAGE_SIZE := ⟨_, rfl⟩
  obtain ⟨last, hlast⟩ : ∃ last, last = zone.stop / PAGE_SIZE := ⟨_, rfl⟩
  have hend : last * PAGE_SIZE < 2 ^ 64 := by
    rw [hlast]
    exact (Nat.div_mul_le_self _ _).trans_lt (by omega)
  rw [← hfirst, ← hlast] at hbounds hncard
  have hmeets : first ≤ last ↔ ∃ p, zone.start ≤ PAGE_SIZE * p ∧ PAGE_SIZE * p ≤ zone.stop := by
    simp only [PAGE_SIZE] at hfirst hlast ⊢
    constructor
    · exact fun hle => ⟨last, by omega, by omega⟩
    · rintro ⟨p, hlo, hhi⟩
      omega
  rw [← hmeets]
  constructor
  · rintro ⟨bounds, h⟩
    have hle := h.sub_le
    obtain rfl := Option.some.inj (hbounds.symm.trans h.bounds_eq)
    exact Nat.le_of_mul_le_mul_right hle (by decide)
  · intro hle
    have hcount := pageCount_of_le hle hend
    refine ⟨_, ?_, hbounds, Nat.mul_le_mul_right _ hle, ?_, hcount.trans hncard.symm⟩
    · simp only [PAGE_SIZE]
      omega
    · rw [hcount]
      simp only [PAGE_SIZE, sizeOfPage] at hend ⊢
      omega

/-- The count of pages on every map of successful registrations, for each of its zones. It is right,
with no sum, difference or product that wraps, exactly if the zone reaches a page boundary; inside
of one page the rounded start is behind the rounded end. -/
theorem registered_countsPages_iff {m : MemoryMap} {z : MemoryRange} (hm : m.Registered)
    (hz : z ∈ m.zones) (hword : z.range.stop ≤ 2 ^ 64 - 4096) :
    (∃ bounds, CountsPages z.range bounds) ↔
      ∃ p, z.range.start ≤ PAGE_SIZE * p ∧ PAGE_SIZE * p ≤ z.range.stop :=
  countsPages_iff (hm.canonical.2.lt _ (List.mem_map_of_mem hz)) hword

theorem registered_countsPages_iff_unaligned :
    (∃ bounds, CountsPages ⟨0x1800, 0x5000⟩ bounds) ↔
      ∃ p, 0x1800 ≤ PAGE_SIZE * p ∧ PAGE_SIZE * p ≤ 0x5000 := by
  have hrun : MemoryMap.Registered ⟨[⟨⟨0x1800, 0x5000⟩, .regular, .free⟩],
      [⟨⟨0x1800, 0x5000⟩, .regular, .unknown⟩]⟩ :=
    .single ⟨⟨0x1800, 0x5000⟩, .regular, .inl (by decide +kernel)⟩
  exact registered_countsPages_iff hrun (List.mem_singleton_self _) (by decide)

/-- Memory of 16 pages, and a reservation of 100 bytes outside of it. -/
private def ramMap : MemoryMap :=
  ⟨[⟨⟨100, 200⟩, .regular, .reserved⟩, ⟨⟨0x100000, 0x110000⟩, .regular, .free⟩],
    [⟨⟨100, 200⟩, .regular, .unknown⟩, ⟨⟨0x100000, 0x110000⟩, .regular, .unknown⟩]⟩

private theorem registered_ramMap : ramMap.Registered :=
  (Relation.ReflTransGen.single (b := ⟨[⟨⟨0x100000, 0x110000⟩, .regular, .free⟩],
    [⟨⟨0x100000, 0x110000⟩, .regular, .unknown⟩]⟩)
      ⟨⟨0x100000, 0x110000⟩, .regular, .inl (by decide +kernel)⟩).tail
    ⟨⟨100, 200⟩, .regular, .inr (by decide +kernel)⟩

/-- The reservation is a zone of its own, whose bounds cross. `create_zones` gets to it: there is
memory for the array of zones. -/
theorem registered_countsPages_fails :
    (∃ malloc, ramMap.allocate (Word64.mul ramMap.zones.length sizeOfZone) PAGE_SIZE =
        some (some 0x100000, malloc)) ∧
      ¬ ∀ m : MemoryMap, m.Registered → ∀ z ∈ m.zones,
        z.range.stop ≤ 2 ^ 64 - 4096 → ∃ bounds, CountsPages z.range bounds := by
  refine ⟨⟨⟨[⟨⟨100, 200⟩, .regular, .reserved⟩, ⟨⟨0x100000, 0x100410⟩, .regular, .reserved⟩,
    ⟨⟨0x100410, 0x110000⟩, .regular, .free⟩], ramMap.zones⟩, by decide +kernel⟩, fun hclaim => ?_⟩
  obtain ⟨bounds, h⟩ := hclaim _ registered_ramMap ⟨⟨100, 200⟩, .regular, .unknown⟩
    List.mem_cons_self (by decide)
  have hbounds : zoneBounds ⟨100, 200⟩ PAGE_SIZE = some ⟨0x1000, 0⟩ := by decide +kernel
  obtain rfl := Option.some.inj (hbounds.symm.trans h.bounds_eq)
  exact absurd h.sub_le (by decide)

/-! ## What a wrong count leads to -/

theorem exists_len_of_createZones {pageSize : Nat} {mmap malloc malloc' : MemoryMap}
    {zones : Slice Zone} (h : createZones pageSize mmap malloc = some (some zones, malloc'))
    {r : MemoryRange} (hr : r ∈ mmap.zones) :
    ∃ z ∈ zones.items, ∃ bounds, zoneBounds r.range pageSize = some bounds ∧
      z.freelist.pages.len = pageCount bounds pageSize := by
  obtain ⟨malloc₁, _, hloop, _⟩ := createZones_cases h
  have hall := createZonesLoop_len _ _ _ _ hloop
  obtain ⟨i, hi, rfl⟩ := List.getElem_of_mem hr
  have hi' : i < zones.items.length := hall.length_eq ▸ hi
  exact ⟨zones.items[i], List.getElem_mem hi', hall.get hi hi'⟩

/-- `Memory::new` panics when some zone lies inside one page: no memory holds the records
that this zone asks for. -/
theorem new_eq_none {mmap : MemoryMap} (hreg : mmap.Registered) (hbelow : mmap.Below (2 ^ 52))
    {z : MemoryRange} (hz : z ∈ mmap.zones)
    (hinside : ∀ p, z.range.start ≤ PAGE_SIZE * p → z.range.stop < PAGE_SIZE * p) :
    Memory.new mmap = none := by
  cases hnew : Memory.new mmap with
  | none => rfl
  | some memory =>
      exfalso
      obtain ⟨malloc, zones, calls, hcreate, _, _, _, _, _, hfresh⟩ :=
        new_seeding hreg hbelow hnew
      obtain ⟨t, ht, bounds, hbounds, hlen⟩ := exists_len_of_createZones hcreate hz
      obtain ⟨hlt, hstop⟩ := hreg.zone_range hbelow hz
      rw [zoneBounds_pageSize hlt (by omega)] at hbounds
      obtain ⟨last, hlast⟩ : ∃ last, last = z.range.stop / PAGE_SIZE := ⟨_, rfl⟩
      have hfirst : (z.range.start + (PAGE_SIZE - 1)) / PAGE_SIZE = last + 1 := by
        have := hinside ((z.range.start + (PAGE_SIZE - 1)) / PAGE_SIZE)
        simp only [PAGE_SIZE] at this hlast ⊢
        omega
      rw [← hlast, hfirst] at hbounds
      cases hbounds
      rw [pageCount_of_crossed (by simp only [PAGE_SIZE] at hlast ⊢; omega)] at hlen
      -- the page range of the zone would end beyond `2 ^ 40`
      obtain ⟨r, hr⟩ := hfresh t ht
      obtain ⟨pages, offset, rfl, _⟩ := hr.new
      obtain ⟨hstart, hend⟩ := hr.small
      change offset ≤ _ at hstart
      change Word64.add offset pages.len ≤ _ at hend
      change pages.len = _ at hlen
      rw [hlen, Word64.add_of_lt (by omega)] at hend
      omega

end Aarch64.Rust
