import Aarch64.Rust.MemoryMap.Run

/-!
# Allocation from the Rust memory map

An allocation takes the first free regular range in which the aligned block fits
and registers the block as reserved. The statements are for addresses far enough
from the end of the address space, where no sum of the search wraps.
-/

namespace Aarch64.Rust

open Segments (Canonical)

theorem lookup_of_mem {seq : List MemoryRange} (hseq : Canonical (segments seq))
    {r : MemoryRange} (hr : r ∈ seq) {x : Nat} (hlo : r.range.start ≤ x) (hhi : x < r.range.stop) :
    lookup seq x = some (r.memtype, r.status) :=
  hseq.ordered.labelAt_of_mem (List.mem_map_of_mem hr) hlo hhi

theorem exists_mem_of_lookup {seq : List MemoryRange} {x : Nat} {memtype : MemoryType}
    {status : MemoryStatus} (h : lookup seq x = some (memtype, status)) :
    ∃ r ∈ seq, r.range.start ≤ x ∧ x < r.range.stop ∧ r.memtype = memtype ∧
      r.status = status := by
  obtain ⟨s, hs, hlo, hhi, hlabel⟩ := Segments.exists_mem_of_labelAt h
  obtain ⟨r, hr, rfl⟩ := List.mem_map.mp hs
  exact ⟨r, hr, hlo, hhi, Prod.mk.inj hlabel⟩

/-- A stored range is nonempty and ends below any bound on the registered addresses. -/
theorem range_of_mem {seq : List MemoryRange} (hseq : Canonical (segments seq)) {bound : Nat}
    (hbound : ∀ x, lookup seq x ≠ none → x < bound) {r : MemoryRange} (hr : r ∈ seq) :
    r.range.start < r.range.stop ∧ r.range.stop ≤ bound := by
  have hlt : r.range.start < r.range.stop := hseq.lt _ (List.mem_map_of_mem hr)
  have hlast := hbound (r.range.stop - 1) (by
    rw [lookup_of_mem hseq hr (by omega) (by omega)]
    exact Option.some_ne_none _)
  omega

/-- Registering a block whose every address has its type and is free cannot be
refused, and changes the status of the block alone. -/
theorem reserve_free_spec {seq : List MemoryRange} (hseq : Canonical (segments seq))
    (range : Range) {memtype : MemoryType}
    (hfree : ∀ x, range.start ≤ x → x < range.stop → lookup seq x = some (memtype, .free)) :
    ∃ seq', addMemory seq ⟨range, memtype, .reserved⟩ = some (.ok (), seq') ∧
      Canonical (segments seq') ∧ ∀ x, lookup seq' x =
        if range.start ≤ x ∧ x < range.stop then some (memtype, .reserved) else lookup seq x := by
  rcases Nat.lt_or_ge range.start range.stop with hlt | hge
  · obtain ⟨result, seq', hcall, hover, hcanon⟩ :=
      addMemory_spec ⟨range, memtype, .reserved⟩ hseq hlt
    have hok : result = .ok () := by
      cases result with
      | ok u => rfl
      | error e =>
          obtain ⟨x, t, st, hx, hlabel, hconf⟩ := hover.error_iff.mp ⟨e, rfl⟩
          rw [Range.contains_iff] at hx
          rw [hfree x hx.1 hx.2] at hlabel
          cases hlabel
          rcases hconf with hne | ⟨-, hstatus⟩
          · exact absurd rfl hne
          · cases hstatus
    subst hok
    refine ⟨seq', hcall, hcanon, fun x => ?_⟩
    rw [hover.lookup_eq rfl x]
    simp only [Range.contains_iff]
  · have hempty : range.isEmpty = true := by simpa using hge
    refine ⟨seq, addMemory_of_isEmpty hempty, hseq,
      fun x => ?_⟩
    rw [if_neg (by omega)]

namespace MemoryMap

variable {m : MemoryMap}

@[simp] theorem mem_freeMemoryInRange {limits : Range} {c : MemoryRange} :
    c ∈ m.freeMemoryInRange limits ↔ ∃ r ∈ m.memory, r.status = .free ∧
      c = ⟨overlap r.range limits, r.memtype, .free⟩ ∧ c.range.start < c.range.stop := by
  simp only [freeMemoryInRange, List.mem_filterMap]
  refine exists_congr fun r => and_congr_right fun _ => ?_
  by_cases hstatus : r.status = .free
  · by_cases hempty : (overlap r.range limits).isEmpty = true
    · simp only [hstatus, hempty, if_true, ne_eq, not_true_eq_false, if_false, true_and]
      rw [Range.isEmpty_iff] at hempty
      refine iff_of_false (fun h => by cases h) ?_
      rintro ⟨rfl, hlt⟩
      exact absurd hlt (Nat.not_lt_of_le hempty)
    · simp only [hstatus, hempty, ne_eq, not_true_eq_false, if_false, true_and]
      rw [Bool.not_eq_true, Range.isEmpty_eq_false_iff] at hempty
      constructor
      · rintro ⟨rfl⟩
        exact ⟨rfl, hempty⟩
      · rintro ⟨rfl, _⟩
        rfl
  · simp [hstatus]

/-- The fragments come one after the other. -/
theorem pairwise_freeMemoryInRange (hm : Canonical (segments m.memory)) (limits : Range) :
    (m.freeMemoryInRange limits).Pairwise fun c d => c.range.stop ≤ d.range.start := by
  have hmemory : m.memory.Pairwise fun c d => c.range.stop ≤ d.range.start :=
    List.pairwise_map.mp hm.pairwise
  have hrange : ∀ r c : MemoryRange, (if r.status ≠ .free then none
      else if (overlap r.range limits).isEmpty then none
      else some ⟨overlap r.range limits, r.memtype, .free⟩) = some c →
      c.range = overlap r.range limits := by
    intro r c h
    split at h
    · cases h
    · split at h
      · cases h
      · cases h
        rfl
  refine hmemory.filterMap _ fun r t hrt c hc d hd => ?_
  rw [hrange r c hc, hrange t d hd]
  simp only [overlap]
  omega

/-- The search returns an aligned block inside one of the candidates, or nothing. -/
theorem findFreeMemoryLoop_spec {size k : Nat} (hk : k < 64) (candidates : List MemoryRange)
    (hfits : ∀ c ∈ candidates, c.range.start + 2 ^ k + size < 2 ^ 64) :
    findFreeMemoryLoop size (2 ^ k) candidates = some none ∨
      ∃ c ∈ candidates, c.memtype = .regular ∧ ∃ a, 2 ^ k ∣ a ∧ c.range.start ≤ a ∧
        a + size ≤ c.range.stop ∧ findFreeMemoryLoop size (2 ^ k) candidates =
          some (some ⟨⟨a, a + size⟩, c.memtype, c.status⟩) := by
  induction candidates with
  | nil => exact Or.inl rfl
  | cons c rest ih =>
      obtain ⟨hc, hrest⟩ := List.forall_mem_cons.mp hfits
      rw [findFreeMemoryLoop]
      have later : findFreeMemoryLoop size (2 ^ k) rest = some none ∨
          ∃ c' ∈ c :: rest, c'.memtype = .regular ∧ ∃ a, 2 ^ k ∣ a ∧ c'.range.start ≤ a ∧
            a + size ≤ c'.range.stop ∧ findFreeMemoryLoop size (2 ^ k) rest =
              some (some ⟨⟨a, a + size⟩, c'.memtype, c'.status⟩) := by
        rcases ih hrest with hnone | ⟨c', hc', h⟩
        · exact Or.inl hnone
        · exact Or.inr ⟨c', List.mem_cons_of_mem _ hc', h⟩
      by_cases htype : c.memtype ≠ .regular
      · rw [if_pos htype]
        exact later
      · have hpos := Nat.two_pow_pos k
        obtain ⟨a, ha⟩ : ∃ a, a = (c.range.start + 2 ^ k - 1) / 2 ^ k * 2 ^ k := ⟨_, rfl⟩
        have hle : a ≤ c.range.start + 2 ^ k - 1 := ha ▸ Nat.div_mul_le_self _ _
        have hge : c.range.start ≤ a := by
          have := Nat.lt_div_mul_add (a := c.range.start + 2 ^ k - 1) hpos
          omega
        rw [if_neg htype, Numeric.alignUp_two_pow (by omega) hk, ← ha]
        simp only [Option.bind_eq_bind, Option.bind_some]
        rw [Word64.add_of_lt (by omega)]
        split
        next => exact later
        next hfit =>
          exact Or.inr ⟨c, List.mem_cons_self, not_not.mp htype, a, ha ▸ Nat.dvd_mul_left _ _, hge,
            Nat.le_of_not_lt hfit, rfl⟩

/-- Enough room below the end of the address space for a search to be exact. -/
def FitsBelow (m : MemoryMap) (room : Nat) : Prop :=
  ∀ r ∈ m.memory, r.range.stop + room < 2 ^ 64

/-- The block `[a, a + size)` is taken out of the free regular memory of `m`. -/
structure Allocated (m : MemoryMap) (limit : Range) (size align a : Nat) (m' : MemoryMap) :
    Prop where
  aligned : align ∣ a
  inLimit : 0 < size → limit.start ≤ a ∧ a + size ≤ limit.stop
  wasFree : ∀ x, a ≤ x → x < a + size → lookup m.memory x = some (.regular, .free)
  lookup_eq : ∀ x, lookup m'.memory x =
    if a ≤ x ∧ x < a + size then some (.regular, .reserved) else lookup m.memory x
  zones_eq : m'.zones = m.zones
  canonical : Canonical (segments m'.memory)

/-- A search does not panic, and changes the map exactly when it succeeds. -/
theorem allocateInRange_spec (hm : Canonical (segments m.memory)) (limit : Range) {size k : Nat}
    (hk : k < 64) (hfits : m.FitsBelow (2 ^ k + size)) :
    m.allocateInRange limit size (2 ^ k) = some (none, m) ∨
      ∃ a m', m.allocateInRange limit size (2 ^ k) = some (some a, m') ∧
        Allocated m limit size (2 ^ k) a m' := by
  have hcands : ∀ c ∈ m.freeMemoryInRange limit, c.range.start + 2 ^ k + size < 2 ^ 64 := by
    intro c hc
    obtain ⟨r, hr, _, rfl, hlt⟩ := mem_freeMemoryInRange.mp hc
    have := hfits r hr
    simp only [overlap] at hlt ⊢
    omega
  rcases findFreeMemoryLoop_spec hk _ hcands with hnone | ⟨c, hc, htype, a, hdvd, hge, hle, hrun⟩
  · left
    rw [allocateInRange, findFreeMemoryInRange, hnone]
    rfl
  · right
    obtain ⟨r, hr, hstatus, rfl, hlt⟩ := mem_freeMemoryInRange.mp hc
    simp only [overlap] at hge hle hlt htype
    have hfree : ∀ x, a ≤ x → x < a + size →
        lookup m.memory x = some (.regular, .free) := by
      intro x hlo hhi
      rw [← htype, ← hstatus]
      exact lookup_of_mem hm hr (by omega) (by omega)
    obtain ⟨memory, hcall, hcanon, hlookup⟩ :=
      reserve_free_spec hm ⟨a, a + size⟩ hfree
    refine ⟨a, { m with memory }, ?_, hdvd, fun _ => by omega, hfree, hlookup, rfl, hcanon⟩
    rw [allocateInRange, findFreeMemoryInRange, hrun]
    simp only [Option.bind_eq_bind, Option.bind_some, htype, hcall]
    rfl

/-! ## Bounds and monotonicity -/

/-- All registered addresses are below `bound`. -/
def Below (m : MemoryMap) (bound : Nat) : Prop := ∀ x, lookup m.memory x ≠ none → x < bound

theorem Below.stop_le {bound : Nat} (h : m.Below bound) (hm : Canonical (segments m.memory))
    {r : MemoryRange} (hr : r ∈ m.memory) : r.range.stop ≤ bound :=
  (range_of_mem hm h hr).2

theorem Below.fitsBelow {bound room : Nat} (h : m.Below bound)
    (hm : Canonical (segments m.memory)) (hroom : bound + room < 2 ^ 64) : m.FitsBelow room :=
  fun _ hr => by
    have := h.stop_le hm hr
    omega

variable {m' : MemoryMap} {limit : Range} {size align a : Nat}

theorem Allocated.below {bound : Nat} (h : Allocated m limit size align a m')
    (hm : m.Below bound) : m'.Below bound := by
  intro x hx
  apply hm x
  rw [h.lookup_eq] at hx
  split at hx
  next hmem =>
    rw [h.wasFree x hmem.1 hmem.2]
    exact Option.some_ne_none _
  next => exact hx

/-- Allocation frees nothing. -/
theorem Allocated.free_of_free (h : Allocated m limit size align a m') {x : Nat}
    {memtype : MemoryType} (hx : lookup m'.memory x = some (memtype, .free)) :
    lookup m.memory x = some (memtype, .free) ∧ ¬ (a ≤ x ∧ x < a + size) := by
  rw [h.lookup_eq] at hx
  split at hx
  next => cases hx
  next hmem => exact ⟨hx, hmem⟩

end MemoryMap

end Aarch64.Rust
