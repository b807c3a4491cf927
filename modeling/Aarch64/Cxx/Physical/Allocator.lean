import Aarch64.Cxx.MemoryMap.Allocate
import Aarch64.Cxx.Physical.Setup

/-!
# The allocator over the map

`SetupAllocator` of `memory/memory.cc`, with the map that it takes the page records from. The
records of a zone have to be reserved, and a reservation of registered memory runs the loop
that has no defined end. So every build sets the allocator up only where it has no page to
manage.
-/

namespace Aarch64.Cxx

namespace Zones

/-- `AllocateIn` as `createZones` calls it. The map is lost with a call that does not return. -/
def allocateFrom (build : MemoryMap.Build) (mmap : Option MemoryMap) (begin stop size alignment : Nat) :
    Bool × Option MemoryMap :=
  match mmap.bind fun m => m.allocateIn build begin stop size alignment with
  | some (ret, m) => (ret.isSome, some m)
  | none => (false, none)

def setupAllocator (build : MemoryMap.Build) (fuel : Nat) (mmap : MemoryMap) :
    Option (Bool × MemoryMap × Zones) := do
  let (ok, mmap, zones) := createZones (allocateFrom build) (some mmap) mmap
  let mmap ← mmap
  if !ok then return (false, mmap, zones)
  let (ok, zones, _) ← zones.freeUnusedMemory fuel mmap
  return (ok, mmap, zones)

def totalPhysical (zones : Zones) : Nat :=
  zones.items.foldl (fun total z => Word64.add total (Word64.shl z.pages kPageBits)) 0

def availablePhysical (zones : Zones) : Nat :=
  zones.items.foldl (fun available z => Word64.add available (Word64.shl z.available kPageBits)) 0

/-- A whole page of the addresses. -/
def HasPage (s : Set Nat) : Prop :=
  ∃ a, Set.Ico (a * 2 ^ kPageBits) ((a + 1) * 2 ^ kPageBits) ⊆ s

variable {m m' : MemoryMap} {zones t : Zones} {begin stop fuel : Nat} {build : MemoryMap.Build}

/-- What is left of the addresses when they are trimmed is whole pages of them. -/
theorem trimmed_lt_iff (hle : begin ≤ stop) (hstop : stop + 4096 ≤ 2 ^ 64) :
    alignUp begin kPageSize < alignDown stop kPageSize ↔ HasPage (Set.Ico begin stop) := by
  rw [alignUp_page (by omega), alignDown_page (by omega)]
  constructor
  · intro hlt
    refine ⟨(begin + 4095) / 4096, fun x hx => ?_⟩
    obtain ⟨hlo, hhi⟩ := hx
    change _ * 4096 ≤ x at hlo
    change x < _ * 4096 at hhi
    exact ⟨by omega, by omega⟩
  · rintro ⟨a, hsub⟩
    change Set.Ico (a * 4096) ((a + 1) * 4096) ⊆ _ at hsub
    have hfirst := (hsub (a := a * 4096) ⟨by omega, by omega⟩).1
    have hlast := (hsub (a := (a + 1) * 4096 - 1) ⟨by omega, by omega⟩).2
    omega

theorem HasPage.mono {s t : Set Nat} (h : HasPage s) (hsub : s ⊆ t) : HasPage t := by
  obtain ⟨a, ha⟩ := h
  exact ⟨a, ha.trans hsub⟩

/-! ## Creating the zones -/

theorem allocateFrom_fails (fuel : Nat) (h : m.Low) {size : Nat} (hlt : begin < stop)
    (hpos : 0 < size) (hsize : size ≤ 2 ^ 62) :
    ∃ mmap, allocateFrom (.asWritten fuel) (some m) begin stop size kPageSize =
      (false, mmap) ∧ ∀ m', mmap = some m' → m'.Low := by
  rw [allocateFrom, Option.bind_some]
  cases hcall : m.allocateIn (.asWritten fuel) begin stop size kPageSize with
  | none => exact ⟨none, rfl, fun m' h => by cases h⟩
  | some result =>
      obtain ⟨ret, m'⟩ := result
      obtain ⟨rfl, hlow⟩ := MemoryMap.allocateIn_fails h hlt hpos hsize hcall
      refine ⟨some m', rfl, fun m'' heq => ?_⟩
      cases heq
      exact hlow

theorem allocateRecords_fails (fuel : Nat) (h : m.Low) {size : Nat} (hlt : begin < stop)
    (hpos : 0 < size) (hsize : size ≤ 2 ^ 62) : ∃ mmap,
      allocateRecords (allocateFrom (.asWritten fuel)) (some m) begin stop size = (false, mmap) := by
  obtain ⟨mmap, hcall, hlow⟩ := allocateFrom_fails fuel h hlt hpos hsize
  simp only [allocateRecords, hcall, Bool.false_eq_true, if_false, allocate]
  cases mmap with
  | none => exact ⟨none, rfl⟩
  | some m' =>
      obtain ⟨mmap, hcall', _⟩ :=
        allocateFrom_fails fuel (hlow m' rfl) (by decide : 0 < 2 ^ 64 - 1) hpos hsize
      exact ⟨mmap, hcall'⟩

/-- A zone is created where there is no page, and then there is none. -/
theorem createZone_of_page (fuel : Nat) (zones : Zones) (h : m.Low) (hle : begin ≤ stop)
    (hstop : stop ≤ 2 ^ 63) (hpage : HasPage (Set.Ico begin stop)) : ∃ mmap,
      createZone (allocateFrom (.asWritten fuel)) (some m) zones begin stop = (false, mmap, zones) := by
  have hlt := (trimmed_lt_iff hle (by omega)).mpr hpage
  rw [createZone]
  have hup := alignUp_page (x := begin) (by omega)
  have hdown := alignDown_page (x := stop) (by omega)
  have hpages : Word64.sub (alignDown stop kPageSize) (alignUp begin kPageSize) >>> kPageBits =
      (alignDown stop kPageSize - alignUp begin kPageSize) / 4096 := by
    rw [Word64.sub_of_le hlt.le (by omega), Nat.shiftRight_eq_div_pow]
    rfl
  have hbytes : Word64.mul (Word64.sub (alignDown stop kPageSize) (alignUp begin kPageSize) >>>
      kPageBits) 32 = (alignDown stop kPageSize - alignUp begin kPageSize) / 4096 * 32 := by
    rw [hpages]
    exact Nat.mod_eq_of_lt (by omega)
  obtain ⟨mmap, hcall⟩ := allocateRecords_fails fuel h hlt
    (by omega : 0 < (alignDown stop kPageSize - alignUp begin kPageSize) / 4096 * 32) (by omega)
  rw [← hbytes] at hcall
  refine ⟨mmap, ?_⟩
  dsimp only
  rw [if_neg (Nat.not_le.mpr hlt), hcall]
  rfl

theorem createZone_of_not_page (mmap : Option MemoryMap) (hle : begin ≤ stop)
    (hstop : stop ≤ 2 ^ 63) (hpage : ¬ HasPage (Set.Ico begin stop)) :
    createZone (allocateFrom build) mmap zones begin stop = (true, mmap, zones) := by
  rw [createZone]
  exact if_pos (Nat.not_lt.mp ((trimmed_lt_iff hle (by omega)).not.mpr hpage))

/-- A page does not go over an address that is missing. -/
theorem HasPage.of_union {s t : Set Nat} {y : Nat} (h : HasPage (s ∪ t)) (hlo : ∀ x ∈ s, x < y)
    (hhi : ∀ x ∈ t, y < x) : HasPage s ∨ HasPage t := by
  obtain ⟨a, hsub⟩ := h
  rcases Nat.lt_or_ge y (a * 2 ^ kPageBits) with hlt | hge
  · refine .inr ⟨a, fun x hx => (hsub hx).resolve_left fun hxs => ?_⟩
    exact Nat.lt_asymm (hlo x hxs) (hlt.trans_le hx.1)
  · have hlast : (a + 1) * 2 ^ kPageBits ≤ y := by
      refine Nat.not_lt.mp fun hlt => ?_
      rcases hsub ⟨hge, hlt⟩ with hy | hy
      · exact Nat.lt_irrefl y (hlo y hy)
      · exact Nat.lt_irrefl y (hhi y hy)
    refine .inl ⟨a, fun x hx => (hsub hx).resolve_right fun hxt => ?_⟩
    exact Nat.lt_asymm (hhi x hxt) (hx.2.trans_le hlast)

theorem coveredBy_touch {r : MemoryRange} (ranges : List MemoryRange) (hlt : begin < stop)
    (hr : r.start < r.stop) (htouch : stop = r.start) :
    Set.Ico begin stop ∪ coveredBy (r :: ranges) = Set.Ico begin r.stop ∪ coveredBy ranges := by
  rw [coveredBy_cons, ← Set.union_assoc, htouch, Set.Ico_union_Ico_eq_Ico (htouch ▸ hlt.le) hr.le]

/-- The ranges of a loop that has seen everything below `stop`. -/
structure Behind (stop : Nat) (ranges : List MemoryRange) : Prop where
  le_start : ∀ r ∈ ranges, stop ≤ r.start
  lt : ∀ r ∈ ranges, r.start < r.stop
  stop_le : ∀ r ∈ ranges, r.stop ≤ 2 ^ 63
  sorted : ranges.Pairwise fun r s => r.stop ≤ s.start

theorem Behind.tail {r : MemoryRange} {ranges : List MemoryRange} (h : Behind stop (r :: ranges)) :
    Behind r.stop ranges where
  le_start := (List.pairwise_cons.mp h.sorted).1
  lt := (List.forall_mem_cons.mp h.lt).2
  stop_le := (List.forall_mem_cons.mp h.stop_le).2
  sorted := (List.pairwise_cons.mp h.sorted).2

theorem createZonesLoop_of_not_page (mmap : Option MemoryMap) {ranges : List MemoryRange}
    (hlt : begin < stop) (hstop : stop ≤ 2 ^ 63) (hranges : Behind stop ranges)
    (hpage : ¬ HasPage (Set.Ico begin stop ∪ coveredBy ranges)) :
    createZonesLoop (allocateFrom build) mmap zones begin stop ranges = (true, mmap, zones) := by
  induction ranges generalizing begin stop with
  | nil => exact createZone_of_not_page mmap hlt.le hstop fun h =>
      hpage (h.mono Set.subset_union_left)
  | cons r ranges ih =>
      have hr := hranges.lt r List.mem_cons_self
      have hle := hranges.stop_le r List.mem_cons_self
      rw [createZonesLoop]
      split
      next htouch =>
        rw [coveredBy_touch ranges hlt hr htouch] at hpage
        exact ih (by omega) hle hranges.tail hpage
      next hgap =>
        rw [createZone_of_not_page mmap hlt.le hstop fun h => hpage (h.mono Set.subset_union_left)]
        refine ih hr hle hranges.tail fun h => hpage (h.mono ?_)
        rw [coveredBy_cons]
        exact Set.subset_union_right

theorem createZonesLoop_of_page (h : m.Low) {ranges : List MemoryRange} (hlt : begin < stop)
    (hstop : stop ≤ 2 ^ 63) (hranges : Behind stop ranges)
    (hpage : HasPage (Set.Ico begin stop ∪ coveredBy ranges)) : ∃ mmap,
      createZonesLoop (allocateFrom (.asWritten fuel)) (some m) zones begin stop ranges =
        (false, mmap, zones) := by
  induction ranges generalizing begin stop with
  | nil =>
      rw [coveredBy_nil, Set.union_empty] at hpage
      exact createZone_of_page fuel zones h hlt.le hstop hpage
  | cons r ranges ih =>
      have hr := hranges.lt r List.mem_cons_self
      have hle := hranges.stop_le r List.mem_cons_self
      rw [createZonesLoop]
      split
      next htouch =>
        rw [coveredBy_touch ranges hlt hr htouch] at hpage
        exact ih (by omega) hle hranges.tail hpage
      next hgap =>
        have hnext := hranges.le_start r List.mem_cons_self
        by_cases hfirst : HasPage (Set.Ico begin stop)
        · obtain ⟨mmap, hcall⟩ := createZone_of_page fuel zones h hlt.le hstop
            hfirst
          rw [hcall]
          exact ⟨mmap, rfl⟩
        · rw [createZone_of_not_page _ hlt.le hstop hfirst]
          refine ih hr hle hranges.tail ?_
          rw [← coveredBy_cons]
          refine (hpage.of_union (fun x hx => hx.2) fun x hx => ?_).resolve_left hfirst
          obtain ⟨s, hs, hlo, _⟩ := hx
          rcases List.mem_cons.mp hs with rfl | hs
          · omega
          · have hbehind := hranges.tail.le_start s hs
            omega

theorem behind_of_low (h : m.Low) : Behind 0 m.ranges.items where
  le_start _ _ := Nat.zero_le _
  lt _ hr := h.proper.lt _ (List.mem_map_of_mem hr)
  stop_le := h.stop_le
  sorted := List.pairwise_map.mp h.proper.pairwise

/-! ## The call -/

theorem freeUnusedLoop_of_not_page {zone : Nat} {ranges : List MemoryRange}
    (hranges : Behind stop ranges) (hpage : ¬ HasPage (coveredBy ranges)) :
    freeUnusedLoop fuel zones zone ranges = some (true, zones, []) := by
  induction ranges generalizing stop with
  | nil => rfl
  | cons r ranges ih =>
      rw [coveredBy_cons] at hpage
      have hr := hranges.lt r List.mem_cons_self
      have hle := hranges.stop_le r List.mem_cons_self
      have hrest := ih hranges.tail fun h => hpage (h.mono Set.subset_union_right)
      have hempty : ¬ HasPage (Set.Ico r.start r.stop) := fun h =>
        hpage (h.mono Set.subset_union_left)
      rw [freeUnusedLoop]
      split
      next => exact hrest
      next =>
        rw [if_pos (Nat.not_lt.mp ((trimmed_lt_iff hr.le (by omega)).not.mpr hempty))]
        exact hrest

/-- Where the registered memory has no page, every build sets the allocator up, and without
one. -/
theorem setupAllocator_of_not_page (h : m.Low) (hpage : ¬ HasPage (coveredBy m.ranges.items))
    (build : MemoryMap.Build) (fuel : Nat) :
    setupAllocator build fuel m = some (true, m, ⟨[], Nat.zero_le _⟩) := by
  have hbehind := behind_of_low h
  have hzones :
      createZones (allocateFrom build) (some m) m = (true, some m, ⟨[], Nat.zero_le _⟩) := by
    rw [createZones]
    cases hitems : m.ranges.items with
    | nil => rfl
    | cons r ranges =>
        rw [hitems] at hbehind hpage
        rw [coveredBy_cons] at hpage
        exact createZonesLoop_of_not_page _ (hbehind.lt r List.mem_cons_self)
          (hbehind.stop_le r List.mem_cons_self) hbehind.tail hpage
  rw [setupAllocator, hzones]
  simp only [Option.bind_eq_bind, Option.bind_some, Bool.not_true, Bool.false_eq_true,
    if_false, freeUnusedMemory, freeUnusedLoop_of_not_page hbehind hpage]
  rfl

theorem createZones_of_page (fuel : Nat) (h : m.Low)
    (hpage : HasPage (coveredBy m.ranges.items)) :
    ∃ mmap, createZones (allocateFrom (.asWritten fuel)) (some m) m =
      (false, mmap, ⟨[], Nat.zero_le _⟩) := by
  have hbehind := behind_of_low h
  rw [createZones]
  cases hitems : m.ranges.items with
  | nil =>
      rw [hitems, coveredBy_nil] at hpage
      obtain ⟨a, ha⟩ := hpage
      exact (ha ⟨Nat.le_refl _, Nat.mul_lt_mul_of_pos_right (Nat.lt_succ_self a)
        (Nat.two_pow_pos _)⟩).elim
  | cons r ranges =>
      rw [hitems] at hbehind hpage
      rw [coveredBy_cons] at hpage
      exact createZonesLoop_of_page h (hbehind.lt r List.mem_cons_self)
        (hbehind.stop_le r List.mem_cons_self) hbehind.tail hpage

/-- As it is written, the allocator is set up exactly if the registered memory has no page, and
then it has none either. -/
theorem setupAllocator_eq_true_iff (h : m.Low) (loops fuel : Nat) (m' : MemoryMap) (t : Zones) :
    setupAllocator (.asWritten loops) fuel m = some (true, m', t) ↔
      ¬ HasPage (coveredBy m.ranges.items) ∧ m' = m ∧ t = ⟨[], Nat.zero_le _⟩ := by
  constructor
  · intro hcall
    by_cases hpage : HasPage (coveredBy m.ranges.items)
    · obtain ⟨mmap, hcreate⟩ := createZones_of_page loops h hpage
      rw [setupAllocator, hcreate] at hcall
      cases mmap with
      | none => cases hcall
      | some mmap => cases hcall
    · rw [setupAllocator_of_not_page h hpage] at hcall
      cases hcall
      exact ⟨hpage, rfl, rfl⟩
  · rintro ⟨hpage, rfl, rfl⟩
    exact setupAllocator_of_not_page h hpage _ fuel

end Zones

end Aarch64.Cxx
