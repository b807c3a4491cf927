import Aarch64.Cxx.MemoryMap.Basic
import Aarch64.Lib.Segments

/-!
# Changing the status of a range

The entries denote a partial function from addresses to statuses. When no entry
overlaps the range, `SetStatus` returns at once and is right to do so, in every build.
When some entry does, it reaches the loop that writes the status; the loop advances the
end of the run and never the entry that it writes, so it does not end, and a program that
runs it has no defined behaviour.
-/

namespace Aarch64.Cxx

open Segments (Segment labelAt Ordered Proper Cut)

namespace MemoryRange

def segment (r : MemoryRange) : Segment Nat MemoryStatus := ⟨r.start, r.stop, r.status⟩

@[simp] theorem segment_lo (r : MemoryRange) : r.segment.lo = r.start := rfl
@[simp] theorem segment_hi (r : MemoryRange) : r.segment.hi = r.stop := rfl
@[simp] theorem segment_label (r : MemoryRange) : r.segment.label = r.status := rfl

end MemoryRange

namespace MemoryMap

def segments (m : MemoryMap) : List (Segment Nat MemoryStatus) :=
  m.ranges.items.map MemoryRange.segment

/-- The status under which an address is registered. -/
def lookup (m : MemoryMap) (x : Nat) : Option MemoryStatus := labelAt m.segments x

/-- The outcome that a change of status is meant to have. -/
structure StatusSet (m : MemoryMap) (begin stop : Nat) (status : MemoryStatus) (m' : MemoryMap) :
    Prop where
  inside : ∀ x, begin ≤ x → x < stop → lookup m x ≠ none → lookup m' x = some status
  outside : ∀ x, ¬ (begin ≤ x ∧ x < stop) → lookup m' x = lookup m x
  registered : ∀ x, lookup m' x = none ↔ lookup m x = none
  proper : Proper m'.segments

variable {m : MemoryMap} {begin stop : Nat}

/-! ## The searches -/

theorem findIdx_lower (m : MemoryMap) (begin stop : Nat) (status : MemoryStatus) :
    (lowerBound m.ranges.items fun l => less l ⟨begin, stop, status⟩) =
      m.segments.findIdx fun s => decide (begin < s.hi) := by
  rw [segments, List.findIdx_map]
  refine congrArg (fun f => List.findIdx f _) (funext fun r => ?_)
  rw [Bool.eq_iff_iff]
  simp only [less, Bool.not_eq_true', decide_eq_false_iff_not, Nat.not_le]
  exact decide_eq_true_iff.symm

theorem findIdx_upper (m : MemoryMap) (begin stop : Nat) (status : MemoryStatus) :
    (upperBound m.ranges.items fun r => less ⟨begin, stop, status⟩ r) =
      m.segments.findIdx fun s => decide (stop ≤ s.lo) := by
  rw [segments, List.findIdx_map]
  rfl

/-- The first search finds the entries that end behind the start of the range. -/
theorem lower_le_iff (hm : Ordered m.segments) (begin stop : Nat) (status : MemoryStatus) {i : Nat}
    (hi : i < m.ranges.items.length) :
    (lowerBound m.ranges.items fun l => less l ⟨begin, stop, status⟩) ≤ i ↔
      begin < m.ranges.items[i].stop := by
  have hlen : i < m.segments.length := by rwa [segments, List.length_map]
  have hat : m.segments[i].hi = m.ranges.items[i].stop := by
    simp only [segments, List.getElem_map, MemoryRange.segment_hi]
  have hmono : m.segments.Pairwise fun a b =>
      decide (begin < a.hi) = true → decide (begin < b.hi) = true := by
    simpa only [decide_eq_true_eq] using hm.pairwise_lt_hi begin
  rw [findIdx_lower, Segments.findIdx_le_iff hmono hlen, decide_eq_true_iff, hat]

/-- The second search finds the entries that start at or behind its end. -/
theorem upper_le_iff (hm : Ordered m.segments) (begin stop : Nat) (status : MemoryStatus) {i : Nat}
    (hi : i < m.ranges.items.length) :
    (upperBound m.ranges.items fun r => less ⟨begin, stop, status⟩ r) ≤ i ↔
      stop ≤ m.ranges.items[i].start := by
  have hlen : i < m.segments.length := by rwa [segments, List.length_map]
  have hat : m.segments[i].lo = m.ranges.items[i].start := by
    simp only [segments, List.getElem_map, MemoryRange.segment_lo]
  have hmono : m.segments.Pairwise fun a b =>
      decide (stop ≤ a.lo) = true → decide (stop ≤ b.lo) = true := by
    simpa only [decide_eq_true_eq] using hm.pairwise_le_lo stop
  rw [findIdx_upper, Segments.findIdx_le_iff hmono hlen, decide_eq_true_iff, hat]

/-- The two searches find the entries that overlap the range. -/
theorem cut_bounds (hm : Proper m.segments) (hlt : begin < stop) (status : MemoryStatus)
    {lower upper : Nat} (hlower : lower =
      lowerBound m.ranges.items fun l => less l ⟨begin, stop, status⟩)
    (hupper : upper = upperBound m.ranges.items fun r => less ⟨begin, stop, status⟩ r) :
    lower ≤ upper ∧ upper ≤ m.ranges.size ∧
      Cut ⟨begin, stop, status⟩ m.segments (m.segments.take lower)
        ((m.segments.drop lower).take (upper - lower)) (m.segments.drop upper) := by
  have hl := hlower.trans (findIdx_lower m begin stop status)
  have hu := hupper.trans (findIdx_upper m begin stop status)
  obtain ⟨hle, hcut⟩ := Segments.cut_of_findIdx (m := ⟨begin, stop, status⟩) hm.ordered hlt
    (p := fun s => decide (begin < s.hi)) (q := fun s => decide (stop ≤ s.lo))
    (fun s _ => by simp) (fun s _ => by simp)
  rw [← hl, ← hu] at hle hcut
  refine ⟨hle, ?_, hcut⟩
  have hlen : m.segments.findIdx (fun s => decide (stop ≤ s.lo)) ≤ m.segments.length :=
    List.findIdx_le_length
  rwa [← hu, segments, List.length_map] at hlen

/-- The searches give an empty run exactly when no address of the range is
registered. -/
theorem bounds_eq_iff (hm : Proper m.segments) (hlt : begin < stop) (status : MemoryStatus)
    {lower upper : Nat} (hlower : lower =
      lowerBound m.ranges.items fun l => less l ⟨begin, stop, status⟩)
    (hupper : upper = upperBound m.ranges.items fun r => less ⟨begin, stop, status⟩ r) :
    lower = upper ↔ ∀ x, begin ≤ x → x < stop → lookup m x = none := by
  obtain ⟨hle, hlen, hcut⟩ := cut_bounds hm hlt status hlower hupper
  constructor
  · intro heq x hlo hhi
    refine Segments.labelAt_eq_none_iff.mpr fun s hs hx => ?_
    rw [hcut.eq, heq, Nat.sub_self, List.take_zero, List.nil_append, List.mem_append] at hs
    rcases hs with hs | hs
    · rw [← heq] at hs
      have hbefore : s.hi ≤ begin := hcut.before s hs
      omega
    · have hafter : stop ≤ s.lo := hcut.after s hs
      omega
  · intro hnone
    by_contra hne
    -- the first entry of the run shares an address with the range
    have hlow : lower < m.segments.length := by
      rw [segments, List.length_map]
      change lower < m.ranges.size
      omega
    have hmem : m.segments[lower] ∈ (m.segments.drop lower).take (upper - lower) := by
      rw [List.mem_take_iff_getElem]
      exact ⟨0, by simp; omega, by simp⟩
    obtain ⟨hlo, hhi⟩ := hcut.overlap _ hmem
    have hseg := hm.lt _ (List.getElem_mem hlow)
    change begin < _ at hlo
    change _ < stop at hhi
    have hlabel := hm.ordered.labelAt_of_mem (List.getElem_mem hlow)
      (Nat.le_max_right begin m.segments[lower].lo) (by omega)
    rw [← lookup, hnone _ (Nat.le_max_left _ _) (by omega)] at hlabel
    cases hlabel

/-! ## The loop that does not end -/

theorem relabelLoop_eq_none (status : MemoryStatus) : ∀ (fuel : Nat)
    (ranges : FixedVector MemoryRange 128) (it end' : Nat), it < end' →
    relabelLoop fuel ranges it end' status = none := by
  intro fuel
  induction fuel with
  | zero =>
      intro ranges it end' hlt
      rw [relabelLoop, if_neg (Nat.ne_of_lt hlt)]
  | succ fuel ih =>
      intro ranges it end' hlt
      rw [relabelLoop, if_neg (Nat.ne_of_lt hlt)]
      cases ranges.items[it]? with
      | none => rfl
      | some range => exact ih _ it (end' + 1) (Nat.lt_succ_of_lt hlt)

/-- With room for two more entries, splitting at the start of the range succeeds
and keeps the run nonempty. -/
theorem splitHead_cases {ranges ranges' : FixedVector MemoryRange 128} {range : MemoryRange}
    {lower upper lower' upper' : Nat} {ok : Bool} (hroom : ranges.size ≤ 126)
    (hlt : lower < upper)
    (h : splitHead ranges range lower upper = some (ok, ranges', lower', upper')) :
    ok = true ∧ ranges'.size ≤ 127 ∧ lower' < upper' := by
  simp only [splitHead, Option.bind_eq_bind, Option.bind_eq_some_iff] at h
  obtain ⟨first, _, h⟩ := h
  split at h
  next =>
    simp only [Option.bind_eq_some_iff] at h
    obtain ⟨⟨ok', inserted⟩, hinsert, h⟩ := h
    cases h
    obtain ⟨hok, hsize⟩ := FixedVector.insert_of_lt (by rw [FixedVector.size_set]; omega) hinsert
    rw [FixedVector.size_set] at hsize
    refine ⟨hok, ?_, Nat.succ_lt_succ hlt⟩
    change inserted.size ≤ 127
    omega
  next =>
    cases h
    exact ⟨rfl, by omega, hlt⟩

theorem splitTail_ok {ranges ranges' : FixedVector MemoryRange 128} {range : MemoryRange}
    {upper : Nat} {ok : Bool} (hroom : ranges.size ≤ 127)
    (h : splitTail ranges range upper = some (ok, ranges')) : ok = true := by
  simp only [splitTail, Option.bind_eq_bind, Option.bind_eq_some_iff] at h
  obtain ⟨last, _, h⟩ := h
  split at h
  next =>
    exact (FixedVector.insert_of_lt (by rw [FixedVector.size_set]; omega) h).1
  next =>
    cases h
    rfl

theorem relabel_asWritten {ranges : FixedVector MemoryRange 128} {it «to» : Nat} (fuel : Nat)
    (status : MemoryStatus) (hlt : it < «to») :
    relabel (.asWritten fuel) ranges it «to» status = none := by
  rw [relabel, if_pos hlt]
  exact relabelLoop_eq_none status fuel ranges it «to» hlt

/-- Once the searches find an entry, the call as it is written never returns. -/
theorem setStatus_eq_none (hroom : m.ranges.size ≤ 126) (status : MemoryStatus) (fuel : Nat)
    (hlt : lowerBound m.ranges.items (fun l => less l ⟨begin, stop, status⟩) <
      upperBound m.ranges.items (fun r => less ⟨begin, stop, status⟩ r)) :
    m.setStatus (.asWritten fuel) begin stop status = none := by
  rw [setStatus, if_neg (Nat.ne_of_lt hlt)]
  cases hhead : splitHead m.ranges ⟨begin, stop, status⟩
      (lowerBound m.ranges.items fun l => less l ⟨begin, stop, status⟩)
      (upperBound m.ranges.items fun r => less ⟨begin, stop, status⟩ r) with
  | none => rfl
  | some split =>
      obtain ⟨ok, ranges, lower', upper'⟩ := split
      obtain ⟨rfl, hsize, hlt'⟩ := splitHead_cases hroom hlt hhead
      simp only [Option.bind_eq_bind, Option.bind_some, Bool.not_true, Bool.false_eq_true,
        if_false]
      cases htail : splitTail ranges ⟨begin, stop, status⟩ upper' with
      | none => rfl
      | some split' =>
          obtain ⟨ok, ranges'⟩ := split'
          obtain rfl := splitTail_ok hsize htail
          simp [relabel_asWritten fuel status hlt']

/-! ## When the status is set -/

theorem setStatus_iff (hm : Proper m.segments) (hroom : m.ranges.size ≤ 126)
    (hlt : begin < stop) (status : MemoryStatus) :
    (∀ build, ∃ m', m.setStatus build begin stop status = some (true, m') ∧
      StatusSet m begin stop status m') ↔ ∀ x, begin ≤ x → x < stop → lookup m x = none := by
  have hbounds := bounds_eq_iff hm hlt status rfl rfl
  obtain ⟨hle, _, _⟩ := cut_bounds hm hlt status rfl rfl
  constructor
  · intro hbuilds
    obtain ⟨m', hcall, _⟩ := hbuilds (.asWritten 0)
    refine hbounds.mp (Nat.le_antisymm hle (Nat.le_of_not_lt fun hrun => ?_))
    rw [setStatus_eq_none hroom status 0 hrun] at hcall
    cases hcall
  · intro hnone build
    refine ⟨m, ?_, ?_, fun _ _ => rfl, fun _ => Iff.rfl, hm⟩
    · rw [setStatus, if_pos (hbounds.mpr hnone)]
    · intro x hlo hhi hx
      exact absurd (hnone x hlo hhi) hx

/-- `Reserve` and `Release` return with the status set on every address of the range that is
registered, and on no other, exactly when no address of it is registered. Otherwise the loop of
`SetStatus` starts, whose behaviour is undefined, and there is a build in which the call does not do
so. -/
theorem reserve_release_iff (hm : Proper m.segments) (hroom : m.ranges.size ≤ 126)
    (hlt : begin < stop) :
    ((∀ build, ∃ m', m.reserve build begin stop = some (true, m') ∧
        StatusSet m begin stop .reserved m') ↔ ∀ x, begin ≤ x → x < stop → lookup m x = none) ∧
      ((∀ build, ∃ m', m.release build begin stop = some (true, m') ∧
        StatusSet m begin stop .free m') ↔ ∀ x, begin ≤ x → x < stop → lookup m x = none) :=
  ⟨setStatus_iff hm hroom hlt .reserved, setStatus_iff hm hroom hlt .free⟩

/-- One free entry, as `Register` makes it of an empty map. -/
def single (start stop : Nat) : MemoryMap := ⟨⟨[⟨start, stop, .free⟩], by simp⟩⟩

theorem single_proper {start stop : Nat} (h : start < stop) : Proper (single start stop).segments where
  lt s hs := by
    obtain rfl := List.mem_singleton.mp hs
    exact h
  pairwise := List.pairwise_singleton _ _

theorem reserve_release_iff_beyond :
    ((∀ build, ∃ m', (single 0 100).reserve build 200 300 = some (true, m') ∧
        StatusSet (single 0 100) 200 300 .reserved m') ↔
      ∀ x, 200 ≤ x → x < 300 → lookup (single 0 100) x = none) ∧
      ((∀ build, ∃ m', (single 0 100).release build 200 300 = some (true, m') ∧
        StatusSet (single 0 100) 200 300 .free m') ↔
      ∀ x, 200 ≤ x → x < 300 → lookup (single 0 100) x = none) :=
  reserve_release_iff (single_proper (by decide)) (by decide) (by decide)

/-- Two free entries with a gap between them. -/
def pair : MemoryMap := ⟨⟨[⟨0, 10, .free⟩, ⟨20, 30, .free⟩], by decide⟩⟩

theorem pair_proper : Proper pair.segments where
  lt := by decide
  pairwise := by decide

/-- Reserving the end of one entry and the start of the next goes wrong in both builds: as it is
written the call never returns, and with one store it leaves the second entry free. -/
theorem reserve_pair_fails : Proper pair.segments ∧ pair.ranges.size ≤ 126 ∧
    (∀ fuel, pair.reserve (.asWritten fuel) 5 25 = none) ∧
    ∃ m', pair.reserve .oneStore 5 25 = some (true, m') ∧ lookup pair 20 = some .free ∧
      lookup m' 20 = some .free ∧ ¬ StatusSet pair 5 25 .reserved m' := by
  have hleft : ∃ m', pair.reserve .oneStore 5 25 = some (true, m') ∧
      lookup m' 20 = some .free := by
    refine ⟨⟨⟨[⟨0, 5, .free⟩, ⟨5, 10, .reserved⟩, ⟨20, 30, .free⟩], by decide⟩⟩, ?_, ?_⟩ <;>
      decide +kernel
  obtain ⟨m', hcall, hfree⟩ := hleft
  refine ⟨pair_proper, by decide, fun fuel => setStatus_eq_none (by decide) .reserved fuel
    (by decide), m', hcall, by decide +kernel, hfree, fun hset => ?_⟩
  have hreserved := hset.inside 20 (by decide) (by decide) (by decide +kernel)
  rw [hfree] at hreserved
  cases hreserved

end MemoryMap

end Aarch64.Cxx
