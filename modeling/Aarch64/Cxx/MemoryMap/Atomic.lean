import Aarch64.Cxx.MemoryMap.Run

/-!
# Changes of status that fail

`SetStatus` shortens the entry at an end of the range before it inserts the part that it
cut off. When the array is full the part is lost: the call returns `false`, and its
addresses are not registered any more. So a failing call is never atomic, and what
decides is whether there is room for the parts.
-/

namespace Aarch64.Cxx.MemoryMap

open Segments (Segment labelAt Ordered Proper)

variable {m : MemoryMap} {begin stop : Nat} {status : MemoryStatus}
variable {ranges : FixedVector MemoryRange 128} {pre post : List MemoryRange} {r : MemoryRange}

theorem segments_split (hitems : m.ranges.items = pre ++ r :: post) :
    m.segments = pre.map MemoryRange.segment ++ r.segment :: post.map MemoryRange.segment := by
  rw [segments, hitems, List.map_append, List.map_cons]

/-- An entry that is rewritten so that it leaves out one of its addresses loses it. -/
theorem lookup_set_of_outside (r' : MemoryRange) {x : Nat} (hm : Proper m.segments)
    (hitems : m.ranges.items = pre ++ r :: post) (hlo : r.start ≤ x) (hhi : x < r.stop)
    (hout : ¬ (r'.start ≤ x ∧ x < r'.stop)) :
    lookup m x ≠ none ∧ lookup ⟨m.ranges.set pre.length r'⟩ x = none := by
  have hsegments := segments_split hitems
  have hset : (⟨m.ranges.set pre.length r'⟩ : MemoryMap).ranges.items = pre ++ r' :: post :=
    FixedVector.items_set_of_append hitems r'
  have hord := hm.ordered
  rw [hsegments] at hord
  constructor
  · rw [lookup, hsegments, hord.labelAt_of_mem (List.mem_append_right _ List.mem_cons_self) hlo hhi]
    exact Option.some_ne_none _
  · rw [lookup, segments_split hset]
    refine (hord.labelAt_replace hlo hhi [r'.segment]).trans ?_
    exact if_neg hout

theorem split_at {α : Type} {l : List α} {i : Nat} (hi : i < l.length) :
    l = l.take i ++ l[i] :: l.drop (i + 1) := by
  rw [← List.drop_eq_getElem_cons hi, List.take_append_drop]

/-! ## The two cuts -/

theorem splitHead_none (range : MemoryRange) (upper : Nat) (hitems : ranges.items = pre ++ r :: post)
    (hge : ¬ r.start < range.start) :
    splitHead ranges range pre.length upper = some (true, ranges, pre.length, upper) := by
  have hread : ranges.items[pre.length]? = some r := by simp [hitems]
  simp only [splitHead, hread, Option.bind_eq_bind, Option.bind_some, if_neg hge]
  rfl

theorem splitHead_full (range : MemoryRange) (upper : Nat) (hitems : ranges.items = pre ++ r :: post)
    (hlt : r.start < range.start) (hfull : ranges.size = 128) :
    splitHead ranges range pre.length upper = some (false,
      ranges.set pre.length { r with start := range.start }, pre.length + 1, upper + 1) := by
  have hread : ranges.items[pre.length]? = some r := by simp [hitems]
  have hinsert : (ranges.set pre.length { r with start := range.start }).insert pre.length
      ⟨r.start, range.start, r.status⟩ = _ :=
    FixedVector.insert_full (by rw [FixedVector.size_set, hfull])
  simp only [splitHead, hread, Option.bind_eq_bind, Option.bind_some, if_pos hlt, hinsert]
  rfl

theorem splitHead_room (range : MemoryRange) (upper : Nat) (hitems : ranges.items = pre ++ r :: post)
    (hlt : r.start < range.start) (hroom : ranges.size < 128) :
    ∃ ranges', splitHead ranges range pre.length upper =
        some (true, ranges', pre.length + 1, upper + 1) ∧
      ranges'.items =
        pre ++ { r with stop := range.start } :: { r with start := range.start } :: post := by
  have hread : ranges.items[pre.length]? = some r := by simp [hitems]
  obtain ⟨ranges', hinsert, hitems'⟩ := FixedVector.insert_spec
    (FixedVector.items_set_of_append hitems { r with start := range.start })
    (by rw [FixedVector.size_set]; exact hroom) ⟨r.start, range.start, r.status⟩
  refine ⟨ranges', ?_, hitems'⟩
  simp only [splitHead, hread, Option.bind_eq_bind, Option.bind_some, if_pos hlt, hinsert]
  rfl

/-- The second cut either finds room, or loses the address where the range ends. -/
theorem splitTail_cases (hm : Proper m.segments) (hitems : m.ranges.items = pre ++ r :: post)
    (hstart : r.start < stop) :
    (m.ranges.size + (if stop < r.stop then 1 else 0) ≤ 128 ∧
        ∃ ranges, splitTail m.ranges ⟨begin, stop, status⟩ (pre.length + 1) =
          some (true, ranges)) ∨
      (128 < m.ranges.size + (if stop < r.stop then 1 else 0) ∧
        ∃ ranges, splitTail m.ranges ⟨begin, stop, status⟩ (pre.length + 1) =
          some (false, ranges) ∧ lookup m stop ≠ none ∧ lookup ⟨ranges⟩ stop = none) := by
  have hread : m.ranges.items[pre.length + 1 - 1]? = some r := by simp [hitems]
  have hfits := m.ranges.fits
  change m.ranges.size ≤ 128 at hfits
  simp only [splitTail, if_neg (Nat.succ_ne_zero pre.length), hread, Option.bind_eq_bind,
    Option.bind_some]
  by_cases htail : stop < r.stop
  · rw [if_pos htail]
    have hsplit : (m.ranges.set pre.length { r with stop }).items =
        (pre ++ [{ r with stop }]) ++ post := by
      rw [FixedVector.items_set_of_append hitems, List.append_assoc]
      rfl
    rcases Nat.lt_or_eq_of_le hfits with hroom | hfull
    · obtain ⟨ranges, hinsert, _⟩ := FixedVector.insert_spec hsplit
        (by rw [FixedVector.size_set]; exact hroom) ⟨stop, r.stop, r.status⟩
      rw [List.length_append, List.length_singleton] at hinsert
      exact .inl ⟨hroom, ranges, by rw [if_pos htail]; exact hinsert⟩
    · have hinsert : (m.ranges.set pre.length { r with stop }).insert (pre.length + 1)
          ⟨stop, r.stop, r.status⟩ = _ :=
        FixedVector.insert_full (by rw [FixedVector.size_set, hfull])
      refine .inr ⟨by omega, _, by rw [if_pos htail]; exact hinsert, ?_⟩
      exact lookup_set_of_outside _ hm hitems hstart.le htail fun hin => Nat.lt_irrefl stop hin.2
  · rw [if_neg htail]
    exact .inl ⟨hfits, m.ranges, if_neg htail⟩

/-! ## The call -/

/-- The number of entries that the call has to add. -/
def cuts (m : MemoryMap) (begin stop : Nat) : Nat :=
  (if ∃ e ∈ m.ranges.items, e.start < begin ∧ begin < e.stop then 1 else 0) +
    if ∃ e ∈ m.ranges.items, e.start < stop ∧ stop < e.stop then 1 else 0

/-- A call that fails leaves every address as it was, in every build. -/
def Atomic (m : MemoryMap) (call : Build → Option (Bool × MemoryMap)) : Prop :=
  ∀ build m', call build = some (false, m') → ∀ x, lookup m' x = lookup m x

section Searches

variable {lower upper lower' upper' : Nat}
variable (hlower : lower = lowerBound m.ranges.items fun l => less l ⟨begin, stop, status⟩)
variable (hupper : upper = upperBound m.ranges.items fun r => less ⟨begin, stop, status⟩ r)
include hlower hupper

/-- After both cuts the call does not fail any more. -/
theorem setStatus_ne_false {ranges' : FixedVector MemoryRange 128} (hlt : lower < upper)
    (hhead : splitHead m.ranges ⟨begin, stop, status⟩ lower upper =
      some (true, ranges, lower', upper'))
    (htail : splitTail ranges ⟨begin, stop, status⟩ upper' = some (true, ranges')) :
    Atomic m fun build => m.setStatus build begin stop status := by
  intro build m' h
  change m.setStatus build begin stop status = _ at h
  rw [setStatus, ← hlower, ← hupper, if_neg hlt.ne, hhead] at h
  simp only [Option.bind_eq_bind, Option.bind_some, Bool.not_true, Bool.false_eq_true, if_false,
    htail, Option.bind_eq_some_iff] at h
  obtain ⟨_, _, _, _, _, _, h⟩ := h
  cases h

theorem setStatus_head_fails (build : Build) (hlt : lower < upper)
    (hhead : splitHead m.ranges ⟨begin, stop, status⟩ lower upper =
      some (false, ranges, lower', upper')) :
    m.setStatus build begin stop status = some (false, ⟨ranges⟩) := by
  rw [setStatus, ← hlower, ← hupper, if_neg hlt.ne, hhead]
  rfl

theorem setStatus_tail_fails {ranges' : FixedVector MemoryRange 128} (build : Build)
    (hlt : lower < upper)
    (hhead : splitHead m.ranges ⟨begin, stop, status⟩ lower upper =
      some (true, ranges, lower', upper'))
    (htail : splitTail ranges ⟨begin, stop, status⟩ upper' = some (false, ranges')) :
    m.setStatus build begin stop status = some (false, ⟨ranges'⟩) := by
  rw [setStatus, ← hlower, ← hupper, if_neg hlt.ne, hhead]
  simp only [Option.bind_eq_bind, Option.bind_some, Bool.not_true, Bool.false_eq_true, if_false,
    htail]
  rfl

/-- The entries that have to be cut are the first and the last of the run. -/
theorem cuts_eq (hm : Proper m.segments) {first last : MemoryRange}
    (hlt : lower < upper) (hfirst : m.ranges.items[lower]? = some first)
    (hlast : m.ranges.items[upper - 1]? = some last) :
    cuts m begin stop =
      (if first.start < begin then 1 else 0) + if stop < last.stop then 1 else 0 := by
  obtain ⟨hlow, rfl⟩ := List.getElem?_eq_some_iff.mp hfirst
  obtain ⟨hup, rfl⟩ := List.getElem?_eq_some_iff.mp hlast
  have hpair : m.ranges.items.Pairwise fun a b => a.stop ≤ b.start := List.pairwise_map.mp hm.pairwise
  have hnext : ∀ i j (hi : i < m.ranges.items.length) (hj : j < m.ranges.items.length), i < j →
      m.ranges.items[i].stop ≤ m.ranges.items[j].start := fun i j hi hj =>
    List.pairwise_iff_getElem.mp hpair i j hi hj
  have hbehind : ∀ i (hi : i < m.ranges.items.length), lower ≤ i ↔ begin < m.ranges.items[i].stop :=
    fun i hi => hlower ▸ lower_le_iff hm.ordered begin stop status hi
  have hbefore : ∀ i (hi : i < m.ranges.items.length), upper ≤ i ↔ stop ≤ m.ranges.items[i].start :=
    fun i hi => hupper ▸ upper_le_iff hm.ordered begin stop status hi
  have hhead : (∃ e ∈ m.ranges.items, e.start < begin ∧ begin < e.stop) ↔
      m.ranges.items[lower].start < begin := by
    constructor
    · rintro ⟨e, he, hstart, hstop⟩
      obtain ⟨i, hi, rfl⟩ := List.mem_iff_getElem.mp he
      rcases Nat.eq_or_lt_of_le ((hbehind i hi).mpr hstop) with rfl | hgt
      · exact hstart
      · have hle := hnext lower i hlow hi hgt
        have hin := (hbehind lower hlow).mp (Nat.le_refl _)
        omega
    · exact fun hstart =>
        ⟨_, List.getElem_mem hlow, hstart, (hbehind lower hlow).mp (Nat.le_refl _)⟩
  have htail : (∃ e ∈ m.ranges.items, e.start < stop ∧ stop < e.stop) ↔
      stop < m.ranges.items[upper - 1].stop := by
    have hin := (hbefore (upper - 1) hup).not.mp (by omega)
    constructor
    · rintro ⟨e, he, hstart, hstop⟩
      obtain ⟨i, hi, rfl⟩ := List.mem_iff_getElem.mp he
      have hilt := (hbefore i hi).not.mpr (Nat.not_le.mpr hstart)
      rcases Nat.eq_or_lt_of_le (Nat.le_sub_one_of_lt (Nat.not_le.mp hilt)) with heq | hgt
      · subst heq
        exact hstop
      · have hle := hnext i (upper - 1) hi hup hgt
        omega
    · exact fun hstop => ⟨_, List.getElem_mem hup, Nat.not_le.mp hin, hstop⟩
  rw [cuts, if_congr hhead rfl rfl, if_congr htail rfl rfl]

end Searches

/-- After the first cut, the second one decides. -/
theorem atomic_iff_of_head {lower upper lower' upper' n : Nat} {last : MemoryRange}
    (hlower : lower = lowerBound m.ranges.items fun l => less l ⟨begin, stop, status⟩)
    (hupper : upper = upperBound m.ranges.items fun r => less ⟨begin, stop, status⟩ r)
    (hlt : lower < upper)
    (hhead : splitHead m.ranges ⟨begin, stop, status⟩ lower upper =
      some (true, ranges, lower', upper'))
    (hm : Proper (⟨ranges⟩ : MemoryMap).segments)
    (hsame : ∀ x, lookup ⟨ranges⟩ x = lookup m x) (hsize : ranges.size = m.ranges.size + n)
    (hitems : ranges.items = pre ++ r :: post) (hpos : upper' = pre.length + 1)
    (hstart : r.start < stop) (hstop : r.stop = last.stop) :
    (Atomic m fun build => m.setStatus build begin stop status) ↔
      m.ranges.size + (n + if stop < last.stop then 1 else 0) ≤ 128 := by
  rw [← Nat.add_assoc, ← hsize, ← hstop]
  subst hpos
  rcases splitTail_cases (m := ⟨ranges⟩) hm hitems hstart with
    ⟨hroom, ranges', htail⟩ | ⟨hfull, ranges', htail, hbefore, hafter⟩
  · exact iff_of_true (setStatus_ne_false hlower hupper hlt hhead htail) hroom
  · refine iff_of_false (fun h => hbefore ?_) (Nat.not_le.mpr hfull)
    rw [hsame, ← h (.asWritten 0) _ (setStatus_tail_fails hlower hupper _ hlt hhead htail), hafter]

/-- After the first cut the last entry of the run has moved by one, and may be the one that
was cut. -/
theorem exists_last_of_cut {lower upper : Nat} {items : List MemoryRange}
    {head tail : MemoryRange} (hlt : lower < upper) (hup : upper - 1 < items.length)
    (hcut : ranges.items = items.take lower ++ head :: tail :: items.drop (lower + 1))
    (hhead : tail.start < stop) (htail : tail.stop = items[lower].stop)
    (hlast : items[upper - 1].start < stop) :
    ∃ pre r post, ranges.items = pre ++ r :: post ∧ upper + 1 = pre.length + 1 ∧
      r.start < stop ∧ r.stop = items[upper - 1].stop := by
  have hpre : (items.take lower).length = lower := List.length_take_of_le (by omega)
  rcases Nat.eq_or_lt_of_le (Nat.succ_le_of_lt hlt) with rfl | hgt
  · refine ⟨items.take lower ++ [head], tail, items.drop (lower + 1), ?_, ?_, hhead, htail⟩
    · rw [hcut, List.append_assoc]
      rfl
    · rw [List.length_append, hpre, List.length_singleton]
  · have hrest : upper - 1 - (lower + 1) < (items.drop (lower + 1)).length := by
      rw [List.length_drop]
      omega
    have heq : (items.drop (lower + 1))[upper - 1 - (lower + 1)] = items[upper - 1] := by
      rw [List.getElem_drop]
      congr 1
      omega
    have hsplit := split_at hrest
    rw [heq] at hsplit
    rw [hsplit] at hcut
    refine ⟨_, _, _, hcut.trans (List.append_assoc _ (_ :: _ :: _) _).symm, ?_, hlast, rfl⟩
    rw [List.length_append, hpre, List.length_cons, List.length_cons,
      List.length_take_of_le hrest.le]
    omega

/-- A range that meets no entry changes nothing. -/
theorem atomic_of_outside (hrange : begin < stop) (status : MemoryStatus)
    (heq : (lowerBound m.ranges.items fun l => less l ⟨begin, stop, status⟩) =
      upperBound m.ranges.items fun r => less ⟨begin, stop, status⟩ r)
    (hout : ¬ ∃ e ∈ m.ranges.items, e.start < stop ∧ begin < e.stop) :
    (Atomic m fun build => m.setStatus build begin stop status) ∧ cuts m begin stop = 0 := by
  constructor
  · intro build m' h
    change m.setStatus build begin stop status = _ at h
    rw [setStatus, if_pos heq] at h
    cases h
  · rw [cuts, if_neg, if_neg]
    · rintro ⟨e, he, hstart, hstop⟩
      exact hout ⟨e, he, hstart, by omega⟩
    · rintro ⟨e, he, hstart, hstop⟩
      exact hout ⟨e, he, by omega, hstop⟩

theorem setStatus_atomic_iff (hm : Proper m.segments) (hrange : begin < stop)
    (status : MemoryStatus) :
    (Atomic m fun build => m.setStatus build begin stop status) ↔
      m.ranges.size + cuts m begin stop ≤ 128 := by
  obtain ⟨hle, hlen, _⟩ := cut_bounds hm hrange status rfl rfl
  have hmeet := lower_lt_upper_iff hm.ordered begin stop status
  have hfits : m.ranges.size ≤ 128 := m.ranges.fits
  rcases Nat.eq_or_lt_of_le hle with heq | hlt
  · obtain ⟨hatomic, hcuts⟩ := atomic_of_outside hrange status heq (hmeet.not.mp heq.not_lt)
    exact iff_of_true hatomic (by rwa [hcuts])
  set lower := lowerBound m.ranges.items fun l => less l ⟨begin, stop, status⟩ with hlower
  set upper := upperBound m.ranges.items fun r => less ⟨begin, stop, status⟩ r with hupper
  have hlow : lower < m.ranges.items.length := Nat.lt_of_lt_of_le hlt hlen
  have hup : upper - 1 < m.ranges.items.length := by
    change upper ≤ m.ranges.items.length at hlen
    omega
  rw [cuts_eq hlower hupper hm hlt (List.getElem?_eq_getElem hlow) (List.getElem?_eq_getElem hup)]
  have hbegin := (lower_le_iff hm.ordered begin stop status hlow).mp hlower.ge
  have hlast := Nat.not_le.mp ((upper_le_iff hm.ordered begin stop status hup).not.mp (by omega))
  have hitems := split_at hlow
  have hpre : (m.ranges.items.take lower).length = lower := List.length_take_of_le hlow.le
  by_cases hhead : m.ranges.items[lower].start < begin
  · rw [if_pos hhead]
    rcases Nat.lt_or_eq_of_le hfits with hroom | hfull
    · -- there is room for the first part, and the map still says the same
      obtain ⟨ranges, hcall, hcut⟩ := splitHead_room ⟨begin, stop, status⟩ upper hitems hhead hroom
      rw [hpre] at hcall
      have hproper : Proper _ := segments_split hitems ▸ hm
      obtain ⟨hm', hsame⟩ := hproper.cut (y := begin) hhead hbegin
      have hsegments : (⟨ranges⟩ : MemoryMap).segments = _ := segments_split hcut
      have hsize : ranges.size = m.ranges.size + 1 := by
        simp only [FixedVector.size, hcut, List.length_append, List.length_cons, hpre,
          List.length_drop]
        omega
      have hsame' : ∀ x, lookup ⟨ranges⟩ x = lookup m x := by
        intro x
        rw [lookup, hsegments, lookup, segments_split hitems]
        exact hsame x
      have hproper' : Proper (⟨ranges⟩ : MemoryMap).segments := hsegments ▸ hm'
      obtain ⟨pre, r, post, hsplit, hpos, hstart, hstop⟩ :=
        exists_last_of_cut hlt hup hcut hrange rfl hlast
      exact atomic_iff_of_head hlower hupper hlt hcall hproper' hsame' hsize hsplit hpos hstart
        hstop
    · -- the first part is lost
      have hcall := splitHead_full ⟨begin, stop, status⟩ upper hitems hhead hfull
      rw [hpre] at hcall
      obtain ⟨hbefore, hafter⟩ := lookup_set_of_outside
        { m.ranges.items[lower] with start := begin } hm hitems (Nat.le_refl _)
        (Nat.lt_trans hhead hbegin) fun hin => Nat.not_le.mpr hhead hin.1
      rw [hpre] at hafter
      refine iff_of_false (fun h => hbefore ?_) (by omega)
      rw [← h (.asWritten 0) _ (setStatus_head_fails hlower hupper _ hlt hcall), hafter]
  · rw [if_neg hhead]
    have hcall := splitHead_none ⟨begin, stop, status⟩ upper hitems hhead
    rw [hpre] at hcall
    refine atomic_iff_of_head hlower hupper hlt hcall hm (fun _ => rfl) rfl (split_at hup) ?_
      hlast rfl
    rw [List.length_take_of_le hup.le]
    omega

/-- When a failing `Reserve` or `Release` leaves the statuses as they were: exactly if there is room
for the entries into which it cuts those at the ends of the range. Otherwise the call has shortened
an entry by the time it finds no room for the rest of it. The build does not matter, since a call
that fails has not reached the loop. -/
theorem reserve_release_atomic_iff (hm : Proper m.segments) (hrange : begin < stop) :
    ((Atomic m fun build => m.reserve build begin stop) ↔
        m.ranges.size + cuts m begin stop ≤ 128) ∧
      ((Atomic m fun build => m.release build begin stop) ↔
        m.ranges.size + cuts m begin stop ≤ 128) :=
  ⟨setStatus_atomic_iff hm hrange .reserved, setStatus_atomic_iff hm hrange .free⟩

theorem reserve_release_atomic_iff_single :
    ((Atomic (single 0 100) fun build => (single 0 100).reserve build 20 80) ↔
        (single 0 100).ranges.size + cuts (single 0 100) 20 80 ≤ 128) ∧
      ((Atomic (single 0 100) fun build => (single 0 100).release build 20 80) ↔
        (single 0 100).ranges.size + cuts (single 0 100) 20 80 ≤ 128) :=
  reserve_release_atomic_iff (single_proper (by decide)) (by decide)

/-- A full map of entries that do not touch. -/
def comb : MemoryMap :=
  ⟨⟨(List.range 128).map fun i => ⟨100 * i, 100 * i + 50, .free⟩, by simp⟩⟩

theorem comb_proper : Proper comb.segments := by
  refine ⟨fun s hs => ?_, ?_⟩
  · obtain ⟨e, he, rfl⟩ := List.mem_map.mp hs
    obtain ⟨i, _, rfl⟩ := List.mem_map.mp he
    exact Nat.lt_add_of_pos_right (by decide)
  · simp only [segments, comb, List.map_map, List.pairwise_map]
    refine List.pairwise_lt_range.imp fun {i j} hij => ?_
    change 100 * i + 50 ≤ 100 * j
    omega

/-- Reserving the second half of the first entry fails, and the first half is gone. -/
theorem reserve_release_atomic_fails : ¬ ∀ (m : MemoryMap) (begin stop : Nat),
    Proper m.segments → begin < stop → ∀ build m',
      m.reserve build begin stop = some (false, m') → ∀ x, lookup m' x = lookup m x := by
  intro hclaim
  have hatomic : Atomic comb fun build => comb.reserve build 25 50 :=
    hclaim comb 25 50 comb_proper (by decide)
  have hroom := (setStatus_atomic_iff comb_proper (by decide) .reserved).mp hatomic
  revert hroom
  decide +kernel

end Aarch64.Cxx.MemoryMap
