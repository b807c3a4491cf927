import Aarch64.Cxx.MemoryMap.SetStatus

/-!
# Registering a range

`MemoryMap::Register` of `memory/phys.cc`. The range joins the entries of its own status
that it overlaps, and is refused when one of another status does. Empty ranges are
registered too, as entries without an address.
-/

namespace Aarch64.Cxx

open Segments (Segment labelAt Ordered Proper Cut hull)

variable {N : Nat}

/-- The loop over the entries that overlap the range. -/
def sameStatusLoop (ranges : FixedVector MemoryRange N) (it «to» : Nat) (status : MemoryStatus) :
    Option Bool :=
  if it = «to» then some true
  else
    match _h : ranges.items[it]? with
    | some entry =>
        if entry.status ≠ status then some false
        else sameStatusLoop ranges (it + 1) «to» status
    | none => none
termination_by ranges.items.length - it
decreasing_by
  have := (List.getElem?_eq_some_iff.mp ‹_›).1
  omega

namespace MemoryMap

/-- The default constructor. -/
def new : MemoryMap := ⟨⟨[], Nat.zero_le _⟩⟩

def register (m : MemoryMap) (begin stop : Nat) (status : MemoryStatus) :
    Option (Bool × MemoryMap) :=
  let range : MemoryRange := ⟨begin, stop, status⟩
  let «from» := lowerBound m.ranges.items fun l => less l range
  let «to» := upperBound m.ranges.items fun r => less range r
  if «from» = «to» then do
    let (ok, ranges) ← m.ranges.insert «from» range
    return (ok, ⟨ranges⟩)
  else do
    let same ← sameStatusLoop m.ranges «from» «to» range.status
    if !same then return (false, m)
    let first ← m.ranges.items[«from»]?
    let last ← (if «to» = 0 then none else m.ranges.items[«to» - 1]? : Option MemoryRange)
    let range : MemoryRange := ⟨min range.start first.start, max range.stop last.stop, status⟩
    let (pos, ranges) ← m.ranges.erase «from» «to»
    let (_, ranges) ← ranges.insert pos range
    let (ranges, last) ← compact ranges
    let (_, ranges) ← ranges.erase last ranges.size
    return (true, ⟨ranges⟩)

end MemoryMap

/-! ## The pass over the entries -/

theorem segment_lo_eq_hi (r : MemoryRange) : r.segment.lo = r.segment.hi ↔ isEmpty r :=
  Iff.rfl

@[simp] theorem canMerge_iff (l r : MemoryRange) : canMerge l r ↔ l.segment.CanJoin r.segment :=
  and_congr eq_comm eq_comm

section Pass

variable {written moved unread : List MemoryRange} {cur r : MemoryRange}
variable {ranges : FixedVector MemoryRange N}

/-- One round of the pass. Between the ranges written and the ranges unread stands what the pass
has moved away from, and the range that is read joins them. -/
private theorem compactLoop_round (hitems : ranges.items = written ++ cur :: (moved ++ r :: unread)) :
    compactLoop ranges written.length (written.length + 1 + moved.length) =
      if canMerge cur r then
        compactLoop (ranges.set written.length { cur with stop := r.stop }) written.length
          (written.length + 1 + (moved ++ [r]).length)
      else if isEmpty cur then
        compactLoop (ranges.set written.length r) written.length
          (written.length + 1 + (moved ++ [r]).length)
      else
        compactLoop (ranges.set (written.length + 1) r) (written.length + 1)
          (written.length + 1 + (moved ++ [r]).length) := by
  have hprev : ranges.items[written.length]? = some cur := by simp [hitems]
  have hnext : ranges.items[written.length + 1 + moved.length]? = some r := by
    rw [hitems, List.getElem?_append_right (by omega)]
    simp [Nat.add_assoc, Nat.add_comm 1]
  have hlt : written.length + 1 + moved.length < ranges.size := by
    simp only [FixedVector.size, hitems, List.length_append, List.length_cons]
    omega
  have hlen : written.length + 1 + moved.length + 1 =
      written.length + 1 + (moved ++ [r]).length := by
    rw [List.length_append, List.length_singleton, Nat.add_assoc]
  rw [compactLoop, if_pos hlt, hprev, hnext, hlen]
  rfl

/-- The current range is written again in its place. -/
private theorem items_rewrite (hitems : ranges.items = written ++ cur :: (moved ++ r :: unread))
    (next : MemoryRange) : (ranges.set written.length next).items =
      written ++ next :: ((moved ++ [r]) ++ unread) := by
  rw [FixedVector.items_set_of_append hitems next, List.append_assoc, List.singleton_append]

/-- The range that was read is written behind the current one, over a range that the pass has
moved away from or over itself. -/
private theorem items_advance (hitems : ranges.items = written ++ cur :: (moved ++ r :: unread)) :
    ∃ moved', moved'.length = moved.length ∧ (ranges.set (written.length + 1) r).items =
      (written ++ [cur]) ++ r :: (moved' ++ unread) := by
  obtain ⟨next, moved', hover⟩ : ∃ next moved', moved ++ [r] = next :: moved' :=
    List.exists_cons_of_ne_nil (by simp)
  have hcount : (moved ++ [r]).length = moved'.length + 1 := by rw [hover, List.length_cons]
  rw [List.length_append, List.length_singleton] at hcount
  have hbehind : moved ++ r :: unread = next :: (moved' ++ unread) := by
    rw [← List.cons_append, ← hover, List.append_assoc, List.singleton_append]
  have hlist : ranges.items = (written ++ [cur]) ++ next :: (moved' ++ unread) := by
    rw [hitems, hbehind, List.append_assoc, List.singleton_append]
  have hpos : written.length + 1 = (written ++ [cur]).length := by simp
  refine ⟨moved', (Nat.succ.inj hcount).symm, ?_⟩
  rw [hpos]
  exact FixedVector.items_set_of_append hlist r

/-- At the end the current range is kept unless it is empty. -/
private theorem take_last (hitems : ranges.items = written ++ cur :: moved) :
    (ranges.items.take (if isEmpty cur then written.length else written.length + 1)).map
        MemoryRange.segment =
      written.map MemoryRange.segment ++ Segments.packFrom cur.segment [] := by
  simp only [hitems, Segments.packFrom, segment_lo_eq_hi]
  by_cases hempty : isEmpty cur
  · simp [hempty]
  · simp [hempty, List.take_append, List.take_of_length_le]

end Pass

/-- The pass packs the current range and those unread. The induction is on the latter. -/
private theorem compactLoop_pass (unread : List MemoryRange) :
    ∀ (written : List MemoryRange) (cur : MemoryRange) (moved : List MemoryRange)
      (ranges : FixedVector MemoryRange N),
    ranges.items = written ++ cur :: (moved ++ unread) →
    ∃ (ranges' : FixedVector MemoryRange N) (pos : Nat) (last : MemoryRange),
      compactLoop ranges written.length (written.length + 1 + moved.length) =
        some (ranges', pos) ∧ ranges'.items[pos]? = some last ∧
      (ranges'.items.take (if isEmpty last then pos else pos + 1)).map MemoryRange.segment =
        written.map MemoryRange.segment ++
          Segments.packFrom cur.segment (unread.map MemoryRange.segment) := by
  induction unread with
  | nil =>
      intro written cur moved ranges hitems
      have hlast : ranges.items[written.length]? = some cur := by simp [hitems]
      refine ⟨ranges, written.length, cur, ?_, hlast, take_last hitems⟩
      rw [compactLoop, if_neg (by simp [FixedVector.size, hitems]; omega)]
  | cons r unread ih =>
      intro written cur moved ranges hitems
      rw [compactLoop_round hitems]
      simp only [List.map_cons, Segments.packFrom, ← canMerge_iff, segment_lo_eq_hi]
      split
      next hjoin => exact ih _ _ _ _ (items_rewrite hitems _)
      next =>
        split
        next hempty => exact ih _ _ _ _ (items_rewrite hitems _)
        next hempty =>
          obtain ⟨moved', hlen, hset⟩ := items_advance hitems
          obtain ⟨ranges', pos, last, hrun, hlast, htake⟩ := ih _ _ _ _ hset
          have hread : (written ++ [cur]).length + 1 + moved'.length =
              written.length + 1 + (moved ++ [r]).length := by
            rw [List.length_append, List.length_append, List.length_singleton,
              List.length_singleton]
            omega
          rw [hread, List.length_append, List.length_singleton] at hrun
          refine ⟨ranges', pos, last, hrun, hlast, ?_⟩
          rw [htake]
          simp

/-- `Compact` keeps the statuses of all addresses and drops the empty entries. -/
theorem compact_spec {ranges : FixedVector MemoryRange N}
    (hord : Ordered (ranges.items.map MemoryRange.segment)) :
    ∃ ranges' last, compact ranges = some (ranges', last) ∧ last ≤ ranges'.size ∧
      Proper ((ranges'.items.take last).map MemoryRange.segment) ∧
      ∀ x, labelAt ((ranges'.items.take last).map MemoryRange.segment) x =
        labelAt (ranges.items.map MemoryRange.segment) x := by
  cases hitems : ranges.items with
  | nil =>
      refine ⟨ranges, 0, ?_, Nat.zero_le _, ?_, fun _ => by rw [List.take_zero]⟩
      · rw [compact, if_pos (by rw [FixedVector.size, hitems]; rfl)]
      · rw [List.take_zero]
        exact Segments.Canonical.nil.toProper
  | cons cur unread =>
      obtain ⟨out, pos, entry, hrun, hentry, htake⟩ := compactLoop_pass unread [] cur [] ranges hitems
      change compactLoop ranges 0 1 = _ at hrun
      refine ⟨out, if isEmpty entry then pos else pos + 1, ?_, ?_, ?_⟩
      · rw [compact, if_neg (by rw [FixedVector.size, hitems]; exact Nat.succ_ne_zero _), hrun]
        simp only [Option.bind_eq_bind, Option.bind_some, hentry]
        rfl
      · have hlt : pos < out.size := (List.getElem?_eq_some_iff.mp hentry).1
        split
        next => exact Nat.le_of_lt hlt
        next => exact hlt
      · rw [htake, List.map_nil, List.nil_append]
        rw [hitems] at hord
        exact ⟨hord.packFrom, fun x => Segments.labelAt_packFrom hord x⟩

/-! ## What registering does -/

section Loop

variable {ranges : FixedVector MemoryRange N} {it «to» : Nat} {status : MemoryStatus}
variable {entry : MemoryRange}

@[simp] theorem sameStatusLoop_self : sameStatusLoop ranges «to» «to» status = some true := by
  rw [sameStatusLoop, if_pos rfl]

@[simp] theorem sameStatusLoop_step (hne : it ≠ «to») (hentry : ranges.items[it]? = some entry) :
    sameStatusLoop ranges it «to» status =
      if entry.status ≠ status then some false
      else sameStatusLoop ranges (it + 1) «to» status := by
  rw [sameStatusLoop, if_neg hne]
  split
  next entry' hentry' =>
    rw [hentry, Option.some.injEq] at hentry'
    rw [← hentry']
  next hnone =>
    rw [hentry] at hnone
    cases hnone

@[simp] theorem sameStatusLoop_end (hne : it ≠ «to») (hnone : ranges.items[it]? = none) :
    sameStatusLoop ranges it «to» status = none := by
  rw [sameStatusLoop, if_neg hne]
  split
  next entry hentry =>
    rw [hnone] at hentry
    cases hentry
  next => rfl

/-- The entries that the loop still has to look at. -/
theorem remaining_cons (hlt : it < «to») (hentry : ranges.items[it]? = some entry) :
    (ranges.items.drop it).take («to» - it) =
      entry :: (ranges.items.drop (it + 1)).take («to» - (it + 1)) := by
  obtain ⟨hin, rfl⟩ := List.getElem?_eq_some_iff.mp hentry
  have hsub : «to» - it = «to» - (it + 1) + 1 := by omega
  rw [List.drop_eq_getElem_cons hin, hsub, List.take_succ_cons]

end Loop

/-- The loop stays in the array when its bounds are ordered. -/
theorem sameStatusLoop_eq (ranges : FixedVector MemoryRange N) {it «to» : Nat}
    (status : MemoryStatus) (hle : it ≤ «to») (hto : «to» ≤ ranges.items.length) :
    sameStatusLoop ranges it «to» status =
      some (decide (∀ r ∈ (ranges.items.drop it).take («to» - it), r.status = status)) := by
  induction it using sameStatusLoop.induct ranges «to» status with
  | case1 => simp
  | case2 it hne entry hentry hstatus =>
      rw [sameStatusLoop_step hne hentry, remaining_cons (Nat.lt_of_le_of_ne hle hne) hentry]
      simp [hstatus]
  | case3 it hne entry hentry hstatus ih =>
      have hlt := Nat.lt_of_le_of_ne hle hne
      rw [sameStatusLoop_step hne hentry, if_neg hstatus, ih hlt, remaining_cons hlt hentry]
      simp [not_not.mp hstatus]
  | case4 it hne hnone =>
      rw [List.getElem?_eq_none_iff] at hnone
      omega

theorem sameStatusLoop_spec {ranges : FixedVector MemoryRange N} {status : MemoryStatus}
    {it «to» : Nat} (h : sameStatusLoop ranges it «to» status = some true) :
    it ≤ «to» ∧ ∀ r ∈ (ranges.items.drop it).take («to» - it), r.status = status := by
  induction it using sameStatusLoop.induct ranges «to» status with
  | case1 => simp
  | case2 it hne entry hentry hstatus => simp [hne, hentry, hstatus] at h
  | case3 it hne entry hentry hstatus ih =>
      rw [sameStatusLoop_step hne hentry, if_neg hstatus] at h
      obtain ⟨hle, hrest⟩ := ih h
      refine ⟨Nat.le_of_succ_le hle, ?_⟩
      rw [remaining_cons hle hentry]
      exact List.forall_mem_cons.mpr ⟨not_not.mp hstatus, hrest⟩
  | case4 it hne hnone => simp [hne, hnone] at h

namespace MemoryMap

variable {m m' : MemoryMap} {begin stop : Nat} {status : MemoryStatus}

/-- The entries at the searched positions are the ends of the run. -/
theorem hull_eq (m : MemoryMap) (begin stop : Nat) (status : MemoryStatus) {lower upper : Nat}
    {first last : MemoryRange} (hlt : lower < upper)
    (hfirst : m.ranges.items[lower]? = some first)
    (hlast : m.ranges.items[upper - 1]? = some last) :
    hull ⟨begin, stop, status⟩ ((m.segments.drop lower).take (upper - lower)) =
      (⟨min begin first.start, max stop last.stop, status⟩ : MemoryRange).segment := by
  have hhead : ((m.segments.drop lower).take (upper - lower)).head? = some first.segment := by
    rw [List.head?_take, if_neg (by omega), List.head?_drop, segments, List.getElem?_map, hfirst]
    rfl
  have htail : ((m.segments.drop lower).take (upper - lower)).getLast? = some last.segment := by
    have hlen := (List.getElem?_eq_some_iff.mp hlast).1
    have hlen' : m.segments.length = m.ranges.items.length := List.length_map _
    have hat : m.segments[upper - 1]? = some last.segment := by
      rw [segments, List.getElem?_map, hlast]
      rfl
    rw [List.getLast?_eq_getElem?, List.length_take_of_le (by rw [List.length_drop]; omega),
      List.getElem?_take_of_lt (by omega), List.getElem?_drop, ← hat]
    congr 1
    omega
  rw [hull, hhead, htail]
  rfl

/-- The entries after the range has joined those from `lower` to `upper`. -/
def joined (m : MemoryMap) (begin stop : Nat) (status : MemoryStatus) (lower upper : Nat) :
    List (Segment Nat MemoryStatus) :=
  m.segments.take lower ++ hull ⟨begin, stop, status⟩ ((m.segments.drop lower).take
    (upper - lower)) :: m.segments.drop upper

section Searches

variable {lower upper : Nat}
variable (hlower : lower = lowerBound m.ranges.items fun l => less l ⟨begin, stop, status⟩)
variable (hupper : upper = upperBound m.ranges.items fun r => less ⟨begin, stop, status⟩ r)
include hlower hupper

/-- The range is inserted where the searches meet, unless the array is full. -/
theorem register_gap (heq : lower = upper) :
    (m.ranges.size = 128 ∧ m.register begin stop status = some (false, m)) ∨
      (m.ranges.size < 128 ∧ ∃ m', m.register begin stop status = some (true, m') ∧
        m'.segments = joined m begin stop status lower lower) := by
  have hle : lower ≤ m.ranges.items.length := hlower ▸ List.findIdx_le_length
  rw [register, ← hlower, ← hupper, if_pos heq]
  rcases Nat.lt_or_eq_of_le m.ranges.fits with hlt | hfull
  · obtain ⟨ranges, hcall, hitems⟩ := FixedVector.insert_spec
      (List.take_append_drop lower m.ranges.items).symm hlt ⟨begin, stop, status⟩
    rw [List.length_take_of_le hle] at hcall
    refine .inr ⟨hlt, ⟨ranges⟩, by rw [hcall]; rfl, ?_⟩
    rw [joined, segments, hitems, List.map_append, List.map_cons, List.map_take, List.map_drop,
      Nat.sub_self, List.take_zero]
    rfl
  · exact .inl ⟨hfull, by rw [FixedVector.insert_full hfull]; rfl⟩

/-- An entry of another status among those that the range overlaps. -/
theorem register_conflict (hlt : lower < upper)
    (h : ∃ r ∈ (m.ranges.items.drop lower).take (upper - lower), r.status ≠ status) :
    m.register begin stop status = some (false, m) := by
  have hle : upper ≤ m.ranges.items.length := hupper ▸ List.findIdx_le_length
  rw [register, ← hlower, ← hupper, if_neg hlt.ne]
  change (sameStatusLoop m.ranges lower upper status).bind _ = _
  have hsame := sameStatusLoop_eq m.ranges status hlt.le hle
  rw [decide_eq_false (fun hall => by obtain ⟨r, hr, hne⟩ := h; exact hne (hall r hr))] at hsame
  rw [hsame]
  rfl

/-- The overlapped entries are replaced by one, and the array is compacted. -/
theorem register_run (hlt : lower < upper)
    (h : ∀ r ∈ (m.ranges.items.drop lower).take (upper - lower), r.status = status)
    (hord : Ordered (joined m begin stop status lower upper)) :
    ∃ m', m.register begin stop status = some (true, m') ∧ Proper m'.segments ∧
      ∀ x, lookup m' x = labelAt (joined m begin stop status lower upper) x := by
  have hle : upper ≤ m.ranges.items.length := hupper ▸ List.findIdx_le_length
  have hlow : lower < m.ranges.items.length := Nat.lt_of_lt_of_le hlt hle
  have hlast : upper - 1 < m.ranges.items.length := by omega
  have hfirst := List.getElem?_eq_getElem hlow
  have hlast' := List.getElem?_eq_getElem hlast
  have hsame := sameStatusLoop_eq m.ranges status hlt.le hle
  rw [decide_eq_true h] at hsame
  set range : MemoryRange := ⟨min begin m.ranges.items[lower].start,
    max stop m.ranges.items[upper - 1].stop, status⟩ with hrange
  obtain ⟨erased, herase, herased⟩ := FixedVector.exists_erase (v := m.ranges) hlt.le hle
  have hlen : (m.ranges.items.take lower).length = lower := List.length_take_of_le hlow.le
  have hroom : erased.size < 128 := by
    have hfits := m.ranges.fits
    rw [FixedVector.size, herased, List.length_append, hlen, List.length_drop]
    omega
  obtain ⟨inserted, hinsert, hinserted⟩ := FixedVector.insert_spec herased hroom range
  rw [hlen] at hinsert
  have hjoined : inserted.items.map MemoryRange.segment =
      joined m begin stop status lower upper := by
    rw [joined, hull_eq m begin stop status hlt hfirst hlast', hinserted, List.map_append,
      List.map_cons, List.map_take, List.map_drop]
    rfl
  rw [← hjoined] at hord
  obtain ⟨compacted, kept, hcompact, hkept, hproper, hlabels⟩ := compact_spec hord
  obtain ⟨ranges, hdrop, hitems⟩ := FixedVector.exists_erase hkept (Nat.le_refl compacted.size)
  have hfinal : (⟨ranges⟩ : MemoryMap).segments =
      (compacted.items.take kept).map MemoryRange.segment := by
    rw [segments, hitems, FixedVector.size, List.drop_length, List.append_nil]
  refine ⟨⟨ranges⟩, ?_, hfinal ▸ hproper, fun x => ?_⟩
  · rw [register, ← hlower, ← hupper, if_neg hlt.ne]
    simp only [Option.bind_eq_bind, hsame, Option.bind_some, Bool.not_true, Bool.false_eq_true,
      if_false, if_neg (Nat.ne_of_gt (Nat.zero_lt_of_lt hlt)), hfirst, hlast', herase, ← hrange,
      hinsert, hcompact, hdrop]
    rfl
  · rw [lookup, hfinal, hlabels, hjoined]

end Searches

/-- A registered range has its status, and nothing else changes. -/
theorem register_spec (hm : Ordered m.segments) (hle : begin ≤ stop)
    (h : m.register begin stop status = some (true, m')) :
    Ordered m'.segments ∧ ∀ x, lookup m' x =
      if begin ≤ x ∧ x < stop then some status else lookup m x := by
  have hcut := Segments.cut_of_findIdx_le (m := ⟨begin, stop, status⟩) hm
    (p := fun s => decide (begin < s.hi)) (q := fun s => decide (stop ≤ s.lo))
    (fun s _ => decide_eq_true_iff) (fun s _ => decide_eq_true_iff)
  rw [← findIdx_lower m begin stop status, ← findIdx_upper m begin stop status] at hcut
  set lower := lowerBound m.ranges.items fun l => less l ⟨begin, stop, status⟩ with hlower
  set upper := upperBound m.ranges.items fun r => less ⟨begin, stop, status⟩ r with hupper
  by_cases heq : lower = upper
  · have hcut := hcut heq.le
    rw [← heq, Nat.sub_self, List.take_zero] at hcut
    rcases register_gap hlower hupper heq with ⟨_, hcall⟩ | ⟨_, m'', hcall, hsegments⟩
    · rw [hcall] at h
      cases h
    · rw [hcall] at h
      cases h
      rw [joined, Nat.sub_self, List.take_zero] at hsegments
      refine ⟨hsegments ▸ hcut.ordered_hull hm hle, fun x => ?_⟩
      rw [lookup, hsegments]
      exact hcut.labelAt_hull hm hle (fun s hs => absurd hs List.not_mem_nil) x
  · obtain ⟨hto, hstatus⟩ : lower ≤ upper ∧
        ∀ r ∈ (m.ranges.items.drop lower).take (upper - lower), r.status = status := by
      have h' := h
      rw [register, ← hlower, ← hupper, if_neg heq] at h'
      obtain ⟨same, hsame, h'⟩ := Option.bind_eq_some_iff.mp h'
      cases same with
      | true => exact sameStatusLoop_spec hsame
      | false => cases h'
    have hcut := hcut hto
    obtain ⟨m'', hcall, hproper, hlabels⟩ := register_run hlower hupper
      (Nat.lt_of_le_of_ne hto heq) hstatus (hcut.ordered_hull hm hle)
    rw [hcall] at h
    cases h
    refine ⟨hproper.ordered, fun x => ?_⟩
    rw [hlabels]
    refine hcut.labelAt_hull hm hle (fun s hs => ?_) x
    rw [segments, ← List.map_drop, ← List.map_take] at hs
    obtain ⟨r, hr, rfl⟩ := List.mem_map.mp hs
    exact hstatus r hr

end MemoryMap

end Aarch64.Cxx
