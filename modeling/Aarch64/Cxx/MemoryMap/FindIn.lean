import Aarch64.Cxx.Math
import Aarch64.Cxx.MemoryMap.Run
import Aarch64.Lib.FirstFit

/-!
# Searching for a block

`MemoryMap::FindIn` of `memory/phys.cc` looks at one entry at a time. It finds the least
block that lies inside an entry of the status. `Register` leaves a range that meets no
entry as an entry of its own, also where it touches others, so the free memory of the
window may go on where an entry ends.
-/

namespace Aarch64.Cxx.MemoryMap

open Segments (Segment labelAt Ordered Proper Room RoomIn roundUp fit firstFit)

/-- The address that an entry offers for the block. -/
def findInEntry (begin stop size alignment : Nat) (status : MemoryStatus) (r : MemoryRange) :
    Option Nat :=
  if r.status ≠ status then none
  else
    let addr := alignUp (clamp r.start begin stop) alignment
    if Word64.add addr size ≤ clamp r.stop begin stop then some addr else none

/-- The loop over the entries from `it` on: the address that is found, if any. -/
def findInLoop (begin stop size alignment : Nat) (status : MemoryStatus)
    (ranges : FixedVector MemoryRange 128) (it «to» : Nat) : Option (Option Nat) :=
  if it = «to» then some none
  else
    match _h : ranges.items[it]? with
    | some r =>
        match findInEntry begin stop size alignment status r with
        | some addr => some (some addr)
        | none => findInLoop begin stop size alignment status ranges (it + 1) «to»
    | none => none
termination_by ranges.items.length - it
decreasing_by
  have := (List.getElem?_eq_some_iff.mp ‹_›).1
  omega

/-- The result is `false`, or `true` with the address in `*ret`. -/
def findIn (m : MemoryMap) (begin stop size alignment : Nat) (status : MemoryStatus) :
    Option (Option Nat) :=
  let range : MemoryRange := ⟨begin, stop, status⟩
  let «from» := lowerBound m.ranges.items fun l => less l range
  let «to» := upperBound m.ranges.items fun r => less range r
  findInLoop begin stop size alignment status m.ranges «from» «to»

variable {m : MemoryMap} {begin stop size alignment k : Nat} {status : MemoryStatus}

/-! ## The loop -/

theorem findInLoop_eq {ranges : FixedVector MemoryRange 128} {it «to» : Nat} (hle : it ≤ «to»)
    (hto : «to» ≤ ranges.items.length) :
    findInLoop begin stop size alignment status ranges it «to» =
      some (((ranges.items.drop it).take («to» - it)).findSome?
        (findInEntry begin stop size alignment status)) := by
  induction it using findInLoop.induct begin stop size alignment status ranges «to» with
  | case1 =>
      rw [findInLoop, if_pos rfl, Nat.sub_self, List.take_zero]
      rfl
  | case2 it hne entry hentry addr haddr =>
      obtain ⟨hlt, rfl⟩ := List.getElem?_eq_some_iff.mp hentry
      have hsub : «to» - it = «to» - (it + 1) + 1 := by omega
      rw [findInLoop, if_neg hne, List.drop_eq_getElem_cons hlt, hsub, List.take_succ_cons,
        List.findSome?_cons, haddr]
      split
      next entry' hentry' =>
        rw [hentry, Option.some.injEq] at hentry'
        rw [← hentry', haddr]
      next hnone =>
        rw [hentry] at hnone
        cases hnone
  | case3 it hne entry hentry hnone ih =>
      obtain ⟨hlt, rfl⟩ := List.getElem?_eq_some_iff.mp hentry
      have hsub : «to» - it = «to» - (it + 1) + 1 := by omega
      rw [findInLoop, if_neg hne, List.drop_eq_getElem_cons hlt, hsub, List.take_succ_cons,
        List.findSome?_cons, hnone, ← ih (by omega)]
      split
      next entry' hentry' =>
        rw [hentry, Option.some.injEq] at hentry'
        rw [← hentry', hnone]
      next hnone' =>
        rw [hentry] at hnone'
        cases hnone'
  | case4 it hne hnone =>
      rw [List.getElem?_eq_none_iff] at hnone
      omega

/-- The loop leaves the array when it starts behind the entry where it should end. -/
theorem findInLoop_eq_none {ranges : FixedVector MemoryRange 128} {it «to» : Nat}
    (hlt : «to» < it)
    (h : ∀ e ∈ ranges.items.drop it, findInEntry begin stop size alignment status e = none) :
    findInLoop begin stop size alignment status ranges it «to» = none := by
  induction it using findInLoop.induct begin stop size alignment status ranges «to» with
  | case1 => exact absurd hlt (Nat.lt_irrefl _)
  | case2 it hne entry hentry addr haddr =>
      obtain ⟨hlen, rfl⟩ := List.getElem?_eq_some_iff.mp hentry
      rw [List.drop_eq_getElem_cons hlen] at h
      rw [h _ List.mem_cons_self] at haddr
      cases haddr
  | case3 it hne entry hentry hskip ih =>
      obtain ⟨hlen, rfl⟩ := List.getElem?_eq_some_iff.mp hentry
      rw [List.drop_eq_getElem_cons hlen] at h
      rw [findInLoop, if_neg hne]
      split
      next entry' hentry' =>
        rw [hentry, Option.some.injEq] at hentry'
        rw [← hentry', hskip]
        exact ih (Nat.lt_succ_of_lt hlt) fun e he => h e (List.mem_cons_of_mem _ he)
      next => rfl
  | case4 it hne hnone =>
      rw [findInLoop, if_neg hne]
      split
      next entry hentry =>
        rw [hnone] at hentry
        cases hentry
      next => rfl

/-! ## One entry -/

/-- No sum wraps at the entries of the status that the loop looks at. -/
def NoWrap (m : MemoryMap) (begin stop size k : Nat) (status : MemoryStatus) : Prop :=
  ∀ e ∈ m.ranges.items, e.status = status → begin < e.stop → (e.start < stop ∨ stop ≤ begin) →
    clamp e.start begin stop + 2 ^ k ≤ 2 ^ 64 ∧
      roundUp (clamp e.start begin stop) (2 ^ k) + size < 2 ^ 64

/-- What an entry of the status offers when no sum wraps. -/
theorem findInEntry_of_status {e : MemoryRange} {lo : Nat} (hstatus : e.status = status)
    (hk : k < 64) (hlo : clamp e.start begin stop = lo) (hfits : lo + 2 ^ k ≤ 2 ^ 64)
    (hsum : roundUp lo (2 ^ k) + size < 2 ^ 64) :
    findInEntry begin stop size (2 ^ k) status e =
      if roundUp lo (2 ^ k) + size ≤ clamp e.stop begin stop then some (roundUp lo (2 ^ k))
      else none := by
  have hup : alignUp lo (2 ^ k) = roundUp lo (2 ^ k) := alignUp_two_pow hfits hk
  rw [findInEntry, if_neg (not_not.mpr hstatus)]
  simp only [hlo, hup, Word64.add_of_lt hsum]

/-- An entry that the window overlaps offers the least address that fits both. -/
theorem findInEntry_eq_fit {e : MemoryRange} (hwrap : NoWrap m begin stop size k status)
    (hk : k < 64) (he : e ∈ m.ranges.items) (hlt : begin < stop) (hstart : e.start < stop)
    (hstop : begin < e.stop) :
    findInEntry begin stop size (2 ^ k) status e = fit status begin stop size (2 ^ k) e.segment := by
  by_cases hstatus : e.status = status
  · obtain ⟨hfits, hsum⟩ := hwrap e he hstatus hstop (.inl hstart)
    have hlo : clamp e.start begin stop = max e.start begin := by
      rw [clamp_of_le hlt.le]
      omega
    have hhi : clamp e.stop begin stop = min e.stop stop := by
      rw [clamp_of_le hlt.le]
      omega
    rw [hlo] at hfits hsum
    rw [findInEntry_of_status hstatus hk hlo hfits hsum, hhi, fit]
    simp only [MemoryRange.segment_label, MemoryRange.segment_lo, MemoryRange.segment_hi, hstatus,
      true_and]
  · rw [findInEntry, if_pos hstatus, fit, if_neg fun h => hstatus h.1]

/-- An inverted window clamps every entry behind its start to nothing. -/
theorem findInEntry_of_inverted {e : MemoryRange} (hwrap : NoWrap m begin stop size k status)
    (hk : k < 64) (hsize : 0 < size) (he : e ∈ m.ranges.items) (hge : stop ≤ begin)
    (hstop : begin < e.stop) : findInEntry begin stop size (2 ^ k) status e = none := by
  by_cases hstatus : e.status = status
  · obtain ⟨hfits, hsum⟩ := hwrap e he hstatus hstop (.inr hge)
    have hlo : clamp e.start begin stop = stop := clamp_of_ge hge
    rw [hlo] at hfits hsum
    have hle := Segments.le_roundUp (x := stop) (Nat.two_pow_pos k)
    rw [findInEntry_of_status hstatus hk hlo hfits hsum, clamp_of_ge hge, if_neg (by omega)]
  · rw [findInEntry, if_pos hstatus]

/-- Nothing fits into an entry that the window does not overlap. -/
theorem fit_eq_none {s : Segment Nat MemoryStatus} (hsize : 0 < size)
    (h : s.hi ≤ begin ∨ stop ≤ s.lo) : fit status begin stop size (2 ^ k) s = none := by
  have hle := Segments.le_roundUp (x := max s.lo begin) (Nat.two_pow_pos k)
  rw [fit, if_neg]
  rintro ⟨_, hroom⟩
  omega

private theorem findSome?_congr {α β : Type*} {f g : α → Option β} {l : List α}
    (h : ∀ x ∈ l, f x = g x) : l.findSome? f = l.findSome? g := by
  induction l with
  | nil => rfl
  | cons x l ih =>
      obtain ⟨hx, hl⟩ := List.forall_mem_cons.mp h
      rw [List.findSome?_cons, List.findSome?_cons, hx, ih hl]

/-- The call is a first-fit search through the entries. -/
theorem findIn_eq_firstFit (hm : Proper m.segments) (hlt : begin < stop) (hsize : 0 < size)
    (hk : k < 64) (hwrap : NoWrap m begin stop size k status) :
    m.findIn begin stop size (2 ^ k) status =
      some (firstFit status begin stop size (2 ^ k) m.segments) := by
  obtain ⟨hle, hupper, hcut⟩ := cut_bounds hm hlt status rfl rfl
  rw [findIn, findInLoop_eq hle hupper, firstFit]
  set lower := lowerBound m.ranges.items fun l => less l ⟨begin, stop, status⟩
  set upper := upperBound m.ranges.items fun r => less ⟨begin, stop, status⟩ r
  rw [hcut.eq, List.findSome?_append, List.findSome?_append]
  have hpre : (m.segments.take lower).findSome? (fit status begin stop size (2 ^ k)) = none :=
    List.findSome?_eq_none_iff.mpr fun s hs => fit_eq_none hsize (.inl (hcut.before s hs))
  have hpost : (m.segments.drop upper).findSome? (fit status begin stop size (2 ^ k)) = none :=
    List.findSome?_eq_none_iff.mpr fun s hs => fit_eq_none hsize (.inr (hcut.after s hs))
  rw [hpre, hpost, Option.none_or, Option.or_none, segments, ← List.map_drop, ← List.map_take,
    List.findSome?_map]
  refine congrArg some (findSome?_congr fun e he => ?_)
  have hmem : e.segment ∈ (m.segments.drop lower).take (upper - lower) := by
    rw [segments, ← List.map_drop, ← List.map_take]
    exact List.mem_map_of_mem he
  obtain ⟨hstop, hstart⟩ := hcut.overlap _ hmem
  exact findInEntry_eq_fit hwrap hk (List.mem_of_mem_drop (List.mem_of_mem_take he)) hlt hstart
    hstop

/-! ## When the search is right -/

/-- The outcome that a search is meant to have: the least block that fits, or that there is
none. -/
structure Finds (m : MemoryMap) (begin stop size alignment : Nat) (status : MemoryStatus)
    (ret : Option Nat) : Prop where
  found_iff : ret.isSome ↔ ∃ a, Room m.segments status begin stop size alignment a
  least : ∀ a, ret = some a → IsLeast {b | Room m.segments status begin stop size alignment b} a

/-- Nothing fits into an inverted window, and the call says so unless the searches cross. -/
theorem findIn_of_inverted (hm : Proper m.segments) (hge : stop ≤ begin) (hsize : 0 < size)
    (hk : k < 64) (hwrap : NoWrap m begin stop size k status) :
    m.findIn begin stop size (2 ^ k) status =
      if ∃ e ∈ m.ranges.items, stop ≤ e.start ∧ e.stop ≤ begin then none else some none := by
  have hord := hm.ordered
  have hcross := upper_lt_lower_iff hord begin stop status
  have hnone : ∀ e ∈ m.ranges.items.drop
      (lowerBound m.ranges.items fun l => less l ⟨begin, stop, status⟩),
      findInEntry begin stop size (2 ^ k) status e = none := by
    intro e he
    obtain ⟨i, hi, rfl⟩ := List.mem_drop_iff_getElem.mp he
    refine findInEntry_of_inverted hwrap hk hsize (List.getElem_mem _) hge ?_
    rw [← lower_le_iff hord begin stop status]
    exact Nat.le_add_right _ _
  rw [findIn]
  split
  next hin => exact findInLoop_eq_none (hcross.mpr hin) hnone
  next hout =>
    have hle := Nat.not_lt.mp (hcross.not.mpr hout)
    rw [findInLoop_eq hle List.findIdx_le_length, List.findSome?_eq_none_iff.mpr]
    exact fun e he => hnone e (List.mem_of_mem_take he)

/-- The least block of the window lies inside one entry. -/
def LeastInside (m : MemoryMap) (begin stop size alignment : Nat) (status : MemoryStatus) : Prop :=
  ∀ a, IsLeast {b | Room m.segments status begin stop size alignment b} a →
    RoomIn m.segments status begin stop size alignment a

/-- The first fit is the least block of all exactly when that one lies inside an entry. -/
theorem finds_firstFit_iff (hm : Proper m.segments) (halign : 0 < alignment) :
    Finds m begin stop size alignment status
        (firstFit status begin stop size alignment m.segments) ↔
      LeastInside m begin stop size alignment status := by
  have hroom : ∀ {a}, RoomIn m.segments status begin stop size alignment a →
      Room m.segments status begin stop size alignment a := fun h => h.room hm.ordered
  cases hfit : firstFit status begin stop size alignment m.segments with
  | none =>
      have hno := (Segments.firstFit_eq_none_iff halign).mp hfit
      constructor
      · intro h a ha
        cases h.found_iff.mpr ⟨a, ha.1⟩
      · refine fun h => ⟨⟨nofun, ?_⟩, nofun⟩
        rintro ⟨a, ha⟩
        obtain ⟨b, hb⟩ := ha.exists_isLeast
        exact absurd (h b hb) (hno b)
  | some a =>
      have hfirst := Segments.isLeast_firstFit halign hm.ordered hfit
      constructor
      · intro h b hb
        rw [hb.unique (h.least a rfl)]
        exact hfirst.1
      · intro h
        refine ⟨iff_of_true rfl ⟨a, hroom hfirst.1⟩, ?_⟩
        rintro _ ⟨⟩
        obtain ⟨b, hb⟩ := (hroom hfirst.1).exists_isLeast
        have heq := Nat.le_antisymm (hfirst.2 (h b hb)) (hb.2 (hroom hfirst.1))
        rwa [heq]

/-- `FindIn` on every map that was built from ranges with an address, for every window. It finds the
least block, and says so when there is none, exactly if the two searches do not cross, which takes
an inverted window, and the least block lies inside one entry, for the search looks at one entry at
a time. -/
theorem reaches_finds_iff (h : Reaches (fun _ begin stop _ => begin < stop) m) (hsize : 0 < size)
    (hk : k < 64) (hwrap : NoWrap m begin stop size k .free) :
    (∃ ret, m.findIn begin stop size (2 ^ k) .free = some ret ∧
        Finds m begin stop size (2 ^ k) .free ret) ↔
      (∀ e ∈ m.ranges.items, ¬ (stop ≤ e.start ∧ e.stop ≤ begin)) ∧
        LeastInside m begin stop size (2 ^ k) .free := by
  have hm := h.proper
  rcases Nat.lt_or_ge begin stop with hlt | hge
  · have hout : ∀ e ∈ m.ranges.items, ¬ (stop ≤ e.start ∧ e.stop ≤ begin) := by
      rintro e he ⟨hstart, hstop⟩
      have hseg : e.start < e.stop := hm.lt _ (List.mem_map_of_mem he)
      omega
    rw [and_iff_right hout, ← finds_firstFit_iff hm (Nat.two_pow_pos k),
      findIn_eq_firstFit hm hlt hsize hk hwrap]
    constructor
    · rintro ⟨ret, hret, hfinds⟩
      exact Option.some.inj hret ▸ hfinds
    · exact fun hfinds => ⟨_, rfl, hfinds⟩
  · have hempty : ∀ a, ¬ Room m.segments .free begin stop size (2 ^ k) a := by
      intro a ha
      have hlo := ha.lo_le
      have hhi := ha.le_hi
      omega
    have hinside : LeastInside m begin stop size (2 ^ k) .free := fun a ha =>
      absurd ha.1 (hempty a)
    rw [and_iff_left hinside, findIn_of_inverted hm hge hsize hk hwrap]
    split
    next hin =>
      refine iff_of_false (by rintro ⟨_, hnone, _⟩; cases hnone) fun hout => ?_
      obtain ⟨e, he, hcross⟩ := hin
      exact hout e he hcross
    next hout =>
      refine iff_of_true ⟨none, rfl, ⟨nofun, ?_⟩, nofun⟩ fun e he hcross => hout ⟨e, he, hcross⟩
      rintro ⟨a, ha⟩
      exact absurd ha (hempty a)

theorem reaches_finds_iff_single :
    (∃ ret, (single 0 100).findIn 10 90 32 (2 ^ 4) .free = some ret ∧
        Finds (single 0 100) 10 90 32 (2 ^ 4) .free ret) ↔
      (∀ e ∈ (single 0 100).ranges.items, ¬ (90 ≤ e.start ∧ e.stop ≤ 10)) ∧
        LeastInside (single 0 100) 10 90 32 (2 ^ 4) .free := by
  refine reaches_finds_iff (single_reaches (by decide)) (by decide) (by decide) ?_
  intro e he _ _ _
  obtain rfl := List.mem_singleton.mp he
  decide

/-- Two ranges that touch stay two entries, and a block that needs both is not found. -/
theorem reaches_finds_fails : ¬ ∀ m : MemoryMap,
    Reaches (fun _ begin stop _ => begin < stop) m → ∀ begin stop size k, 0 < size → k < 64 →
      NoWrap m begin stop size k .free → ∃ ret, m.findIn begin stop size (2 ^ k) .free = some ret ∧
        Finds m begin stop size (2 ^ k) .free ret := by
  intro hclaim
  set m : MemoryMap := ⟨⟨[⟨0, 10, .free⟩, ⟨10, 20, .free⟩], by decide⟩⟩ with hm
  have hcall : (single 0 10).register 10 20 .free = some (true, m) := by decide +kernel
  have hrun : Reaches (fun _ begin stop _ => begin < stop) m :=
    (single_reaches (by decide)).tail ⟨10, 20, .free, true, by decide, hcall⟩
  have hwrap : NoWrap m 0 20 20 0 .free := by
    intro e he _ _ _
    rcases List.mem_pair.mp he with rfl | rfl <;> decide
  obtain ⟨ret, hret, hfinds⟩ := hclaim m hrun 0 20 20 0 (by decide) (by decide) hwrap
  have hnone : m.findIn 0 20 20 (2 ^ 0) .free = some none := by decide +kernel
  rw [hret] at hnone
  obtain rfl := Option.some.inj hnone
  have hroom : Room m.segments .free 0 20 20 (2 ^ 0) 0 := by
    refine ⟨Nat.dvd_zero _, Nat.le_refl 0, by decide, fun x _ hx => ?_⟩
    rcases Nat.lt_or_ge x 10 with hlt | hge
    · exact if_pos ⟨Nat.zero_le x, hlt⟩
    · exact (if_neg fun h => Nat.not_lt.mpr hge h.2).trans (if_pos ⟨hge, hx⟩)
  cases hfinds.found_iff.mpr ⟨0, hroom⟩

end Aarch64.Cxx.MemoryMap
