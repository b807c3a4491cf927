import Aarch64.Cxx.MemoryMap.Register
import Aarch64.Lib.Word
import Mathlib.Logic.Relation

/-!
# Runs of registrations

As long as every range has an address, `Register` keeps the entries sorted, disjoint and
nonempty, and answers by what is registered. The bootstrap passes on what the device tree
says, where a size may be 0 and the end of a range may wrap. Such a range is registered
like any other, and what becomes of it depends on the entries around it.
-/

namespace Aarch64.Cxx.MemoryMap

open Segments (Segment labelAt Ordered Proper Cut hull)

variable {m m' : MemoryMap} {begin stop : Nat} {status : MemoryStatus}

/-- One call whose arguments the callers guarantee `P` of. -/
def Registers (P : MemoryMap → Nat → Nat → MemoryStatus → Prop) (m m' : MemoryMap) : Prop :=
  ∃ begin stop status ok, P m begin stop status ∧ m.register begin stop status = some (ok, m')

def Reaches (P : MemoryMap → Nat → Nat → MemoryStatus → Prop) (m : MemoryMap) : Prop :=
  Relation.ReflTransGen (Registers P) new m

theorem new_proper : Proper new.segments := Segments.Canonical.nil.toProper

/-! ## Ranges with an address -/

/-- The answer of `Register`, and what it leaves behind. -/
structure Answers (m : MemoryMap) (begin stop : Nat) (status : MemoryStatus) (ok : Bool)
    (m' : MemoryMap) : Prop where
  refused_iff : ok = false ↔
    (∃ x other, begin ≤ x ∧ x < stop ∧ lookup m x = some other ∧ other ≠ status) ∨
      (∀ x, begin ≤ x → x < stop → lookup m x = none) ∧ m.ranges.size = 128
  unchanged : ok = false → m' = m
  lookup_eq : ok = true → ∀ x, lookup m' x =
    if begin ≤ x ∧ x < stop then some status else lookup m x
  proper : Proper m'.segments

/-- The new entry and those around it are nonempty. -/
theorem proper_joined {lower : Nat} (hm : Proper m.segments) (hlt : begin < stop)
    (hord : Ordered (joined m begin stop status lower lower)) :
    Proper (joined m begin stop status lower lower) := by
  refine ⟨fun s hs => ?_, hord.pairwise⟩
  rcases List.mem_append.mp hs with hs | hs
  · exact hm.lt s (List.mem_of_mem_take hs)
  · rcases List.mem_cons.mp hs with rfl | hs
    · rw [Nat.sub_self, List.take_zero]
      exact hlt
    · exact hm.lt s (List.mem_of_mem_drop hs)

theorem register_answers (hm : Proper m.segments) (hlt : begin < stop) (status : MemoryStatus) :
    ∃ ok m', m.register begin stop status = some (ok, m') ∧
      Answers m begin stop status ok m' := by
  obtain ⟨hle, _, hcut⟩ := cut_bounds hm hlt status rfl rfl
  have hbounds := bounds_eq_iff hm hlt status rfl rfl
  set lower := lowerBound m.ranges.items fun l => less l ⟨begin, stop, status⟩ with hlower
  set upper := upperBound m.ranges.items fun r => less ⟨begin, stop, status⟩ r with hupper
  have hord : Ordered (joined m begin stop status lower upper) :=
    hcut.ordered_hull hm.ordered hlt.le
  rcases Nat.eq_or_lt_of_le hle with heq | hrun
  · have hnone := hbounds.mp heq
    have hno : ¬ ∃ x other, begin ≤ x ∧ x < stop ∧ lookup m x = some other ∧ other ≠ status := by
      rintro ⟨x, other, hlo, hhi, hx, _⟩
      rw [hnone x hlo hhi] at hx
      cases hx
    rcases register_gap hlower hupper heq with ⟨hfull, hcall⟩ | ⟨hroom, m', hcall, hsegments⟩
    · exact ⟨false, m, hcall, iff_of_true rfl (.inr ⟨hnone, hfull⟩), fun _ => rfl, nofun, hm⟩
    · rw [← heq] at hcut hord
      refine ⟨true, m', hcall, iff_of_false nofun ?_, nofun, fun _ x => ?_, ?_⟩
      · rintro (hsome | ⟨_, hfull⟩)
        · exact hno hsome
        · omega
      · rw [lookup, hsegments]
        refine hcut.labelAt_hull hm.ordered hlt.le (fun s hs => ?_) x
        rw [Nat.sub_self, List.take_zero] at hs
        exact absurd hs List.not_mem_nil
      · rw [hsegments]
        exact proper_joined hm hlt hord
  · have hsome : ¬ ∀ x, begin ≤ x → x < stop → lookup m x = none := fun h =>
      hrun.ne (hbounds.mpr h)
    have hmem : ∀ r ∈ (m.ranges.items.drop lower).take (upper - lower),
        r.segment ∈ (m.segments.drop lower).take (upper - lower) := by
      intro r hr
      rw [segments, ← List.map_drop, ← List.map_take]
      exact List.mem_map_of_mem hr
    by_cases hsame : ∀ r ∈ (m.ranges.items.drop lower).take (upper - lower), r.status = status
    · obtain ⟨m', hcall, hproper, hlabels⟩ := register_run hlower hupper hrun hsame hord
      have hlabel : ∀ s ∈ (m.segments.drop lower).take (upper - lower), s.label = status := by
        intro s hs
        rw [segments, ← List.map_drop, ← List.map_take] at hs
        obtain ⟨r, hr, rfl⟩ := List.mem_map.mp hs
        exact hsame r hr
      refine ⟨true, m', hcall, iff_of_false nofun ?_, nofun, fun _ x => ?_, hproper⟩
      · rintro (⟨x, other, hlo, hhi, hx, hne⟩ | ⟨hnone, _⟩)
        · -- the entry that holds the address overlaps the range
          obtain ⟨s, hs, hslo, hshi, rfl⟩ := Segments.exists_mem_of_labelAt hx
          rw [hcut.eq, List.mem_append, List.mem_append] at hs
          rcases hs with hs | hs | hs
          · have hbefore : s.hi ≤ begin := hcut.before s hs
            omega
          · exact hne (hlabel s hs)
          · have hafter : stop ≤ s.lo := hcut.after s hs
            omega
        · exact hsome hnone
      · rw [hlabels]
        exact hcut.labelAt_hull hm.ordered hlt.le hlabel x
    · push Not at hsame
      obtain ⟨r, hr, hne⟩ := hsame
      have hcall := register_conflict hlower hupper hrun ⟨r, hr, hne⟩
      refine ⟨false, m, hcall, iff_of_true rfl (.inl ?_), fun _ => rfl, nofun, hm⟩
      obtain ⟨hlo, hhi⟩ := hcut.overlap _ (hmem r hr)
      have hin : r.segment ∈ m.segments := List.mem_of_mem_drop (List.mem_of_mem_take (hmem r hr))
      have hseg := hm.lt _ hin
      change begin < r.stop at hlo
      change r.start < stop at hhi
      change r.start < r.stop at hseg
      refine ⟨max begin r.start, r.status, Nat.le_max_left _ _, by omega, ?_, hne⟩
      exact hm.ordered.labelAt_of_mem hin (Nat.le_max_right begin r.start)
        (Nat.max_lt.mpr ⟨hlo, hseg⟩)

theorem Reaches.proper (h : Reaches (fun _ begin stop _ => begin < stop) m) :
    Proper m.segments := by
  induction h with
  | refl => exact new_proper
  | tail _ hstep ih =>
      obtain ⟨begin, stop, status, ok, hlt, hcall⟩ := hstep
      obtain ⟨ok', m', hcall', hanswer⟩ := register_answers ih hlt status
      rw [hcall] at hcall'
      cases hcall'
      exact hanswer.proper

/-- Every call of `Register` on a map that was built from ranges with an address. It is refused, and
changes nothing, exactly if it meets an address of another status or needs a new entry in a full
map; else it sets the status of its addresses and of no other, and the entries stay sorted, disjoint
and nonempty. -/
theorem reaches_answers (h : Reaches (fun _ begin stop _ => begin < stop) m) (hlt : begin < stop)
    (status : MemoryStatus) :
    Proper m.segments ∧ ∃ ok m', m.register begin stop status = some (ok, m') ∧
      Answers m begin stop status ok m' :=
  ⟨h.proper, register_answers h.proper hlt status⟩

/-- Any range can be registered first. -/
@[simp] theorem register_new (begin stop : Nat) :
    new.register begin stop .free = some (true, single begin stop) := by
  have hempty : new.ranges.items = [] ++ [] := rfl
  obtain ⟨ranges, hcall, hitems⟩ :=
    FixedVector.insert_spec hempty (by decide : new.ranges.size < 128) ⟨begin, stop, .free⟩
  obtain rfl : ranges = (single begin stop).ranges := by
    cases ranges
    exact FixedVector.mk.congr_simp _ _ hitems _
  change (new.ranges.insert 0 _).bind _ = _
  rw [show new.ranges.insert 0 _ = _ from hcall]
  rfl

theorem single_reaches {start : Nat} (hlt : start < stop) :
    Reaches (fun _ begin stop _ => begin < stop) (single start stop) :=
  .single ⟨start, stop, .free, true, hlt, register_new start stop⟩

theorem reaches_answers_single : Proper (single 0 100).segments ∧
    ∃ ok m', (single 0 100).register 50 150 .free = some (ok, m') ∧
      Answers (single 0 100) 50 150 .free ok m' :=
  reaches_answers (single_reaches (by decide)) (by decide) .free

/-! ## Ranges of the device tree -/

/-- The calls that `RegisterRegions` makes, for any two numbers. -/
def Region (P : MemoryMap → Nat → Nat → Prop) (m : MemoryMap) (begin stop : Nat)
    (status : MemoryStatus) : Prop :=
  status = .free ∧ ∃ size, begin < 2 ^ 64 ∧ size < 2 ^ 64 ∧ stop = Word64.add begin size ∧
    P m begin stop

/-- The range has an address, or it is empty or inverted but lies inside one entry, or it
meets a full array and lies between two entries. -/
def Tame (m : MemoryMap) (begin stop : Nat) : Prop :=
  begin < stop ∨ (∃ e ∈ m.ranges.items, e.start < stop ∧ begin < e.stop) ∨
    m.ranges.size = 128 ∧ ∀ e ∈ m.ranges.items, ¬ (stop ≤ e.start ∧ e.stop ≤ begin)

/-- Nothing but free memory is registered. -/
def AllFree (m : MemoryMap) : Prop := ∀ e ∈ m.ranges.items, e.status = .free

/-- The loop leaves the array when it starts behind the entry where it should end. -/
theorem sameStatusLoop_eq_none {N : Nat} {ranges : FixedVector MemoryRange N} {it «to» : Nat}
    (hlt : «to» < it) (hstatus : ∀ e ∈ ranges.items, e.status = status) :
    sameStatusLoop ranges it «to» status = none := by
  induction it using sameStatusLoop.induct ranges «to» status with
  | case1 => exact absurd hlt (Nat.lt_irrefl _)
  | case2 it hne entry hentry hother =>
      exact absurd (hstatus entry (List.mem_of_getElem? hentry)) hother
  | case3 it hne entry hentry hsame ih =>
      rw [sameStatusLoop_step hne hentry, if_neg hsame, ih (Nat.lt_succ_of_lt hlt)]
  | case4 it hne hnone => exact sameStatusLoop_end hne hnone

/-- The searches meet an entry exactly when the range starts before its end and ends behind
its start. -/
theorem lower_lt_upper_iff (hm : Ordered m.segments) (begin stop : Nat) (status : MemoryStatus) :
    (lowerBound m.ranges.items fun l => less l ⟨begin, stop, status⟩) <
        (upperBound m.ranges.items fun r => less ⟨begin, stop, status⟩ r) ↔
      ∃ e ∈ m.ranges.items, e.start < stop ∧ begin < e.stop := by
  constructor
  · intro hlt
    have hlen := Nat.lt_of_lt_of_le hlt List.findIdx_le_length
    refine ⟨_, List.getElem_mem hlen, ?_, ?_⟩
    · rw [← Nat.not_le, ← upper_le_iff hm begin stop status hlen]
      exact Nat.not_le.mpr hlt
    · rw [← lower_le_iff hm begin stop status hlen]
  · rintro ⟨e, he, hstart, hstop⟩
    obtain ⟨i, hi, rfl⟩ := List.mem_iff_getElem.mp he
    have hle := (lower_le_iff hm begin stop status hi).mpr hstop
    have hgt := (upper_le_iff hm begin stop status hi).not.mpr (Nat.not_le.mpr hstart)
    exact Nat.lt_of_le_of_lt hle (Nat.not_le.mp hgt)

/-- They cross exactly when an entry lies in the part that an inverted range leaves out. -/
theorem upper_lt_lower_iff (hm : Ordered m.segments) (begin stop : Nat) (status : MemoryStatus) :
    (upperBound m.ranges.items fun r => less ⟨begin, stop, status⟩ r) <
        (lowerBound m.ranges.items fun l => less l ⟨begin, stop, status⟩) ↔
      ∃ e ∈ m.ranges.items, stop ≤ e.start ∧ e.stop ≤ begin := by
  constructor
  · intro hlt
    have hlen := Nat.lt_of_lt_of_le hlt List.findIdx_le_length
    refine ⟨_, List.getElem_mem hlen, ?_, ?_⟩
    · rw [← upper_le_iff hm begin stop status hlen]
    · rw [← Nat.not_lt, ← lower_le_iff hm begin stop status hlen]
      exact Nat.not_le.mpr hlt
  · rintro ⟨e, he, hstart, hstop⟩
    obtain ⟨i, hi, rfl⟩ := List.mem_iff_getElem.mp he
    have hle := (upper_le_iff hm begin stop status hi).mpr hstart
    have hgt := (lower_le_iff hm begin stop status hi).not.mpr (Nat.not_lt.mpr hstop)
    exact Nat.lt_of_le_of_lt hle (Nat.not_le.mp hgt)

section Searches

variable {lower upper : Nat}
variable (hlower : lower = lowerBound m.ranges.items fun l => less l ⟨begin, stop, status⟩)
variable (hupper : upper = upperBound m.ranges.items fun r => less ⟨begin, stop, status⟩ r)
include hlower hupper

/-- An inverted range meets one entry at most, and joins it without changing it. -/
theorem joined_of_inverted (hm : Proper m.segments) (hge : stop ≤ begin) (hlt : lower < upper)
    (hstatus : ∀ e ∈ m.ranges.items, e.status = status) :
    joined m begin stop status lower upper = m.segments := by
  have hcut := Segments.cut_of_findIdx_le (m := ⟨begin, stop, status⟩) hm.ordered
    (p := fun s => decide (begin < s.hi)) (q := fun s => decide (stop ≤ s.lo))
    (fun s _ => decide_eq_true_iff) (fun s _ => decide_eq_true_iff)
  rw [← findIdx_lower m begin stop status, ← findIdx_upper m begin stop status, ← hlower,
    ← hupper] at hcut
  have hcut := hcut hlt.le
  have hle : upper ≤ m.segments.length := by
    rw [segments, List.length_map]
    exact hupper ▸ List.findIdx_le_length
  have hmid := hcut.overlap
  have heq := hcut.eq
  have hpair : ((m.segments.drop lower).take (upper - lower)).Pairwise fun s t => s.hi ≤ t.lo :=
    hm.pairwise.sublist ((List.take_sublist ..).trans (List.drop_sublist ..))
  have hlabel : ∀ s ∈ (m.segments.drop lower).take (upper - lower), s.label = status := by
    intro s hs
    obtain ⟨e, he, rfl⟩ := List.mem_map.mp (List.mem_of_mem_drop (List.mem_of_mem_take hs))
    exact hstatus e he
  have hlen : ((m.segments.drop lower).take (upper - lower)).length = upper - lower := by
    rw [List.length_take, List.length_drop]
    omega
  rw [joined]
  generalize (m.segments.drop lower).take (upper - lower) = mid at *
  cases mid with
  | nil =>
      rw [List.length_nil] at hlen
      omega
  | cons s rest =>
      obtain ⟨hlo, hhi⟩ := hmid s List.mem_cons_self
      cases rest with
      | cons t rest =>
          obtain ⟨_, hhi'⟩ := hmid t (List.mem_cons_of_mem _ List.mem_cons_self)
          have hst := (List.pairwise_cons.mp hpair).1 t List.mem_cons_self
          change begin < s.hi at hlo
          change t.lo < stop at hhi'
          omega
      | nil =>
          have hhull : hull ⟨begin, stop, status⟩ [s] = s := by
            change begin < s.hi at hlo
            change s.lo < stop at hhi
            have hmin : min begin s.lo = s.lo := Nat.min_eq_right (by omega)
            have hmax : max stop s.hi = s.hi := Nat.max_eq_right (by omega)
            change (⟨min begin s.lo, max stop s.hi, status⟩ : Segment Nat MemoryStatus) = s
            rw [hmin, hmax, ← hlabel s List.mem_cons_self]
          rw [hhull]
          exact heq.symm

end Searches

/-- The property that a call is meant to have: every loop stays in the array, and the
entries stay sorted, disjoint and nonempty. -/
def Tolerates (m : MemoryMap) (begin stop : Nat) : Prop :=
  ∃ ok m', m.register begin stop .free = some (ok, m') ∧ Proper m'.segments

theorem allFree_iff (hm : Proper m.segments) :
    AllFree m ↔ ∀ x s, lookup m x = some s → s = .free := by
  constructor
  · intro hfree x s hx
    obtain ⟨seg, hseg, _, _, rfl⟩ := Segments.exists_mem_of_labelAt hx
    obtain ⟨e, he, rfl⟩ := List.mem_map.mp hseg
    exact hfree e he
  · intro hlookup e he
    have hmem : e.segment ∈ m.segments := List.mem_map_of_mem he
    exact hlookup e.start e.status
      (hm.ordered.labelAt_of_mem hmem (Nat.le_refl e.start) (hm.lt _ hmem))

/-- A tame call returns and registers free memory only. -/
theorem Tame.register (h : Tame m begin stop) (hm : Proper m.segments) (hfree : AllFree m) :
    ∃ ok m', m.register begin stop .free = some (ok, m') ∧ Proper m'.segments ∧ AllFree m' := by
  have hord := hm.ordered
  have hlookup := (allFree_iff hm).mp hfree
  rcases Nat.lt_or_ge begin stop with hlt | hge
  · obtain ⟨ok, m', hcall, hanswer⟩ := register_answers hm hlt .free
    refine ⟨ok, m', hcall, hanswer.proper, ?_⟩
    cases ok with
    | false =>
        rw [hanswer.unchanged rfl]
        exact hfree
    | true =>
        refine (allFree_iff hanswer.proper).mpr fun x s hx => ?_
        rw [hanswer.lookup_eq rfl] at hx
        split at hx
        next => exact (Option.some.inj hx).symm
        next => exact hlookup x s hx
  by_cases hinside : ∃ e ∈ m.ranges.items, e.start < stop ∧ begin < e.stop
  · -- the range lies in an entry, which absorbs it
    have hlt := (lower_lt_upper_iff hord begin stop .free).mpr hinside
    have hjoined := joined_of_inverted rfl rfl hm hge hlt hfree
    obtain ⟨m', hcall, hproper, hlabels⟩ := register_run rfl rfl hlt
      (fun r hr => hfree r (List.mem_of_mem_drop (List.mem_of_mem_take hr)))
      (by rw [hjoined]; exact hord)
    refine ⟨true, m', hcall, hproper, (allFree_iff hproper).mpr fun x s hx => hlookup x s ?_⟩
    rwa [hlabels, hjoined] at hx
  · obtain ⟨hfull, hout⟩ := (h.resolve_left (Nat.not_lt.mpr hge)).resolve_left hinside
    have hlow := (lower_lt_upper_iff hord begin stop .free).not.mpr hinside
    have hup := (upper_lt_lower_iff hord begin stop .free).not.mpr fun h => by
      obtain ⟨e, he, hin⟩ := h
      exact hout e he hin
    have heq := Nat.le_antisymm (Nat.not_lt.mp hup) (Nat.not_lt.mp hlow)
    rcases register_gap rfl rfl heq with ⟨_, hcall⟩ | ⟨hroom, _⟩
    · exact ⟨false, m, hcall, hm, hfree⟩
    · exact absurd hfull (Nat.ne_of_lt hroom)

/-- Any other call stores a range without an address or runs off the array. -/
theorem Tolerates.tame (h : Tolerates m begin stop) (hm : Proper m.segments)
    (hfree : AllFree m) : Tame m begin stop := by
  by_contra hwild
  obtain ⟨hge, hinside, hfull⟩ := not_or.mp hwild |>.imp_right not_or.mp
  have hord := hm.ordered
  have hlow := (lower_lt_upper_iff hord begin stop .free).not.mpr hinside
  obtain ⟨ok, m', hcall, hproper⟩ := h
  rcases Nat.eq_or_lt_of_le (Nat.not_lt.mp hlow) with heq | hgt
  · have hout : ∀ e ∈ m.ranges.items, ¬ (stop ≤ e.start ∧ e.stop ≤ begin) := fun e he hin =>
      (upper_lt_lower_iff hord begin stop .free).not.mp heq.not_lt ⟨e, he, hin⟩
    rcases register_gap rfl rfl heq.symm with ⟨hsize, _⟩ | ⟨_, m'', hcall', hsegments⟩
    · exact hfull ⟨hsize, hout⟩
    · rw [hcall] at hcall'
      cases hcall'
      rw [hsegments, joined, Nat.sub_self, List.take_zero] at hproper
      exact hge (hproper.lt _ (List.mem_append_right _ List.mem_cons_self))
  · rw [MemoryMap.register, if_neg hgt.ne'] at hcall
    change (sameStatusLoop m.ranges _ _ .free).bind _ = _ at hcall
    rw [sameStatusLoop_eq_none hgt hfree] at hcall
    cases hcall

/-- In a run of tame calls, with any pairs of 64-bit numbers, the map keeps its form, and a further
call keeps it, and returns from its loop in the array, exactly when it is tame as well. Tame are all
calls whose range has an address, and of the others those that leave the map as it is. -/
theorem reaches_tolerates_iff (h : Reaches (Region Tame) m) :
    Proper m.segments ∧ ∀ begin size, begin < 2 ^ 64 → size < 2 ^ 64 →
      (Tolerates m begin (Word64.add begin size) ↔ Tame m begin (Word64.add begin size)) := by
  obtain ⟨hm, hfree⟩ : Proper m.segments ∧ AllFree m := by
    induction h with
    | refl => exact ⟨new_proper, nofun⟩
    | tail _ hstep ih =>
        obtain ⟨begin, stop, status, ok, ⟨rfl, _, _, _, _, htame⟩, hcall⟩ := hstep
        obtain ⟨ok', m', hcall', hproper, hfree⟩ := htame.register ih.1 ih.2
        rw [hcall] at hcall'
        cases hcall'
        exact ⟨hproper, hfree⟩
  refine ⟨hm, fun begin size _ _ => ⟨fun htolerates => htolerates.tame hm hfree, fun htame => ?_⟩⟩
  obtain ⟨ok, m', hcall, hproper, _⟩ := htame.register hm hfree
  exact ⟨ok, m', hcall, hproper⟩

theorem single_region {start size : Nat} (hlt : 0 < size) (hstop : start + size < 2 ^ 64) :
    Reaches (Region Tame) (single start (start + size)) := by
  refine .single ⟨start, start + size, .free, true, ⟨rfl, size, by omega, by omega, ?_, ?_⟩,
    register_new _ _⟩
  · rw [Word64.add_of_lt hstop]
  · exact .inl (Nat.lt_add_of_pos_right hlt)

theorem reaches_tolerates_iff_single : Proper (single 10 (10 + 10)).segments ∧
    ∀ begin size, begin < 2 ^ 64 → size < 2 ^ 64 →
      (Tolerates (single 10 (10 + 10)) begin (Word64.add begin size) ↔
        Tame (single 10 (10 + 10)) begin (Word64.add begin size)) :=
  reaches_tolerates_iff (single_region (by decide) (by decide))

/-- A region of size 0 is stored as an entry without an address. -/
theorem reaches_tolerates_fails :
    ¬ ∀ m, Reaches (Region fun _ _ _ => True) m → Proper m.segments := by
  intro hclaim
  have hempty : Reaches (Region fun _ _ _ => True) (single 0 0) :=
    .single ⟨0, 0, .free, true, ⟨rfl, 0, by decide, by decide, rfl, trivial⟩, register_new 0 0⟩
  exact absurd ((hclaim _ hempty).lt ⟨0, 0, .free⟩ List.mem_cons_self) (Nat.lt_irrefl 0)

end Aarch64.Cxx.MemoryMap
