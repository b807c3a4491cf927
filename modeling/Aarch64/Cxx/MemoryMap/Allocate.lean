import Aarch64.Cxx.MemoryMap.Atomic
import Aarch64.Cxx.MemoryMap.FindIn

/-!
# Taking memory from the map

`AllocateIn` and `Allocate` of `memory/phys.cc`: a search, and then a reservation of what it
found. What is found lies in an entry, so the reservation meets one. As it is written it does
not return, or the array is full and it fails; either way no block is ever handed out. Another
build may hand one out.
-/

namespace Aarch64.Cxx.MemoryMap

open Segments (Segment labelAt Ordered Proper)

/-- The result is `false`, or `true` with the address in `*ret`. -/
def allocateIn (build : Build) (m : MemoryMap) (begin stop size alignment : Nat) :
    Option (Option Nat × MemoryMap) := do
  let ret ← m.findIn begin stop size alignment .free
  match ret with
  | none => return (none, m)
  | some addr => do
      let (ok, m) ← m.reserve build addr (Word64.add addr size)
      if !ok then return (none, m)
      return (some addr, m)

def allocate (build : Build) (m : MemoryMap) (size alignment : Nat) :
    Option (Option Nat × MemoryMap) :=
  m.allocateIn build 0 (2 ^ 64 - 1) size alignment

variable {m m' : MemoryMap} {begin stop size fuel : Nat} {status : MemoryStatus}

/-! ## Changes of status that return -/

/-- The entries lie inside those of another map and have their status. -/
def Inside (m' m : MemoryMap) : Prop :=
  ∀ e' ∈ m'.ranges.items, ∃ e ∈ m.ranges.items,
    e.start ≤ e'.start ∧ e'.stop ≤ e.stop ∧ e'.status = e.status

theorem Inside.refl (m : MemoryMap) : Inside m m := fun e he =>
  ⟨e, he, Nat.le_refl _, Nat.le_refl _, rfl⟩

theorem Inside.trans {m₁ m₂ m₃ : MemoryMap} (h : Inside m₁ m₂) (h' : Inside m₂ m₃) :
    Inside m₁ m₃ := by
  intro e he
  obtain ⟨e', he', hstart, hstop, hstatus⟩ := h e he
  obtain ⟨e'', he'', hstart', hstop', hstatus'⟩ := h' e' he'
  exact ⟨e'', he'', hstart'.trans hstart, hstop.trans hstop', hstatus.trans hstatus'⟩

section Replace

variable {pre mid post : List MemoryRange} {r : MemoryRange}

/-- An entry that is replaced by parts of it. -/
theorem proper_replace (hm : Proper m.segments) (hitems : m.ranges.items = pre ++ r :: post)
    (hitems' : m'.ranges.items = pre ++ mid ++ post)
    (hmid : ∀ e ∈ mid, r.start ≤ e.start ∧ e.start < e.stop ∧ e.stop ≤ r.stop ∧
      e.status = r.status)
    (hsorted : mid.Pairwise fun e f => e.stop ≤ f.start) :
    Proper m'.segments ∧ Inside m' m := by
  have hlt : ∀ e ∈ m.ranges.items, e.start < e.stop := fun e he =>
    hm.lt _ (List.mem_map_of_mem he)
  have hpair : m.ranges.items.Pairwise fun e f => e.stop ≤ f.start :=
    List.pairwise_map.mp hm.pairwise
  rw [hitems] at hlt hpair
  obtain ⟨hpre, hrest, hacross⟩ := List.pairwise_append.mp hpair
  obtain ⟨hbehind, hpost⟩ := List.pairwise_cons.mp hrest
  refine ⟨⟨fun s hs => ?_, List.pairwise_map.mpr ?_⟩, fun e he => ?_⟩
  · obtain ⟨e, he, rfl⟩ := List.mem_map.mp hs
    rw [hitems', List.append_assoc, List.mem_append, List.mem_append] at he
    rcases he with he | he | he
    · exact hlt e (List.mem_append_left _ he)
    · exact (hmid e he).2.1
    · exact hlt e (List.mem_append_right _ (List.mem_cons_of_mem _ he))
  · rw [hitems', List.append_assoc]
    refine List.pairwise_append.mpr ⟨hpre, List.pairwise_append.mpr ⟨hsorted, hpost, ?_⟩, ?_⟩
    · exact fun e he f hf => (hmid e he).2.2.1.trans (hbehind f hf)
    · intro e he f hf
      rcases List.mem_append.mp hf with hf | hf
      · exact (hacross e he r List.mem_cons_self).trans (hmid f hf).1
      · exact hacross e he f (List.mem_cons_of_mem _ hf)
  · rw [hitems', List.append_assoc, List.mem_append, List.mem_append] at he
    rw [hitems]
    rcases he with he | he | he
    · exact ⟨e, List.mem_append_left _ he, Nat.le_refl _, Nat.le_refl _, rfl⟩
    · obtain ⟨hstart, _, hstop, hstatus⟩ := hmid e he
      exact ⟨r, List.mem_append_right _ List.mem_cons_self, hstart, hstop, hstatus⟩
    · exact ⟨e, List.mem_append_right _ (List.mem_cons_of_mem _ he), Nat.le_refl _, Nat.le_refl _,
        rfl⟩

end Replace

/-- A call that does not return, or fails and leaves parts of the entries. -/
def Fails (m : MemoryMap) (result : Option (Bool × MemoryMap)) : Prop :=
  result = none ∨ ∃ m', result = some (false, m') ∧ Proper m'.segments ∧ Inside m' m

section Searches

variable {lower upper lower' upper' : Nat} {ranges : FixedVector MemoryRange 128}
variable {pre post : List MemoryRange} {r : MemoryRange}
variable (hlower : lower = lowerBound m.ranges.items fun l => less l ⟨begin, stop, status⟩)
variable (hupper : upper = upperBound m.ranges.items fun r => less ⟨begin, stop, status⟩ r)
include hlower hupper

/-- After the first cut, the second one fails or the loop goes on for ever. -/
theorem fails_of_splitHead (fuel : Nat) (hlt : lower < upper)
    (hhead : splitHead m.ranges ⟨begin, stop, status⟩ lower upper =
      some (true, ranges, lower', upper')) (hlt' : lower' < upper')
    (hm : Proper (⟨ranges⟩ : MemoryMap).segments) (hinside : Inside ⟨ranges⟩ m)
    (hitems : ranges.items = pre ++ r :: post) (hpos : upper' = pre.length + 1)
    (hstart : r.start < stop) : Fails m (m.setStatus (.asWritten fuel) begin stop status) := by
  subst hpos
  have hlast : ranges.items[pre.length + 1 - 1]? = some r := by simp [hitems]
  by_cases htail : stop < r.stop ∧ ranges.size = 128
  · have hcall : splitTail ranges ⟨begin, stop, status⟩ (pre.length + 1) =
        some (false, ranges.set pre.length { r with stop }) := by
      have hinsert : (ranges.set pre.length { r with stop }).insert (pre.length + 1)
          ⟨stop, r.stop, r.status⟩ = _ :=
        FixedVector.insert_full (by rw [FixedVector.size_set, htail.2])
      simp only [splitTail, if_neg (Nat.succ_ne_zero pre.length), hlast, Option.bind_eq_bind,
        Option.bind_some, if_pos htail.1]
      exact hinsert
    have hitems' : (⟨ranges.set pre.length { r with stop }⟩ : MemoryMap).ranges.items =
        pre ++ [{ r with stop }] ++ post := by
      rw [List.append_assoc]
      exact FixedVector.items_set_of_append hitems _
    obtain ⟨hproper, hinside'⟩ := proper_replace hm hitems hitems'
      (List.forall_mem_singleton.mpr ⟨Nat.le_refl _, hstart, htail.1.le, rfl⟩)
      (List.pairwise_singleton _ _)
    exact .inr ⟨_, setStatus_tail_fails hlower hupper _ hlt hhead hcall, hproper,
      hinside'.trans hinside⟩
  · left
    rw [setStatus, ← hlower, ← hupper, if_neg hlt.ne, hhead]
    simp only [Option.bind_eq_bind, Option.bind_some, Bool.not_true, Bool.false_eq_true, if_false]
    cases hcall : splitTail ranges ⟨begin, stop, status⟩ (pre.length + 1) with
    | none => rfl
    | some split =>
        obtain ⟨ok, ranges'⟩ := split
        obtain rfl : ok = true := by
          rcases splitTail_cases hm hitems hstart with ⟨_, _, hcall'⟩ | ⟨hfull, _, _⟩
          · rw [hcall] at hcall'
            exact congrArg Prod.fst (Option.some.inj hcall')
          · have hfits : ranges.size ≤ 128 := ranges.fits
            change 128 < ranges.size + _ at hfull
            split at hfull
            next hgt => exact absurd ⟨hgt, by omega⟩ htail
            next => omega
        simp [relabel_asWritten fuel status hlt']

end Searches

/-- A call that meets an entry does not succeed where the loop runs as it is written. -/
theorem setStatus_fails (hm : Proper m.segments) (hrange : begin < stop) (status : MemoryStatus)
    (fuel : Nat) (hmeet : ∃ e ∈ m.ranges.items, e.start < stop ∧ begin < e.stop) :
    Fails m (m.setStatus (.asWritten fuel) begin stop status) := by
  obtain ⟨_, hlen, _⟩ := cut_bounds hm hrange status rfl rfl
  have hlt := (lower_lt_upper_iff hm.ordered begin stop status).mpr hmeet
  have hfits : m.ranges.size ≤ 128 := m.ranges.fits
  set lower := lowerBound m.ranges.items fun l => less l ⟨begin, stop, status⟩ with hlower
  set upper := upperBound m.ranges.items fun r => less ⟨begin, stop, status⟩ r with hupper
  have hlow : lower < m.ranges.items.length := Nat.lt_of_lt_of_le hlt hlen
  have hup : upper - 1 < m.ranges.items.length := by
    change upper ≤ m.ranges.items.length at hlen
    omega
  have hbegin := (lower_le_iff hm.ordered begin stop status hlow).mp hlower.ge
  have hlast := Nat.not_le.mp ((upper_le_iff hm.ordered begin stop status hup).not.mp (by omega))
  have hitems := split_at hlow
  have hpre : (m.ranges.items.take lower).length = lower := List.length_take_of_le hlow.le
  by_cases hhead : m.ranges.items[lower].start < begin
  · rcases Nat.lt_or_eq_of_le hfits with hroom | hfull
    · obtain ⟨ranges, hcall, hcut⟩ := splitHead_room ⟨begin, stop, status⟩ upper hitems hhead hroom
      rw [hpre] at hcall
      have hitems' : (⟨ranges⟩ : MemoryMap).ranges.items = m.ranges.items.take lower ++
          [{ m.ranges.items[lower] with stop := begin },
            { m.ranges.items[lower] with start := begin }] ++ m.ranges.items.drop (lower + 1) := by
        rw [List.append_assoc]
        exact hcut
      obtain ⟨hproper, hinside⟩ := proper_replace hm hitems hitems'
        (List.forall_mem_cons.mpr ⟨⟨Nat.le_refl _, hhead, hbegin.le, rfl⟩,
          List.forall_mem_singleton.mpr ⟨hhead.le, hbegin, Nat.le_refl _, rfl⟩⟩)
        (List.pairwise_pair.mpr (Nat.le_refl _))
      obtain ⟨pre, r, post, hsplit, hpos, hstart, _⟩ :=
        exists_last_of_cut hlt hup hcut hrange rfl hlast
      exact fails_of_splitHead hlower hupper fuel hlt hcall (Nat.succ_lt_succ hlt) hproper hinside
        hsplit hpos hstart
    · have hcall := splitHead_full ⟨begin, stop, status⟩ upper hitems hhead hfull
      rw [hpre] at hcall
      have hitems' : (⟨m.ranges.set lower { m.ranges.items[lower] with start := begin }⟩ :
          MemoryMap).ranges.items = m.ranges.items.take lower ++
            [{ m.ranges.items[lower] with start := begin }] ++ m.ranges.items.drop (lower + 1) := by
        have hset := FixedVector.items_set_of_append hitems
          { m.ranges.items[lower] with start := begin }
        rw [hpre] at hset
        rw [List.append_assoc]
        exact hset
      obtain ⟨hproper, hinside⟩ := proper_replace hm hitems hitems'
        (List.forall_mem_singleton.mpr ⟨hhead.le, hbegin, Nat.le_refl _, rfl⟩)
        (List.pairwise_singleton _ _)
      exact .inr ⟨_, setStatus_head_fails hlower hupper _ hlt hcall, hproper, hinside⟩
  · have hcall := splitHead_none ⟨begin, stop, status⟩ upper hitems hhead
    rw [hpre] at hcall
    refine fails_of_splitHead hlower hupper fuel hlt hcall hlt hm (.refl m) (split_at hup) ?_ hlast
    rw [List.length_take_of_le hup.le]
    omega

/-- A call that meets no entry returns at once, in every build. -/
theorem setStatus_of_outside (hm : Proper m.segments) (hrange : begin < stop)
    (status : MemoryStatus) (build : Build)
    (hout : ¬ ∃ e ∈ m.ranges.items, e.start < stop ∧ begin < e.stop) :
    m.setStatus build begin stop status = some (true, m) := by
  have hle := (cut_bounds hm hrange status rfl rfl).1
  have hge := Nat.not_lt.mp ((lower_lt_upper_iff hm.ordered begin stop status).not.mpr hout)
  rw [setStatus, if_pos (Nat.le_antisymm hle hge)]

theorem setStatus_eq_true_iff (hm : Proper m.segments) (hrange : begin < stop)
    (status : MemoryStatus) (fuel : Nat) (m' : MemoryMap) :
    m.setStatus (.asWritten fuel) begin stop status = some (true, m') ↔
      m' = m ∧ ¬ ∃ e ∈ m.ranges.items, e.start < stop ∧ begin < e.stop := by
  constructor
  · intro h
    by_cases hmeet : ∃ e ∈ m.ranges.items, e.start < stop ∧ begin < e.stop
    · rcases setStatus_fails hm hrange status fuel hmeet with hnone | ⟨_, hfalse, _⟩
      · rw [hnone] at h
        cases h
      · rw [hfalse] at h
        cases h
    · rw [setStatus_of_outside hm hrange status _ hmeet] at h
      cases h
      exact ⟨rfl, hmeet⟩
  · rintro ⟨rfl, hout⟩
    exact setStatus_of_outside hm hrange status _ hout

/-! ## Searches that find something -/

/-- Entries below half of the address space, and none that is empty. -/
structure Low (m : MemoryMap) : Prop where
  proper : Proper m.segments
  stop_le : ∀ e ∈ m.ranges.items, e.stop ≤ 2 ^ 63

theorem Low.inside (h : Low m) (hm' : Proper m'.segments) (hinside : Inside m' m) : Low m' := by
  refine ⟨hm', fun e he => ?_⟩
  obtain ⟨e', he', _, hstop, _⟩ := hinside e he
  exact hstop.trans (h.stop_le e' he')

/-- Nothing is handed out: what is found is registered, so it is not reserved. -/
theorem allocateIn_fails (h : Low m) (hlt : begin < stop) (hpos : 0 < size) (hsize : size ≤ 2 ^ 62)
    {ret : Option Nat}
    (hcall : m.allocateIn (.asWritten fuel) begin stop size (2 ^ 12) = some (ret, m')) :
    ret = none ∧ Low m' := by
  have hwrap : NoWrap m begin stop size 12 .free := by
    intro e he _ hstop hstart
    have hle := h.stop_le e he
    have hclamp : clamp e.start begin stop = max e.start begin := by
      rw [clamp_of_le hlt.le]
      omega
    have hentry : e.start < e.stop := h.proper.lt _ (List.mem_map_of_mem he)
    have hround := Segments.roundUp_le (clamp e.start begin stop) (2 ^ 12)
    omega
  have hfind := findIn_eq_firstFit h.proper hlt hpos (by decide) hwrap
  rw [allocateIn, hfind, Option.bind_eq_bind, Option.bind_some] at hcall
  cases hfit : Segments.firstFit MemoryStatus.free begin stop size (2 ^ 12) m.segments with
  | none =>
      rw [hfit] at hcall
      cases hcall
      exact ⟨rfl, h⟩
  | some addr =>
      obtain ⟨hroom, _⟩ := Segments.isLeast_firstFit (by decide) h.proper.ordered hfit
      obtain ⟨s, hs, _, hlo, hhi⟩ := hroom.inside
      obtain ⟨e, he, rfl⟩ := List.mem_map.mp hs
      have hle := h.stop_le e he
      change e.start ≤ addr at hlo
      change addr + size ≤ e.stop at hhi
      have hrange : addr < addr + size := Nat.lt_add_of_pos_right hpos
      have hfails := setStatus_fails h.proper hrange .reserved fuel ⟨e, he, by omega, by omega⟩
      simp only [hfit, reserve, Word64.add_of_lt (by omega : addr + size < 2 ^ 64)] at hcall
      rcases hfails with hnone | ⟨m'', hfalse, hproper, hinside⟩
      · rw [hnone] at hcall
        cases hcall
      · rw [hfalse] at hcall
        cases hcall
        exact ⟨rfl, h.inside hproper hinside⟩

end Aarch64.Cxx.MemoryMap
