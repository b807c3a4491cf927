import Aarch64.Lib.FirstFit
import Aarch64.Rust.MemoryMap.Zones

/-!
# First fit in the Rust memory map

`allocate_in_range` is the first-fit search of the library over the free regular
ranges. The lists are canonical, so a run of free regular addresses lies in a single
range and the search misses none. This holds while the sums of the search fit a word.
The test compares a wrapped sum, and the last section says when that goes wrong.
-/

namespace Aarch64.Rust

open Segments (Canonical Room RoomIn firstFit fit roundUp)

namespace MemoryMap

variable {m m' : MemoryMap} {limit : Range} {size k : Nat}

theorem freeMemoryInRange_cons (r : MemoryRange) (memory zones : List MemoryRange)
    (limit : Range) : freeMemoryInRange ⟨r :: memory, zones⟩ limit =
      if r.status = .free ∧ (overlap r.range limit).isEmpty = false then
        ⟨overlap r.range limit, r.memtype, .free⟩ :: freeMemoryInRange ⟨memory, zones⟩ limit
      else freeMemoryInRange ⟨memory, zones⟩ limit := by
  simp only [freeMemoryInRange, List.filterMap_cons]
  by_cases hstatus : r.status = .free
  · cases hempty : (overlap r.range limit).isEmpty <;> simp [hstatus]
  · simp [hstatus]

/-- Without wrapping, the loop over the candidates is the search of the library. -/
theorem findFreeMemoryLoop_eq (hsize : 0 < size) (hk : k < 64) (zones : List MemoryRange) :
    ∀ memory : List MemoryRange,
    (∀ r ∈ memory, r.range.stop + (2 ^ k + size) < 2 ^ 64) →
    findFreeMemoryLoop size (2 ^ k) (freeMemoryInRange ⟨memory, zones⟩ limit) =
      some ((firstFit (.regular, .free) limit.start limit.stop size (2 ^ k)
        (segments memory)).map fun a => ⟨⟨a, a + size⟩, .regular, .free⟩) := by
  intro memory
  induction memory with
  | nil => exact fun _ => rfl
  | cons r memory ih =>
      intro hfits
      obtain ⟨hr, hrest⟩ := List.forall_mem_cons.mp hfits
      have later := ih hrest
      have hskip : fit (.regular, .free) limit.start limit.stop size (2 ^ k) r.segment = none →
          firstFit (.regular, .free) limit.start limit.stop size (2 ^ k)
            (segments (r :: memory)) =
          firstFit (.regular, .free) limit.start limit.stop size (2 ^ k) (segments memory) := by
        intro hnone
        rw [firstFit, segments_cons, List.findSome?_cons, hnone]
        rfl
      rw [freeMemoryInRange_cons]
      have hpos := Nat.two_pow_pos k
      have hge := Segments.le_roundUp (x := max r.range.start limit.start) hpos
      have hup := Segments.roundUp_le (max r.range.start limit.start) (2 ^ k)
      split
      next hcand =>
        obtain ⟨hstatus, hempty⟩ := hcand
        rw [Range.isEmpty_eq_false_iff] at hempty
        simp only [overlap] at hempty
        rw [findFreeMemoryLoop]
        by_cases htype : r.memtype = .regular
        · have hstart : Numeric.alignUp (max r.range.start limit.start) (2 ^ k) =
              some (roundUp (max r.range.start limit.start) (2 ^ k)) :=
            Numeric.alignUp_two_pow (by omega) hk
          simp only [overlap, htype, ne_eq, not_true_eq_false, if_false, hstart,
            Option.bind_eq_bind, Option.bind_some]
          rw [Word64.add_of_lt (by omega)]
          by_cases hroom : roundUp (max r.range.start limit.start) (2 ^ k) + size ≤
              min r.range.stop limit.stop
          · rw [if_neg (Nat.not_lt.mpr hroom), firstFit, segments_cons, List.findSome?_cons, fit,
              if_pos ⟨by simp [htype, hstatus], hroom⟩]
            rfl
          · rw [if_pos (Nat.lt_of_not_le hroom), hskip (if_neg fun h => hroom h.2)]
            exact later
        · rw [if_pos htype, hskip (if_neg fun h => htype (Prod.mk.inj h.1).1)]
          exact later
      next hcand =>
        rw [hskip, later]
        refine if_neg fun h => hcand ⟨(Prod.mk.inj h.1).2, ?_⟩
        rw [Range.isEmpty_eq_false_iff]
        have hroom := h.2
        change max r.range.start limit.start < min r.range.stop limit.stop
        change roundUp (max r.range.start limit.start) (2 ^ k) + size ≤
          min r.range.stop limit.stop at hroom
        omega

/-- A free regular block that an allocation within the limit may return. -/
def Candidate (m : MemoryMap) (limit : Range) (size align a : Nat) : Prop :=
  align ∣ a ∧ limit.start ≤ a ∧ a + size ≤ limit.stop ∧
    ∀ x, a ≤ x → x < a + size → lookup m.memory x = some (.regular, .free)

theorem candidate_iff_room {align a : Nat} : m.Candidate limit size align a ↔
    Room (segments m.memory) (.regular, .free) limit.start limit.stop size align a :=
  ⟨fun h => ⟨h.1, h.2.1, h.2.2.1, h.2.2.2⟩, fun h => ⟨h.aligned, h.lo_le, h.le_hi, h.labelled⟩⟩

/-- The call takes the least candidate, or there is none and nothing changes. -/
def TakesLeast (m : MemoryMap) (limit : Range) (size align : Nat)
    (call : Option (Option Nat × MemoryMap)) : Prop :=
  (∃ a m', call = some (some a, m') ∧ IsLeast {b | m.Candidate limit size align b} a ∧
      (∀ x, lookup m'.memory x =
        if a ≤ x ∧ x < a + size then some (.regular, .reserved) else lookup m.memory x) ∧
      m'.zones = m.zones) ∨
    (call = some (none, m) ∧ ∀ a, ¬ m.Candidate limit size align a)

theorem allocateInRange_takesLeast (hm : Canonical (segments m.memory)) (limit : Range)
    (hsize : 0 < size) (hk : k < 64) (hfits : m.FitsBelow (2 ^ k + size)) :
    m.TakesLeast limit size (2 ^ k) (m.allocateInRange limit size (2 ^ k)) := by
  have hfind : m.findFreeMemoryInRange limit size (2 ^ k) = _ :=
    findFreeMemoryLoop_eq hsize hk m.zones m.memory hfits
  simp only [TakesLeast, candidate_iff_room]
  rcases Segments.firstFit_spec (MemoryType.regular, MemoryStatus.free) limit.start limit.stop
    (Nat.two_pow_pos k) hsize hm with
    ⟨a, hsome, hleast⟩ | ⟨hnone, hno⟩
  · obtain ⟨memory, hcall, _, hlookup⟩ :=
      reserve_free_spec hm ⟨a, a + size⟩ fun x hlo hhi => hleast.1.labelled x hlo hhi
    refine .inl ⟨a, { m with memory }, ?_, hleast, hlookup, rfl⟩
    rw [allocateInRange, hfind, hsome]
    simp only [Option.bind_eq_bind, Option.bind_some, Option.map_some, hcall]
    rfl
  · refine .inr ⟨?_, hno⟩
    rw [allocateInRange, hfind, hnone]
    rfl

/-- First fit on a reachable map, as long as no search wraps: the least aligned block of free memory
in the limit is found and reserved, no other address changes, and nothing is found only when there
is no such block. With a hint, the answer is `None` only when nothing fits below the last address
either. -/
theorem reachable_takesLeast (h : Reachable m) (limit hint : Range) (hsize : 0 < size)
    (hk : k < 64) (hfits : m.FitsBelow (2 ^ k + size)) :
    m.TakesLeast limit size (2 ^ k) (m.allocateInRange limit size (2 ^ k)) ∧
      ∃ result m', m.allocateWithHint hint size (2 ^ k) = some (result, m') ∧
        (result = none → m' = m ∧ ∀ a, ¬ m.Candidate ⟨0, 2 ^ 64 - 1⟩ size (2 ^ k) a) := by
  have hm : Canonical (segments m.memory) := h.canonical.1
  refine ⟨allocateInRange_takesLeast hm limit hsize hk hfits, ?_⟩
  rcases allocateInRange_takesLeast hm hint hsize hk hfits with
    ⟨a, m', hcall, _⟩ | ⟨hcall, _⟩
  · refine ⟨some a, m', ?_, fun hnone => by cases hnone⟩
    rw [allocateWithHint, hcall]
    rfl
  · have hall := allocateWithHint_of_none hcall
    rcases allocateInRange_takesLeast hm ⟨0, 2 ^ 64 - 1⟩ hsize hk hfits with
      ⟨a, m', hcall', _⟩ | ⟨hcall', hno⟩
    · exact ⟨some a, m', hall.trans hcall', fun hnone => by cases hnone⟩
    · exact ⟨none, m, hall.trans hcall', fun _ => ⟨rfl, hno⟩⟩

/-- The addresses from 16 to 100, all of them free. -/
private def strip : MemoryMap :=
  ⟨[⟨⟨16, 100⟩, .regular, .free⟩], [⟨⟨16, 100⟩, .regular, .unknown⟩]⟩

private theorem strip_run : (Op.addMemory ⟨16, 100⟩ .regular).run new = some strip := by
  decide +kernel

theorem reachable_takesLeast_strip : ∃ m : MemoryMap, m.memory.length = 1 ∧
    m.TakesLeast ⟨20, 90⟩ 8 (2 ^ 4) (m.allocateInRange ⟨20, 90⟩ 8 (2 ^ 4)) := by
  have hrun : Reachable strip := .single ⟨_, strip_run⟩
  refine ⟨strip, rfl, (reachable_takesLeast hrun ⟨20, 90⟩ ⟨0, 0⟩ (by decide) (by decide) ?_).1⟩
  intro r hr
  obtain rfl := List.mem_singleton.mp hr
  decide

/-! ## Sums that wrap -/

/-- What `align_up` computes: a sum that wraps ends below the alignment. -/
def wrappedUp (x k : Nat) : Nat := if x + 2 ^ k ≤ 2 ^ 64 then roundUp x (2 ^ k) else 0

theorem alignUp_eq {x : Nat} (hx : x < 2 ^ 64) (hk : k < 64) :
    Numeric.alignUp x (2 ^ k) = some (wrappedUp x k) := by
  rw [wrappedUp]
  split
  next h => exact Numeric.alignUp_two_pow h hk
  next h => exact Numeric.alignUp_wrap hx (Nat.lt_of_not_le h) hk

/-- The loop returns the block at the start of the first candidate with room. -/
theorem findFreeMemoryLoop_find? (hk : k < 64) : ∀ candidates : List MemoryRange,
    (∀ c ∈ candidates, c.range.start < 2 ^ 64) →
    findFreeMemoryLoop size (2 ^ k) candidates =
      some ((candidates.find? (hasRoom size (2 ^ k))).map fun c =>
        ⟨⟨wrappedUp c.range.start k, Word64.add (wrappedUp c.range.start k) size⟩, c.memtype,
          c.status⟩) := by
  intro candidates
  induction candidates with
  | nil => exact fun _ => rfl
  | cons c rest ih =>
      intro hwords
      obtain ⟨hc, hrest⟩ := List.forall_mem_cons.mp hwords
      have hstart := alignUp_eq hc hk
      rw [findFreeMemoryLoop, List.find?_cons]
      by_cases htype : c.memtype = .regular
      · rw [if_neg (not_not_intro htype), hstart]
        simp only [Option.bind_eq_bind, Option.bind_some]
        split
        next hover =>
          have hroom : hasRoom size (2 ^ k) c = false := by
            simp [hasRoom, hstart, Nat.not_le_of_gt hover]
          rw [hroom]
          exact ih hrest
        next hover =>
          have hroom : hasRoom size (2 ^ k) c = true := by
            simp [hasRoom, htype, hstart, Nat.le_of_not_lt hover]
          rw [hroom]
          rfl
      · have hroom : hasRoom size (2 ^ k) c = false := by simp [hasRoom, htype]
        rw [if_pos htype, hroom]
        exact ih hrest

/-- What the caller of an allocation that returns `a` counts on. -/
structure Granted (m : MemoryMap) (size a : Nat) (m' : MemoryMap) : Prop where
  le_word : a + size ≤ 2 ^ 64
  wasFree : ∀ x, a ≤ x → x < a + size → lookup m.memory x = some (.regular, .free)
  reserved : ∀ x, a ≤ x → x < a + size → lookup m'.memory x = some (.regular, .reserved)

/-- The first candidate that passes the test does have room. If rounding its start up
wraps to address 0, the block there has to be free, or to meet memory of the other type,
where `unwrap` panics. -/
def Genuine (m : MemoryMap) (limit : Range) (size k : Nat) : Prop :=
  ∀ c, (m.freeMemoryInRange limit).find? (hasRoom size (2 ^ k)) = some c →
    roundUp c.range.start (2 ^ k) + size ≤ c.range.stop ∨
      (2 ^ 64 < c.range.start + 2 ^ k ∧
        ((∀ x < size, lookup m.memory x = some (.regular, .free)) ∨
          ∃ x < size, ∃ status, lookup m.memory x = some (.nonRegular, status)))

theorem word_of_candidate (hm : Canonical (segments m.memory)) (hbelow : m.Below (2 ^ 64 - 1))
    {c : MemoryRange} (hc : c ∈ m.freeMemoryInRange limit) :
    c.range.start < c.range.stop ∧ c.range.stop ≤ 2 ^ 64 - 1 ∧
      ∀ x, c.range.start ≤ x → x < c.range.stop → lookup m.memory x = some (c.memtype, .free) := by
  obtain ⟨r, hr, hstatus, rfl, hlt⟩ := mem_freeMemoryInRange.mp hc
  have hstop := hbelow.stop_le hm hr
  simp only [overlap] at hlt ⊢
  refine ⟨hlt, by omega, fun x hlo hhi => ?_⟩
  rw [← hstatus]
  exact lookup_of_mem hm hr (by omega) (by omega)

theorem allocateInRange_find? (hm : Canonical (segments m.memory))
    (hbelow : m.Below (2 ^ 64 - 1)) (limit : Range) (hk : k < 64) :
    m.findFreeMemoryInRange limit size (2 ^ k) =
      some (((m.freeMemoryInRange limit).find? (hasRoom size (2 ^ k))).map fun c =>
        ⟨⟨wrappedUp c.range.start k, Word64.add (wrappedUp c.range.start k) size⟩, c.memtype,
          c.status⟩) := by
  refine findFreeMemoryLoop_find? hk _ fun c hc => ?_
  obtain ⟨hlt, hstop, _⟩ := word_of_candidate hm hbelow hc
  omega

theorem regular_of_find {size align : Nat} {candidates : List MemoryRange} {c : MemoryRange}
    (h : candidates.find? (hasRoom size align) = some c) : c.memtype = .regular := by
  have hroom := List.find?_some h
  rw [hasRoom, Bool.and_eq_true] at hroom
  exact of_decide_eq_true hroom.1

/-- When the call returns an address. -/
theorem allocateInRange_eq_some_iff {a : Nat} (hm : Canonical (segments m.memory))
    (hbelow : m.Below (2 ^ 64 - 1)) (hk : k < 64) :
    m.allocateInRange limit size (2 ^ k) = some (some a, m') ↔
      ∃ c, (m.freeMemoryInRange limit).find? (hasRoom size (2 ^ k)) = some c ∧
        a = wrappedUp c.range.start k ∧ m'.zones = m.zones ∧
        Rust.addMemory m.memory ⟨⟨a, Word64.add a size⟩, .regular, .reserved⟩ =
          some (.ok (), m'.memory) := by
  have hsearch : m.findFreeMemoryInRange limit size (2 ^ k) = _ :=
    allocateInRange_find? hm hbelow limit hk
  constructor
  · intro h
    rcases allocateInRange_cases h with ⟨_, hnone, _⟩ | ⟨mem, hfound, ha, hzones, hcall⟩
    · cases hnone
    · rw [hsearch, Option.some.injEq, Option.map_eq_some_iff] at hfound
      obtain ⟨c, hc, rfl⟩ := hfound
      obtain rfl := Option.some.inj ha
      rw [regular_of_find hc] at hcall
      exact ⟨c, hc, rfl, hzones, hcall⟩
  · rintro ⟨c, hc, rfl, hzones, hcall⟩
    rw [allocateInRange, hsearch, hc]
    simp only [Option.bind_eq_bind, Option.bind_some, Option.map_some, regular_of_find hc, hcall]
    cases m'
    cases hzones
    rfl

theorem allocateInRange_eq_none (hm : Canonical (segments m.memory))
    (hbelow : m.Below (2 ^ 64 - 1)) (hk : k < 64)
    (hnone : (m.freeMemoryInRange limit).find? (hasRoom size (2 ^ k)) = none) :
    m.allocateInRange limit size (2 ^ k) = some (none, m) := by
  rw [allocateInRange, allocateInRange_find? hm hbelow limit hk, hnone]
  rfl

/-- Past the last multiple of the alignment there is none that fits a word. -/
theorem le_roundUp_of_wrap {x : Nat} (hk : k < 64) (hwrap : 2 ^ 64 < x + 2 ^ k) :
    2 ^ 64 ≤ roundUp x (2 ^ k) := by
  have hge := Segments.le_roundUp (x := x) (Nat.two_pow_pos k)
  obtain ⟨q, hq⟩ := Segments.dvd_roundUp x (2 ^ k)
  have hsplit : 2 ^ 64 = 2 ^ k * 2 ^ (64 - k) := by
    rw [← Nat.pow_add, Nat.add_sub_cancel' hk.le]
  have hlt : 2 ^ k * 2 ^ (64 - k) < 2 ^ k * (q + 1) := by
    rw [← hsplit, Nat.mul_add_one, ← hq]
    omega
  rw [hsplit, hq]
  exact Nat.mul_le_mul_left _ (Nat.le_of_lt_succ (Nat.lt_of_mul_lt_mul_left hlt))

/-- Reserving the block at address 0 fails where it meets memory of the other type. -/
theorem reserve_front_cases {seq : List MemoryRange} (hseq : Canonical (segments seq))
    (hsize : 0 < size) :
    ((∃ x < size, ∃ status, lookup seq x = some (.nonRegular, status)) ∧
        ∃ e seq', Rust.addMemory seq ⟨⟨0, size⟩, .regular, .reserved⟩ = some (.error e, seq')) ∨
      ((∀ x < size, ∀ status, lookup seq x ≠ some (.nonRegular, status)) ∧
        ∃ seq', Rust.addMemory seq ⟨⟨0, size⟩, .regular, .reserved⟩ = some (.ok (), seq') ∧
          ∀ x < size, lookup seq' x = some (.regular, .reserved)) := by
  obtain ⟨result, seq', hcall, hover, _⟩ :=
    addMemory_spec ⟨⟨0, size⟩, .regular, .reserved⟩ hseq hsize
  cases result with
  | error e =>
      obtain ⟨x, memtype, status, hx, hlookup, hconf⟩ := hover.error_iff.mp ⟨e, rfl⟩
      rcases hconf with htype | ⟨_, hstatus⟩
      · obtain rfl : memtype = .nonRegular := by
          cases memtype with
          | regular => exact absurd rfl htype
          | nonRegular => rfl
        exact .inl ⟨⟨x, (Range.contains_iff.mp hx).2, status, hlookup⟩, e, seq', hcall⟩
      · cases hstatus
  | ok u =>
      refine .inr ⟨fun x hx status hlookup => ?_, seq', hcall, fun x hx => ?_⟩
      · have hin : Range.contains ⟨0, size⟩ x = true := Range.contains_iff.mpr ⟨Nat.zero_le x, hx⟩
        obtain ⟨e, he⟩ := hover.error_iff.mpr
          ⟨x, _, _, hin, hlookup, .inl (by intro h; cases h)⟩
        cases he
      · rw [hover.lookup_eq rfl x, if_pos (Range.contains_iff.mpr ⟨Nat.zero_le x, hx⟩)]

section Candidate

variable {c : MemoryRange} (hm : Canonical (segments m.memory)) (hbelow : m.Below (2 ^ 64 - 1))
variable (hk : k < 64) (hfind : (m.freeMemoryInRange limit).find? (hasRoom size (2 ^ k)) = some c)
include hm hbelow hk hfind

/-- What the call returns when `c` is the first candidate that passes the test. -/
theorem allocateInRange_of_find (a : Nat) (m' : MemoryMap) :
    m.allocateInRange limit size (2 ^ k) = some (some a, m') ↔
      a = wrappedUp c.range.start k ∧ m'.zones = m.zones ∧
        Rust.addMemory m.memory ⟨⟨a, Word64.add a size⟩, .regular, .reserved⟩ =
          some (.ok (), m'.memory) := by
  rw [allocateInRange_eq_some_iff hm hbelow hk, hfind]
  refine ⟨?_, fun h => ⟨c, rfl, h⟩⟩
  rintro ⟨c', hc', h⟩
  obtain rfl := Option.some.inj hc'
  exact h

/-- Where rounding up does not wrap, the sum with the size must not wrap either. -/
theorem granted_iff_of_le (hsize : 0 < size) (hword : size < 2 ^ 64)
    (hwrap : c.range.start + 2 ^ k ≤ 2 ^ 64) :
    (∀ a m', m.allocateInRange limit size (2 ^ k) = some (some a, m') → m.Granted size a m') ↔
      roundUp c.range.start (2 ^ k) + size ≤ c.range.stop := by
  have hreturn := allocateInRange_of_find hm hbelow hk hfind
  obtain ⟨hlt, hstop, hfree⟩ := word_of_candidate hm hbelow (List.mem_of_find?_eq_some hfind)
  rw [regular_of_find hfind] at hfree
  have hge := Segments.le_roundUp (x := c.range.start) (Nat.two_pow_pos k)
  have hup := Segments.roundUp_le c.range.start (2 ^ k)
  have hpos := Nat.two_pow_pos k
  have hstart : wrappedUp c.range.start k = roundUp c.range.start (2 ^ k) := if_pos hwrap
  have hroom := List.find?_some hfind
  simp only [hasRoom, alignUp_eq (by omega : c.range.start < 2 ^ 64) hk, hstart,
    Bool.and_eq_true, decide_eq_true_eq] at hroom
  rw [hstart] at hreturn
  by_cases hsum : roundUp c.range.start (2 ^ k) + size < 2 ^ 64
  · -- nothing wraps and the block lies in the candidate
    have hadd := Word64.add_of_lt hsum
    rw [hadd] at hroom
    refine iff_of_true (fun a m' h => ?_) hroom.2
    obtain ⟨rfl, _, hcall⟩ := (hreturn a m').mp h
    rw [hadd] at hcall
    refine ⟨hsum.le, fun x hlo hhi => hfree x (by omega) (by omega), fun x hlo hhi => ?_⟩
    rw [lookup_of_addMemory hm hcall, if_pos (Range.contains_iff.mpr ⟨hlo, hhi⟩)]
  · -- the end of the block wraps, so an inverted range is registered
    refine iff_of_false (fun h => ?_) (by omega)
    have hempty : Range.isEmpty ⟨roundUp c.range.start (2 ^ k),
        Word64.add (roundUp c.range.start (2 ^ k)) size⟩ = true := by
      rw [Range.isEmpty_iff]
      change (roundUp c.range.start (2 ^ k) + size) % 2 ^ 64 ≤ roundUp c.range.start (2 ^ k)
      omega
    have hcall := (hreturn (roundUp c.range.start (2 ^ k)) m).mpr
      ⟨rfl, rfl, addMemory_of_isEmpty hempty⟩
    have hgrant := h _ _ hcall
    have hle := hgrant.le_word
    have hlast := hbelow (2 ^ 64 - 1) (by
      rw [hgrant.wasFree (2 ^ 64 - 1) (by omega) (by omega)]
      exact Option.some_ne_none _)
    omega

/-- Where rounding up wraps, the block is the one at address 0. -/
theorem granted_iff_of_wrap (hsize : 0 < size) (hword : size < 2 ^ 64)
    (hwrap : 2 ^ 64 < c.range.start + 2 ^ k) :
    (∀ a m', m.allocateInRange limit size (2 ^ k) = some (some a, m') → m.Granted size a m') ↔
      (∀ x < size, lookup m.memory x = some (.regular, .free)) ∨
        ∃ x < size, ∃ status, lookup m.memory x = some (.nonRegular, status) := by
  have hreturn := allocateInRange_of_find hm hbelow hk hfind
  have hstart : wrappedUp c.range.start k = 0 := if_neg (Nat.not_le_of_lt hwrap)
  have hadd : Word64.add 0 size = size := by
    rw [Word64.add_of_lt (by omega), Nat.zero_add]
  rw [hstart] at hreturn
  rcases reserve_front_cases hm hsize with
    ⟨hbad, e, seq', herr⟩ | ⟨hnone, memory, hok, hreserved⟩
  · refine iff_of_true (fun a m' h => ?_) (.inr hbad)
    obtain ⟨rfl, _, hcall⟩ := (hreturn a m').mp h
    rw [hadd, herr] at hcall
    cases hcall
  · have hregular : ¬ ∃ x < size, ∃ status, lookup m.memory x = some (.nonRegular, status) := by
      rintro ⟨x, hx, status, hlookup⟩
      exact hnone x hx status hlookup
    rw [or_iff_left hregular]
    constructor
    · intro h x hx
      have hcall := (hreturn 0 { m with memory }).mpr ⟨rfl, rfl, by rw [hadd]; exact hok⟩
      exact (h _ _ hcall).wasFree x (Nat.zero_le x) (by omega)
    · intro h a m' hcall
      obtain ⟨rfl, _, hcall⟩ := (hreturn a m').mp hcall
      rw [hadd, hok] at hcall
      obtain ⟨_, rfl⟩ := Prod.mk.inj (Option.some.inj hcall)
      exact ⟨by omega, fun x _ hx => h x (by omega), fun x _ hx => hreserved x (by omega)⟩

end Candidate

theorem allocateInRange_granted_iff (hm : Canonical (segments m.memory))
    (hbelow : m.Below (2 ^ 64 - 1)) (limit : Range) (hsize : 0 < size) (hword : size < 2 ^ 64)
    (hk : k < 64) :
    (∀ a m', m.allocateInRange limit size (2 ^ k) = some (some a, m') → m.Granted size a m') ↔
      m.Genuine limit size k := by
  cases hfind : (m.freeMemoryInRange limit).find? (hasRoom size (2 ^ k)) with
  | none =>
      refine iff_of_true (fun a m' h => ?_) fun c hc => ?_
      · rw [allocateInRange_eq_none hm hbelow hk hfind] at h
        cases h
      · rw [hfind] at hc
        cases hc
  | some c =>
      have honly : ∀ {P : MemoryRange → Prop},
          (∀ c', (m.freeMemoryInRange limit).find? (hasRoom size (2 ^ k)) = some c' → P c') ↔
            P c := by
        intro P
        rw [hfind]
        exact ⟨fun h => h c rfl, fun h c' hc' => Option.some.inj hc' ▸ h⟩
      rw [Genuine, honly]
      rcases Nat.lt_or_ge (2 ^ 64) (c.range.start + 2 ^ k) with hwrap | hwrap
      · have hstop := (word_of_candidate hm hbelow (List.mem_of_find?_eq_some hfind)).2.1
        have hover := le_roundUp_of_wrap hk hwrap
        rw [granted_iff_of_wrap hm hbelow hk hfind hsize hword hwrap, and_iff_right hwrap,
          or_iff_right (by omega : ¬ roundUp c.range.start (2 ^ k) + size ≤ c.range.stop)]
      · rw [granted_iff_of_le hm hbelow hk hfind hsize hword hwrap,
          or_iff_left fun h => absurd h.1 (Nat.not_lt_of_le hwrap)]

/-! Runs whose arguments are words. -/

def Op.Words : Op → Prop
  | .addMemory range _ | .reserveMemory range _ => range.start < 2 ^ 64 ∧ range.stop < 2 ^ 64
  | .allocate size align => size < 2 ^ 64 ∧ align < 2 ^ 64
  | .allocateWithHint hint size align =>
      (hint.start < 2 ^ 64 ∧ hint.stop < 2 ^ 64) ∧ size < 2 ^ 64 ∧ align < 2 ^ 64

/-- Registering a range adds no address past its end. -/
theorem below_of_addMemory {seq seq' : List MemoryRange} {mem : MemoryRange}
    {result : Except String Unit} {bound : Nat} (hseq : Canonical (segments seq))
    (hbelow : ∀ x, lookup seq x ≠ none → x < bound) (hstop : mem.range.stop ≤ bound)
    (h : Rust.addMemory seq mem = some (result, seq')) :
    ∀ x, lookup seq' x ≠ none → x < bound := by
  rcases addMemory_cases hseq mem with ⟨_, e, hcall⟩ | ⟨_, seq'', hcall, _⟩
  · rw [hcall] at h
    cases h
    exact hbelow
  · obtain ⟨rfl, rfl⟩ := Prod.mk.inj (Option.some.inj (hcall.symm.trans h))
    intro x hx
    rw [lookup_of_addMemory hseq hcall] at hx
    split at hx
    next hin => exact (Range.contains_iff.mp hin).2.trans_le hstop
    next => exact hbelow x hx

theorem allocateInRange_below {align : Nat} {result : Option Nat}
    (hm : Canonical (segments m.memory)) (hbelow : m.Below (2 ^ 64 - 1))
    (h : m.allocateInRange limit size align = some (result, m')) : m'.Below (2 ^ 64 - 1) := by
  rcases allocateInRange_cases h with ⟨_, _, rfl⟩ | ⟨mem, hfound, _, _, hcall⟩
  · exact hbelow
  · refine below_of_addMemory hm hbelow ?_ hcall
    obtain ⟨c, start, _, _, _, rfl⟩ := findFreeMemoryLoop_find _ hfound
    exact Nat.le_pred_of_lt (Word64.add_lt start size)

theorem Op.run_below {op : Op} (hm : Canonical (segments m.memory))
    (hbelow : m.Below (2 ^ 64 - 1)) (hwords : op.Words) (h : op.run m = some m') :
    m'.Below (2 ^ 64 - 1) := by
  cases op with
  | addMemory range memtype =>
      obtain ⟨⟨_, _⟩, hcall, rfl⟩ := Option.map_eq_some_iff.mp h
      obtain ⟨_, _, hfirst, _, _⟩ := addMemoryWith_cases hcall
      exact below_of_addMemory hm hbelow (Nat.le_pred_of_lt hwords.2) hfirst
  | reserveMemory range memtype =>
      obtain ⟨⟨_, _⟩, hcall, rfl⟩ := Option.map_eq_some_iff.mp h
      obtain ⟨_, _, hfirst, _, _⟩ := addMemoryWith_cases hcall
      exact below_of_addMemory hm hbelow (Nat.le_pred_of_lt hwords.2) hfirst
  | allocate size align =>
      obtain ⟨⟨_, _⟩, hcall, rfl⟩ := Option.map_eq_some_iff.mp h
      exact allocateInRange_below hm hbelow hcall
  | allocateWithHint hint size align =>
      obtain ⟨⟨_, _⟩, hcall, rfl⟩ := Option.map_eq_some_iff.mp h
      rcases allocateWithHint_cases hcall with hwithin | ⟨_, hanywhere⟩
      · exact allocateInRange_below hm hbelow hwithin
      · exact allocateInRange_below hm hbelow hanywhere

theorem Reaches.below (h : Reaches (fun op _ => op.Words) m) : m.Below (2 ^ 64 - 1) := by
  induction h with
  | refl => exact fun x hx => absurd rfl hx
  | tail hrun hstep ih =>
      obtain ⟨op, hwords, hop⟩ := hstep
      exact Op.run_below (Reaches.reachable hrun).canonical.1 ih hwords hop

/-- An allocation with a hint is one within the hint, or without limits. -/
theorem allocateWithHint_granted_iff (hm : Canonical (segments m.memory))
    (hbelow : m.Below (2 ^ 64 - 1)) (hint : Range) (hsize : 0 < size) (hword : size < 2 ^ 64)
    (hk : k < 64) :
    (∀ a m', m.allocateWithHint hint size (2 ^ k) = some (some a, m') → m.Granted size a m') ↔
      m.Genuine hint size k ∧
        ((m.freeMemoryInRange hint).find? (hasRoom size (2 ^ k)) = none →
          m.Genuine ⟨0, 2 ^ 64 - 1⟩ size k) := by
  rw [← allocateInRange_granted_iff hm hbelow hint hsize hword hk,
    ← allocateInRange_granted_iff hm hbelow ⟨0, 2 ^ 64 - 1⟩ hsize hword hk]
  cases hfind : (m.freeMemoryInRange hint).find? (hasRoom size (2 ^ k)) with
  | none =>
      have hnone := allocateInRange_eq_none hm hbelow hk hfind
      rw [allocateWithHint_of_none hnone, hnone]
      constructor
      · intro h
        refine ⟨fun a m' hcall => ?_, fun _ => h⟩
        cases hcall
      · exact fun h => h.2 rfl
  | some c =>
      have hfirst : ∀ a m', m.allocateWithHint hint size (2 ^ k) = some (some a, m') ↔
          m.allocateInRange hint size (2 ^ k) = some (some a, m') := by
        intro a m'
        rw [allocateWithHint]
        rcases hcall : m.allocateInRange hint size (2 ^ k) with _ | ⟨_ | b, m₁⟩
        · rfl
        · rcases allocateInRange_cases hcall with ⟨hsearch, _, _⟩ | ⟨_, _, hsome, _⟩
          · rw [allocateInRange_find? hm hbelow hint hk, hfind] at hsearch
            cases hsearch
          · cases hsome
        · rfl
      simp only [hfirst]
      refine ⟨fun h => ⟨h, fun hnone => ?_⟩, fun h => h.1⟩
      cases hnone

/-- When the address that an allocation from a reachable map returns can be relied on: the block
ends in the address space, was free and is reserved afterwards. That is so exactly if the first
candidate that passes the test of the search, in which sums wrap, is one that has room; with a hint
the search over everything comes second. -/
theorem reaches_granted_iff (h : Reaches (fun op _ => op.Words) m) (hint : Range)
    (hsize : 0 < size) (hword : size < 2 ^ 64) (hk : k < 64) :
    ((∀ a m', m.allocate size (2 ^ k) = some (some a, m') → m.Granted size a m') ↔
        m.Genuine ⟨0, 2 ^ 64 - 1⟩ size k) ∧
      ((∀ a m', m.allocateWithHint hint size (2 ^ k) = some (some a, m') → m.Granted size a m') ↔
        m.Genuine hint size k ∧
          ((m.freeMemoryInRange hint).find? (hasRoom size (2 ^ k)) = none →
            m.Genuine ⟨0, 2 ^ 64 - 1⟩ size k)) :=
  have hm := h.reachable.canonical.1
  ⟨allocateInRange_granted_iff hm h.below ⟨0, 2 ^ 64 - 1⟩ hsize hword hk,
    allocateWithHint_granted_iff hm h.below hint hsize hword hk⟩

private theorem strip_reaches : Reaches (fun op _ => op.Words) strip :=
  .single ⟨.addMemory ⟨16, 100⟩ .regular, ⟨by decide, by decide⟩, strip_run⟩

theorem reaches_granted_iff_strip : ∃ m : MemoryMap, m.memory.length = 1 ∧
    ((∀ a m', m.allocate 8 (2 ^ 4) = some (some a, m') → m.Granted 8 a m') ↔
      m.Genuine ⟨0, 2 ^ 64 - 1⟩ 8 4) :=
  ⟨strip, rfl, (reaches_granted_iff strip_reaches ⟨0, 0⟩ (by decide) (by decide) (by decide)).1⟩

/-- A size that wraps around the end of the address space fits everywhere. -/
theorem reaches_granted_fails : ¬ ∀ m : MemoryMap, Reaches (fun op _ => op.Words) m →
    ∀ size k a m', 0 < size → size < 2 ^ 64 → k < 64 →
      m.allocate size (2 ^ k) = some (some a, m') → m.Granted size a m' := by
  intro hclaim
  have hcall : strip.allocate (2 ^ 64 - 16) (2 ^ 4) = some (some 16, strip) := by decide +kernel
  have hgrant := hclaim strip strip_reaches _ _ _ _ (by decide) (by decide) (by decide) hcall
  have hfree := hgrant.wasFree 200 (by decide) (by decide)
  exact absurd hfree (by decide)

end MemoryMap

end Aarch64.Rust
