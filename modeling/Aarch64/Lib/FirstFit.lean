import Aarch64.Lib.Segments
import Mathlib.Data.Nat.Find
import Mathlib.Order.Bounds.Basic

/-!
# First fit

The search of an allocator through a sorted list of segments: the first one that has
room for an aligned block gives the block its lowest address. What is found is the
least block inside a single segment; when neighbours with one label have been merged
it is the least block of positions with that label.
-/

namespace Segments

/-! ## Rounding up -/

/-- The least multiple of `align` that is not below `x`. -/
def roundUp (x align : Nat) : Nat := (x + align - 1) / align * align

section Rounding

variable {x y align : Nat}

theorem dvd_roundUp (x align : Nat) : align ∣ roundUp x align := Nat.dvd_mul_left _ _

theorem le_roundUp (hpos : 0 < align) : x ≤ roundUp x align := by
  have hlt := Nat.lt_div_mul_add (a := x + align - 1) hpos
  unfold roundUp
  omega

theorem roundUp_le (x align : Nat) : roundUp x align ≤ x + align - 1 := Nat.div_mul_le_self _ _

theorem roundUp_le_of_dvd (hdvd : align ∣ y) (hle : x ≤ y) : roundUp x align ≤ y := by
  obtain ⟨q, rfl⟩ := hdvd
  rcases Nat.eq_zero_or_pos align with rfl | hpos
  · simp [roundUp]
  · have hdiv : (x + align - 1) / align ≤ q := by
      apply Nat.le_of_lt_succ
      rw [Nat.div_lt_iff_lt_mul hpos, Nat.succ_mul, Nat.mul_comm q]
      omega
    exact (Nat.mul_le_mul_right align hdiv).trans (Nat.mul_comm q align).le

end Rounding

/-! ## Blocks -/

variable {L : Type*} {ss : List (Segment Nat L)} {l : L} {lo hi size align a : Nat}

/-- An aligned block at `a` in the window, of positions with the label `l`. -/
structure Room (ss : List (Segment Nat L)) (l : L) (lo hi size align a : Nat) : Prop where
  aligned : align ∣ a
  lo_le : lo ≤ a
  le_hi : a + size ≤ hi
  labelled : ∀ x, a ≤ x → x < a + size → labelAt ss x = some l

/-- Such a block inside one segment. -/
structure RoomIn (ss : List (Segment Nat L)) (l : L) (lo hi size align a : Nat) : Prop where
  aligned : align ∣ a
  lo_le : lo ≤ a
  le_hi : a + size ≤ hi
  inside : ∃ s ∈ ss, s.label = l ∧ s.lo ≤ a ∧ a + size ≤ s.hi

theorem RoomIn.room (h : RoomIn ss l lo hi size align a) (hss : Ordered ss) :
    Room ss l lo hi size align a where
  aligned := h.aligned
  lo_le := h.lo_le
  le_hi := h.le_hi
  labelled x hlo hhi := by
    obtain ⟨s, hs, rfl, hslo, hshi⟩ := h.inside
    exact hss.labelAt_of_mem hs (hslo.trans hlo) (hhi.trans_le hshi)

/-- After merging, positions with one label that follow each other lie in one segment. -/
theorem Room.roomIn (h : Room ss l lo hi size align a) (hss : Canonical ss) (hsize : 0 < size) :
    RoomIn ss l lo hi size align a where
  aligned := h.aligned
  lo_le := h.lo_le
  le_hi := h.le_hi
  inside := by
    obtain ⟨s, hs, hlo, hhi, hlabel⟩ :=
      hss.exists_segment (Nat.lt_add_of_pos_right hsize) h.labelled
    exact ⟨s, hs, hlabel, hlo, hhi⟩

theorem roomIn_iff_room (hss : Canonical ss) (hsize : 0 < size) :
    RoomIn ss l lo hi size align a ↔ Room ss l lo hi size align a :=
  ⟨fun h => h.room hss.ordered, fun h => h.roomIn hss hsize⟩

/-- Where a block fits, there is a least one. -/
theorem Room.exists_isLeast (h : Room ss l lo hi size align a) :
    ∃ b, IsLeast {b | Room ss l lo hi size align b} b := by
  classical
  have hsome : ∃ b, Room ss l lo hi size align b := ⟨a, h⟩
  exact ⟨Nat.find hsome, Nat.find_spec hsome, fun b hb => Nat.find_min' hsome hb⟩

/-! ## The search -/

section Search

variable [DecidableEq L]

/-- The lowest aligned position of the part of `s` in the window, if a block fits there. -/
def fit (l : L) (lo hi size align : Nat) (s : Segment Nat L) : Option Nat :=
  if s.label = l ∧ roundUp (max s.lo lo) align + size ≤ min s.hi hi then
    some (roundUp (max s.lo lo) align)
  else none

def firstFit (l : L) (lo hi size align : Nat) (ss : List (Segment Nat L)) : Option Nat :=
  ss.findSome? (fit l lo hi size align)

/-- What fits into a segment fits at the lowest aligned position of it. -/
theorem fit_of_inside {s : Segment Nat L} (hdvd : align ∣ a) (hlo : lo ≤ a) (hhi : a + size ≤ hi)
    (hlabel : s.label = l) (hslo : s.lo ≤ a) (hshi : a + size ≤ s.hi) :
    ∃ b ≤ a, fit l lo hi size align s = some b := by
  have hle : roundUp (max s.lo lo) align ≤ a := roundUp_le_of_dvd hdvd (max_le hslo hlo)
  refine ⟨_, hle, if_pos ⟨hlabel, le_min ?_ ?_⟩⟩
  · exact (Nat.add_le_add_right hle size).trans hshi
  · exact (Nat.add_le_add_right hle size).trans hhi

theorem roomIn_of_fit {s : Segment Nat L} (hpos : 0 < align) (hs : s ∈ ss)
    (h : fit l lo hi size align s = some a) :
    RoomIn ss l lo hi size align a ∧ s.lo ≤ a ∧ a + size ≤ s.hi := by
  rw [fit] at h
  split at h
  next hfit =>
    obtain rfl := Option.some.inj h
    obtain ⟨hlabel, hroom⟩ := hfit
    have hge := le_roundUp (x := max s.lo lo) hpos
    have hlo := (le_max_left s.lo lo).trans hge
    have hhi := hroom.trans (min_le_left _ _)
    exact ⟨⟨dvd_roundUp _ _, (le_max_right _ _).trans hge, hroom.trans (min_le_right _ _),
      s, hs, hlabel, hlo, hhi⟩, hlo, hhi⟩
  next => cases h

theorem firstFit_eq_none_iff (hpos : 0 < align) :
    firstFit l lo hi size align ss = none ↔ ∀ a, ¬ RoomIn ss l lo hi size align a := by
  rw [firstFit, List.findSome?_eq_none_iff]
  constructor
  · intro hnone a h
    obtain ⟨s, hs, hlabel, hslo, hshi⟩ := h.inside
    obtain ⟨b, _, hfit⟩ := fit_of_inside h.aligned h.lo_le h.le_hi hlabel hslo hshi
    rw [hnone s hs] at hfit
    cases hfit
  · intro hnone s hs
    cases hfit : fit l lo hi size align s with
    | none => rfl
    | some a => exact absurd (roomIn_of_fit hpos hs hfit).1 (hnone a)

/-- The search gives the least block inside one segment: the segments behind the one
that it stops at lie behind the block. -/
theorem isLeast_firstFit (hpos : 0 < align) (hss : Ordered ss)
    (h : firstFit l lo hi size align ss = some a) :
    IsLeast {b | RoomIn ss l lo hi size align b} a := by
  obtain ⟨pre, s, post, rfl, hfit, hnone⟩ := List.findSome?_eq_some_iff.mp h
  have hmem : s ∈ pre ++ s :: post := List.mem_append_right _ List.mem_cons_self
  obtain ⟨hroom, _, hshi⟩ := roomIn_of_fit hpos hmem hfit
  refine ⟨hroom, fun b hb => ?_⟩
  obtain ⟨t, ht, hlabel, htlo, hthi⟩ := hb.inside
  obtain ⟨c, hcb, hfit'⟩ := fit_of_inside hb.aligned hb.lo_le hb.le_hi hlabel htlo hthi
  rcases List.mem_append.mp ht with ht | ht
  · rw [hnone t ht] at hfit'
    cases hfit'
  · rcases List.mem_cons.mp ht with rfl | ht
    · rw [hfit] at hfit'
      exact Option.some.inj hfit' ▸ hcb
    · have hafter := (List.pairwise_cons.mp (List.pairwise_append.mp hss.pairwise).2.1).1 t ht
      omega

variable (l lo hi) in
/-- After merging, it gives the least block of positions with the label. -/
theorem firstFit_spec (hpos : 0 < align) (hsize : 0 < size) (hss : Canonical ss) :
    (∃ a, firstFit l lo hi size align ss = some a ∧
        IsLeast {b | Room ss l lo hi size align b} a) ∨
      (firstFit l lo hi size align ss = none ∧ ∀ a, ¬ Room ss l lo hi size align a) := by
  simp only [← roomIn_iff_room hss hsize]
  cases h : firstFit l lo hi size align ss with
  | none => exact .inr ⟨rfl, (firstFit_eq_none_iff hpos).mp h⟩
  | some a => exact .inl ⟨a, rfl, isLeast_firstFit hpos hss.ordered h⟩

end Search

end Segments
