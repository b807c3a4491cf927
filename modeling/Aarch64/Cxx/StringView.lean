import Aarch64.Lib.Bytes
import Mathlib.Data.List.Basic

/-!
# String views

`common/string_view.cc` and `strncmp` of `c/string.c`. A view is the list of the bytes
that it covers; characters are unsigned on this target. Strings without a zero byte
compare as their bytes do.
-/

namespace Aarch64.Cxx

/-- The bytes up to the first that differs, that is zero or that is the last. -/
def strncmp : List UInt8 → List UInt8 → Nat → Int
  | _, _, 0 => 0
  | a :: l, b :: r, size + 1 =>
      if size + 1 > 1 ∧ a = b ∧ a ≠ 0 then strncmp l r size
      else if a < b then -1
      else if a > b then 1
      else 0
  | _, _, _ + 1 => 0

namespace StringView

def compare (l r : List UInt8) : Int :=
  let rc := strncmp l r (min l.length r.length)
  if rc ≠ 0 then rc
  else if l.length ≠ r.length then if l.length < r.length then -1 else 1
  else 0

/-- `operator==` -/
def eq (l r : List UInt8) : Bool := compare l r = 0

def substr (s : List UInt8) («from» count : Nat) : List UInt8 :=
  let «to» := «from» + count
  let «from» := if «from» > s.length then s.length else «from»
  let «to» := if «to» > s.length then s.length else «to»
  (s.drop «from»).take («to» - «from»)

def startsWith (s start : List UInt8) : Bool := eq (substr s 0 start.length) start

/-! ## Strings without a zero byte -/

theorem strncmp_eq_zero_iff {l r : List UInt8} (hl : 0 ∉ l) (hlen : l.length = r.length) :
    strncmp l r l.length = 0 ↔ l = r := by
  induction l generalizing r with
  | nil =>
      rw [List.length_eq_zero_iff.mp hlen.symm]
      exact iff_of_true rfl rfl
  | cons a l ih =>
      cases r with
      | nil => cases hlen
      | cons b r =>
          have hlen' : l.length = r.length := Nat.succ.inj hlen
          have ha : a ≠ 0 := fun h => hl (h ▸ List.mem_cons_self)
          rw [List.length_cons, strncmp, List.cons.injEq]
          by_cases hab : a = b
          · subst hab
            have ih := ih (fun h => hl (List.mem_cons_of_mem a h)) hlen'
            by_cases hnil : l.length = 0
            · have hl : l = [] := List.length_eq_zero_iff.mp hnil
              have hr : r = [] := List.length_eq_zero_iff.mp (hlen'.symm.trans hnil)
              subst hl hr
              simp
            · rw [if_pos ⟨by omega, rfl, ha⟩, ih]
              simp
          · rw [if_neg fun h => hab h.2.1]
            simp only [hab, false_and, iff_false]
            rcases UInt8.lt_or_lt_of_ne hab with hlt | hlt
            · rw [if_pos hlt]
              decide
            · rw [if_neg (UInt8.not_lt.mpr (UInt8.le_of_lt hlt)), if_pos hlt]
              decide

theorem eq_iff {l r : List UInt8} (hl : 0 ∉ l) : eq l r = true ↔ l = r := by
  rw [eq, decide_eq_true_iff, compare]
  by_cases hlen : l.length = r.length
  · have hmin : min l.length r.length = l.length := by rw [hlen, Nat.min_self]
    have hiff := strncmp_eq_zero_iff hl hlen
    rw [hmin, if_neg (not_not.mpr hlen)]
    by_cases hzero : strncmp l r l.length = 0
    · rw [if_neg (not_not.mpr hzero)]
      exact iff_of_true rfl (hiff.mp hzero)
    · rw [if_pos hzero]
      exact iff_of_false hzero fun h => hzero (hiff.mpr h)
  · refine iff_of_false ?_ fun h => hlen (congrArg List.length h)
    by_cases hzero : strncmp l r (min l.length r.length) = 0
    · rw [if_neg (not_not.mpr hzero), if_pos hlen]
      split
      next => decide
      next => decide
    · rwa [if_pos hzero]

@[simp] theorem substr_zero (s : List UInt8) (count : Nat) : substr s 0 count = s.take count := by
  rw [substr, Nat.zero_add, if_neg (Nat.not_lt_zero _), List.drop_zero, Nat.sub_zero]
  split
  next h => rw [List.take_of_length_le (Nat.le_refl _), List.take_of_length_le (Nat.le_of_lt h)]
  next => rfl

/-- The comparison of the first bytes is the test for a prefix. -/
theorem startsWith_iff {s start : List UInt8} (hs : 0 ∉ s) :
    startsWith s start = true ↔ start <+: s := by
  rw [startsWith, substr_zero, eq_iff fun h => hs (List.mem_of_mem_take h),
    List.prefix_iff_eq_take]
  exact eq_comm

end StringView

end Aarch64.Cxx
