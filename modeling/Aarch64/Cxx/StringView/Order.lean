import Aarch64.Cxx.StringView
import Mathlib.Data.List.Lex
import Mathlib.Data.Prod.Lex

/-!
# The order of string views

`Compare` leaves the comparison of the bytes to `strncmp`, which stops where both strings
have a zero byte. So it sees of a string the bytes up to the first zero, and the length.
Strings of which it sees the same are equal, unless they differ only behind such a zero.
-/

namespace Aarch64.Cxx.StringView

/-- The bytes up to the first zero, which is the last of them. -/
def cut : List UInt8 → List Nat
  | [] => []
  | a :: l => if a = 0 then [0] else a.toNat :: cut l

/-- What `Compare` sees of a string. -/
def key (s : List UInt8) : List Nat ×ₗ Nat := toLex (cut s, s.length)

/-- Two strings of one length that differ only behind a zero byte at the same place. -/
def Blind (x y : List UInt8) : Prop :=
  ∃ s u v, x = s ++ 0 :: u ∧ y = s ++ 0 :: v ∧ u.length = v.length ∧ u ≠ v

variable {a b : UInt8} {l r : List UInt8}

theorem byte_trichotomy (a b : UInt8) : a < b ∨ a = b ∨ b < a := by
  by_cases h : a = b
  · exact Or.inr (Or.inl h)
  · exact (UInt8.lt_or_lt_of_ne h).imp_right Or.inr

/-! ## Keys -/

@[simp] theorem cut_cons_zero (l : List UInt8) : cut (0 :: l) = [0] := rfl

theorem cut_cons (ha : a ≠ 0) (l : List UInt8) : cut (a :: l) = a.toNat :: cut l := if_neg ha

/-- The first number of the cut is the first byte. -/
theorem exists_cut_cons (a : UInt8) (l : List UInt8) : ∃ t, cut (a :: l) = a.toNat :: t := by
  by_cases ha : a = 0
  · subst ha
    exact ⟨[], rfl⟩
  · exact ⟨cut l, cut_cons ha l⟩

theorem key_lt_of_lt (h : a < b) : key (a :: l) < key (b :: r) := by
  obtain ⟨s, hs⟩ := exists_cut_cons a l
  obtain ⟨t, ht⟩ := exists_cut_cons b r
  refine Prod.Lex.toLex_lt_toLex.mpr (Or.inl ?_)
  rw [hs, ht]
  exact List.cons_lt_cons_iff.mpr (Or.inl (UInt8.lt_iff_toNat_lt.mp h))

theorem key_nil_lt (b : UInt8) (r : List UInt8) : key [] < key (b :: r) := by
  obtain ⟨t, ht⟩ := exists_cut_cons b r
  refine Prod.Lex.toLex_lt_toLex.mpr (Or.inl ?_)
  rw [ht]
  exact List.nil_lt_cons _ _

theorem key_zero_lt_iff : key (0 :: l) < key (0 :: r) ↔ l.length < r.length := by
  rw [key, key, Prod.Lex.toLex_lt_toLex]
  simp [cut_cons_zero]

theorem key_zero_eq_iff : key (0 :: l) = key (0 :: r) ↔ l.length = r.length := by
  simp [key, cut_cons_zero]

theorem key_cons_lt_iff (ha : a ≠ 0) : key (a :: l) < key (a :: r) ↔ key l < key r := by
  rw [key, key, key, key, Prod.Lex.toLex_lt_toLex, Prod.Lex.toLex_lt_toLex]
  simp [cut_cons ha]

theorem key_cons_eq_iff (ha : a ≠ 0) : key (a :: l) = key (a :: r) ↔ key l = key r := by
  simp [key, cut_cons ha]

theorem Blind.cons (a : UInt8) (h : Blind l r) : Blind (a :: l) (a :: r) := by
  obtain ⟨s, u, v, rfl, rfl, hlen, hne⟩ := h
  exact ⟨a :: s, u, v, rfl, rfl, hlen, hne⟩

theorem Blind.ne (h : Blind l r) : l ≠ r := by
  obtain ⟨s, u, v, rfl, rfl, _, hne⟩ := h
  intro heq
  exact hne (List.cons.inj (List.append_cancel_left heq)).2

theorem Blind.key_eq {x y : List UInt8} (h : Blind x y) : key x = key y := by
  obtain ⟨s, u, v, rfl, rfl, hlen, _⟩ := h
  induction s with
  | nil => exact key_zero_eq_iff.mpr hlen
  | cons a s ih =>
      by_cases ha : a = 0
      · subst ha
        refine key_zero_eq_iff.mpr ?_
        show (s ++ 0 :: u).length = (s ++ 0 :: v).length
        rw [List.length_append, List.length_append, List.length_cons, List.length_cons, hlen]
      · exact (key_cons_eq_iff ha).mpr ih

/-- What `Compare` does not tell apart. -/
theorem key_eq_iff : ∀ {l r : List UInt8}, key l = key r ↔ l = r ∨ Blind l r := by
  intro l r
  constructor
  · intro h
    induction l generalizing r with
    | nil =>
        cases r with
        | nil => exact Or.inl rfl
        | cons b r => exact absurd h (key_nil_lt b r).ne
    | cons a l ih =>
        cases r with
        | nil => exact absurd h (key_nil_lt a l).ne'
        | cons b r =>
            have hab : a = b := by
              rcases byte_trichotomy a b with hlt | heq | hlt
              · exact absurd h (key_lt_of_lt hlt).ne
              · exact heq
              · exact absurd h (key_lt_of_lt hlt).ne'
            subst hab
            by_cases ha : a = 0
            · subst ha
              by_cases heq : l = r
              · exact Or.inl (congrArg _ heq)
              · exact Or.inr ⟨[], l, r, rfl, rfl, key_zero_eq_iff.mp h, heq⟩
            · exact (ih ((key_cons_eq_iff ha).mp h)).imp (congrArg _) (Blind.cons a)
  · rintro (rfl | h)
    · rfl
    · exact h.key_eq

/-! ## The comparison -/

theorem strncmp_cons (a b : UInt8) (l r : List UInt8) (n : Nat) :
    strncmp (a :: l) (b :: r) (n + 1) =
      if a < b then -1 else if b < a then 1 else if a = 0 then 0 else strncmp l r n := by
  rw [strncmp]
  rcases byte_trichotomy a b with hlt | rfl | hlt
  · have hne : a ≠ b := UInt8.ne_of_lt hlt
    rw [if_neg fun h => hne h.2.1, if_pos hlt, if_pos hlt]
  · have hirrefl : ¬ a < a := UInt8.lt_irrefl a
    rw [if_neg hirrefl, if_neg hirrefl, if_neg hirrefl, if_neg hirrefl]
    by_cases ha : a = 0
    · rw [if_neg fun h => h.2.2 ha, if_pos ha]
    · rw [if_neg ha]
      -- the loop stops before the last byte, which is compared behind it
      by_cases hn : n = 0
      · subst hn
        rw [if_neg fun h => absurd h.1 (by decide), strncmp]
      · rw [if_pos ⟨by omega, rfl, ha⟩]
  · have hne : a ≠ b := (UInt8.ne_of_lt hlt).symm
    have hge : ¬ a < b := UInt8.lt_asymm hlt
    rw [if_neg fun h => hne h.2.1, if_neg hge, if_pos hlt, if_neg hge, if_pos hlt]

theorem compare_cons (a b : UInt8) (l r : List UInt8) :
    compare (a :: l) (b :: r) =
      if a < b then -1 else if b < a then 1
      else if a = 0 then (if l.length ≠ r.length then if l.length < r.length then -1 else 1 else 0)
      else compare l r := by
  rw [compare, compare, List.length_cons, List.length_cons, Nat.add_min_add_right, strncmp_cons]
  simp only [ne_eq, Nat.add_right_cancel_iff, Nat.add_lt_add_iff_right]
  split
  next => rfl
  next =>
    split
    next => rfl
    next =>
      split
      next => rfl
      next => rfl

/-- `Compare` orders strings by their keys. -/
theorem compare_spec (l r : List UInt8) :
    (compare l r < 0 ↔ key l < key r) ∧ (compare l r = 0 ↔ key l = key r) := by
  induction l generalizing r with
  | nil =>
      cases r with
      | nil => exact ⟨iff_of_false (by decide) (lt_irrefl _), iff_of_true rfl rfl⟩
      | cons b r =>
          have hcompare : compare [] (b :: r) = -1 := by
            simp [compare, strncmp]
          rw [hcompare]
          exact ⟨iff_of_true (by decide) (key_nil_lt b r),
            iff_of_false (by decide) (key_nil_lt b r).ne⟩
  | cons a l ih =>
      cases r with
      | nil =>
          have hcompare : compare (a :: l) [] = 1 := by
            simp [compare, strncmp]
          rw [hcompare]
          exact ⟨iff_of_false (by decide) (key_nil_lt a l).asymm,
            iff_of_false (by decide) (key_nil_lt a l).ne'⟩
      | cons b r =>
          rw [compare_cons]
          rcases byte_trichotomy a b with hlt | rfl | hlt
          · rw [if_pos hlt]
            exact ⟨iff_of_true (by decide) (key_lt_of_lt hlt),
              iff_of_false (by decide) (key_lt_of_lt hlt).ne⟩
          · rw [if_neg (UInt8.lt_irrefl a), if_neg (UInt8.lt_irrefl a)]
            by_cases ha : a = 0
            · subst ha
              rw [if_pos rfl, key_zero_lt_iff, key_zero_eq_iff]
              rcases Nat.lt_trichotomy l.length r.length with hlen | hlen | hlen
              · rw [if_pos hlen.ne, if_pos hlen]
                exact ⟨iff_of_true (by decide) hlen, iff_of_false (by decide) hlen.ne⟩
              · rw [if_neg (not_not_intro hlen)]
                exact ⟨iff_of_false (by decide) (by omega), iff_of_true rfl hlen⟩
              · rw [if_pos hlen.ne', if_neg hlen.asymm]
                exact ⟨iff_of_false (by decide) hlen.asymm, iff_of_false (by decide) hlen.ne'⟩
            · rw [if_neg ha, key_cons_lt_iff ha, key_cons_eq_iff ha]
              exact ih r
          · rw [if_neg (UInt8.lt_asymm hlt), if_pos hlt]
            exact ⟨iff_of_false (by decide) (key_lt_of_lt hlt).asymm,
              iff_of_false (by decide) (key_lt_of_lt hlt).ne'⟩

/-- `operator==` misses the differences behind a common zero byte. -/
theorem eq_iff_or_blind : eq l r = true ↔ l = r ∨ Blind l r := by
  rw [eq, decide_eq_true_iff, (compare_spec l r).2, key_eq_iff]

end Aarch64.Cxx.StringView
