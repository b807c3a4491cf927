import Mathlib.Data.Nat.Bitwise
import Mathlib.Tactic.Ring

/-!
# 64-bit machine words as natural numbers

Words are natural numbers below `2 ^ 64` and the operations reduce modulo
`2 ^ 64`. Programs that stay in range see ordinary arithmetic: each operation has
a lemma that drops the reduction under the bound that makes it exact. The masks
of this file are those of power-of-two alignment, so a conjunction with a mask is
a division or a remainder.
-/

namespace Word64

/-- Addition modulo `2 ^ 64`. -/
def add (x y : Nat) : Nat := (x + y) % 2 ^ 64

/-- Subtraction modulo `2 ^ 64`, for a subtrahend in range. -/
def sub (x y : Nat) : Nat := (x + (2 ^ 64 - y)) % 2 ^ 64

def mul (x y : Nat) : Nat := x * y % 2 ^ 64

/-- Shift to the left, dropping the bits that leave the word. -/
def shl (x n : Nat) : Nat := x <<< n % 2 ^ 64

/-- Bitwise complement. -/
def compl (x : Nat) : Nat := 2 ^ 64 - 1 - x

@[simp] theorem add_of_lt {x y : Nat} (h : x + y < 2 ^ 64) : add x y = x + y := Nat.mod_eq_of_lt h

theorem add_lt (x y : Nat) : add x y < 2 ^ 64 := Nat.mod_lt _ (Nat.two_pow_pos _)

theorem add_le (x y : Nat) : add x y ≤ x + y := Nat.mod_le _ _

@[simp] theorem sub_of_le {x y : Nat} (hle : y ≤ x) (hx : x < 2 ^ 64) : sub x y = x - y := by
  unfold sub
  omega

/-- A difference that wraps. -/
theorem sub_of_lt {x y : Nat} (hlt : x < y) (hy : y ≤ 2 ^ 64) : sub x y = 2 ^ 64 + x - y := by
  unfold sub
  omega

/-- The sum that rounding up to a multiple of `y` forms. -/
theorem add_sub_one_of_le {x y : Nat} (hpos : 0 < y) (h : x + y ≤ 2 ^ 64) :
    sub (add x y) 1 = x + y - 1 := by
  unfold sub add
  omega

theorem add_sub_one_of_gt {x y : Nat} (hx : x < 2 ^ 64) (hy : y < 2 ^ 64) (h : 2 ^ 64 < x + y) :
    sub (add x y) 1 = x + y - 1 - 2 ^ 64 := by
  unfold sub add
  omega

/-- Counting up in steps of `k`. -/
theorem add_mul_mod (k n : Nat) : add (k * n % 2 ^ 64) k = k * (n + 1) % 2 ^ 64 := by
  rw [add, Nat.mul_succ, Nat.mod_add_mod]

/-- Counting down in steps of `k`. -/
theorem sub_mul_mod {k : Nat} (hk : k ≤ 2 ^ 64) (n : Nat) :
    sub (k * (n + 1) % 2 ^ 64) k = k * n % 2 ^ 64 := by
  have hsum : k * n + k + (2 ^ 64 - k) = k * n + 2 ^ 64 := by omega
  rw [sub, Nat.mul_succ, Nat.mod_add_mod, hsum, Nat.add_mod_right]

@[simp] theorem mul_of_lt {x y : Nat} (h : x * y < 2 ^ 64) : mul x y = x * y := Nat.mod_eq_of_lt h

@[simp] theorem shl_of_lt {x n : Nat} (h : x * 2 ^ n < 2 ^ 64) : shl x n = x * 2 ^ n := by
  rw [shl, Nat.shiftLeft_eq, Nat.mod_eq_of_lt h]

/-! ## Masks -/

/-- In a number below `2 ^ n`, the mask of the bits from `m` to `n` clears the low
bits. -/
theorem and_mask {x m n : Nat} (hx : x < 2 ^ n) (hm : m ≤ n) :
    x &&& (2 ^ n - 2 ^ m) = x / 2 ^ m * 2 ^ m := by
  have hmask : 2 ^ n - 2 ^ m = 2 ^ n - (2 ^ m - 1 + 1) := by
    have := Nat.two_pow_pos m
    omega
  have hlt : 2 ^ m - 1 < 2 ^ n := by
    have := Nat.pow_le_pow_right (n := 2) (by decide) hm
    have := Nat.two_pow_pos m
    omega
  apply Nat.eq_of_testBit_eq
  intro i
  rw [Nat.testBit_and, hmask, Nat.testBit_two_pow_sub_succ hlt, Nat.testBit_two_pow_sub_one,
    Nat.testBit_mul_two_pow, Nat.testBit_div_two_pow]
  by_cases him : i < m
  · simp [him, Nat.not_le_of_lt him]
  · have hle : m ≤ i := Nat.le_of_not_lt him
    rw [Nat.sub_add_cancel hle]
    by_cases hi : i < n
    · simp [him, hi, hle]
    · have hbit : x.testBit i = false := Nat.testBit_lt_two_pow
        (hx.trans_le (Nat.pow_le_pow_right (by decide) (Nat.le_of_not_lt hi)))
      simp [hbit]

theorem and_mask_eq_zero {x m n : Nat} (hx : x < 2 ^ n) (hm : m ≤ n) :
    x &&& (2 ^ n - 2 ^ m) = 0 ↔ x < 2 ^ m := by
  have hpos := Nat.two_pow_pos m
  rw [and_mask hx hm, Nat.mul_eq_zero, Nat.div_eq_zero_iff]
  omega

theorem and_high_mask {x m : Nat} (hx : x < 2 ^ 64) (hm : m ≤ 64) :
    x &&& (2 ^ 64 - 2 ^ m) = x / 2 ^ m * 2 ^ m := and_mask hx hm

theorem and_high_mask_eq_zero {x m : Nat} (hx : x < 2 ^ 64) (hm : m ≤ 64) :
    x &&& (2 ^ 64 - 2 ^ m) = 0 ↔ x < 2 ^ m := and_mask_eq_zero hx hm

/-- The low mask vanishes exactly on the multiples. -/
@[simp] theorem and_low_mask_eq_zero {x m : Nat} : x &&& (2 ^ m - 1) = 0 ↔ 2 ^ m ∣ x := by
  rw [Nat.and_two_pow_sub_one_eq_mod, Nat.dvd_iff_mod_eq_zero]

@[simp] theorem compl_low_mask (m : Nat) : compl (2 ^ m - 1) = 2 ^ 64 - 2 ^ m := by
  have := Nat.two_pow_pos m
  unfold compl
  omega

/-- A number is a power of two or zero when it shares no bit with its
predecessor. Only the powers are needed here. -/
theorem two_pow_and_pred (m : Nat) : 2 ^ m &&& (2 ^ m - 1) = 0 := by
  rw [Nat.and_two_pow_sub_one_eq_mod, Nat.mod_self]

theorem sub_one_two_pow {m : Nat} (hm : m < 64) : sub (2 ^ m) 1 = 2 ^ m - 1 :=
  sub_of_le (Nat.two_pow_pos m) (Nat.pow_lt_pow_right (by decide) hm)

/-! ## Scans for the lowest bit -/

/-- A scan for the lowest bit of `x` that counts from `base`. It has dropped `d` zeros, and
not all of the low `width` bits that remain are zero. -/
def LowScan (x base width : Nat) (s : Nat × Nat) : Prop :=
  ¬ 2 ^ width ∣ s.1 ∧ ∃ d, x = s.1 * 2 ^ d ∧ s.2 = base + d

namespace LowScan

variable {x base width : Nat} {s : Nat × Nat}

theorem start (base : Nat) (hpos : 0 < x) (hlt : x < 2 ^ width) :
    LowScan x base width (x, base) :=
  ⟨fun hd => Nat.not_lt_of_le (Nat.le_of_dvd hpos hd) hlt, 0, by simp⟩

/-- When the low half is zero, the scan goes on in the high half. -/
theorem step (w mask : Nat) (h : LowScan x base (w + w) s) (hmask : mask = 2 ^ w - 1) :
    LowScan x base w (if s.1 &&& mask = 0 then (s.1 >>> w, s.2 + w) else s) := by
  obtain ⟨hnd, d, hx, hd⟩ := h
  simp only [hmask, and_low_mask_eq_zero]
  split
  next hdvd =>
    obtain ⟨q, hq⟩ := hdvd
    have hshift : s.1 >>> w = q := by
      rw [Nat.shiftRight_eq_div_pow, hq, Nat.mul_div_cancel_left _ (Nat.two_pow_pos w)]
    refine ⟨fun hqd => hnd ?_, d + w, ?_, ?_⟩
    · rw [hq, Nat.pow_add]
      rw [hshift] at hqd
      exact Nat.mul_dvd_mul_left _ hqd
    · rw [hshift, hx, hq]
      ring
    · omega
  next hdvd => exact ⟨hdvd, d, hx, hd⟩

/-- What is left at the end is the lowest bit. -/
theorem lowest (h : LowScan x base 1 s) :
    ∃ k, s.2 = base + k ∧ 2 ^ k ∣ x ∧ ¬ 2 ^ (k + 1) ∣ x := by
  obtain ⟨hnd, d, hx, hd⟩ := h
  refine ⟨d, hd, ⟨s.1, by rw [hx, Nat.mul_comm]⟩, fun hdvd => hnd ?_⟩
  rw [hx, Nat.pow_add, Nat.mul_comm] at hdvd
  exact (Nat.mul_dvd_mul_iff_right (Nat.two_pow_pos d)).mp hdvd

end LowScan

end Word64
