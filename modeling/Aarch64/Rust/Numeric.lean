import Aarch64.Lib.Word

/-!
# The `numeric` crate

Bit scans and alignment of `kernel/numeric/src/lib.rs`. Both scans are cascades
of six masks. `lsb` drops low zeros by shifting to the right, `msb` drops high
zeros by shifting to the left, and both count from one. A panic, from an
assertion, is `none`.
-/

namespace Aarch64.Rust.Numeric

/-- One rung of `lsb`: when the low `width` bits are zero, drop and count them. -/
def lsbStep (mask width : Nat) (s : Nat × Nat) : Nat × Nat :=
  if s.1 &&& mask = 0 then (s.1 >>> width, s.2 + width) else s

def lsb (x : Nat) : Nat :=
  if x = 0 then 2 ^ 32 - 1
  else
    let s := lsbStep 0xffffffff 32 (x, 1)
    let s := lsbStep 0xffff 16 s
    let s := lsbStep 0xff 8 s
    let s := lsbStep 0xf 4 s
    let s := lsbStep 0x3 2 s
    if s.1 &&& 0x1 = 0 then s.2 + 1 else s.2

/-- One rung of `msb`: when the high `width` bits are zero, shift them out. -/
def msbStep (mask width : Nat) (s : Nat × Nat) : Nat × Nat :=
  if s.1 &&& mask = 0 then (Word64.shl s.1 width, s.2 - width) else s

def msb (x : Nat) : Nat :=
  if x = 0 then 0
  else
    let s := msbStep 0xffffffff00000000 32 (x, 64)
    let s := msbStep 0xffff000000000000 16 s
    let s := msbStep 0xff00000000000000 8 s
    let s := msbStep 0xf000000000000000 4 s
    let s := msbStep 0xc000000000000000 2 s
    if s.1 &&& 0x8000000000000000 = 0 then s.2 - 1 else s.2

def ilog2 (x : Nat) : Option Nat := if x = 0 then none else some (msb x - 1)

def alignDown (x align : Nat) : Option Nat :=
  if align &&& Word64.sub align 1 = 0 then some (x &&& Word64.compl (Word64.sub align 1))
  else none

def alignUp (x align : Nat) : Option Nat :=
  alignDown (Word64.sub (Word64.add x align) 1) align

/-! ## Lowest set bit -/

/-- `lsb x - 1` is the exponent of the largest power of two that divides `x`. -/
theorem lsb_spec {x : Nat} (hpos : 0 < x) (hlt : x < 2 ^ 64) :
    ∃ k, lsb x = k + 1 ∧ 2 ^ k ∣ x ∧ ¬ 2 ^ (k + 1) ∣ x := by
  have start : Word64.LowScan x 1 (32 + 32) (x, 1) := .start 1 hpos hlt
  have scanned := (((((start.step 32 0xffffffff rfl).step 16 0xffff rfl).step 8 0xff rfl).step 4
    0xf rfl).step 2 0x3 rfl).step 1 0x1 rfl
  obtain ⟨k, hk, hdvd, hndvd⟩ := scanned.lowest
  refine ⟨k, ?_, hdvd, hndvd⟩
  -- the last rung counts, but does not shift
  rw [apply_ite Prod.snd] at hk
  rw [Nat.add_comm, lsb, if_neg hpos.ne']
  exact hk

/-! ## Highest set bit -/

/-- While `msb` scans `x`, it has shifted out `64 - r` zeros, and one of the high
`width` bits that remain is set. -/
private def MsbInv (x width : Nat) (s : Nat × Nat) : Prop :=
  s.1 < 2 ^ 64 ∧ 2 ^ (64 - width) ≤ s.1 ∧ width ≤ s.2 ∧ s.2 ≤ 64 ∧ s.1 = x * 2 ^ (64 - s.2)

private theorem MsbInv.step {x : Nat} {s : Nat × Nat} (w mask : Nat) (h : MsbInv x (w + w) s)
    (hw : w + w ≤ 64) (hmask : mask = 2 ^ 64 - 2 ^ (64 - w)) :
    MsbInv x w (msbStep mask w s) := by
  obtain ⟨hlt, hge, hr, hr64, hx⟩ := h
  unfold msbStep
  simp only [hmask, Word64.and_high_mask_eq_zero hlt (Nat.sub_le 64 w)]
  have hsplit : 2 ^ (64 - w) * 2 ^ w = 2 ^ 64 := by
    rw [← Nat.pow_add, Nat.sub_add_cancel (by omega)]
  have hdouble : 2 ^ (64 - (w + w)) * 2 ^ w = 2 ^ (64 - w) := by
    rw [← Nat.pow_add]
    congr 1
    omega
  have hpos := Nat.two_pow_pos w
  split
  next hzero =>
    have hshl : Word64.shl s.1 w = s.1 * 2 ^ w :=
      Word64.shl_of_lt (by rw [← hsplit]; exact Nat.mul_lt_mul_of_pos_right hzero hpos)
    refine ⟨?_, ?_, ?_, ?_, ?_⟩
    · rw [hshl, ← hsplit]
      exact Nat.mul_lt_mul_of_pos_right hzero hpos
    · rw [hshl, ← hdouble]
      exact Nat.mul_le_mul_right _ hge
    · change w ≤ s.2 - w
      omega
    · change s.2 - w ≤ 64
      omega
    · change Word64.shl s.1 w = x * 2 ^ (64 - (s.2 - w))
      rw [hshl, hx, Nat.mul_assoc, ← Nat.pow_add]
      congr 2
      omega
  next hzero => exact ⟨hlt, Nat.le_of_not_lt hzero, by omega, hr64, hx⟩

/-- `msb x - 1` is the integer logarithm of `x`. -/
theorem msb_spec {x : Nat} (hpos : 0 < x) (hlt : x < 2 ^ 64) :
    ∃ k, msb x = k + 1 ∧ 2 ^ k ≤ x ∧ x < 2 ^ (k + 1) := by
  have start : MsbInv x (32 + 32) (x, 64) := by
    refine ⟨hlt, ?_, Nat.le_refl _, Nat.le_refl _, ?_⟩
    · change 1 ≤ x
      exact hpos
    · simp
  have scanned := ((((start.step 32 0xffffffff00000000 (by omega) rfl).step 16
    0xffff000000000000 (by omega) rfl).step 8 0xff00000000000000 (by omega) rfl).step 4
    0xf000000000000000 (by omega) rfl).step 2 0xc000000000000000 (by omega) rfl
  simp only [msb, if_neg hpos.ne']
  generalize msbStep 0xc000000000000000 2 _ = s at scanned ⊢
  obtain ⟨hs, hge, hr, hr64, hx⟩ := scanned
  have hlast : s.1 &&& 0x8000000000000000 = 0 ↔ s.1 < 2 ^ 63 :=
    Word64.and_high_mask_eq_zero (m := 63) hs (by decide)
  -- compare `x` with `2 ^ j` after scaling both by the shift
  have hscale : ∀ j, s.2 ≤ 64 → (2 ^ j ≤ x ↔ 2 ^ (j + (64 - s.2)) ≤ s.1) := by
    intro j _
    rw [hx, Nat.pow_add]
    exact (Nat.mul_le_mul_right_iff (Nat.two_pow_pos _)).symm
  split
  next hzero =>
    refine ⟨s.2 - 2, by omega, ?_, ?_⟩
    · rw [hscale _ hr64, show s.2 - 2 + (64 - s.2) = 62 by omega]
      exact hge
    · refine Nat.lt_of_not_le fun hle => ?_
      rw [hscale _ hr64, show s.2 - 2 + 1 + (64 - s.2) = 63 by omega] at hle
      exact Nat.not_lt_of_le hle (hlast.mp hzero)
  next hone =>
    refine ⟨s.2 - 1, by omega, ?_, ?_⟩
    · rw [hscale _ hr64, show s.2 - 1 + (64 - s.2) = 63 by omega]
      exact Nat.le_of_not_lt fun hlt' => hone (hlast.mpr hlt')
    · refine Nat.lt_of_not_le fun hle => ?_
      rw [hscale _ hr64, show s.2 - 1 + 1 + (64 - s.2) = 64 by omega] at hle
      exact Nat.not_lt_of_le hle hs

theorem ilog2_spec {x : Nat} (hpos : 0 < x) (hlt : x < 2 ^ 64) :
    ∃ k, ilog2 x = some k ∧ 2 ^ k ≤ x ∧ x < 2 ^ (k + 1) := by
  obtain ⟨k, hk, hle, hlt'⟩ := msb_spec hpos hlt
  exact ⟨k, by rw [ilog2, if_neg hpos.ne', hk, Nat.add_sub_cancel], hle, hlt'⟩

/-! ## Alignment -/

theorem alignDown_two_pow {x k : Nat} (hx : x < 2 ^ 64) (hk : k < 64) :
    alignDown x (2 ^ k) = some (x / 2 ^ k * 2 ^ k) := by
  rw [alignDown, Word64.sub_one_two_pow hk, if_pos (Word64.two_pow_and_pred k),
    Word64.compl_low_mask, Word64.and_high_mask hx hk.le]

/-- Rounding up is exact as long as the sum with the alignment fits the word. -/
theorem alignUp_two_pow {x k : Nat} (hx : x + 2 ^ k ≤ 2 ^ 64) (hk : k < 64) :
    alignUp x (2 ^ k) = some ((x + 2 ^ k - 1) / 2 ^ k * 2 ^ k) := by
  have hpos := Nat.two_pow_pos k
  rw [alignUp, Word64.add_sub_one_of_le hpos hx, alignDown_two_pow (by omega) hk]

/-- Otherwise the sum wraps to a number below the alignment. -/
theorem alignUp_wrap {x k : Nat} (hx : x < 2 ^ 64) (hwrap : 2 ^ 64 < x + 2 ^ k) (hk : k < 64) :
    alignUp x (2 ^ k) = some 0 := by
  have hlt : 2 ^ k < 2 ^ 64 := Nat.pow_lt_pow_right (by decide) hk
  rw [alignUp, Word64.add_sub_one_of_gt hx hlt hwrap, alignDown_two_pow (by omega) hk,
    Nat.div_eq_of_lt (by omega), Nat.zero_mul]

end Aarch64.Rust.Numeric
