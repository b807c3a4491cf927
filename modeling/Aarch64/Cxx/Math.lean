import Aarch64.Lib.Word

/-!
# Bit scans and alignment

`LeastSignificantBit` and `MostSignificantBit` of `common/math.cc` and the alignment
templates of `common/math.h` at 64 bits. Both scans are cascades of six masks. A
rung that finds no bit in the low half of the bits that are left, or that finds one
in the high half, drops the low half.
-/

namespace Aarch64.Cxx

/-- One rung of `LeastSignificantBit`: when no bit under the mask is set, drop the low
`width` bits. -/
def lsbStep (mask width : Nat) (s : Nat × Nat) : Nat × Nat :=
  if s.1 &&& mask = 0 then (s.1 >>> width, s.2 + width) else s

def leastSignificantBit (x : Nat) : Nat :=
  if x = 0 then 64
  else
    let s := lsbStep 0xffffffff 32 (x, 0)
    let s := lsbStep 0xffff 16 s
    let s := lsbStep 0xff 8 s
    let s := lsbStep 0xf 4 s
    let s := lsbStep 0x3 2 s
    (lsbStep 0x1 1 s).2

/-- One rung of `MostSignificantBit`: when some bit under the mask is set, drop the low `width` bits. -/
def msbStep (mask width : Nat) (s : Nat × Nat) : Nat × Nat :=
  if s.1 &&& mask ≠ 0 then (s.1 >>> width, s.2 + width) else s

def mostSignificantBit (x : Nat) : Int :=
  if x = 0 then -1
  else
    let s := msbStep 0xffffffff00000000 32 (x, 0)
    let s := msbStep 0xffff0000 16 s
    let s := msbStep 0xff00 8 s
    let s := msbStep 0xf0 4 s
    let s := msbStep 0xc 2 s
    (msbStep 0x2 1 s).2

def alignDown (x alignment : Nat) : Nat := x &&& Word64.compl (Word64.sub alignment 1)

def alignUp (x alignment : Nat) : Nat :=
  alignDown (Word64.sub (Word64.add x alignment) 1) alignment

def clamp (x «from» «to» : Nat) : Nat :=
  let x := if x < «from» then «from» else x
  if x > «to» then «to» else x

/-! ## The scans -/

/-- `LeastSignificantBit` is the exponent of the largest power of two that divides `x`. -/
theorem leastSignificantBit_spec {x : Nat} (hpos : 0 < x) (hlt : x < 2 ^ 64) :
    2 ^ leastSignificantBit x ∣ x ∧ ¬ 2 ^ (leastSignificantBit x + 1) ∣ x := by
  have start : Word64.LowScan x 0 (32 + 32) (x, 0) := .start 0 hpos hlt
  have scanned := (((((start.step 32 0xffffffff rfl).step 16 0xffff rfl).step 8 0xff rfl).step 4
    0xf rfl).step 2 0x3 rfl).step 1 0x1 rfl
  obtain ⟨k, hk, hdvd, hndvd⟩ := scanned.lowest
  have heq : leastSignificantBit x = k := by
    rw [leastSignificantBit, if_neg hpos.ne']
    exact hk.trans (Nat.zero_add k)
  rw [heq]
  exact ⟨hdvd, hndvd⟩

/-- While the scan for the highest bit runs, it has dropped `s.2` bits of `x`, and what is left is not
zero and has at most `width` bits. -/
private def MsbScan (x width : Nat) (s : Nat × Nat) : Prop :=
  0 < s.1 ∧ s.1 < 2 ^ width ∧ s.1 = x / 2 ^ s.2

private theorem MsbScan.step {x : Nat} {s : Nat × Nat} (w mask : Nat) (h : MsbScan x (w + w) s)
    (hmask : mask = 2 ^ (w + w) - 2 ^ w) : MsbScan x w (msbStep mask w s) := by
  obtain ⟨hpos, hlt, hx⟩ := h
  have htest : s.1 &&& mask = 0 ↔ s.1 < 2 ^ w := by
    rw [hmask]
    exact Word64.and_mask_eq_zero hlt (Nat.le_add_right w w)
  rw [msbStep]
  by_cases hlow : s.1 < 2 ^ w
  · rw [if_neg (not_not_intro (htest.mpr hlow))]
    exact ⟨hpos, hlow, hx⟩
  · rw [if_pos fun hzero => hlow (htest.mp hzero)]
    refine ⟨?_, ?_, ?_⟩
    · change 0 < s.1 >>> w
      rw [Nat.shiftRight_eq_div_pow]
      exact Nat.div_pos (Nat.le_of_not_lt hlow) (Nat.two_pow_pos w)
    · change s.1 >>> w < 2 ^ w
      rw [Nat.shiftRight_eq_div_pow]
      apply Nat.div_lt_of_lt_mul
      rw [← Nat.pow_add]
      exact hlt
    · change s.1 >>> w = x / 2 ^ (s.2 + w)
      rw [Nat.shiftRight_eq_div_pow, hx, Nat.div_div_eq_div_mul, Nat.pow_add]

/-- `MostSignificantBit` is the integer logarithm of `x`. -/
theorem mostSignificantBit_spec {x : Nat} (hpos : 0 < x) (hlt : x < 2 ^ 64) :
    ∃ k : Nat, mostSignificantBit x = k ∧ 2 ^ k ≤ x ∧ x < 2 ^ (k + 1) := by
  have start : MsbScan x (32 + 32) (x, 0) := ⟨hpos, hlt, by simp⟩
  have scanned := (((((start.step 32 0xffffffff00000000 rfl).step 16 0xffff0000 rfl).step 8
    0xff00 rfl).step 4 0xf0 rfl).step 2 0xc rfl).step 1 0x2 rfl
  simp only [mostSignificantBit, if_neg hpos.ne']
  generalize msbStep 0x2 1 _ = s at scanned ⊢
  obtain ⟨hs, hlt', hx⟩ := scanned
  have hone : x / 2 ^ s.2 = 1 := by omega
  have hpow := Nat.two_pow_pos s.2
  refine ⟨s.2, rfl, ?_, ?_⟩
  · exact (Nat.div_pos_iff.mp (by omega)).2
  · rw [Nat.pow_succ, Nat.mul_comm]
    exact Nat.lt_mul_of_div_lt (by omega) hpow

/-- The power that both allocators round sizes up to: the smallest one that is
not below `x`. -/
theorem roundUp_spec {x : Nat} (hpos : 1 < x) (hlt : x < 2 ^ 64) :
    ∃ k : Nat, mostSignificantBit (x - 1) + 1 = k ∧ x ≤ 2 ^ k ∧ 2 ^ k < 2 * x := by
  obtain ⟨k, hk, hle, hlt'⟩ := mostSignificantBit_spec (x := x - 1) (by omega) (by omega)
  refine ⟨k + 1, by rw [hk]; rfl, by omega, ?_⟩
  rw [Nat.pow_succ]
  omega

/-! ## Clamping -/

theorem clamp_of_le {x lo hi : Nat} (hle : lo ≤ hi) : clamp x lo hi = min (max x lo) hi := by
  simp only [clamp]
  split <;> split <;> omega

theorem clamp_of_ge {x lo hi : Nat} (hge : hi ≤ lo) : clamp x lo hi = hi := by
  simp only [clamp]
  split <;> split <;> omega

/-! ## Alignment -/

theorem alignDown_lt (x alignment : Nat) : alignDown x alignment < 2 ^ 64 :=
  Nat.lt_of_le_of_lt Nat.and_le_right
    (Nat.lt_of_le_of_lt (Nat.sub_le _ _) (Nat.sub_lt (Nat.two_pow_pos 64) Nat.one_pos))

theorem alignUp_lt (x alignment : Nat) : alignUp x alignment < 2 ^ 64 := alignDown_lt _ _

theorem alignDown_two_pow {x k : Nat} (hx : x < 2 ^ 64) (hk : k < 64) :
    alignDown x (2 ^ k) = x / 2 ^ k * 2 ^ k := by
  rw [alignDown, Word64.sub_one_two_pow hk, Word64.compl_low_mask, Word64.and_high_mask hx hk.le]

/-- Rounding up is exact as long as the largest rounded number fits the word. -/
theorem alignUp_two_pow {x k : Nat} (hx : x + 2 ^ k ≤ 2 ^ 64) (hk : k < 64) :
    alignUp x (2 ^ k) = (x + 2 ^ k - 1) / 2 ^ k * 2 ^ k := by
  have hpos := Nat.two_pow_pos k
  rw [alignUp, Word64.add_sub_one_of_le hpos hx, alignDown_two_pow (by omega) hk]

/-- Otherwise the sum wraps to a number below the alignment. -/
theorem alignUp_wrap {x k : Nat} (hx : x < 2 ^ 64) (hwrap : 2 ^ 64 < x + 2 ^ k) (hk : k < 64) :
    alignUp x (2 ^ k) = 0 := by
  have hlt : 2 ^ k < 2 ^ 64 := Nat.pow_lt_pow_right (by decide) hk
  rw [alignUp, Word64.add_sub_one_of_gt hx hlt hwrap, alignDown_two_pow (by omega) hk,
    Nat.div_eq_of_lt (by omega), Nat.zero_mul]

end Aarch64.Cxx
