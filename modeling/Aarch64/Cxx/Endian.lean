/-!
# Byte orders

`common/endian.cc`, as it is built for a little-endian machine. The wide swaps are put
together from the narrower ones. The narrowest shifts its low byte by 16 bits and not by
8, out of the 16 bits that it returns, so every swap loses each second byte.
-/

namespace Aarch64.Cxx.Endian

/-- The operands are promoted to `int`, and the result is cut down to 16 bits. -/
def bswap16 (x : BitVec 16) : BitVec 16 :=
  let x := x.setWidth 32
  (x >>> 8 ||| (x &&& 0xff) <<< 16).setWidth 16

def bswap32 (x : BitVec 32) : BitVec 32 :=
  (bswap16 ((x >>> 16).setWidth 16)).setWidth 32 |||
    (bswap16 ((x &&& 0xffff).setWidth 16)).setWidth 32 <<< 16

def bswap64 (x : BitVec 64) : BitVec 64 :=
  (bswap32 ((x >>> 32).setWidth 32)).setWidth 64 |||
    (bswap32 ((x &&& 0xffffffff).setWidth 32)).setWidth 64 <<< 32

def fromBigEndian16 (v : BitVec 16) : BitVec 16 := bswap16 v
def fromBigEndian32 (v : BitVec 32) : BitVec 32 := bswap32 v
def fromBigEndian64 (v : BitVec 64) : BitVec 64 := bswap64 v

def toBigEndian16 (v : BitVec 16) : BitVec 16 := bswap16 v
def toBigEndian32 (v : BitVec 32) : BitVec 32 := bswap32 v
def toBigEndian64 (v : BitVec 64) : BitVec 64 := bswap64 v

variable {w : Nat}

/-- The byte at offset `i` of a value in memory. The machine is little-endian. -/
def memoryByte (v : BitVec w) (i : Nat) : BitVec 8 := v.extractLsb' (8 * i) 8

/-- What two conversions of `w` bits are for, at one value. -/
structure BigEndian (toBig fromBig : BitVec w → BitVec w) (v : BitVec w) : Prop where
  /-- The most significant byte comes first. -/
  bytes : ∀ i < w / 8, memoryByte (toBig v) i = v.extractLsb' (w - 8 * (i + 1)) 8
  from_to : fromBig (toBig v) = v
  to_from : toBig (fromBig v) = v

/-! ## Swaps that lose each second byte -/

/-- The place of the byte that a swap of bytes moves to the place of bit `i`. -/
def mirror (w i : Nat) : Nat := w - 8 - 8 * (i / 8) + i % 8

/-- The bytes at even offsets of the result are right, and those at odd offsets are zero. -/
def LosesOdd (swap : BitVec w → BitVec w) : Prop :=
  ∀ x i, i < w → (swap x).getLsbD i = (decide (i / 8 % 2 = 0) && x.getLsbD (mirror w i))

theorem bswap16_losesOdd : LosesOdd bswap16 := by
  intro x i hi
  have hbits : (bswap16 x).getLsbD i = x.getLsbD (8 + i) := by
    have hlt : 8 + i < 32 := by omega
    simp [bswap16, hi, hlt]
  rw [hbits]
  by_cases hlow : i < 8
  · have hmirror : mirror 16 i = 8 + i := by
      unfold mirror
      omega
    rw [hmirror, Nat.div_eq_of_lt hlow]
    rfl
  · have hodd : ¬ i / 8 % 2 = 0 := by omega
    rw [decide_eq_false hodd, Bool.false_and]
    exact BitVec.getLsbD_of_ge x _ (by omega)

/-- A swap of a double word that swaps its halves, and swaps the bytes in each half. -/
structure Doubles {w W : Nat} (swap : BitVec w → BitVec w) (wide : BitVec W → BitVec W) : Prop where
  width : W = w + w
  low : ∀ x i, i < w → (wide x).getLsbD i = (swap ((x >>> w).setWidth w)).getLsbD i
  high : ∀ x i, i < w → (wide x).getLsbD (w + i) = (swap (x.setWidth w)).getLsbD i

theorem LosesOdd.double {W : Nat} {swap : BitVec w → BitVec w} {wide : BitVec W → BitVec W}
    (h : LosesOdd swap) (hw : w % 16 = 0) (hwide : Doubles swap wide) : LosesOdd wide := by
  have hwidth := hwide.width
  intro x i hi
  by_cases hlow : i < w
  · have hmirror : mirror W i = w + mirror w i := by
      unfold mirror
      omega
    have hlt : mirror w i < w := by
      unfold mirror
      omega
    have hbit : ((x >>> w).setWidth w).getLsbD (mirror w i) = x.getLsbD (w + mirror w i) := by
      rw [BitVec.getLsbD_setWidth, decide_eq_true hlt, Bool.true_and, BitVec.getLsbD_ushiftRight]
    rw [hwide.low x i hlow, h _ i hlow, hmirror, hbit]
  · obtain ⟨j, rfl⟩ := Nat.exists_eq_add_of_le (Nat.le_of_not_lt hlow)
    have hj : j < w := by omega
    have hmirror : mirror W (w + j) = mirror w j := by
      unfold mirror
      omega
    have hlt : mirror w j < w := by
      unfold mirror
      omega
    have hparity : (w + j) / 8 % 2 = j / 8 % 2 := by omega
    have hbit : (x.setWidth w).getLsbD (mirror w j) = x.getLsbD (mirror w j) := by
      rw [BitVec.getLsbD_setWidth, decide_eq_true hlt, Bool.true_and]
    rw [hwide.high x j hj, h _ j hj, hmirror, hparity, hbit]

/-- Masking the low bits before the cut to these bits changes nothing. -/
theorem setWidth_and_mask {W : Nat} (x mask : BitVec W) (h : mask.setWidth w = BitVec.allOnes w) :
    (x &&& mask).setWidth w = x.setWidth w := by
  rw [BitVec.setWidth_and, h, BitVec.and_allOnes]

theorem bswap32_doubles : Doubles bswap16 bswap32 := by
  refine ⟨rfl, fun x i hi => ?_, fun x i hi => ?_⟩
  · have hlt : i < 32 := by omega
    simp [bswap32, hi, hlt]
  · have hge : ¬ 16 + i < 16 := by omega
    have hlt : 16 + i < 32 := by omega
    rw [bswap32, setWidth_and_mask x 0xffff (by decide)]
    simp [hge, hlt]

theorem bswap64_doubles : Doubles bswap32 bswap64 := by
  refine ⟨rfl, fun x i hi => ?_, fun x i hi => ?_⟩
  · have hlt : i < 64 := by omega
    simp [bswap64, hi, hlt]
  · have hge : ¬ 32 + i < 32 := by omega
    have hlt : 32 + i < 64 := by omega
    rw [bswap64, setWidth_and_mask x 0xffffffff (by decide)]
    simp [hge, hlt]

theorem bswap32_losesOdd : LosesOdd bswap32 := bswap16_losesOdd.double rfl bswap32_doubles
theorem bswap64_losesOdd : LosesOdd bswap64 := bswap32_losesOdd.double rfl bswap64_doubles

/-! ## What the conversions do -/

variable {swap : BitVec w → BitVec w}

theorem zero_bit (i : Nat) : (0 : BitVec w).getLsbD i = false := BitVec.getLsbD_zero

/-- The byte at an even offset of the first result comes from an odd one of the second. -/
theorem LosesOdd.twice (h : LosesOdd swap) (hw : w % 16 = 0) (v : BitVec w) :
    swap (swap v) = 0 := by
  apply BitVec.eq_of_getLsbD_eq
  intro i hi
  have hlt : mirror w i < w := by
    unfold mirror
    omega
  rw [h _ i hi, h v _ hlt, zero_bit]
  by_cases heven : i / 8 % 2 = 0
  · have hodd : ¬ mirror w i / 8 % 2 = 0 := by
      unfold mirror
      omega
    rw [decide_eq_false hodd, Bool.false_and, Bool.and_false]
  · rw [decide_eq_false heven, Bool.false_and]

theorem LosesOdd.zero (h : LosesOdd swap) : swap 0 = 0 := by
  apply BitVec.eq_of_getLsbD_eq
  intro i hi
  rw [h _ i hi, zero_bit, zero_bit, Bool.and_false]

/-- With such a swap for both conversions, zero alone is converted as it should be. -/
theorem LosesOdd.bigEndian_iff (h : LosesOdd swap) (hw : w % 16 = 0) (v : BitVec w) :
    BigEndian swap swap v ↔ v = 0 := by
  constructor
  · intro hv
    exact hv.from_to.symm.trans (h.twice hw v)
  · rintro rfl
    refine ⟨fun i _ => ?_, h.twice hw 0, h.twice hw 0⟩
    rw [h.zero, memoryByte]
    simp

/-- The conversions of each width are right for zero and wrong for every other value: the swaps lose
the bytes at every other place, and a conversion there and back gives zero. -/
theorem bigEndian_iff_zero (v16 : BitVec 16) (v32 : BitVec 32) (v64 : BitVec 64) :
    (BigEndian toBigEndian16 fromBigEndian16 v16 ↔ v16 = 0) ∧
      (BigEndian toBigEndian32 fromBigEndian32 v32 ↔ v32 = 0) ∧
      (BigEndian toBigEndian64 fromBigEndian64 v64 ↔ v64 = 0) :=
  ⟨bswap16_losesOdd.bigEndian_iff rfl v16, bswap32_losesOdd.bigEndian_iff rfl v32,
    bswap64_losesOdd.bigEndian_iff rfl v64⟩

theorem not_bigEndian_0x1234 : ¬ BigEndian toBigEndian16 fromBigEndian16 0x1234 := by
  intro h
  exact absurd h.from_to (by decide)

end Aarch64.Cxx.Endian
