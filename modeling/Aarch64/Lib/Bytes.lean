import Mathlib.Algebra.Group.Nat.Defs
import Mathlib.Data.List.Basic

/-!
# Numbers, strings and padding in a byte string

A number of `n` bytes stands with its most significant byte first. A string ends at
its first zero byte. Something is aligned by as many bytes as its offset is short of
a multiple of the alignment. `bytes <+: data.drop off` says that `bytes` stand at
`off` in `data`.
-/

namespace Bytes

/-! ## Numbers -/

/-- The number that a string of bytes spells. -/
def toNat (bytes : List UInt8) : Nat := bytes.foldl (fun x b => x * 256 + b.toNat) 0

/-- The `n` bytes that spell `x`. -/
def ofNat : Nat → Nat → List UInt8
  | 0, _ => []
  | n + 1, x => UInt8.ofNat (x / 256 ^ n) :: ofNat n x

theorem foldl_eq (bytes : List UInt8) (acc : Nat) :
    bytes.foldl (fun x b => x * 256 + b.toNat) acc = acc * 256 ^ bytes.length + toNat bytes := by
  induction bytes generalizing acc with
  | nil => simp [toNat]
  | cons b bytes ih =>
      rw [toNat, List.foldl_cons, List.foldl_cons, ih, ih, List.length_cons, Nat.pow_succ']
      simp only [Nat.add_mul, Nat.mul_assoc, Nat.zero_mul, Nat.zero_add, Nat.add_assoc]

@[simp] theorem toNat_nil : toNat [] = 0 := rfl

@[simp] theorem toNat_cons (b : UInt8) (bytes : List UInt8) :
    toNat (b :: bytes) = b.toNat * 256 ^ bytes.length + toNat bytes := by
  have h := foldl_eq bytes b.toNat
  rw [toNat, List.foldl_cons, Nat.zero_mul, Nat.zero_add, h]

theorem toNat_lt (bytes : List UInt8) : toNat bytes < 256 ^ bytes.length := by
  induction bytes with
  | nil => decide
  | cons b bytes ih =>
      have hb := UInt8.toNat_lt b
      have hle : b.toNat * 256 ^ bytes.length ≤ 255 * 256 ^ bytes.length :=
        Nat.mul_le_mul_right _ (by omega)
      rw [toNat_cons, List.length_cons, Nat.pow_succ']
      omega

@[simp] theorem length_ofNat (n x : Nat) : (ofNat n x).length = n := by
  induction n with
  | zero => rfl
  | succ n ih => rw [ofNat, List.length_cons, ih]

@[simp] theorem toNat_ofNat (n x : Nat) : toNat (ofNat n x) = x % 256 ^ n := by
  induction n with
  | zero => simp [ofNat, Nat.mod_one]
  | succ n ih =>
      have hbyte : (UInt8.ofNat (x / 256 ^ n)).toNat = x / 256 ^ n % 256 := UInt8.toNat_ofNat'
      rw [ofNat, toNat_cons, ih, length_ofNat, hbyte, Nat.pow_succ, Nat.mod_mul, Nat.mul_comm,
        Nat.add_comm]

theorem toNat_ofNat_of_lt {n x : Nat} (h : x < 256 ^ n) : toNat (ofNat n x) = x := by
  rw [toNat_ofNat, Nat.mod_eq_of_lt h]

/-- The leading bytes do not reach the trailing ones. -/
theorem ofNat_add_mul (n a x : Nat) : ofNat n (a * 256 ^ n + x) = ofNat n x := by
  suffices h : ∀ k n, n ≤ k → ofNat n (a * 256 ^ k + x) = ofNat n x from h n n (Nat.le_refl n)
  intro k n
  induction n with
  | zero => exact fun _ => rfl
  | succ n ih =>
      intro hle
      obtain ⟨d, rfl⟩ := Nat.exists_eq_add_of_le hle
      rw [ofNat, ofNat, ih (by omega)]
      congr 1
      have hsplit : a * 256 ^ (n + 1 + d) = 256 ^ n * (256 * (a * 256 ^ d)) := by
        rw [Nat.pow_add, Nat.pow_succ]
        ac_rfl
      rw [hsplit, Nat.add_comm, Nat.add_mul_div_left _ _ (Nat.pow_pos (by decide))]
      rw [← UInt8.toNat_inj, UInt8.toNat_ofNat', UInt8.toNat_ofNat']
      exact Nat.add_mul_mod_self_left _ 256 _

@[simp] theorem ofNat_toNat (bytes : List UInt8) : ofNat bytes.length (toNat bytes) = bytes := by
  induction bytes with
  | nil => rfl
  | cons b bytes ih =>
      have hlt := toNat_lt bytes
      rw [List.length_cons, ofNat, toNat_cons, ofNat_add_mul, ih]
      congr 1
      rw [Nat.mul_comm, Nat.mul_add_div (Nat.pow_pos (by decide)), Nat.div_eq_of_lt hlt,
        Nat.add_zero, UInt8.ofNat_toNat]

/-! ## Strings -/

/-- The bytes of a string literal. -/
def ofString (s : String) : List UInt8 := s.toUTF8.data.toList

/-- The bytes are the UTF-8 encoding of some characters. -/
def isUtf8 (bytes : List UInt8) : Bool := (ByteArray.mk bytes.toArray).validateUTF8

/-- The string up to a zero byte is determined. -/
theorem terminated_unique {s t rest rest' : List UInt8} (hs : 0 ∉ s) (ht : 0 ∉ t)
    (h : s ++ 0 :: rest = t ++ 0 :: rest') : s = t ∧ rest = rest' := by
  induction s generalizing t with
  | nil =>
      cases t with
      | nil => exact ⟨rfl, (List.cons.inj h).2⟩
      | cons b t =>
          obtain ⟨rfl, _⟩ := List.cons.inj h
          exact absurd List.mem_cons_self ht
  | cons a s ih =>
      cases t with
      | nil =>
          obtain ⟨rfl, _⟩ := List.cons.inj h
          exact absurd List.mem_cons_self hs
      | cons b t =>
          obtain ⟨rfl, htail⟩ := List.cons.inj h
          obtain ⟨rfl, rfl⟩ := ih (fun hmem => hs (List.mem_cons_of_mem _ hmem))
            (fun hmem => ht (List.mem_cons_of_mem _ hmem)) htail
          exact ⟨rfl, rfl⟩

/-! ## Padding -/

/-- The bytes from `off` to the next multiple of `align`. -/
def padding (align off : Nat) : Nat := (align - off % align) % align

theorem padding_of_mod_eq_zero {align off : Nat} (h : off % align = 0) : padding align off = 0 := by
  rw [padding, h, Nat.sub_zero, Nat.mod_self]

theorem padding_of_mod_ne_zero {align off : Nat} (h : off % align ≠ 0) (halign : 0 < align) :
    padding align off = align - off % align := by
  have hlt := Nat.mod_lt off halign
  exact Nat.mod_eq_of_lt (by omega)

theorem add_padding_mod {align off : Nat} (halign : 0 < align) :
    (off + padding align off) % align = 0 := by
  by_cases h : off % align = 0
  · rw [padding_of_mod_eq_zero h, Nat.add_zero, h]
  · rw [padding_of_mod_ne_zero h halign]
    have hlt := Nat.mod_lt off halign
    have hdiv := Nat.div_add_mod off align
    have hsum : off + (align - off % align) = align * (off / align + 1) := by
      rw [Nat.mul_add, Nat.mul_one]
      omega
    rw [hsum, Nat.mul_mod_right]

/-- Multiples of the alignment in front do not matter. -/
theorem padding_add_left {align off : Nat} (h : off % align = 0) (n : Nat) :
    padding align (off + n) = padding align n := by
  rw [padding, padding, Nat.add_mod, h, Nat.zero_add, Nat.mod_mod]

/-! ## Bytes at an offset -/

variable {α : Type}

/-- What is not empty and stands at an offset lies in the data. -/
theorem add_length_le_of_prefix_drop {l data : List α} {off : Nat} (h : l <+: data.drop off)
    (hpos : 0 < l.length) : off + l.length ≤ data.length := by
  have hlen := h.length_le
  rw [List.length_drop] at hlen
  omega

theorem add_length_succ_le_of_prefix_drop {l data : List α} {a : α} {off : Nat}
    (h : l ++ [a] <+: data.drop off) : off + (l.length + 1) ≤ data.length := by
  have hle := add_length_le_of_prefix_drop h (by simp)
  rwa [List.length_append, List.length_singleton] at hle

/-- Two strings of one length at one place are the same. -/
theorem prefix_unique {l l' data : List α} (h : l <+: data) (h' : l' <+: data)
    (hlen : l.length = l'.length) : l = l' := by
  rw [List.prefix_iff_eq_take] at h h'
  rw [h, h', hlen]

theorem prefix_append_left {l l' data : List α} (h : l ++ l' <+: data) : l <+: data :=
  (List.prefix_append l l').trans h

/-- What stands behind `l`. -/
theorem prefix_append_right {l l' data : List α} {off : Nat} (h : l ++ l' <+: data.drop off) :
    l' <+: data.drop (off + l.length) := by
  obtain ⟨rest, hrest⟩ := h
  rw [← List.drop_drop, ← hrest, List.append_assoc, List.drop_left]
  exact List.prefix_append _ _

/-- Two strings that stand one behind the other. -/
theorem prefix_append {l l' data : List α} {off : Nat} (h : l <+: data.drop off)
    (h' : l' <+: data.drop (off + l.length)) : l ++ l' <+: data.drop off := by
  obtain ⟨rest, hrest⟩ := h
  rw [← List.drop_drop, ← hrest, List.drop_left] at h'
  rw [← hrest]
  exact (List.prefix_append_right_inj l).mpr h'

end Bytes
