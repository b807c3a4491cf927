import Aarch64.Cxx.Physical.Basic

/-!
# The layout of a slab

`MakeLayout` of `memory/cache.cc`. A slab is one block of physical memory: the
objects from its start, and the control structure in its last bytes. Dividing by
zero and shifting by 64 or more are undefined, so the layout is `none` there.
-/

namespace Aarch64.Cxx

structure Layout where
  objectSize : Nat
  objectOffset : Nat
  objects : Nat
  controlOffset : Nat
  slabSize : Nat
  deriving DecidableEq, Repr

/-- `sizeof(Storage)`: two links and a pointer. -/
def sizeofStorage : Nat := 24

/-- `sizeof(Slab)`: the link of the slab, the head of its freelist, two words and
a `Contigous`. -/
def sizeofSlab : Nat := 72

def objectSize (size alignment : Nat) : Nat := alignUp (max size sizeofStorage) alignment

def kMinObjects : Nat := 32
def kMinSize : Nat := 4096

def minBytes (size control : Nat) : Nat := Word64.add (Word64.mul size kMinObjects) control

def slabSize (size control : Nat) : Option Nat :=
  if kMinSize ≥ minBytes size control then some kMinSize
  else
    let order := (mostSignificantBit (Word64.sub (minBytes size control) 1) + 1).toNat
    if order < 64 then some (Word64.shl 1 order) else none

def makeLayout (size alignment : Nat) : Option Layout := do
  let objectSize := objectSize size alignment
  let slabSize ← slabSize objectSize sizeofSlab
  if objectSize = 0 then none
  else return {
    objectSize
    objectOffset := 0
    objects := Word64.sub slabSize sizeofSlab / objectSize
    controlOffset := Word64.sub slabSize sizeofSlab
    slabSize }

/-- What the slabs rely on. -/
structure Layout.WellFormed (l : Layout) : Prop where
  storage_le : sizeofStorage ≤ l.objectSize
  objectOffset_eq : l.objectOffset = 0
  two_le : 2 ≤ l.objects
  fits : l.objectSize * l.objects ≤ l.controlOffset
  control : l.controlOffset + sizeofSlab = l.slabSize
  power : ∃ k, kPageBits ≤ k ∧ k < 64 ∧ l.slabSize = 2 ^ k

theorem Layout.WellFormed.slabSize_lt {l : Layout} (h : l.WellFormed) : l.slabSize < 2 ^ 64 := by
  obtain ⟨k, _, hk, heq⟩ := h.power
  rw [heq]
  exact Nat.pow_lt_pow_right (by decide) hk

/-! ## `MakeLayout` -/

theorem makeLayout_eq {size alignment : Nat} {l : Layout}
    (h : makeLayout size alignment = some l) :
    l.objectSize = objectSize size alignment ∧ 0 < l.objectSize ∧
      slabSize l.objectSize sizeofSlab = some l.slabSize ∧ l.objectOffset = 0 ∧
      l.controlOffset = Word64.sub l.slabSize sizeofSlab ∧
      l.objects = l.controlOffset / l.objectSize := by
  rw [makeLayout, Option.bind_eq_bind, Option.bind_eq_some_iff] at h
  obtain ⟨bytes, hbytes, h⟩ := h
  split at h
  next => cases h
  next hne =>
    obtain rfl := Option.some.inj h
    exact ⟨rfl, Nat.pos_of_ne_zero hne, hbytes, rfl, rfl, rfl⟩

/-- The object size is the least multiple of the alignment that holds an object
and a freelist entry, unless the rounding wraps. -/
theorem objectSize_spec {size a : Nat} (hsize : size < 2 ^ 64) (ha : a < 64)
    (hpos : 0 < objectSize size (2 ^ a)) :
    size ≤ objectSize size (2 ^ a) ∧ sizeofStorage ≤ objectSize size (2 ^ a) ∧
      2 ^ a ∣ objectSize size (2 ^ a) := by
  have hmax : max size sizeofStorage < 2 ^ 64 := Nat.max_lt.mpr ⟨hsize, by decide⟩
  have hfit : max size sizeofStorage + 2 ^ a ≤ 2 ^ 64 := by
    by_contra hwrap
    rw [objectSize, alignUp_wrap hmax (Nat.lt_of_not_le hwrap) ha] at hpos
    exact Nat.lt_irrefl _ hpos
  have hround : max size sizeofStorage ≤ objectSize size (2 ^ a) := by
    rw [objectSize, alignUp_two_pow hfit ha]
    have hdiv := Nat.div_add_mod (max size sizeofStorage + 2 ^ a - 1) (2 ^ a)
    have hmod := Nat.mod_lt (max size sizeofStorage + 2 ^ a - 1) (Nat.two_pow_pos a)
    rw [Nat.mul_comm] at hdiv
    omega
  refine ⟨(Nat.le_max_left ..).trans hround, (Nat.le_max_right ..).trans hround, ?_⟩
  rw [objectSize, alignUp_two_pow hfit ha]
  exact Nat.dvd_mul_left ..

theorem minBytes_eq {size control : Nat} (h : size * kMinObjects + control < 2 ^ 64) :
    minBytes size control = size * kMinObjects + control := by
  rw [minBytes, Word64.mul_of_lt (Nat.lt_of_le_of_lt (Nat.le_add_right ..) h), Word64.add_of_lt h]

/-- The slab size is a power of two, at least a page, with room for `minBytes`. -/
theorem slabSize_spec {size control bytes : Nat} (h : slabSize size control = some bytes) :
    minBytes size control ≤ bytes ∧ ∃ k, kPageBits ≤ k ∧ k < 64 ∧ bytes = 2 ^ k := by
  have hword : minBytes size control < 2 ^ 64 := Word64.add_lt ..
  rw [slabSize] at h
  by_cases hmin : kMinSize ≥ minBytes size control
  · rw [if_pos hmin] at h
    obtain rfl := Option.some.inj h
    exact ⟨hmin, 12, by decide, by decide, rfl⟩
  · have hgt : 4096 < minBytes size control := Nat.lt_of_not_le hmin
    obtain ⟨k, hk, hle, _⟩ := roundUp_spec (by omega : 1 < minBytes size control) hword
    rw [if_neg hmin, Word64.sub_of_le (by omega) hword, hk, Int.toNat_natCast] at h
    by_cases hlt : k < 64
    · have hpow : 1 * 2 ^ k < 2 ^ 64 := by
        rw [Nat.one_mul]
        exact Nat.pow_lt_pow_right (by decide) hlt
      simp only [if_pos hlt, Word64.shl_of_lt hpow, Nat.one_mul, Option.some.injEq] at h
      subst h
      refine ⟨hle, k, ?_, hlt, rfl⟩
      by_contra hsmall
      have hpage : 2 ^ k ≤ 2 ^ 12 :=
        Nat.pow_le_pow_right (by decide) (Nat.le_of_lt (Nat.lt_of_not_le hsmall))
      omega
    · simp only [if_neg hlt] at h
      cases h

theorem makeLayout_control {size alignment : Nat} {l : Layout}
    (h : makeLayout size alignment = some l) :
    l.controlOffset + sizeofSlab = l.slabSize ∧
      ∃ k, kPageBits ≤ k ∧ k < 64 ∧ l.slabSize = 2 ^ k := by
  obtain ⟨_, _, hbytes, _, hcontrol, _⟩ := makeLayout_eq h
  obtain ⟨_, k, hk, hk64, hpow⟩ := slabSize_spec hbytes
  have hlt : l.slabSize < 2 ^ 64 := by
    rw [hpow]
    exact Nat.pow_lt_pow_right (by decide) hk64
  have hge : 2 ^ 12 ≤ l.slabSize := by
    rw [hpow]
    exact Nat.pow_le_pow_right (by decide) hk
  refine ⟨?_, k, hk, hk64, hpow⟩
  have hle : sizeofSlab ≤ l.slabSize := by
    change 72 ≤ _
    omega
  rw [hcontrol, Word64.sub_of_le hle hlt, Nat.sub_add_cancel hle]

/-- Layouts are well formed as long as the number of bytes does not wrap. -/
theorem makeLayout_wellFormed {size alignment : Nat} {l : Layout}
    (h : makeLayout size alignment = some l) (hstorage : sizeofStorage ≤ l.objectSize)
    (hwrap : l.objectSize * kMinObjects + sizeofSlab < 2 ^ 64) : l.WellFormed := by
  obtain ⟨_, hpos, hbytes, hoffset, _, hobjects⟩ := makeLayout_eq h
  obtain ⟨hcontrol, hpower⟩ := makeLayout_control h
  have hle := (slabSize_spec hbytes).1
  rw [minBytes_eq hwrap] at hle
  refine ⟨hstorage, hoffset, ?_, ?_, hcontrol, hpower⟩
  · rw [hobjects, Nat.le_div_iff_mul_le hpos]
    change l.objectSize * 32 + _ ≤ _ at hle
    omega
  · rw [hobjects]
    exact Nat.mul_div_le ..

/-- A slab of at most `2 ^ 32` bytes has a proper layout or no objects at all,
since an object whose size makes the sum wrap is larger than the slab. -/
theorem makeLayout_small {size alignment : Nat} {l : Layout}
    (h : makeLayout size alignment = some l) (hstorage : sizeofStorage ≤ l.objectSize)
    (hsmall : l.slabSize ≤ 2 ^ 32) : l.WellFormed ∨ l.objects = 0 := by
  rcases Nat.lt_or_ge (l.objectSize * kMinObjects + sizeofSlab) (2 ^ 64) with hlt | hge
  · exact .inl (makeLayout_wellFormed h hstorage hlt)
  · right
    obtain ⟨_, _, _, _, _, hobjects⟩ := makeLayout_eq h
    have hcontrol := (makeLayout_control h).1
    change l.objectSize * 32 + 72 ≥ _ at hge
    rw [hobjects]
    apply Nat.div_eq_of_lt
    omega

end Aarch64.Cxx
