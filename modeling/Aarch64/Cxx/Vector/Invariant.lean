import Aarch64.Cxx.Vector.Basic
import Mathlib.Data.Set.Function

/-!
# The invariant of vectors

The elements lie one after the other in the block, so their addresses differ. `Owns`
says which blocks a vector has got from the physical allocator.
-/

namespace Aarch64.Cxx.Common

variable {σ α : Type}

/-! ## Loops

`n` addresses that differ are enough for the elements that a loop is about. -/

section loops

variable {p q : Nat → Nat} {n i j k a : Nat} {item : α} {objects : Nat → Option α}

theorem placeLoop_of_ne (h : ∀ j, i ≤ j → j < i + k → a ≠ p j) :
    placeLoop p item i k objects a = objects a := by
  induction k generalizing i objects with
  | zero => rfl
  | succ k ih =>
      have hne : a ≠ p i := h i (Nat.le_refl i) (by omega)
      exact (ih fun j hj hlt => h j (by omega) (by omega)).trans (Function.update_of_ne hne _ _)

theorem placeLoop_self (hp : Set.InjOn p (Set.Iio n)) (hn : i + k ≤ n) (hi : i ≤ j)
    (hj : j < i + k) : placeLoop p item i k objects (p j) = some item := by
  induction k generalizing i objects with
  | zero => omega
  | succ k ih =>
      rcases Nat.eq_or_lt_of_le hi with rfl | hlt
      · have hne : ∀ j, i + 1 ≤ j → j < i + 1 + k → p i ≠ p j := by
          intro j hj hlt heq
          have hsame : i = j := hp (Set.mem_Iio.mpr (by omega)) (Set.mem_Iio.mpr (by omega)) heq
          omega
        rw [placeLoop, placeLoop_of_ne hne, placeAt, Function.update_self]
      · exact ih (by omega) hlt (by omega)

/-- Objects that are there can be destroyed, and the other objects stay. -/
theorem destroyLoop_spec (hp : Set.InjOn p (Set.Iio n)) (hn : i + k ≤ n)
    (hsome : ∀ j, i ≤ j → j < i + k → (objects (p j)).isSome) :
    ∃ objects', destroyLoop p i k objects = some objects' ∧
      ∀ a, (∀ j, i ≤ j → j < i + k → a ≠ p j) → objects' a = objects a := by
  induction k generalizing i objects with
  | zero => exact ⟨objects, rfl, fun _ _ => rfl⟩
  | succ k ih =>
      obtain ⟨x, hx⟩ := Option.isSome_iff_exists.mp (hsome i (Nat.le_refl i) (by omega))
      have hrest : ∀ j, i + 1 ≤ j → j < i + 1 + k →
          (Function.update objects (p i) none (p j)).isSome := by
        intro j hj hlt
        have hne : p j ≠ p i := by
          intro heq
          have hsame : j = i := hp (Set.mem_Iio.mpr (by omega)) (Set.mem_Iio.mpr (by omega)) heq
          omega
        rw [Function.update_of_ne hne]
        exact hsome j (by omega) (by omega)
      obtain ⟨objects', hloop, hframe⟩ := ih (by omega) hrest
      refine ⟨objects', ?_, fun a ha => ?_⟩
      · simp only [destroyLoop, destroyAt, hx, Option.bind_eq_bind, Option.bind_some,
          Option.pure_def]
        exact hloop
      · rw [hframe a fun j hj hlt => ha j (by omega) (by omega)]
        exact Function.update_of_ne (ha i (Nat.le_refl i) (by omega)) _ _

/-- The elements are at the new addresses when they have been moved. -/
theorem moveLoop_spec (hp : Set.InjOn p (Set.Iio n)) (hq : Set.InjOn q (Set.Iio n))
    (hpq : ∀ i < n, ∀ j < n, p i ≠ q j) (hn : i + k ≤ n)
    (hsome : ∀ j, i ≤ j → j < i + k → (objects (p j)).isSome) :
    ∃ objects', moveLoop p q i k objects = some objects' ∧
      (∀ j, i ≤ j → j < i + k → objects' (q j) = objects (p j)) ∧
      ∀ j < i, objects' (q j) = objects (q j) := by
  induction k generalizing i objects with
  | zero => exact ⟨objects, rfl, fun j hj hlt => absurd hlt (by omega), fun _ _ => rfl⟩
  | succ k ih =>
      obtain ⟨x, hx⟩ := Option.isSome_iff_exists.mp (hsome i (Nat.le_refl i) (by omega))
      have hsource : placeAt objects (q i) x (p i) = some x :=
        (Function.update_of_ne (hpq i (by omega) i (by omega)) _ _).trans hx
      have hother : ∀ j < n, j ≠ i →
          Function.update (placeAt objects (q i) x) (p i) none (p j) = objects (p j) := by
        intro j hj hne
        have hpj : p j ≠ p i := fun heq =>
          hne (hp (Set.mem_Iio.mpr hj) (Set.mem_Iio.mpr (by omega)) heq)
        rw [Function.update_of_ne hpj]
        exact Function.update_of_ne (hpq j hj i (by omega)) _ _
      have hplaced : ∀ j < n, Function.update (placeAt objects (q i) x) (p i) none (q j) =
          if j = i then some x else objects (q j) := by
        intro j hj
        rw [Function.update_of_ne (hpq i (by omega) j hj).symm, placeAt]
        split
        next heq => rw [heq, Function.update_self]
        next hne =>
          refine Function.update_of_ne (fun heq => hne ?_) _ _
          exact hq (Set.mem_Iio.mpr hj) (Set.mem_Iio.mpr (by omega)) heq
      have hrest : ∀ j, i + 1 ≤ j → j < i + 1 + k →
          (Function.update (placeAt objects (q i) x) (p i) none (p j)).isSome := by
        intro j hj hlt
        rw [hother j (by omega) (by omega)]
        exact hsome j (by omega) (by omega)
      obtain ⟨objects', hloop, hmoved, hkept⟩ := ih (by omega) hrest
      refine ⟨objects', ?_, fun j hj hlt => ?_, fun j hj => ?_⟩
      · simp only [moveLoop, destroyAt, hx, hsource, Option.bind_eq_bind, Option.bind_some,
          Option.pure_def]
        exact hloop
      · rcases Nat.eq_or_lt_of_le hj with rfl | hgt
        · rw [hkept i (Nat.lt_succ_self i), hplaced i (by omega), if_pos rfl, hx]
        · rw [hmoved j hgt (by omega), hother j (by omega) (by omega)]
      · rw [hkept j (by omega), hplaced j (by omega), if_neg (by omega)]

end loops

/-! ## Layout -/

theorem le_padTo {align : Nat} (h : 0 < align) (x : Nat) : x ≤ padTo align x := by
  have hlt := Nat.lt_div_mul_add (a := x + align - 1) h
  rw [padTo]
  omega

namespace ElementType

variable {T : ElementType} {n i items : Nat}

/-- The size of a header with `n` elements. -/
def bytes (T : ElementType) (n : Nat) : Nat := T.sizeofHeader + (n - 1) * T.size

theorem offset_pos (T : ElementType) : 0 < T.offset := by
  obtain ⟨k, hk⟩ := T.pow
  have halign : 0 < T.align := hk ▸ Nat.two_pow_pos k
  exact Nat.lt_of_lt_of_le (by decide : 0 < sizeofContigous) (le_padTo halign _)

theorem offset_add_le (T : ElementType) : T.offset + T.size ≤ T.sizeofHeader :=
  le_padTo (Nat.lt_of_lt_of_le (by decide : 0 < 8) (Nat.le_max_left _ _)) _

/-- The elements lie inside of what is allocated for them. -/
theorem offset_add_mul_le (T : ElementType) (hn : 0 < n) : T.offset + n * T.size ≤ T.bytes n := by
  have hfirst := T.offset_add_le
  have hmul : n * T.size = (n - 1) * T.size + T.size := by
    rw [← Nat.succ_mul, Nat.succ_eq_add_one, Nat.sub_add_cancel hn]
  rw [bytes]
  omega

theorem bytes_pos (T : ElementType) (n : Nat) : 0 < T.bytes n := by
  have hoffset := T.offset_pos
  have hfirst := T.offset_add_le
  rw [bytes]
  omega

theorem allocationSize_lt (T : ElementType) (n : Nat) : T.allocationSize n < 2 ^ 64 := by
  rw [allocationSize]
  split
  · exact T.fits
  · exact Word64.add_lt _ _

theorem allocationSize_eq (hn : n < 2 ^ 64) (h : T.bytes n < 2 ^ 64) :
    T.allocationSize n = T.bytes n := by
  rw [bytes] at h ⊢
  rw [allocationSize]
  split
  next hzero => rw [hzero, Nat.zero_sub, Nat.zero_mul, Nat.add_zero]
  next hpos =>
    rw [Word64.sub_of_le (Nat.one_le_iff_ne_zero.mpr hpos) hn, Word64.mul_of_lt (by omega),
      Word64.add_of_lt h]

theorem mul_size_lt (T : ElementType) (hi : i < n) : i * T.size + T.size ≤ n * T.size := by
  rw [← Nat.succ_mul]
  exact Nat.mul_le_mul_right _ hi

theorem itemAt_eq (h : items + n * T.size < 2 ^ 64) (hi : i < n) :
    T.itemAt items i = items + i * T.size := by
  have hle := T.mul_size_lt hi
  rw [itemAt, Word64.mul_of_lt (by omega), Word64.add_of_lt (by omega)]

theorem injOn_itemAt (h : items + n * T.size < 2 ^ 64) :
    Set.InjOn (T.itemAt items) (Set.Iio n) := by
  intro i hi j hj heq
  rw [itemAt_eq h hi, itemAt_eq h hj] at heq
  exact Nat.eq_of_mul_eq_mul_right T.pos (Nat.add_left_cancel heq)

end ElementType

/-! ## The block -/

/-- There is room for the elements in a block, so they lie in it. -/
theorem ElementType.itemAt_inside {T : ElementType} {b : Contigous} {n i : Nat}
    (hroom : T.offset + n * T.size ≤ b.size) (hproper : b.Proper) (hi : i < n) :
    b.fromAddress ≤ T.itemAt (b.fromAddress + T.offset) i ∧
      T.itemAt (b.fromAddress + T.offset) i + T.size ≤ b.fromAddress + b.size := by
  have hlt := hproper.toAddress_lt
  have hle := T.mul_size_lt hi
  rw [itemAt_eq (by omega) hi]
  omega

theorem ElementType.itemAt_mem {T : ElementType} {b : Contigous} {n i : Nat}
    (hroom : T.offset + n * T.size ≤ b.size) (hproper : b.Proper) (hi : i < n) :
    T.itemAt (b.fromAddress + T.offset) i ∈ b.bytes := by
  have hinside := ElementType.itemAt_inside hroom hproper hi
  have hpos := T.pos
  exact ⟨hinside.1, by omega⟩

variable {P : PhysicalMemory σ} {T : ElementType} {others owned : List Contigous}
variable {v : Vector} {s : Store σ α} {b : Contigous} {xs : List α} {n i : Nat}

/-- The elements lie in `b`, behind the header, and there is room for `Capacity` of them. -/
structure Backed (T : ElementType) (v : Vector) (s : Store σ α) (b : Contigous) : Prop where
  header : s.headers b.fromAddress = some b
  items : v.items = b.fromAddress + T.offset
  room : T.offset + v.capacity * T.size ≤ b.size

/-- The blocks of a vector. -/
inductive Owns (T : ElementType) (v : Vector) (s : Store σ α) : List Contigous → Prop
  | none (items : v.items = 0) (capacity : v.capacity = 0) : Owns T v s []
  | block {b : Contigous} (capacity : 0 < v.capacity) (backed : Backed T v s b) : Owns T v s [b]

/-- The vector holds `xs`. -/
structure Valid (P : PhysicalMemory σ) (T : ElementType) (others : List Contigous) (v : Vector)
    (s : Store σ α) (owned : List Contigous) (xs : List α) : Prop where
  size : v.size = xs.length
  stored : ∀ i < xs.length, s.objects (v.address T i) = xs[i]?
  fits : xs.length ≤ v.capacity
  owns : Owns T v s owned
  held : P.Holds s.phys (owned ++ others)

theorem Owns.congr {w : Vector} {s' : Store σ α} (h : Owns T v s owned)
    (hitems : w.items = v.items) (hcapacity : w.capacity = v.capacity)
    (hheaders : s'.headers = s.headers) : Owns T w s' owned := by
  cases h with
  | none items capacity => exact .none (hitems.trans items) (hcapacity.trans capacity)
  | block capacity backed =>
      refine .block (hcapacity ▸ capacity) ⟨?_, hitems.trans backed.items, ?_⟩
      · rw [hheaders]
        exact backed.header
      · rw [hcapacity]
        exact backed.room

/-- The elements do not wrap around the address space. -/
theorem Owns.end_lt (h : Owns T v s owned) (hheld : P.Holds s.phys (owned ++ others)) :
    v.items + v.capacity * T.size < 2 ^ 64 := by
  cases h with
  | none items capacity =>
      rw [items, capacity, Nat.zero_mul]
      decide
  | @block b _ backed =>
      have hlt := (P.proper hheld b (List.mem_append_left _ List.mem_cons_self)).toAddress_lt
      have hroom := backed.room
      rw [backed.items]
      omega

theorem Valid.injOn (hv : Valid P T others v s owned xs) :
    Set.InjOn (v.address T) (Set.Iio v.capacity) :=
  ElementType.injOn_itemAt (hv.owns.end_lt hv.held)

theorem Valid.capacity_lt (hv : Valid P T others v s owned xs) : v.capacity + 1 < 2 ^ 64 := by
  have hend := hv.owns.end_lt hv.held
  have hle := Nat.le_mul_of_pos_right v.capacity T.pos
  cases hv.owns with
  | none _ capacity =>
      rw [capacity]
      decide
  | block _ backed =>
      have hoffset := T.offset_pos
      have hitems := backed.items
      omega

theorem Valid.isSome (hv : Valid P T others v s owned xs) (hi : i < xs.length) :
    (s.objects (v.address T i)).isSome := by
  rw [hv.stored i hi, List.getElem?_eq_getElem hi]
  rfl

theorem new_valid {phys : σ} (hheld : P.Holds phys others) :
    Valid P T others Vector.new (⟨phys, fun _ => none, fun _ => none⟩ : Store σ α) [] [] :=
  ⟨rfl, fun _ hi => absurd hi (Nat.not_lt_zero _), Nat.le_refl _, .none rfl rfl, hheld⟩

end Aarch64.Cxx.Common
