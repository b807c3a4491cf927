/-!
# Types of the Rust core library

`Range` is `core::ops::Range<u64>`. `Slice` is a shared slice: the address of its
first element and the elements. A call that panics is `none` throughout this
development, and so is a call that breaks the contract of an `unsafe` function.
-/

namespace Aarch64.Rust

/-- The half-open range `start..stop`, possibly inverted. -/
structure Range where
  start : Nat
  stop : Nat
  deriving DecidableEq, Repr

namespace Range

def contains (r : Range) (x : Nat) : Bool := decide (r.start ≤ x ∧ x < r.stop)

def isEmpty (r : Range) : Bool := !decide (r.start < r.stop)

@[simp] theorem contains_iff {r : Range} {x : Nat} :
    r.contains x = true ↔ r.start ≤ x ∧ x < r.stop := by
  simp [contains]

@[simp] theorem isEmpty_iff {r : Range} : r.isEmpty = true ↔ r.stop ≤ r.start := by
  simp [isEmpty]

@[simp] theorem isEmpty_eq_false_iff {r : Range} : r.isEmpty = false ↔ r.start < r.stop := by
  simp [isEmpty]

end Range

structure Slice (α : Type) where
  ptr : Nat
  items : List α
  deriving Repr

namespace Slice

variable {α : Type}

def len (s : Slice α) : Nat := s.items.length

/-- `&s[i]`, which panics out of range. -/
def get (s : Slice α) (i : Nat) : Option α := s.items[i]?

/-- A write through interior mutability to element `i`. -/
def set (s : Slice α) (i : Nat) (x : α) : Slice α := { s with items := s.items.set i x }

@[simp] theorem len_set (s : Slice α) (i : Nat) (x : α) : (s.set i x).len = s.len := by
  simp [len, set]

@[simp] theorem ptr_set (s : Slice α) (i : Nat) (x : α) : (s.set i x).ptr = s.ptr := rfl

theorem get_of_lt {s : Slice α} {i : Nat} (h : i < s.len) : ∃ x, s.get i = some x :=
  ⟨_, List.getElem?_eq_getElem h⟩

theorem get_set_self {s : Slice α} {i : Nat} (h : i < s.len) (x : α) :
    (s.set i x).get i = some x := by
  simp only [len] at h
  simp [get, set, h]

theorem get_set_ne {s : Slice α} {i j : Nat} (h : j ≠ i) (x : α) :
    (s.set i x).get j = s.get j := by
  simp [get, set, List.getElem?_set_ne h.symm]

end Slice

end Aarch64.Rust
