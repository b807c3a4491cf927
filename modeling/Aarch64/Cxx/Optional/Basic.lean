import Mathlib.Logic.Function.Basic

/-!
# Optionals

The class template of `cc/optional`: a flag, and storage that is raw, holds a value or
holds what is left of a destroyed one. `emplace` destroys the old value before it builds
the new one, so an operand may be gone before it is read. `forward` of `cc/utility` makes
an rvalue of every operand that is not `const`. A read of storage without a value, a
second construction and a second destruction are undefined, and are `none`.

A copy of an optional that is not `const` is no copy: for such a source the template
`optional(U&&)` is preferred to the copy constructor, and makes the value of the optional
itself. The assignment template `operator=(U&&)`, which is preferred likewise, does not
compile, because its parameter hides `value()`. So assignments copy from `const` sources only.

A value type decides what a move leaves behind, what a read of a destroyed value gives, if
anything, and what it makes of an optional.
-/

namespace Aarch64.Cxx

variable {ι α : Type} [DecidableEq ι]

inductive Optional.Storage (α : Type)
  | empty
  | live (value : α)
  | dead (value : α)
  deriving DecidableEq, Repr

structure Optional (α : Type) where
  initialized : Bool
  storage : Optional.Storage α
  deriving DecidableEq, Repr

structure ValueType (α : Type) where
  /-- What is left of a value that has been moved from. -/
  moved : α → α
  /-- What `x = move(x)` makes of a value. -/
  selfMoved : α → α
  /-- What a read of a destroyed value gives. -/
  destroyed : α → Option α
  /-- `T(move(other))` for an optional, and what it leaves of that. It is `none` where it does not
  compile, as for numbers. A `bool` is `has_value()`. -/
  ofOptional : Optional α → Option (α × Optional α)

def Optional.Storage.read (T : ValueType α) : Storage α → Option α
  | empty => none
  | live value => some value
  | dead value => T.destroyed value

namespace Optional

/-- `optional()` and `optional(nullopt)` -/
def new : Optional α := ⟨false, .empty⟩

def hasValue (o : Optional α) : Bool := o.initialized

def value (T : ValueType α) (o : Optional α) : Option α := o.storage.read T

def reset (o : Optional α) : Option (Optional α) :=
  if o.initialized then
    match o.storage with
    | .live value => some ⟨false, .dead value⟩
    | _ => none
  else some o

/-- `storage_.construct`, and the flag behind it. -/
def construct (o : Optional α) (x : α) : Option (Optional α) :=
  match o.storage with
  | .live _ => none
  | _ => some ⟨true, .live x⟩

/-- `value() = x` -/
def setValue (o : Optional α) (x : α) : Option (Optional α) :=
  match o.storage with
  | .live _ => some { o with storage := .live x }
  | _ => none

/-- What is left when the value has been moved from. -/
def moveOut (T : ValueType α) (o : Optional α) : Optional α :=
  match o.storage with
  | .live value => { o with storage := .live (T.moved value) }
  | _ => o

end Optional

/-- The optionals that have been constructed. -/
abbrev Optionals (ι α : Type) := ι → Option (Optional α)

/-- An operand: what other objects construct, or a reference to the value of an optional. -/
inductive Operand (ι α : Type)
  | value (x : α)
  | constRef (j : ι)
  | lvalue (j : ι)
  | rvalue (j : ι)

namespace Optionals

/-- `T(forward<U>(operand))`: the new value, and the optionals that it leaves. The forwarded
lvalue is moved from, as the rvalue is. -/
def build (T : ValueType α) (s : Optionals ι α) : Operand ι α → Option (α × Optionals ι α)
  | .value x => some (x, s)
  | .constRef j => do
      let o ← s j
      let x ← o.value T
      return (x, s)
  | .lvalue j | .rvalue j => do
      let o ← s j
      let x ← o.value T
      return (x, Function.update s j (some (o.moveOut T)))

def reset (s : Optionals ι α) (i : ι) : Option (Optionals ι α) := do
  let o ← s i
  let o ← o.reset
  return Function.update s i (some o)

def emplace (T : ValueType α) (s : Optionals ι α) (i : ι) (operand : Operand ι α) :
    Option (Optionals ι α) := do
  let s ← s.reset i
  let r ← s.build T operand
  let o ← r.2 i
  let o ← o.construct r.1
  return Function.update r.2 i (some o)

/-- Storage for a new optional. -/
def fresh (s : Optionals ι α) (i : ι) : Option (Optionals ι α) :=
  if (s i).isSome then none else some (Function.update s i (some Optional.new))

/-- `optional(U&&)` -/
def convert (T : ValueType α) (s : Optionals ι α) (i : ι) (operand : Operand ι α) :
    Option (Optionals ι α) := do
  let s ← s.fresh i
  s.emplace T i operand

/-- `optional(U&&)` with an optional that is not `const`. The forwarded optional makes the value. -/
def convertOptional (T : ValueType α) (s : Optionals ι α) (i j : ι) :
    Option (Optionals ι α) := do
  let other ← s j
  let s ← s.fresh i
  let r ← T.ofOptional other
  let o ← Function.update s j (some r.2) i
  let o ← o.construct r.1
  return Function.update (Function.update s j (some r.2)) i (some o)

/-- `optional(const optional&)`, for `const` sources -/
def copyConstruct (T : ValueType α) (s : Optionals ι α) (i j : ι) : Option (Optionals ι α) := do
  let other ← s j
  let s ← s.fresh i
  if other.hasValue then s.emplace T i (.constRef j) else return s

/-- `optional(optional&&)` -/
def moveConstruct (T : ValueType α) (s : Optionals ι α) (i j : ι) : Option (Optionals ι α) := do
  let other ← s j
  let s ← s.fresh i
  if other.hasValue then s.emplace T i (.rvalue j) else return s

/-- `~optional()` -/
def destroy (s : Optionals ι α) (i : ι) : Option (Optionals ι α) := do
  let s ← s.reset i
  return Function.update s i none

/-- `operator=(const optional&)`, for `const` sources -/
def copyAssign (T : ValueType α) (s : Optionals ι α) (i j : ι) : Option (Optionals ι α) := do
  let this ← s i
  let other ← s j
  if other.hasValue then
    if this.hasValue then do
      let x ← other.value T
      let o ← this.setValue x
      return Function.update s i (some o)
    else s.emplace T i (.constRef j)
  else s.reset i

/-- `value() = move(other.value())`, which may be one and the same value. -/
def moveAssignValue (T : ValueType α) (s : Optionals ι α) (i j : ι) : Option (Optionals ι α) := do
  let this ← s i
  let other ← s j
  let x ← other.value T
  if i = j then do
    let o ← this.setValue (T.selfMoved x)
    return Function.update s i (some o)
  else do
    let o ← this.setValue x
    return Function.update (Function.update s i (some o)) j (some (other.moveOut T))

/-- `operator=(optional&&)` -/
def moveAssign (T : ValueType α) (s : Optionals ι α) (i j : ι) : Option (Optionals ι α) := do
  let this ← s i
  let other ← s j
  if other.hasValue then
    if this.hasValue then s.moveAssignValue T i j else s.emplace T i (.rvalue j)
  else s.reset i

/-- `swap` of `cc/algorithm` on two values. -/
def swapValues (T : ValueType α) (s : Optionals ι α) (i j : ι) : Option (Optionals ι α) := do
  let this ← s i
  let tmp ← this.value T
  let s ← moveAssignValue T (Function.update s i (some (this.moveOut T))) i j
  let other ← s j
  let o ← other.setValue tmp
  return Function.update s j (some o)

/-- `swap`. When only this optional has a value, it moves the value into itself, and drops
it. -/
def swap (T : ValueType α) (s : Optionals ι α) (i j : ι) : Option (Optionals ι α) := do
  let this ← s i
  let other ← s j
  if this.hasValue ∧ other.hasValue then s.swapValues T i j
  else if this.hasValue then do
    let s ← s.emplace T i (.rvalue i)
    s.reset i
  else if other.hasValue then do
    let s ← s.emplace T i (.rvalue j)
    s.reset j
  else return s

end Optionals

end Aarch64.Cxx
