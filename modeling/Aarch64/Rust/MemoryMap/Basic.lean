import Aarch64.Rust.Core
import Aarch64.Rust.Numeric
import Mathlib.Data.List.Basic

/-!
# The memory map of the Rust kernel

`kernel/memory/src/memory_map.rs`. A range list is kept sorted by address; every
change of it goes through `addMemory`, which cuts the overlapping ranges, puts
the new range between the pieces that remain, and merges neighbours in place.

An assertion, an index out of range and an `unwrap` of an error are `none`. The
iterators of the source are the lists of what they yield.
-/

namespace Aarch64.Rust

inductive MemoryType where
  | regular
  | nonRegular
  deriving DecidableEq, Repr

inductive MemoryStatus where
  | free
  | reserved
  | unknown
  deriving DecidableEq, Repr

structure MemoryRange where
  range : Range
  memtype : MemoryType
  status : MemoryStatus
  deriving DecidableEq, Repr

def overlap (r1 r2 : Range) : Range := ⟨max r1.start r2.start, min r1.stop r2.stop⟩

/-! ## Merging in place -/

def canConcat (l r : MemoryRange) : Prop :=
  l.range.stop = r.range.start ∧ l.memtype = r.memtype ∧ l.status = r.status

instance (l r : MemoryRange) : Decidable (canConcat l r) := inferInstanceAs (Decidable (_ ∧ _ ∧ _))

/-- The loop of `compact`: `seq[to]` is the last range written, `seq[from]` the
next one read. -/
def compactLoop (seq : List MemoryRange) («to» «from» : Nat) : Option (List MemoryRange × Nat) :=
  if «from» < seq.length then do
    let l ← seq[«to»]?
    let r ← seq[«from»]?
    if canConcat l r then
      compactLoop (seq.set «to» { l with range.stop := r.range.stop }) «to» («from» + 1)
    else if «to» + 1 < seq.length then
      compactLoop (seq.set («to» + 1) r) («to» + 1) («from» + 1)
    else none
  else some (seq, «to»)
termination_by seq.length - «from»

def compact (seq : List MemoryRange) : Option (List MemoryRange) :=
  (compactLoop seq 0 1).map fun (seq, «to») => seq.take («to» + 1)

/-! ## Searching and replacing -/

section

variable {α : Type}

/-- The first index whose element is not `Less`, or the length. -/
def lowerBound (seq : List α) (cmp : α → Ordering) : Nat := seq.findIdx fun x => cmp x != .lt

/-- The first index whose element is `Greater`, or the length. -/
def upperBound (seq : List α) (cmp : α → Ordering) : Nat := seq.findIdx fun x => cmp x == .gt

def equalRange (seq : List α) (cmp : α → Ordering) : Range :=
  ⟨lowerBound seq cmp, upperBound seq cmp⟩

/-- `rotate_left` of a slice, which panics when `mid` exceeds the length. -/
def rotateLeft (seq : List α) (mid : Nat) : Option (List α) :=
  if mid ≤ seq.length then some (seq.drop mid ++ seq.take mid) else none

def replace (seq : List α) (range : Range) (items : List α) : Option (List α) :=
  if range.stop ≤ seq.length then do
    let smaller := range.start
    let larger := seq.length - range.stop
    let seq ← rotateLeft seq range.stop
    let seq := seq.take (smaller + larger)
    rotateLeft (seq ++ items) larger
  else none

end

/-! ## Adding a range -/

def cmpRange (mem l : MemoryRange) : Ordering :=
  if l.range.stop ≤ mem.range.start then .lt
  else if l.range.start ≥ mem.range.stop then .gt
  else .eq

/-- The loop of `add_memory` over the ranges that overlap `mem`. It checks each of
them and keeps the pieces that stick out of `mem`. -/
def addMemoryLoop (mem : MemoryRange) :
    List MemoryRange → MemoryRange → MemoryRange → Except String (MemoryRange × MemoryRange)
  | [], before, after => .ok (before, after)
  | r :: rest, before, after =>
      if r.memtype ≠ mem.memtype then
        .error "Memory types of overlapping ranges don't match."
      else if (r.status, mem.status) = (.reserved, .free) then
        .error "Reserved memory cannot be freed."
      else
        addMemoryLoop mem rest
          (if r.range.start < mem.range.start then
            ⟨⟨r.range.start, mem.range.start⟩, r.memtype, r.status⟩ else before)
          (if r.range.stop > mem.range.stop then
            ⟨⟨mem.range.stop, r.range.stop⟩, r.memtype, r.status⟩ else after)

/-- `add_memory`: its result and the range list it leaves behind. -/
def addMemory (seq : List MemoryRange) (mem : MemoryRange) :
    Option (Except String Unit × List MemoryRange) :=
  if mem.range.isEmpty then some (.ok (), seq)
  else
    let before : MemoryRange := ⟨⟨mem.range.start, mem.range.start⟩, mem.memtype, mem.status⟩
    let after : MemoryRange := ⟨⟨mem.range.stop, mem.range.stop⟩, mem.memtype, mem.status⟩
    let pos := equalRange seq (cmpRange mem)
    match addMemoryLoop mem ((seq.drop pos.start).take (pos.stop - pos.start)) before after with
    | .error e => some (.error e, seq)
    | .ok (before, after) => do
        let seq ← replace seq pos [before, mem, after]
        let seq ← compact seq
        return (.ok (), seq)

/-! ## The map -/

@[ext] structure MemoryMap where
  memory : List MemoryRange
  zones : List MemoryRange
  deriving DecidableEq, Repr

namespace MemoryMap

def new : MemoryMap := ⟨[], []⟩

/-- Both lists are updated before the two results are combined, whether or not the
first update fails. -/
def addMemoryWith (m : MemoryMap) (range : Range) (memtype : MemoryType)
    (status : MemoryStatus) : Option (Except String Unit × MemoryMap) := do
  let (first, memory) ← Rust.addMemory m.memory ⟨range, memtype, status⟩
  let (second, zones) ← Rust.addMemory m.zones ⟨range, memtype, .unknown⟩
  return (first.bind fun _ => second, ⟨memory, zones⟩)

def addMemory (m : MemoryMap) (range : Range) (memtype : MemoryType) :
    Option (Except String Unit × MemoryMap) :=
  m.addMemoryWith range memtype .free

def reserveMemory (m : MemoryMap) (range : Range) (memtype : MemoryType) :
    Option (Except String Unit × MemoryMap) :=
  m.addMemoryWith range memtype .reserved

/-- The ranges that `FreeMemoryIter` yields: the parts of the free ranges inside
the limits. -/
def freeMemoryInRange (m : MemoryMap) (limits : Range) : List MemoryRange :=
  m.memory.filterMap fun r =>
    let range := overlap r.range limits
    if r.status ≠ .free then none
    else if range.isEmpty then none
    else some ⟨range, r.memtype, .free⟩

/-- The first candidate that fits. The alignment may panic. -/
def findFreeMemoryLoop (size align : Nat) : List MemoryRange → Option (Option MemoryRange)
  | [] => some none
  | mem :: rest =>
      if mem.memtype ≠ .regular then findFreeMemoryLoop size align rest
      else do
        let start ← Numeric.alignUp mem.range.start align
        if Word64.add start size > mem.range.stop then findFreeMemoryLoop size align rest
        else return some ⟨⟨start, Word64.add start size⟩, mem.memtype, mem.status⟩

def findFreeMemoryInRange (m : MemoryMap) (limit : Range) (size align : Nat) :
    Option (Option MemoryRange) :=
  findFreeMemoryLoop size align (m.freeMemoryInRange limit)

def allocateInRange (m : MemoryMap) (limit : Range) (size align : Nat) :
    Option (Option Nat × MemoryMap) := do
  match ← m.findFreeMemoryInRange limit size align with
  | some mem =>
      match ← Rust.addMemory m.memory ⟨mem.range, mem.memtype, .reserved⟩ with
      | (.ok (), memory) => return (some mem.range.start, { m with memory })
      | (.error _, _) => none
  | none => return (none, m)

def allocate (m : MemoryMap) (size align : Nat) : Option (Option Nat × MemoryMap) :=
  m.allocateInRange ⟨0, 2 ^ 64 - 1⟩ size align

def allocateWithHint (m : MemoryMap) (hint : Range) (size align : Nat) :
    Option (Option Nat × MemoryMap) := do
  match ← m.allocateInRange hint size align with
  | (some a, m) => return (some a, m)
  | (none, m) => m.allocate size align

end MemoryMap

end Aarch64.Rust
