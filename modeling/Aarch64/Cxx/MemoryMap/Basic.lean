import Aarch64.Cxx.FixedVector

/-!
# The memory map of the bootstrap

`MemoryMap::SetStatus` of `memory/phys.cc` with `Reserve` and `Release`. Pointers
into the entry array are indices. The loop that writes the status has no end when it
has a round to run, and C++ gives such a loop no meaning: what the call does then is
up to the compiler, so the functions take a `Build` that says it.
-/

namespace Aarch64.Cxx

inductive MemoryStatus where
  | reserved
  | free
  deriving DecidableEq, Repr

/-- `begin` and `end` of the source are `start` and `stop`. -/
structure MemoryRange where
  start : Nat
  stop : Nat
  status : MemoryStatus
  deriving DecidableEq, Repr

def canMerge (prev next : MemoryRange) : Prop :=
  next.start = prev.stop ∧ next.status = prev.status

instance (prev next : MemoryRange) : Decidable (canMerge prev next) :=
  inferInstanceAs (Decidable (_ ∧ _))

def isEmpty (range : MemoryRange) : Prop := range.start = range.stop

instance (range : MemoryRange) : Decidable (isEmpty range) := inferInstanceAs (Decidable (_ = _))

variable {N : Nat}

/-- The loop of `Compact`: `pos` is the last range written, `it` the next one read. -/
def compactLoop (ranges : FixedVector MemoryRange N) (pos it : Nat) :
    Option (FixedVector MemoryRange N × Nat) :=
  if it < ranges.size then do
    let prev ← ranges.items[pos]?
    let next ← ranges.items[it]?
    if canMerge prev next then
      compactLoop (ranges.set pos { prev with stop := next.stop }) pos (it + 1)
    else if isEmpty prev then
      compactLoop (ranges.set pos next) pos (it + 1)
    else
      compactLoop (ranges.set (pos + 1) next) (pos + 1) (it + 1)
  else some (ranges, pos)
termination_by ranges.size - it
decreasing_by all_goals rw [FixedVector.size_set]; omega

/-- `Compact` of the whole array, and where the ranges that it keeps end. -/
def compact (ranges : FixedVector MemoryRange N) : Option (FixedVector MemoryRange N × Nat) :=
  if ranges.size = 0 then some (ranges, 0)
  else do
    let (ranges, pos) ← compactLoop ranges 0 1
    let last ← ranges.items[pos]?
    return (ranges, if isEmpty last then pos else pos + 1)

/-- The comparison of both searches in the array. -/
def less (l r : MemoryRange) : Bool := decide (l.stop ≤ r.start)

structure MemoryMap where
  ranges : FixedVector MemoryRange 128
  deriving DecidableEq

namespace MemoryMap

/-- Cut off the part of the entry at `from` that lies below the range. -/
def splitHead (ranges : FixedVector MemoryRange 128) (range : MemoryRange) («from» «to» : Nat) :
    Option (Bool × FixedVector MemoryRange 128 × Nat × Nat) := do
  let first ← ranges.items[«from»]?
  if first.start < range.start then do
    let head : MemoryRange := ⟨first.start, range.start, first.status⟩
    let (ok, ranges) ← (ranges.set «from» { first with start := head.stop }).insert «from» head
    return (ok, ranges, «from» + 1, «to» + 1)
  else return (true, ranges, «from», «to»)

/-- Cut off the part of the entry before `to` that lies above the range. -/
def splitTail (ranges : FixedVector MemoryRange 128) (range : MemoryRange) («to» : Nat) :
    Option (Bool × FixedVector MemoryRange 128) := do
  let last ← (if «to» = 0 then none else ranges.items[«to» - 1]? : Option MemoryRange)
  if last.stop > range.stop then
    let tail : MemoryRange := ⟨range.stop, last.stop, last.status⟩
    (ranges.set («to» - 1) { last with stop := tail.start }).insert «to» tail
  else return (true, ranges)

/-- The loop that writes the new status. Each round advances `to`, the end of the
run, and not `it`, the entry that is written. -/
def relabelLoop (fuel : Nat) (ranges : FixedVector MemoryRange 128) (it «to» : Nat)
    (status : MemoryStatus) : Option (FixedVector MemoryRange 128) :=
  if it = «to» then some ranges
  else
    match fuel with
    | 0 => none
    | fuel + 1 => do
        let range ← ranges.items[it]?
        relabelLoop fuel (ranges.set it { range with status }) it («to» + 1) status

/-- What the compiled program makes of the loop when it has a round to run. The loop then
moves `to` off the array and does not end, which the language leaves undefined, so a build may
have any outcome. It is `none` where the build does not return. -/
abbrev Build := FixedVector MemoryRange 128 → Nat → Nat → MemoryStatus →
  Option (FixedVector MemoryRange 128)

/-- The build that runs the loop as it is written. -/
def Build.asWritten (fuel : Nat) : Build := relabelLoop fuel

/-- The build that takes it for granted that the loop ends, as an optimizing compiler may: what
every round stores is stored once, and the call goes on. -/
def Build.oneStore : Build := fun ranges it _ status => do
  let range ← ranges.items[it]?
  return ranges.set it { range with status }

/-- The loop from `it` to `to`. Where `to` lies below `it` it does end. -/
def relabel (build : Build) (ranges : FixedVector MemoryRange 128) (it «to» : Nat)
    (status : MemoryStatus) : Option (FixedVector MemoryRange 128) :=
  if it < «to» then build ranges it «to» status
  else relabelLoop (it - «to») ranges it «to» status

def setStatus (build : Build) (m : MemoryMap) (begin stop : Nat) (status : MemoryStatus) :
    Option (Bool × MemoryMap) :=
  let range : MemoryRange := ⟨begin, stop, status⟩
  let «from» := lowerBound m.ranges.items fun l => less l range
  let «to» := upperBound m.ranges.items fun r => less range r
  if «from» = «to» then some (true, m)
  else do
    let (ok, ranges, «from», «to») ← splitHead m.ranges range «from» «to»
    if !ok then return (false, ⟨ranges⟩)
    let (ok, ranges) ← splitTail ranges range «to»
    if !ok then return (false, ⟨ranges⟩)
    let ranges ← relabel build ranges «from» «to» status
    let (ranges, last) ← compact ranges
    let (_, ranges) ← ranges.erase last ranges.size
    return (true, ⟨ranges⟩)

def reserve (build : Build) (m : MemoryMap) (begin stop : Nat) : Option (Bool × MemoryMap) :=
  m.setStatus build begin stop .reserved

def release (build : Build) (m : MemoryMap) (begin stop : Nat) : Option (Bool × MemoryMap) :=
  m.setStatus build begin stop .free

end MemoryMap

end Aarch64.Cxx
