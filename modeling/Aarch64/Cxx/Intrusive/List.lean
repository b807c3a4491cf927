import Aarch64.Lib.Links

/-!
# Intrusive lists of the bootstrap

`impl::List` of `common/intrusive_list.cc`. Pointers are addresses and 0 is `nullptr`: to
read or to write through it is `none`. A list is nothing but its link `head_`, so its
address is the address of that link. The iterators and the casts between items and links
of `common/intrusive_list.h` are left out.
-/

namespace Aarch64.Cxx

structure Link where
  next : Nat
  prev : Nat
  deriving DecidableEq, Repr

/-- The `Link` at each address. -/
abbrev LinkMemory := Nat → Link

namespace LinkMemory

def get (m : LinkMemory) (p : Nat) : Option Link := if p = 0 then none else some (m p)

def setNext (m : LinkMemory) (p next : Nat) : Option LinkMemory :=
  if p = 0 then none else some (Function.update m p { m p with next })

def setPrev (m : LinkMemory) (p prev : Nat) : Option LinkMemory :=
  if p = 0 then none else some (Function.update m p { m p with prev })

end LinkMemory

namespace IntrusiveList

def «begin» (m : LinkMemory) (this : Nat) : Option Nat := do
  return (← m.get this).next

def «end» (this : Nat) : Nat := this

def empty (m : LinkMemory) (this : Nat) : Option Bool := do
  return (← «begin» m this) = «end» this

def clear (m : LinkMemory) (this : Nat) : Option LinkMemory := do
  let m ← m.setNext this this
  m.setPrev this this

def splice (m : LinkMemory) (pos other : Nat) : Option LinkMemory := do
  if ← empty m other then return m
  let first ← «begin» m other
  let last := (← m.get («end» other)).prev
  let m ← clear m other
  let prev := (← m.get pos).prev
  let next := pos
  let m ← m.setPrev first prev
  let m ← m.setNext last next
  let m ← m.setNext prev first
  m.setPrev next last

/-- `List::List(List&&)`. -/
def moveConstruct (m : LinkMemory) (this other : Nat) : Option LinkMemory := do
  let m ← clear m this
  splice m (← «begin» m this) other

/-- `List::operator=(List&&)`. -/
def moveAssign (m : LinkMemory) (this other : Nat) : Option LinkMemory := do
  if this = other then return m
  let m ← clear m this
  splice m (← «begin» m this) other

/-- The local variable `tmp` lies where nothing else does. -/
def swap (m : LinkMemory) (this other tmp : Nat) : Option LinkMemory := do
  let m ← moveConstruct m tmp other
  let m ← moveAssign m other this
  moveAssign m this tmp

def linkAt (m : LinkMemory) (pos node : Nat) : Option (Nat × LinkMemory) := do
  let prev := (← m.get pos).prev
  let next := pos
  let m ← m.setNext node next
  let m ← m.setPrev node prev
  let m ← m.setNext prev node
  let m ← m.setPrev next node
  return (node, m)

def unlink (m : LinkMemory) (pos : Nat) : Option (Nat × LinkMemory) := do
  let prev := (← m.get pos).prev
  let next := (← m.get pos).next
  let m ← m.setNext prev next
  let m ← m.setPrev next prev
  let m ← m.setPrev pos 0
  let m ← m.setNext pos 0
  return (next, m)

def front (m : LinkMemory) (this : Nat) : Option Nat := do
  if ← empty m this then return 0
  «begin» m this

/-- A call that still has to return without fuel left stands for one that does not. -/
def back (m : LinkMemory) (this : Nat) : Nat → Option Nat
  | 0 => none
  | fuel + 1 => do
      if ← empty m this then return 0
      return (← m.get (← back m this fuel)).prev

def popFront (m : LinkMemory) (this : Nat) : Option (Nat × LinkMemory) := do
  if ← empty m this then return (0, m)
  let ptr ← «begin» m this
  let (_, m) ← unlink m ptr
  return (ptr, m)

def popBack (m : LinkMemory) (this : Nat) : Option (Nat × LinkMemory) := do
  if ← empty m this then return (0, m)
  let ptr := (← m.get («end» this)).prev
  let (_, m) ← unlink m ptr
  return (ptr, m)

def pushBack (m : LinkMemory) (this link : Nat) : Option LinkMemory := do
  let (_, m) ← linkAt m («end» this) link
  return m

def pushFront (m : LinkMemory) (this link : Nat) : Option LinkMemory := do
  let (_, m) ← linkAt m (← «begin» m this) link
  return m

end IntrusiveList

/-! ## Links that are joined -/

namespace LinkMemory

variable {m : LinkMemory} {a b p q : Nat}

def links (m : LinkMemory) : Links Nat := ⟨fun p => (m p).next, fun p => (m p).prev⟩

/-- `b` behind `a`. -/
def join (m : LinkMemory) (a b : Nat) : LinkMemory :=
  Function.update (Function.update m a { m a with next := b }) b
    { Function.update m a { m a with next := b } b with prev := a }

@[simp] theorem links_join : (m.join a b).links = m.links.join a b := by
  rw [links, links, join, Links.join, Links.mk.injEq]
  refine ⟨funext fun p => ?_, funext fun p => ?_⟩
  · grind
  · grind

theorem join_of_ne (ha : p ≠ a) (hb : p ≠ b) : m.join a b p = m p := by
  rw [join, Function.update_of_ne hb, Function.update_of_ne ha]

theorem get_of_ne (hp : p ≠ 0) : m.get p = some (m p) := if_neg hp

theorem setNext_of_ne (hp : p ≠ 0) : m.setNext p q = some (Function.update m p { m p with next := q }) :=
  if_neg hp

theorem setPrev_of_ne (hp : p ≠ 0) : m.setPrev p q = some (Function.update m p { m p with prev := q }) :=
  if_neg hp

end LinkMemory

namespace IntrusiveList

open LinkMemory (get_of_ne setNext_of_ne setPrev_of_ne)

variable {m : LinkMemory} {this other pos node : Nat}

theorem begin_eq (h : this ≠ 0) : «begin» m this = some (m this).next := by
  rw [«begin», get_of_ne h]
  rfl

theorem empty_eq (h : this ≠ 0) : empty m this = some ((m this).next = this : Bool) := by
  rw [empty, begin_eq h]
  rfl

theorem clear_eq (h : this ≠ 0) : clear m this = some (m.join this this) := by
  rw [clear, setNext_of_ne h]
  exact setPrev_of_ne h

theorem linkAt_eq (hpos : pos ≠ 0) (hnode : node ≠ 0) (hprev : (m pos).prev ≠ 0)
    (hne : node ≠ (m pos).prev) :
    linkAt m pos node = some (node, (m.join (m pos).prev node).join node pos) := by
  rw [linkAt, get_of_ne hpos]
  simp only [Option.bind_eq_bind, Option.bind_some, setNext_of_ne hnode, setPrev_of_ne hnode,
    setNext_of_ne hprev, setPrev_of_ne hpos]
  refine congrArg some (congrArg (Prod.mk node) (funext fun p => ?_))
  simp only [LinkMemory.join]
  grind

theorem unlink_eq (hpos : pos ≠ 0) (hprev : (m pos).prev ≠ 0) (hnext : (m pos).next ≠ 0) :
    unlink m pos = some ((m pos).next,
      Function.update (m.join (m pos).prev (m pos).next) pos ⟨0, 0⟩) := by
  rw [unlink, get_of_ne hpos]
  simp only [Option.bind_eq_bind, Option.bind_some, setNext_of_ne hpos, setPrev_of_ne hpos,
    setNext_of_ne hprev, setPrev_of_ne hnext]
  refine congrArg some (congrArg (Prod.mk (m pos).next) (funext fun p => ?_))
  simp only [LinkMemory.join]
  grind

/-- The source is empty. -/
theorem splice_of_empty (hother : other ≠ 0) (h : (m other).next = other) :
    splice m pos other = some m := by
  rw [splice, empty_eq hother]
  simp [h]

theorem splice_eq (hother : other ≠ 0) (h : (m other).next ≠ other) (hpos : pos ≠ 0)
    (hne : pos ≠ other) (hfirst : (m other).next ≠ 0) (hlast : (m other).prev ≠ 0)
    (hprev : (m pos).prev ≠ 0) (hne' : (m other).prev ≠ (m pos).prev) :
    splice m pos other = some (((m.join other other).join (m pos).prev (m other).next).join
      (m other).prev pos) := by
  have hprev_join : (m.join other other pos).prev = (m pos).prev := by
    rw [LinkMemory.join_of_ne hne hne]
  rw [splice, empty_eq hother]
  simp only [Option.bind_eq_bind, Option.bind_some, decide_eq_true_eq, if_neg h, begin_eq hother,
    «end», get_of_ne hother, clear_eq hother, get_of_ne hpos, hprev_join, setPrev_of_ne hfirst,
    setNext_of_ne hlast, setNext_of_ne hprev, setPrev_of_ne hpos]
  generalize m.join other other = m'
  refine congrArg some (funext fun p => ?_)
  simp only [LinkMemory.join]
  grind

end IntrusiveList

end Aarch64.Cxx
