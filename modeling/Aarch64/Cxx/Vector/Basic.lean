import Aarch64.Cxx.Physical.Basic
import Mathlib.Logic.Function.Basic

/-!
# Vectors in physical memory

`common/vector.h` over `common/allocator.h`. The elements lie in a block of physical
memory behind a header, which says which block it is. `headers` holds the headers and
`objects` the objects of the element type by their addresses. Reading a header or an
object where there is none is `none`, and destroying an object as well. Pointers are
addresses and 0 is `nullptr`.
-/

namespace Aarch64.Cxx.Common

/-- Rounding up in the layout of a type, which the compiler computes. -/
def padTo (align x : Nat) : Nat := (x + align - 1) / align * align

/-- `sizeof(Contigous)`: two pointers and an order. -/
def sizeofContigous : Nat := 24

/-- Where `items` lies in a `Header` of elements with the given alignment. -/
def offsetFor (align : Nat) : Nat := padTo align sizeofContigous

/-- `sizeof(Header)`. -/
def sizeofHeaderFor (size align : Nat) : Nat := padTo (max 8 align) (offsetFor align + size)

/-- A type with `sizeof` and `alignof`, for which there is a `Header`. -/
structure ElementType where
  size : Nat
  align : Nat
  pow : ∃ k, align = 2 ^ k
  dvd : align ∣ size
  pos : 0 < size
  fits : sizeofHeaderFor size align < 2 ^ 64

namespace ElementType

/-- `Offset`. -/
def offset (T : ElementType) : Nat := offsetFor T.align

def sizeofHeader (T : ElementType) : Nat := sizeofHeaderFor T.size T.align

/-- `AllocationSize`. -/
def allocationSize (T : ElementType) (size : Nat) : Nat :=
  if size = 0 then T.sizeofHeader
  else Word64.add T.sizeofHeader (Word64.mul (Word64.sub size 1) T.size)

/-- `&items[i]`. -/
def itemAt (T : ElementType) (items i : Nat) : Nat := Word64.add items (Word64.mul i T.size)

end ElementType

/-- The physical allocator and what lies in memory. -/
structure Store (σ α : Type) where
  phys : σ
  headers : Nat → Option Contigous
  objects : Nat → Option α

variable {σ α : Type}

/-! ## Elements -/

/-- `PlaceAt`. -/
def placeAt (objects : Nat → Option α) (pos : Nat) (item : α) : Nat → Option α :=
  Function.update objects pos (some item)

/-- `~T()`. -/
def destroyAt (objects : Nat → Option α) (pos : Nat) : Option (Nat → Option α) := do
  let _ ← objects pos
  return Function.update objects pos none

/-- The loop that places `item` at the addresses `p i`, `p (i + 1)`, ..., `k` times. -/
def placeLoop (p : Nat → Nat) (item : α) : Nat → Nat → (Nat → Option α) → (Nat → Option α)
  | _, 0, objects => objects
  | i, k + 1, objects => placeLoop p item (i + 1) k (placeAt objects (p i) item)

def destroyLoop (p : Nat → Nat) : Nat → Nat → (Nat → Option α) → Option (Nat → Option α)
  | _, 0, objects => some objects
  | i, k + 1, objects => do
      let objects ← destroyAt objects (p i)
      destroyLoop p (i + 1) k objects

/-- The loop of `Reallocate`. -/
def moveLoop (p q : Nat → Nat) : Nat → Nat → (Nat → Option α) → Option (Nat → Option α)
  | _, 0, objects => some objects
  | i, k + 1, objects => do
      let item ← objects (p i)
      let objects ← destroyAt (placeAt objects (q i) item) (p i)
      moveLoop p q (i + 1) k objects

/-! ## The allocator -/

namespace PhysicalAllocator

/-- `FromPointer`: the address of the header. -/
def fromPointer (T : ElementType) (s : Store σ α) (ptr : Nat) : Option Nat := do
  if ptr = 0 then return 0
  let addr := Word64.sub ptr T.offset
  let mem ← s.headers addr
  if mem.fromAddress ≠ addr then return 0
  return addr

def allocate (P : PhysicalMemory σ) (T : ElementType) (s : Store σ α) (size : Nat) :
    Option (Nat × Store σ α) := do
  match ← P.allocate s.phys (T.allocationSize size) with
  | (none, phys) => return (0, { s with phys })
  | (some mem, phys) =>
      let header := mem.fromAddress
      return (Word64.add header T.offset,
        { s with phys, headers := Function.update s.headers header (some mem) })

def grow (T : ElementType) (s : Store σ α) (ptr size : Nat) : Option Bool := do
  let head ← fromPointer T s ptr
  if head = 0 then return false
  let mem ← s.headers head
  return decide (mem.size ≥ T.allocationSize size)

/-- The header is not read again, so it is dropped. -/
def deallocate (P : PhysicalMemory σ) (T : ElementType) (s : Store σ α) (ptr : Nat) :
    Option (Bool × Store σ α) := do
  let head ← fromPointer T s ptr
  if head = 0 then return (false, s)
  let mem ← s.headers head
  let phys ← P.free s.phys mem
  return (true, { s with phys, headers := Function.update s.headers head none })

end PhysicalAllocator

/-! ## The vector -/

structure Vector where
  items : Nat
  size : Nat
  capacity : Nat
  deriving DecidableEq, Repr

namespace Vector

def new : Vector := ⟨0, 0, 0⟩

/-- The addresses of the elements. -/
def address (T : ElementType) (v : Vector) (i : Nat) : Nat := T.itemAt v.items i

def clear (T : ElementType) (v : Vector) (s : Store σ α) : Option (Vector × Store σ α) := do
  let objects ← destroyLoop (v.address T) 0 v.size s.objects
  return ({ v with size := 0 }, { s with objects })

def reallocate (P : PhysicalMemory σ) (T : ElementType) (v : Vector) (s : Store σ α)
    (capacity : Nat) : Option (Bool × Vector × Store σ α) := do
  let (items, s) ← PhysicalAllocator.allocate P T s capacity
  if items = 0 then return (false, v, s)
  let objects ← moveLoop (v.address T) (T.itemAt items) 0 v.size s.objects
  let (_, s) ← PhysicalAllocator.deallocate P T { s with objects } v.items
  return (true, { v with items, capacity }, s)

def grow (P : PhysicalMemory σ) (T : ElementType) (v : Vector) (s : Store σ α)
    (capacity : Nat) : Option (Bool × Vector × Store σ α) := do
  if v.capacity ≥ capacity then return (true, v, s)
  let capacity := max (Word64.mul v.capacity 2 / 3) capacity
  if ← PhysicalAllocator.grow T s v.items capacity then return (true, { v with capacity }, s)
  v.reallocate P T s capacity

def assign (P : PhysicalMemory σ) (T : ElementType) (v : Vector) (s : Store σ α) (count : Nat)
    (item : α) : Option (Bool × Vector × Store σ α) := do
  let (ok, v, s) ← v.grow P T s count
  if !ok then return (false, v, s)
  let (v, s) ← v.clear T s
  return (true, { v with size := count },
    { s with objects := placeLoop (v.address T) item 0 count s.objects })

def pushBack (P : PhysicalMemory σ) (T : ElementType) (v : Vector) (s : Store σ α) (item : α) :
    Option (Bool × Vector × Store σ α) := do
  let (ok, v, s) ← v.grow P T s (Word64.add v.size 1)
  if !ok then return (false, v, s)
  return (true, { v with size := Word64.add v.size 1 },
    { s with objects := placeAt s.objects (v.address T v.size) item })

def popBack (T : ElementType) (v : Vector) (s : Store σ α) :
    Option (Bool × Vector × Store σ α) := do
  if v.size = 0 then return (false, v, s)
  let size := v.size - 1
  let objects ← destroyAt s.objects (v.address T size)
  return (true, { v with size }, { s with objects })

/-- The loops run while `i` is below their end, so not at all when it starts there or
behind. -/
def resize (P : PhysicalMemory σ) (T : ElementType) (v : Vector) (s : Store σ α) (size : Nat)
    (item : α) : Option (Bool × Vector × Store σ α) := do
  let (ok, v, s) ← v.grow P T s size
  if !ok then return (false, v, s)
  if size > v.size then
    return (true, { v with size },
      { s with objects := placeLoop (v.address T) item v.size (size - v.size) s.objects })
  else
    let objects ← destroyLoop (v.address T) size (v.size - size) s.objects
    return (true, { v with size }, { s with objects })

end Vector

end Aarch64.Cxx.Common
