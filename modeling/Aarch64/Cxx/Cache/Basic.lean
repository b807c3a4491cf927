import Aarch64.Cxx.Cache.Layout
import Mathlib.Logic.Function.Basic

/-!
# The slab cache of the bootstrap

`memory/cache.cc`. Pointers are addresses and 0 is `nullptr`. The control
structures of the slabs live in memory: `slabs` maps the address of each to its
contents, and reading one where there is none is `none`. The three lists of a
cache are intrusive and hold the addresses of control structures. A slab that is
linked already cannot be linked again, and unlinking a slab takes it off whichever
list it is on. `Panic` never returns, so it is `none` as well.
-/

namespace Aarch64.Cxx

/-- An entry of a freelist. It is stored in the free object that it points to. -/
structure Storage where
  pointer : Nat
  deriving DecidableEq, Repr

/-- `cache_` is the address of the owner. -/
structure Slab where
  freelist : List Storage
  allocated : Nat
  cache : Nat
  memory : Contigous
  deriving DecidableEq, Repr

/-- The state outside of a cache: the physical allocator and the control
structures in memory. -/
structure World (σ : Type) where
  phys : σ
  slabs : Nat → Option Slab

def World.setSlab {σ : Type} (w : World σ) (addr : Nat) (s : Option Slab) : World σ :=
  { w with slabs := Function.update w.slabs addr s }

/-! ## Slabs -/

namespace Slab

/-- The loop of the constructor. An address that wraps leaves the slab. -/
def freelistLoop (addr «to» size : Nat) : Option (List Storage) :=
  if addr < «to» then
    if addr < Word64.add addr size then do
      let rest ← freelistLoop (Word64.add addr size) «to» size
      return ⟨addr⟩ :: rest
    else none
  else some []
termination_by «to» - addr

def new (cache : Nat) (mem : Contigous) (layout : Layout) : Option Slab := do
  let «from» := Word64.add mem.fromAddress layout.objectOffset
  let «to» := Word64.add «from» (Word64.mul layout.objectSize layout.objects)
  let freelist ← freelistLoop «from» «to» layout.objectSize
  return ⟨freelist, 0, cache, mem⟩

/-- The entry that is popped lies at the address that it points to, so the test for `nullptr`
holds of the object at address 0 as well: it leaves the freelist, but does not count. -/
def allocate (s : Slab) : Nat × Slab :=
  match s.freelist with
  | [] => (0, s)
  | storage :: rest =>
      if storage.pointer = 0 then (0, { s with freelist := rest })
      else (storage.pointer, { s with freelist := rest, allocated := Word64.add s.allocated 1 })

def free (s : Slab) (ptr : Nat) : Bool × Slab :=
  if ptr < s.memory.fromAddress ∨ ptr ≥ s.memory.toAddress then (false, s)
  else (true, { s with
    freelist := ⟨ptr⟩ :: s.freelist
    allocated := Word64.sub s.allocated 1 })

end Slab

variable {σ : Type}

/-! ## The allocator of slabs -/

/-- `impl::Allocator`. -/
structure SlabAllocator where
  allocated : Nat
  layout : Layout

namespace SlabAllocator

def allocate (P : PhysicalMemory σ) (cache : Nat) (a : SlabAllocator) (w : World σ) :
    Option (Nat × SlabAllocator × World σ) := do
  match ← P.allocate w.phys a.layout.slabSize with
  | (none, phys) => return (0, a, { w with phys })
  | (some mem, phys) =>
      let slab := Word64.add mem.fromAddress a.layout.controlOffset
      let s ← Slab.new cache mem a.layout
      return (slab, { a with allocated := Word64.add a.allocated a.layout.slabSize },
        { w with phys }.setSlab slab s)

/-- The destructor panics when objects are allocated. -/
def free (P : PhysicalMemory σ) (a : SlabAllocator) (w : World σ) (slab : Nat) :
    Option (SlabAllocator × World σ) := do
  let s ← w.slabs slab
  if s.allocated ≠ 0 then none
  else
    let phys ← P.free w.phys s.memory
    return ({ a with allocated := Word64.sub a.allocated a.layout.slabSize },
      { w with phys }.setSlab slab none)

def find (a : SlabAllocator) (slabs : Nat → Option Slab) (ptr : Nat) : Option Nat := do
  let head := alignDown ptr a.layout.slabSize
  let slab := Word64.add head a.layout.controlOffset
  let s ← slabs slab
  if ptr < s.memory.fromAddress ∨ ptr ≥ s.memory.toAddress then return 0
  else return slab

end SlabAllocator

/-! ## Caches -/

structure Cache where
  layout : Layout
  allocator : SlabAllocator
  free_ : List Nat
  partial_ : List Nat
  full_ : List Nat
  allocated : Nat
  reclaimable : Nat

namespace Cache

def new (size alignment : Nat) : Option Cache := do
  let layout ← makeLayout size alignment
  return ⟨layout, ⟨0, layout⟩, [], [], [], 0, 0⟩

/-- `Occupied`. -/
def occupied (c : Cache) : Nat := c.allocator.allocated

/-- The slabs of the cache. -/
def slabs (c : Cache) : List Nat := c.free_ ++ (c.partial_ ++ c.full_)

def unlink (c : Cache) (slab : Nat) : Option Cache :=
  if slab ∈ c.slabs then
    some { c with
      free_ := c.free_.erase slab
      partial_ := c.partial_.erase slab
      full_ := c.full_.erase slab }
  else none

def pushFree (c : Cache) (slab : Nat) : Option Cache :=
  if slab ∈ c.slabs then none else some { c with free_ := slab :: c.free_ }

def pushPartial (c : Cache) (slab : Nat) : Option Cache :=
  if slab ∈ c.slabs then none else some { c with partial_ := slab :: c.partial_ }

def pushFull (c : Cache) (slab : Nat) : Option Cache :=
  if slab ∈ c.slabs then none else some { c with full_ := slab :: c.full_ }

/-- The loop of `Reclaim` over the slabs of `free_`. -/
def reclaimLoop (P : PhysicalMemory σ) (a : SlabAllocator) (w : World σ) :
    List Nat → Option (SlabAllocator × World σ)
  | [] => some (a, w)
  | slab :: rest => do
      let (a, w) ← a.free P w slab
      reclaimLoop P a w rest

def reclaim (P : PhysicalMemory σ) (c : Cache) (w : World σ) :
    Option (Bool × Cache × World σ) := do
  let (allocator, w) ← reclaimLoop P c.allocator w c.free_
  return (decide (c.reclaimable ≠ 0), { c with allocator, free_ := [], reclaimable := 0 }, w)

/-- The three branches of `Allocate`, up to the slab whose `Allocate` each of them
returns. The address 0 stands for `return nullptr`. -/
def selectSlab (P : PhysicalMemory σ) (this : Nat) (c : Cache) (w : World σ) :
    Option (Nat × Cache × World σ) :=
  match c.partial_ with
  | slab :: _ => do
      let s ← w.slabs slab
      let c ← (if Word64.add s.allocated 1 = c.layout.objects then do
          let c ← c.unlink slab
          c.pushFull slab
        else some c : Option Cache)
      return (slab, { c with allocated := Word64.add c.allocated c.layout.objectSize }, w)
  | [] =>
      match c.free_ with
      | slab :: rest => do
          let c ← { c with free_ := rest }.pushPartial slab
          return (slab, { c with
            allocated := Word64.add c.allocated c.layout.objectSize
            reclaimable := Word64.sub c.reclaimable c.layout.slabSize }, w)
      | [] => do
          let (slab, allocator, w) ← c.allocator.allocate P this w
          let c := { c with allocator }
          if slab = 0 then return (0, c, w)
          let c ← c.pushPartial slab
          return (slab, { c with allocated := Word64.add c.allocated c.layout.objectSize }, w)

def allocate (P : PhysicalMemory σ) (this : Nat) (c : Cache) (w : World σ) :
    Option (Nat × Cache × World σ) := do
  let (slab, c, w) ← c.selectSlab P this w
  if slab = 0 then return (0, c, w)
  let s ← w.slabs slab
  let (ptr, s) := s.allocate
  return (ptr, c, w.setSlab slab s)

/-- The two list moves of `Free`, for a slab with `allocated` objects left. -/
def relink (c : Cache) (slab allocated : Nat) : Option Cache := do
  let c ← (if allocated = 0 then do
      let c ← c.unlink slab
      let c ← c.pushFree slab
      return { c with reclaimable := Word64.add c.reclaimable c.layout.slabSize }
    else some c : Option Cache)
  if Word64.add allocated 1 = c.layout.objects then
    let c ← c.unlink slab
    c.pushPartial slab
  else return c

def free (this : Nat) (c : Cache) (w : World σ) (ptr : Nat) :
    Option (Bool × Cache × World σ) := do
  if ptr = 0 then return (false, c, w)
  let slab ← c.allocator.find w.slabs ptr
  if slab = 0 then return (false, c, w)
  let s ← w.slabs slab
  if s.cache ≠ this then none
  if s.allocated = 0 then return (false, c, w)
  let (ok, s) := s.free ptr
  if !ok then return (false, c, w)
  let c ← c.relink slab s.allocated
  return (true, { c with allocated := Word64.sub c.allocated c.layout.objectSize },
    w.setSlab slab s)

end Cache

end Aarch64.Cxx
