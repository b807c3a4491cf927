import Aarch64.Cxx.Cache.Basic
import Mathlib.Logic.Function.Basic

/-!
# The heap of the bootstrap

`memory/alloc.cc`. Small allocations come from 32 caches and large ones straight from
`AllocatePhysical`. Each has a header in front of it, which says where it came from. A
cache is known by its position in `caches`. `metadata` holds the headers by their
addresses, and `bytes` what clients have stored. Reading a header where there is none
is `none`.
-/

namespace Aarch64.Cxx

def kMaxAlignment : Nat := 32

/-- `cache` is a pointer into `caches`, and `none` is `nullptr`. -/
structure Metadata where
  cache : Option (Fin 32)
  mem : Contigous
  deriving DecidableEq, Repr

/-- `sizeof(Metadata)`: a pointer and a `Contigous`. -/
def sizeofMetadata : Nat := 32

/-- The state behind `memory/alloc.h`. -/
structure Heap (σ : Type) where
  caches : Fin 32 → Cache
  world : World σ
  metadata : Nat → Option Metadata
  bytes : Nat → UInt8

namespace Heap

variable {σ : Type}

/-- The arguments of the constructors of `caches`. -/
def cacheSizes : Vector Nat 32 :=
  #v[128, 256, 384, 512, 640, 768, 896, 1024, 1152, 1280, 1408, 1536, 1664, 1792, 1920, 2048,
    2176, 2304, 2432, 2560, 2688, 2816, 2944, 3072, 3200, 3328, 3456, 3584, 3712, 3840, 3968, 4096]

theorem cacheSizes_some (i : Fin 32) : (Cache.new (cacheSizes.get i) (cacheSizes.get i)).isSome := by
  decide +kernel +revert

/-- The caches as the constructors leave them. -/
def newCaches (i : Fin 32) : Cache :=
  (Cache.new (cacheSizes.get i) (cacheSizes.get i)).get (cacheSizes_some i)

def new (phys : σ) : Heap σ := ⟨newCaches, ⟨phys, fun _ => none⟩, fun _ => none, fun _ => 0⟩

def cacheFor (size : Nat) : Option (Fin 32) :=
  let index := size / 128
  if h : index < 32 then some ⟨index, h⟩ else none

def metadataSize : Nat := alignUp sizeofMetadata kMaxAlignment

/-- `MetadataFor`: the address of the header. -/
def metadataFor (ptr : Nat) : Nat := Word64.sub ptr metadataSize

def setMetadata (h : Heap σ) (header : Nat) (m : Option Metadata) : Heap σ :=
  { h with metadata := Function.update h.metadata header m }

def setCache (h : Heap σ) (i : Fin 32) (cache : Cache) (world : World σ) : Heap σ :=
  { h with caches := Function.update h.caches i cache, world }

def setPhys (h : Heap σ) (phys : σ) : Heap σ := { h with world := { h.world with phys } }

def allocate (P : PhysicalMemory σ) (h : Heap σ) (size : Nat) : Option (Nat × Heap σ) :=
  let allocationSize := Word64.add size metadataSize
  match cacheFor allocationSize with
  | some i => do
      let (ptr, cache, world) ← (h.caches i).allocate P i h.world
      let h := h.setCache i cache world
      if ptr = 0 then return (0, h)
      return (Word64.add ptr metadataSize, h.setMetadata ptr (some ⟨some i, Contigous.null⟩))
  | none => do
      match ← P.allocate h.world.phys allocationSize with
      | (some mem, phys) =>
          return (Word64.add mem.fromAddress metadataSize,
            (h.setPhys phys).setMetadata mem.fromAddress (some ⟨none, mem⟩))
      | (none, phys) => return (0, h.setPhys phys)

/-- A header that has been freed is not read again, so it is dropped. -/
def free (P : PhysicalMemory σ) (h : Heap σ) (ptr : Nat) : Option (Heap σ) := do
  let header := metadataFor ptr
  let m ← h.metadata header
  match m.cache with
  | some i =>
      let (_, cache, world) ← (h.caches i).free i h.world header
      return (h.setCache i cache world).setMetadata header none
  | none =>
      let phys ← P.free h.world.phys m.mem
      return (h.setPhys phys).setMetadata header none

/-- The two tests after which `Reallocate` returns its argument. -/
def fitsInPlace (h : Heap σ) (m : Metadata) (newSize : Nat) : Bool :=
  (match m.cache with
  | some i => decide ((h.caches i).layout.objectSize ≥ newSize)
  | none => false) || !m.mem.isNull && decide (m.mem.size ≥ newSize)

/-- `old_size` behind the two tests. -/
def oldSize (h : Heap σ) (m : Metadata) : Nat :=
  if m.mem.isNull then
    match m.cache with
    | some i => Word64.sub (h.caches i).layout.objectSize metadataSize
    | none => 0
  else Word64.sub m.mem.size metadataSize

def memcpy (bytes : Nat → UInt8) (dst src n : Nat) : Nat → UInt8 :=
  fun a => if dst ≤ a ∧ a < dst + n then bytes (src + (a - dst)) else bytes a

def reallocate (P : PhysicalMemory σ) (h : Heap σ) (ptr newSize : Nat) :
    Option (Nat × Heap σ) := do
  let m ← h.metadata (metadataFor ptr)
  if h.fitsInPlace m newSize then return (ptr, h)
  let (newPtr, h') ← h.allocate P newSize
  if newPtr = 0 then return (0, h')
  let h' := { h' with bytes := memcpy h'.bytes newPtr ptr (h.oldSize m) }
  let h' ← h'.free P ptr
  return (newPtr, h')

end Heap

end Aarch64.Cxx
