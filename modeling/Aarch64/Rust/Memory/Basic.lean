import Aarch64.Rust.MemoryMap.Basic
import Aarch64.Rust.Zone

/-!
# Page memory of the Rust kernel

`Memory` of `kernel/memory/src/lib.rs`. `Memory::new` works on a copy of the
memory map: it allocates the array of zones and one array of `Page`s for each
zone from it, and then hands the whole pages of what is still free to the zones.
An array in memory is a `Slice`, an address with the elements.
-/

namespace Aarch64.Rust

/-- `mem::size_of::<Page>()`: two links and the state. -/
def sizeOfPage : Nat := 24

/-- `mem::size_of::<Zone>()`: twenty lists of three words, the page slice, the
offset and the page range. -/
def sizeOfZone : Nat := 520

/-- `mem::align_of` of both types. -/
def alignOfWord : Nat := 8

def PAGE_SIZE : Nat := 4096

structure Memory where
  zones : Slice Zone
  pageSize : Nat

/-! ## Setting up -/

/-- The two assertions about the page size. -/
def pageSizeOk (pageSize : Nat) : Prop :=
  pageSize &&& Word64.sub pageSize 1 = 0 ∧ alignOfWord ≤ pageSize

instance (pageSize : Nat) : Decidable (pageSizeOk pageSize) := inferInstanceAs (Decidable (_ ∧ _))

/-- `slice::from_raw_parts` in an `Option`. A reference is never null, so the `Option` of one at
address 0 is `None`. -/
def sliceAt {α : Type} (addr : Nat) (items : List α) : Option (Slice α) :=
  if addr = 0 then none else some ⟨addr, items⟩

@[simp] theorem sliceAt_eq_some_iff {α : Type} {addr : Nat} {items : List α} {s : Slice α} :
    sliceAt addr items = some s ↔ addr ≠ 0 ∧ ⟨addr, items⟩ = s := by
  rw [sliceAt]
  split
  next hzero => simp [hzero]
  next hne => simp [hne]

/-- An array of zeroed pages for the zone, close to the zone if possible. -/
def createPages (zone : Range) (pageSize : Nat) (malloc : MemoryMap) :
    Option (Option (Slice Page) × MemoryMap) :=
  let pages := Word64.sub zone.stop zone.start / pageSize
  let bytes := Word64.mul pages sizeOfPage
  if pageSizeOk pageSize then do
    let (addr, malloc) ← malloc.allocateWithHint zone bytes pageSize
    return (addr.bind fun addr => sliceAt addr (List.replicate pages Page.new), malloc)
  else none

/-- The loop of `create_zones`, which unwraps each array of pages. -/
def createZonesLoop (pageSize : Nat) :
    List MemoryRange → MemoryMap → Option (List Zone × MemoryMap)
  | [], malloc => some ([], malloc)
  | zone :: rest, malloc => do
      let start ← Numeric.alignUp zone.range.start pageSize
      let stop ← Numeric.alignDown zone.range.stop pageSize
      let (pages, malloc) ← createPages ⟨start, stop⟩ pageSize malloc
      let pages ← pages
      let (zones, malloc) ← createZonesLoop pageSize rest malloc
      return (Zone.new pages (start / pageSize) :: zones, malloc)

def createZones (pageSize : Nat) (mmap malloc : MemoryMap) :
    Option (Option (Slice Zone) × MemoryMap) :=
  let bytes := Word64.mul mmap.zones.length sizeOfZone
  if pageSizeOk pageSize then do
    match ← malloc.allocate bytes pageSize with
    | (some addr, malloc) => do
        let (zones, malloc) ← createZonesLoop pageSize mmap.zones malloc
        return (sliceAt addr zones, malloc)
    | (none, malloc) => return (none, malloc)
  else none

/-- Free the whole pages of each fragment. -/
def freeFragments : Zone → List MemoryRange → Option Zone
  | zone, [] => some zone
  | zone, mem :: rest => do
      let start ← Numeric.alignUp mem.range.start PAGE_SIZE
      let stop ← Numeric.alignDown mem.range.stop PAGE_SIZE
      let zone ← zone.freePageRange ⟨start / PAGE_SIZE, stop / PAGE_SIZE⟩
      freeFragments zone rest

/-- The body of the loop of `Memory::new` over the zones. -/
def seedZone (malloc : MemoryMap) (zone : Zone) : Option Zone :=
  let pages := zone.pageRange
  let start := Word64.mul pages.start PAGE_SIZE
  let stop := Word64.mul pages.stop PAGE_SIZE
  freeFragments zone (malloc.freeMemoryInRange ⟨start, stop⟩)

namespace Memory

def new (mmap : MemoryMap) : Option Memory := do
  let (zones, malloc) ← createZones PAGE_SIZE mmap mmap
  let zones ← zones
  let items ← zones.items.mapM (seedZone malloc)
  return ⟨⟨zones.ptr, items⟩, PAGE_SIZE⟩

/-! ## Allocating and freeing -/

def pageAddress (m : Memory) (page : Nat) : Nat := Word64.mul m.pageSize page

def addressPage (m : Memory) (addr : Nat) : Nat := addr / m.pageSize

/-- The first zone that has a block, and the zones after the call. -/
def allocateLoop (order : Nat) : List Zone → Option (Option Nat × List Zone)
  | [] => some (none, [])
  | zone :: rest => do
      match ← zone.allocatePages order with
      | (some index, zone) => return (some index, zone :: rest)
      | (none, zone) => do
          let (index, rest) ← allocateLoop order rest
          return (index, zone :: rest)

def allocatePages (m : Memory) (order : Nat) : Option (Option Nat × Memory) := do
  let (index, zones) ← allocateLoop order m.zones.items
  return (index.map m.pageAddress, { m with zones := ⟨m.zones.ptr, zones⟩ })

/-- The zone that contains the page takes it back. No such zone is a panic. -/
def freeLoop (page : Nat) : List Zone → Option (List Zone)
  | [] => none
  | zone :: rest =>
      if zone.contains page then do
        let zone ← zone.freePages page
        return zone :: rest
      else do
        let rest ← freeLoop page rest
        return zone :: rest

def freePages (m : Memory) (addr : Nat) : Option Memory :=
  if addr &&& Word64.sub m.pageSize 1 = 0 then do
    let zones ← freeLoop (m.addressPage addr) m.zones.items
    return { m with zones := ⟨m.zones.ptr, zones⟩ }
  else none

end Memory

end Aarch64.Rust
