import Aarch64.Lib.Word

/-!
# Zones of the bootstrap

`Zone` of `memory/memory.cc`. A `Page*` is a position in the page array of the
zone, the array is the list of its records, and `Pages()` is its length. Page
offsets are absolute, so they are positions shifted by `Offset()`. The free lists
are intrusive: linking a page that is linked already, and unlinking a page from a
list that does not hold it, is `none`, like an access outside the array.
-/

namespace Aarch64.Cxx

def kMaxOrder : Nat := 20
def kPageBits : Nat := 12

structure Page where
  flags : BitVec 64
  order : Nat
  deriving DecidableEq, Repr

def kPageFree : BitVec 64 := 1

namespace Page

/-- A record of the array after `memset(page, 0, bytes)`. -/
def zero : Page := ⟨0, 0⟩

def isFree (p : Page) : Bool := (p.flags &&& kPageFree) != 0#64

def setFree (p : Page) : Page := { p with flags := p.flags ||| kPageFree }

def clearFree (p : Page) : Page := { p with flags := p.flags &&& ~~~kPageFree }

@[simp] theorem isFree_setFree (p : Page) : p.setFree.isFree = true := by
  have h : (p.flags ||| kPageFree) &&& kPageFree = kPageFree := by
    ext i
    simp only [BitVec.getElem_or, BitVec.getElem_and]
    cases kPageFree[i] <;> simp
  rw [isFree, setFree, h]
  rfl

@[simp] theorem isFree_clearFree (p : Page) : p.clearFree.isFree = false := by
  rw [isFree, clearFree, BitVec.and_assoc, show ~~~kPageFree &&& kPageFree = 0#64 from rfl,
    BitVec.and_zero]
  rfl

@[simp] theorem order_setFree (p : Page) : p.setFree.order = p.order := rfl

@[simp] theorem order_clearFree (p : Page) : p.clearFree.order = p.order := rfl

end Page

/-- The array of 32-byte records and the addresses of the zone are those of a
64-bit machine. -/
structure Zone where
  page : List Page
  available : Nat
  fromAddress : Nat
  toAddress : Nat
  free : Vector (List Nat) (kMaxOrder + 1)
  page_fits : page.length * 32 ≤ 2 ^ 64
  fromAddress_lt : fromAddress < 2 ^ 64

namespace Zone

/-- A new zone in zero-filled storage: the constructor does not set `available_`. -/
def new (page : List Page) (fromAddress toAddress : Nat) (hfits : page.length * 32 ≤ 2 ^ 64)
    (hfrom : fromAddress < 2 ^ 64) : Zone :=
  ⟨page, 0, fromAddress, toAddress, Vector.replicate _ [], hfits, hfrom⟩

def offset (z : Zone) : Nat := z.fromAddress >>> kPageBits

def pages (z : Zone) : Nat := z.page.length

def pageOffset (z : Zone) (page : Nat) : Nat := Word64.add z.offset page

def pageAddress (z : Zone) (page : Nat) : Nat :=
  Word64.add z.fromAddress (Word64.shl page kPageBits)

def buddyOffset (offset order : Nat) : Nat := offset ^^^ Word64.shl 1 order

/-! ## Accesses to the array and to one free list -/

/-- The position of `&page_[offset - Offset()]`. -/
def pageAt (z : Zone) (offset : Nat) : Nat := Word64.sub offset z.offset

/-- Write one record. -/
def setPage (z : Zone) (page : Nat) (p : Page) : Zone :=
  { z with
    page := z.page.set page p
    page_fits := by rw [List.length_set]; exact z.page_fits }

/-- Whether the page is on one of the free lists. -/
def linked (z : Zone) (page : Nat) : Bool := z.free.toList.any fun l => decide (page ∈ l)

/-- `LinkAt` at the begin of a list. -/
def link (z : Zone) (order page : Nat) : Option Zone :=
  if h : order < kMaxOrder + 1 then
    if z.linked page then none
    else some { z with free := z.free.set order (page :: z.free[order]) }
  else none

def unlink (z : Zone) (order page : Nat) : Option Zone :=
  if h : order < kMaxOrder + 1 then
    if page ∈ z.free[order] then
      some { z with free := z.free.set order (z.free[order].erase page) }
    else none
  else none

/-- `PopFront`, where no page stands for the test with `Empty`. -/
def popFront (z : Zone) (order : Nat) : Option (Option Nat × Zone) :=
  if h : order < kMaxOrder + 1 then
    match z.free[order] with
    | [] => some (none, z)
    | page :: rest => some (some page, { z with free := z.free.set order rest })
  else none

/-! ## Allocation -/

/-- The loop of `Split` over the orders still to be split off. -/
def splitLoop (z : Zone) (pageOffset : Nat) : List Nat → Option Zone
  | [] => some z
  | order :: rest => do
      let buddy := z.pageAt (buddyOffset pageOffset order)
      let p ← z.page[buddy]?
      let z ← (z.setPage buddy { p with order }.setFree).link order buddy
      splitLoop z pageOffset rest

def split (z : Zone) (page «from» «to» : Nat) : Option Zone := do
  let z ← z.splitLoop (z.pageOffset page) ( List.range' «to» («from» - «to»)).reverse
  let p ← z.page[page]?
  return z.setPage page { p with order := «to» }.clearFree

/-- The loop of `AllocatePages` over the orders still to be tried. -/
def allocateLoop (z : Zone) (order : Nat) : List Nat → Option (Option Nat × Zone)
  | [] => some (none, z)
  | «from» :: rest => do
      match ← z.popFront «from» with
      | (none, z) => allocateLoop z order rest
      | (some page, z) =>
          let z := { z with available := Word64.sub z.available (Word64.shl 1 order) }
          let z ← z.split page «from» order
          return (some page, z)

def allocatePages (z : Zone) (order : Nat) : Option (Option Nat × Zone) :=
  z.allocateLoop order (List.range' order (kMaxOrder + 1 - order))

/-! ## Freeing -/

/-- The loop of `Unite`, which returns the page and the order it stopped at. -/
def uniteLoop (z : Zone) (page pageOffset order : Nat) : Option (Zone × Nat × Nat) :=
  if order < kMaxOrder then
    let buddyOffset := buddyOffset pageOffset order
    if buddyOffset < z.offset ∨ Word64.sub buddyOffset z.offset ≥ z.pages then
      some (z, page, order)
    else do
      let buddy := z.pageAt buddyOffset
      let p ← z.page[buddy]?
      if p.order ≠ order ∨ p.isFree = false then return (z, page, order)
      else
        let z ← z.unlink order buddy
        uniteLoop z (min page buddy) (min pageOffset buddyOffset) (order + 1)
  else some (z, page, order)
termination_by kMaxOrder - order

def unite (z : Zone) (page «from» : Nat) : Option Zone := do
  let (z, page, order) ← z.uniteLoop page (z.pageOffset page) «from»
  let p ← z.page[page]?
  (z.setPage page { p with order }.setFree).link order page

/-- `FreePages` of a page. Shifting by 64 or more is undefined. -/
def freePages (z : Zone) (page : Nat) : Option Zone := do
  let p ← z.page[page]?
  let z ← z.unite page p.order
  if p.order < 64 then
    return { z with available := Word64.add z.available (Word64.shl 1 p.order) }
  else none

/-- `FreePages` of an address. -/
def freePagesAt (z : Zone) (addr : Nat) : Option Zone := z.freePages (z.pageAt (addr >>> kPageBits))

/-- `FreePages` of an address with an order, which is stored first. -/
def freePagesOrder (z : Zone) (addr order : Nat) : Option Zone := do
  let page := z.pageAt (addr >>> kPageBits)
  let p ← z.page[page]?
  (z.setPage page { p with order }).freePages page

end Zone

end Aarch64.Cxx
