import Aarch64.Lib.Buddy.Invariant
import Aarch64.Lib.Word
import Aarch64.Rust.Page

/-!
# The buddy allocator of the Rust kernel

`BuddySystem` of `kernel/memory/src/buddy.rs`. Pages are named in two ways, as in
the source: by their position in the page slice, where the source holds a
reference, and by their absolute index, which is the position shifted by the
offset of the zone. Arithmetic on indices wraps, as it does in the release build.
The page lists are intrusive, so pushing a page that is linked already, or
removing one that is not on the list, is `none` like a panic.
-/

namespace Aarch64.Rust

def LEVELS : Nat := 20

structure BuddySystem where
  free : Vector PageList LEVELS
  pages : Slice Page
  offset : Nat

namespace BuddySystem

def new (pages : Slice Page) (offset : Nat) : BuddySystem :=
  ⟨Vector.replicate LEVELS PageList.new, pages, offset⟩

def pageRange (s : BuddySystem) : Range := ⟨s.offset, Word64.add s.offset s.pages.len⟩

def pageIndex (s : BuddySystem) (page : Nat) : Nat := Word64.add s.offset page

def pageOffset (s : BuddySystem) (index : Nat) : Nat := Word64.sub index s.offset

def buddyIndex (index order : Nat) : Nat := index ^^^ 1 <<< order

/-- Whether the page is on one of the free lists. -/
def linked (s : BuddySystem) (page : Nat) : Bool :=
  s.free.toList.any fun l => decide (page ∈ l.items)

/-! ## Accesses to one free list -/

def pushFree (s : BuddySystem) (level page : Nat) : Option BuddySystem :=
  if h : level < LEVELS then
    if s.linked page then none
    else some { s with free := s.free.set level (s.free[level].push page) }
  else none

def popFree (s : BuddySystem) (level : Nat) : Option (Option Nat × BuddySystem) :=
  if h : level < LEVELS then
    let (page, rest) := s.free[level].pop
    some (page, { s with free := s.free.set level rest })
  else none

def removeFree (s : BuddySystem) (level page : Nat) : Option BuddySystem :=
  if h : level < LEVELS then
    (s.free[level].remove page).map fun rest => { s with free := s.free.set level rest }
  else none

/-- Write the state of one page through its cell. -/
def setPage (s : BuddySystem) (page : Nat) (p : Page) : BuddySystem :=
  { s with pages := s.pages.set page p }

/-! ## Allocation -/

/-- The loop of `split_and_return` over the levels still to be split off. -/
def splitLoop (s : BuddySystem) (index : Nat) : List Nat → Option BuddySystem
  | [] => some s
  | level :: rest => do
      let buddy := s.pageOffset (buddyIndex index level)
      let p ← s.pages.get buddy
      let p ← p.setLevel level
      let s ← (s.setPage buddy p.setFree).pushFree level buddy
      splitLoop s index rest

def splitAndReturn (s : BuddySystem) (page index order : Nat) : Option BuddySystem := do
  let p ← s.pages.get page
  splitLoop s index (List.range' order (p.level - order)).reverse

/-- The loop of `allocate_pages` over the levels still to be tried. -/
def allocateLoop (s : BuddySystem) (order : Nat) : List Nat → Option (Option Nat × BuddySystem)
  | [] => some (none, s)
  | level :: rest => do
      match ← s.popFree level with
      | (none, s) => allocateLoop s order rest
      | (some page, s) =>
          let index := s.pageIndex page
          let s ← s.splitAndReturn page index order
          let p ← s.pages.get page
          let p ← p.setBusy.setLevel order
          return (some index, s.setPage page p)

def allocatePages (s : BuddySystem) (order : Nat) : Option (Option Nat × BuddySystem) :=
  s.allocateLoop order (List.range' order (LEVELS - order))

/-! ## Freeing -/

/-- The loop of `free_pages_at_level`, which returns where the merging stopped. -/
def mergeLoop (s : BuddySystem) (index level : Nat) : Option (BuddySystem × Nat × Nat) :=
  if level < LEVELS - 1 then
    let buddy := buddyIndex index level
    if !s.pageRange.contains buddy then some (s, index, level)
    else do
      let p ← s.pages.get (s.pageOffset buddy)
      if !p.isFree then return (s, index, level)
      else if p.level ≠ level then return (s, index, level)
      else
        let s ← s.removeFree level (s.pageOffset buddy)
        mergeLoop s (min index buddy) (level + 1)
  else some (s, index, level)
termination_by LEVELS - 1 - level

def freePagesAtLevel (s : BuddySystem) (index level : Nat) : Option BuddySystem := do
  let (s, index, level) ← s.mergeLoop index level
  let page := s.pageOffset index
  let p ← s.pages.get page
  let p ← p.setFree.setLevel level
  (s.setPage page p).pushFree level page

def freePages (s : BuddySystem) (index : Nat) : Option BuddySystem := do
  let p ← s.pages.get (s.pageOffset index)
  s.freePagesAtLevel index p.level

end BuddySystem

end Aarch64.Rust
