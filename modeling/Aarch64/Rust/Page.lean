import Aarch64.Rust.Core
import Mathlib.Data.Nat.Bitwise

/-!
# Page records and page lists

`kernel/memory/src/page.rs` packs the level and the free flag of a page into one
word. The getters and setters below are the source's mask expressions, and the
lemmas say that they behave like two independent fields. The intrusive link of a
page is represented by the list that holds the page, so `PageList` of
`kernel/memory/src/list.rs` is the list of its pages, each given by its position
in the page slice, from the head.
-/

namespace Aarch64.Rust

structure Page where
  state : BitVec 64
  deriving DecidableEq, Repr

namespace Page

def levelMask : BitVec 64 := 0x0ff
def freeMask : BitVec 64 := 0x100

def new : Page := ⟨0⟩

def level (p : Page) : Nat := (p.state &&& levelMask).toNat

/-- Panics when the level does not fit its field. -/
def setLevel (p : Page) (level : Nat) : Option Page :=
  if BitVec.ofNat 64 level &&& ~~~levelMask = 0#64 then
    some ⟨BitVec.ofNat 64 level ||| (p.state &&& ~~~levelMask)⟩
  else none

def isFree (p : Page) : Bool := (p.state &&& freeMask) != 0#64

def setFree (p : Page) : Page := ⟨p.state ||| freeMask⟩

def setBusy (p : Page) : Page := ⟨p.state &&& ~~~freeMask⟩

/-! ## The two fields are independent -/

private theorem or_and_of_disjoint {w : Nat} {s f m : BitVec w} (h : f &&& m = 0#w) :
    (s ||| f) &&& m = s &&& m := by
  rw [BitVec.and_comm, BitVec.and_or_distrib_left, BitVec.and_comm m f, h, BitVec.or_zero,
    BitVec.and_comm]

private theorem and_and_of_disjoint {w : Nat} {s f m : BitVec w} (h : f &&& m = 0#w) :
    s &&& f &&& m = 0#w := by
  rw [BitVec.and_assoc, h, BitVec.and_zero]

private theorem and_compl_and {w : Nat} {s f m : BitVec w} (h : ~~~f &&& m = m) :
    s &&& ~~~f &&& m = s &&& m := by
  rw [BitVec.and_assoc, h]

@[simp] theorem isFree_setFree (p : Page) : p.setFree.isFree = true := by
  have h : (p.state ||| freeMask) &&& freeMask = freeMask := by
    ext i
    simp only [BitVec.getElem_or, BitVec.getElem_and]
    cases freeMask[i] <;> simp
  rw [isFree, setFree, h]
  rfl

@[simp] theorem isFree_setBusy (p : Page) : p.setBusy.isFree = false := by
  rw [isFree, setBusy, and_and_of_disjoint rfl]
  rfl

@[simp] theorem level_setFree (p : Page) : p.setFree.level = p.level := by
  rw [level, level, setFree, or_and_of_disjoint rfl]

@[simp] theorem level_setBusy (p : Page) : p.setBusy.level = p.level := by
  rw [level, level, setBusy, and_compl_and rfl]

@[simp] theorem level_new : new.level = 0 := rfl

@[simp] theorem isFree_new : new.isFree = false := rfl

private theorem ofNat_and_levelMask {l : Nat} (hl : l < 256) :
    (BitVec.ofNat 64 l &&& levelMask).toNat = l := by
  rw [BitVec.toNat_and, BitVec.toNat_ofNat, Nat.mod_eq_of_lt (by omega)]
  exact Nat.and_two_pow_sub_one_of_lt_two_pow (n := 8) hl

private theorem ofNat_and_levelMask_self {l : Nat} (hl : l < 256) :
    BitVec.ofNat 64 l &&& levelMask = BitVec.ofNat 64 l := by
  apply BitVec.eq_of_toNat_eq
  rw [ofNat_and_levelMask hl, BitVec.toNat_ofNat, Nat.mod_eq_of_lt (by omega)]

/-- A level that fits its field is stored, and the free flag is kept. -/
theorem setLevel_spec (p : Page) {l : Nat} (hl : l < 256) :
    ∃ q, p.setLevel l = some q ∧ q.level = l ∧ q.isFree = p.isFree := by
  have hself := ofNat_and_levelMask_self hl
  have hfit : BitVec.ofNat 64 l &&& ~~~levelMask = 0#64 := by
    rw [← hself]
    exact and_and_of_disjoint rfl
  have hbusy : BitVec.ofNat 64 l &&& freeMask = 0#64 := by
    rw [← hself]
    exact and_and_of_disjoint rfl
  refine ⟨_, by rw [setLevel, if_pos hfit], ?_, ?_⟩
  · rw [level, or_and_of_disjoint (and_and_of_disjoint rfl)]
    exact ofNat_and_levelMask hl
  · rw [isFree, isFree, BitVec.or_comm, or_and_of_disjoint hbusy, and_compl_and rfl]

end Page

/-- The pages of an intrusive list from its head. -/
structure PageList where
  items : List Nat
  deriving DecidableEq, Repr

namespace PageList

def new : PageList := ⟨[]⟩

def push (l : PageList) (page : Nat) : PageList := ⟨page :: l.items⟩

def pop (l : PageList) : Option Nat × PageList :=
  match l.items with
  | [] => (none, l)
  | page :: rest => (some page, ⟨rest⟩)

/-- Unlinking a page that is not on the list would corrupt the links of another. -/
def remove (l : PageList) (page : Nat) : Option PageList :=
  if page ∈ l.items then some ⟨l.items.erase page⟩ else none

end PageList

end Aarch64.Rust
