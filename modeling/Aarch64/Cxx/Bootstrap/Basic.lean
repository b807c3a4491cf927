import Aarch64.Cxx.Fdt.Blob
import Aarch64.Cxx.MemoryMap.Register
import Aarch64.Lib.Word

/-!
# The memory map that the bootstrap builds

`bootstrap/memory.cc` up to the reservations. The functions change the map in place and
say whether they succeed: a call is `ok` or `err` with the map that it leaves behind. The
walk is over the tokens of the root; a child of the root is looked into if its name
starts with `memory`, and skipped in any case.
-/

namespace Aarch64.Cxx.Bootstrap

open Aarch64.Cxx.Fdt (Node Scanner Property Span Blob)

variable (buf : List UInt8)

/-! ## Ranges -/

/-- `*it`. An element that cannot be read is left uninitialised. -/
def element (a n : Nat) (span : Span) (it : Nat) : Outcome MemoryMap (Nat × Nat) :=
  match span.at buf a n it with
  | .ok range => .ok range
  | .err _ => .fault
  | .fault => .fault

def registerRange (begin size : Nat) (mmap : MemoryMap) : Outcome MemoryMap MemoryMap :=
  match mmap.register begin (Word64.add begin size) .free with
  | some (true, mmap) => .ok mmap
  | some (false, mmap) => .err mmap
  | none => .fault

/-- The loop over the elements of the span from `it` on. -/
def regionsLoop (a n : Nat) (span : Span) :
    (rounds it : Nat) → MemoryMap → Outcome MemoryMap MemoryMap
  | 0, _, mmap => .ok mmap
  | rounds + 1, it, mmap => do
      let (begin, _) ← element buf a n span it
      let (_, size) ← element buf a n span it
      let mmap ← registerRange begin size mmap
      regionsLoop a n span rounds (it + 1) mmap

/-- The four cases of `RegisterRegions` differ in the types of the two numbers, which
take `a` and `n` bytes. -/
def registerSpan (property : Property) (a n : Nat) (mmap : MemoryMap) :
    Outcome MemoryMap MemoryMap :=
  match property.valueAsSpan (a + n) with
  | some span => regionsLoop buf a n span span.size 0 mmap
  | none => .err mmap

def registerRegions (property : Property) (address size : Nat) (mmap : MemoryMap) :
    Outcome MemoryMap MemoryMap :=
  if address = 1 ∧ size = 1 then registerSpan buf property 4 4 mmap
  else if address = 2 ∧ size = 2 then registerSpan buf property 8 8 mmap
  else if address = 1 ∧ size = 2 then registerSpan buf property 4 8 mmap
  else if address = 2 ∧ size = 1 then registerSpan buf property 8 4 mmap
  else .err mmap

/-! ## Nodes -/

variable (blob : Blob)

def parseMemoryNode (pos : Scanner) (address size : Nat) (mmap : MemoryMap) :
    Outcome MemoryMap MemoryMap :=
  match Blob.tokenAt buf pos with
  | .ok .prop =>
      match _h : Blob.consumeProperty buf blob pos with
      | .ok (property, pos') =>
          if StringView.eq property.name (Bytes.ofString "reg") then
            registerRegions buf property address size mmap
          else parseMemoryNode pos' address size mmap
      | .err _ => .err mmap
      | .fault => .fault
  | .ok .endNode => .ok mmap
  | .ok _ => .err mmap
  | .err _ => .err mmap
  | .fault => .fault
termination_by pos.size - pos.off
decreasing_by
  have := Fdt.consumeProperty_advances ‹_›
  omega

/-- A child of the root is looked into if its name starts so. -/
def parseChild (node : Node) (pos : Scanner) (address size : Nat) (mmap : MemoryMap) :
    Outcome MemoryMap MemoryMap :=
  if StringView.startsWith node.name (Bytes.ofString "memory") then
    parseMemoryNode buf blob pos address size mmap
  else .ok mmap

/-- The number of cells after a property, which is read from the property with this name. -/
def readCells (name : String) (property : Property) (cells : Nat) (mmap : MemoryMap) :
    Outcome MemoryMap Nat :=
  if StringView.eq property.name (Bytes.ofString name) then
    (property.valueAsBe32 buf).replaceErr mmap
  else .ok cells

/-- The variables of the loop of `RegisterMemory`. -/
structure Walk where
  pos : Scanner
  addressCells : Nat
  sizeCells : Nat
  mmap : MemoryMap

/-- One round of the loop of `RegisterMemory`: the map at the end, or what to go on with. -/
def registerRound (w : Walk) : Outcome MemoryMap (MemoryMap ⊕ Walk) := do
  let token ← (Blob.tokenAt buf w.pos).replaceErr w.mmap
  match token with
  | .stop => return .inl w.mmap
  | .prop => do
      let (property, pos) ← (Blob.consumeProperty buf blob w.pos).replaceErr w.mmap
      let sizeCells ← readCells buf "#size-cells" property w.sizeCells w.mmap
      let addressCells ← readCells buf "#address-cells" property w.addressCells w.mmap
      return .inr ⟨pos, addressCells, sizeCells, w.mmap⟩
  | .beginNode => do
      let (node, pos) ← (Blob.consumeStartNode buf w.pos).replaceErr w.mmap
      let mmap ← parseChild buf blob node pos w.addressCells w.sizeCells w.mmap
      let pos ← (Blob.skipNode buf blob pos).replaceErr mmap
      return .inr { w with pos, mmap }
  | .nop => do
      let pos ← (Blob.consumeNop buf w.pos).replaceErr w.mmap
      return .inr { w with pos }
  | .endNode => do
      let pos ← (Blob.consumeEndNode buf w.pos).replaceErr w.mmap
      return .inr { w with pos }

variable {buf blob} in
theorem registerRound_advances {w w' : Walk} (h : registerRound buf blob w = .ok (.inr w')) :
    w'.pos.size = w.pos.size ∧ w.pos.off + 4 ≤ w'.pos.off ∧ w'.pos.off ≤ w'.pos.size := by
  obtain ⟨token, _, h⟩ := Outcome.bind_eq_ok_iff.mp h
  cases token with
  | beginNode =>
      obtain ⟨⟨node, pos⟩, hnode, h⟩ := Outcome.bind_eq_ok_iff.mp h
      obtain ⟨mmap, _, h⟩ := Outcome.bind_eq_ok_iff.mp h
      obtain ⟨pos', hskip, h⟩ := Outcome.bind_eq_ok_iff.mp h
      cases h
      obtain ⟨hsize, hoff, _⟩ := Fdt.parseStartNode_advances
        (Outcome.replaceErr_eq_ok_iff.mp (Outcome.replaceErr_eq_ok_iff.mp hnode))
      obtain ⟨hsize', hoff', hle'⟩ := Blob.skipLoop_advances
        (Outcome.replaceErr_eq_ok_iff.mp (Outcome.replaceErr_eq_ok_iff.mp hskip))
      exact ⟨hsize'.trans hsize, by dsimp only; omega, hle'⟩
  | endNode =>
      obtain ⟨pos, hpos, h⟩ := Outcome.bind_eq_ok_iff.mp h
      cases h
      obtain ⟨hsize, hoff, hle⟩ :=
        Fdt.ensureToken_advances (Outcome.replaceErr_eq_ok_iff.mp hpos)
      exact ⟨hsize, Nat.le_of_eq hoff.symm, hle⟩
  | prop =>
      obtain ⟨⟨property, pos⟩, hprop, h⟩ := Outcome.bind_eq_ok_iff.mp h
      obtain ⟨sizeCells, _, h⟩ := Outcome.bind_eq_ok_iff.mp h
      obtain ⟨addressCells, _, h⟩ := Outcome.bind_eq_ok_iff.mp h
      cases h
      exact Fdt.consumeProperty_advances (Outcome.replaceErr_eq_ok_iff.mp hprop)
  | nop =>
      obtain ⟨pos, hpos, h⟩ := Outcome.bind_eq_ok_iff.mp h
      cases h
      obtain ⟨hsize, hoff, hle⟩ :=
        Fdt.ensureToken_advances (Outcome.replaceErr_eq_ok_iff.mp hpos)
      exact ⟨hsize, Nat.le_of_eq hoff.symm, hle⟩
  | stop => cases h

def registerLoop (w : Walk) : Outcome MemoryMap MemoryMap :=
  match _h : registerRound buf blob w with
  | .ok (.inl mmap) => .ok mmap
  | .ok (.inr w') => registerLoop w'
  | .err mmap => .err mmap
  | .fault => .fault
termination_by w.pos.size - w.pos.off
decreasing_by
  have := registerRound_advances ‹_›
  omega

def registerMemory (mmap : MemoryMap) : Outcome MemoryMap MemoryMap :=
  registerLoop buf blob ⟨blob.root.offset, 2, 2, mmap⟩

end Aarch64.Cxx.Bootstrap
