import Aarch64.Fdt.Format
import Aarch64.Lib.Word
import Aarch64.Rust.DeviceTree.Basic

/-!
# Parsing a flattened device tree

`parse` of `kernel/devicetree/src/fdt.rs`. The nodes are read by a loop over tokens
with a stack of the nodes that are not finished. Each round of a loop consumes bytes,
so the loops end.
-/

namespace Aarch64.Rust

open Fdt (Header)

/-! ## The header and the reservations -/

def parseHeader (fdt : List UInt8) : Outcome String Header := do
  let scanner := Scanner.new fdt
  let (magic, scanner) ← scanner.consumeBe32
  let (totalsize, scanner) ← scanner.consumeBe32
  let (offDtStruct, scanner) ← scanner.consumeBe32
  let (offDtStrings, scanner) ← scanner.consumeBe32
  let (offMemRsvmap, scanner) ← scanner.consumeBe32
  let (version, scanner) ← scanner.consumeBe32
  let (lastCompVersion, scanner) ← scanner.consumeBe32
  let (bootCpuidPhys, scanner) ← scanner.consumeBe32
  let (sizeDtStrings, scanner) ← scanner.consumeBe32
  let (sizeDtStruct, _) ← scanner.consumeBe32
  return ⟨magic, totalsize, offDtStruct, offDtStrings, offMemRsvmap, version, lastCompVersion,
    bootCpuidPhys, sizeDtStrings, sizeDtStruct⟩

/-- One round of the loop of `parse_reserved`: the next range, or none at the end. -/
def reservedRound (scanner : Scanner) : Outcome String (Option Range × Scanner) := do
  let (addr, scanner) ← scanner.consumeBe64
  let (size, scanner) ← scanner.consumeBe64
  if addr = 0 ∧ size = 0 then return (none, scanner)
  return (some ⟨addr, Word64.add addr size⟩, scanner)

namespace Scanner

variable {s s' : Scanner}

/-- Only the offset of a scanner changes, and it never goes back. -/
def Advances (s s' : Scanner) : Prop := s'.data = s.data ∧ s.offset ≤ s'.offset

theorem Advances.refl (s : Scanner) : s.Advances s := ⟨rfl, Nat.le_refl _⟩

theorem Advances.trans {s'' : Scanner} (h : s.Advances s') (h' : s'.Advances s'') :
    s.Advances s'' := ⟨h'.1.trans h.1, h.2.trans h'.2⟩

/-- After a number was read the rest is shorter. -/
theorem remains_lt_of_consumeBe {n x : Nat} {mismatch : String} (hn : 0 < n)
    (h : s.consumeBe n mismatch = .ok (x, s')) :
    s'.remains < s.remains ∧ s'.offset ≤ s'.data.length ∧ s.Advances s' := by
  rcases consumeBe_cases s n mismatch with ⟨bytes, hlen, hprefix, hcall⟩ | ⟨_, hcall⟩
  · have hle := Bytes.add_length_le_of_prefix_drop hprefix (by omega)
    rw [hcall] at h
    cases h
    refine ⟨?_, by change s.offset + n ≤ s.data.length; omega, rfl, Nat.le_add_right _ _⟩
    change s.data.length - (s.offset + n) < s.data.length - s.offset
    omega
  · rw [hcall] at h
    cases h

theorem Advances.remains_le (h : s.Advances s') : s'.remains ≤ s.remains := by
  rw [remains, remains, h.1]
  have := h.2
  omega

theorem consumeData_advances {n : Nat} {value : List UInt8}
    (h : s.consumeData n = .ok (value, s')) : s.Advances s' := by
  rcases consumeData_cases s n with ⟨_, _, _, hcall⟩ | ⟨_, hcall⟩
  · rw [hcall] at h
    cases h
    exact ⟨rfl, Nat.le_add_right _ _⟩
  · rw [hcall] at h
    cases h

theorem consumeCstr_advances {name : List UInt8} (hs : s.offset ≤ s.data.length)
    (h : s.consumeCstr = .ok (name, s')) : s.Advances s' := by
  rcases consumeCstr_cases hs with ⟨_, _, _, _, hcall⟩ | ⟨_, _, hcall⟩
  · rw [hcall] at h
    cases h
    exact ⟨rfl, Nat.le_add_right _ _⟩
  · rw [hcall] at h
    cases h

theorem alignForward_advances {alignment : Nat} (h : s.alignForward alignment = .ok s') :
    s.Advances s' := by
  rw [alignForward] at h
  split at h
  next =>
    cases h
    exact .refl s
  next =>
    dsimp only at h
    split at h
    next => cases h
    next =>
      cases h
      exact ⟨rfl, Nat.le_add_right _ _⟩

end Scanner

theorem reservedRound_remains {s s' : Scanner} {range : Option Range}
    (h : reservedRound s = .ok (range, s')) : s'.remains < s.remains := by
  obtain ⟨⟨addr, s₁⟩, h₁, h⟩ := Outcome.bind_eq_ok_iff.mp h
  obtain ⟨⟨size, s₂⟩, h₂, h⟩ := Outcome.bind_eq_ok_iff.mp h
  have hlt₁ := Scanner.remains_lt_of_consumeBe (by decide) h₁
  have hlt₂ := Scanner.remains_lt_of_consumeBe (by decide) h₂
  have hs : s' = s₂ := by
    dsimp only at h
    split at h
    next =>
      cases h
      rfl
    next =>
      cases h
      rfl
  rw [hs]
  exact Nat.lt_trans hlt₂.1 hlt₁.1

def parseReservedLoop (scanner : Scanner) (reserved : List Range) : Outcome String (List Range) :=
  match _h : reservedRound scanner with
  | .ok (none, _) => .ok reserved
  | .ok (some range, scanner') => parseReservedLoop scanner' (reserved ++ [range])
  | .err e => .err e
  | .fault => .fault
termination_by scanner.remains
decreasing_by exact reservedRound_remains ‹_›

def parseReserved (data : List UInt8) : Outcome String (List Range) :=
  parseReservedLoop (Scanner.new data) []

/-! ## The nodes -/

/-- The parents stand with the last pushed first. -/
structure State where
  parents : List (List UInt8 × DeviceTreeNode)
  current : DeviceTreeNode

namespace State

def new : State := ⟨[], DeviceTreeNode.new⟩

def beginNode (state : State) (name : List UInt8) : State :=
  ⟨(name, state.current) :: state.parents, state.current.newChild⟩

def endNode (state : State) : Outcome String State :=
  match state.parents with
  | (name, parent) :: parents => .ok ⟨parents, parent.addChild name state.current⟩
  | [] => .err "Unmatched end of node token found in FDT."

def newProperty (state : State) (name value : List UInt8) : Outcome String State := do
  let current ← state.current.addProperty name value
  return { state with current }

def finish (state : State) : Outcome String DeviceTreeNode :=
  if state.parents ≠ [] then .err "Parsed FDT contains unfinished nodes."
  else
    match state.current.removeChild [] with
    | some root => .ok root
    | none => .err "FDT doesn't have a root node with an empty name."

end State

def FDT_BEGIN_NODE : Nat := 0x01
def FDT_END_NODE : Nat := 0x02
def FDT_PROP : Nat := 0x03
def FDT_NOP : Nat := 0x04
def FDT_END : Nat := 0x09

/-- One round of the loop of `parse_nodes`: it returns the root or goes on. -/
def nodesRound (strings : List UInt8) (scanner : Scanner) (state : State) :
    Outcome String (DeviceTreeNode ⊕ Scanner × State) := do
  let (token, scanner) ← scanner.consumeBe32
  if token = FDT_BEGIN_NODE then do
    let (name, scanner) ← scanner.consumeCstr
    let state := state.beginNode name
    let scanner ← scanner.alignForward 4
    return .inr (scanner, state)
  else if token = FDT_END_NODE then do
    let state ← state.endNode
    return .inr (scanner, state)
  else if token = FDT_PROP then do
    let (len, scanner) ← scanner.consumeBe32
    let (off, scanner) ← scanner.consumeBe32
    let (value, scanner) ← scanner.consumeData len
    let string ← slice strings off strings.length
    let (name, _) ← (Scanner.new string).consumeCstr
    let state ← state.newProperty name value
    let scanner ← scanner.alignForward 4
    return .inr (scanner, state)
  else if token = FDT_NOP then return .inr (scanner, state)
  else if token = FDT_END then do
    let root ← state.finish
    return .inl root
  else .err "Unknown FDT token."

theorem nodesRound_remains {strings : List UInt8} {s s' : Scanner} {state state' : State}
    (h : nodesRound strings s state = .ok (.inr (s', state'))) : s'.remains < s.remains := by
  obtain ⟨⟨token, s₁⟩, h₁, h⟩ := Outcome.bind_eq_ok_iff.mp h
  obtain ⟨hlt, hle, _⟩ := Scanner.remains_lt_of_consumeBe (by decide) h₁
  refine Nat.lt_of_le_of_lt (Scanner.Advances.remains_le ?_) hlt
  dsimp only at h
  split at h
  next =>
    obtain ⟨⟨name, s₂⟩, h₂, h⟩ := Outcome.bind_eq_ok_iff.mp h
    obtain ⟨s₃, h₃, h⟩ := Outcome.bind_eq_ok_iff.mp h
    cases h
    exact (Scanner.consumeCstr_advances hle h₂).trans (Scanner.alignForward_advances h₃)
  next =>
    split at h
    next =>
      obtain ⟨_, _, h⟩ := Outcome.bind_eq_ok_iff.mp h
      cases h
      exact .refl _
    next =>
      split at h
      next =>
        obtain ⟨⟨len, s₂⟩, h₂, h⟩ := Outcome.bind_eq_ok_iff.mp h
        obtain ⟨⟨off, s₃⟩, h₃, h⟩ := Outcome.bind_eq_ok_iff.mp h
        obtain ⟨⟨value, s₄⟩, h₄, h⟩ := Outcome.bind_eq_ok_iff.mp h
        obtain ⟨_, _, h⟩ := Outcome.bind_eq_ok_iff.mp h
        obtain ⟨_, _, h⟩ := Outcome.bind_eq_ok_iff.mp h
        obtain ⟨_, _, h⟩ := Outcome.bind_eq_ok_iff.mp h
        obtain ⟨s₅, h₅, h⟩ := Outcome.bind_eq_ok_iff.mp h
        cases h
        exact (Scanner.remains_lt_of_consumeBe (by decide) h₂).2.2.trans
          ((Scanner.remains_lt_of_consumeBe (by decide) h₃).2.2.trans
            ((Scanner.consumeData_advances h₄).trans (Scanner.alignForward_advances h₅)))
      next =>
        split at h
        next =>
          cases h
          exact .refl _
        next =>
          split at h
          next =>
            obtain ⟨_, _, h⟩ := Outcome.bind_eq_ok_iff.mp h
            cases h
          next => cases h

def parseNodesLoop (strings : List UInt8) (scanner : Scanner) (state : State) :
    Outcome String DeviceTreeNode :=
  match _h : nodesRound strings scanner state with
  | .ok (.inl root) => .ok root
  | .ok (.inr (scanner', state')) => parseNodesLoop strings scanner' state'
  | .err e => .err e
  | .fault => .fault
termination_by scanner.remains
decreasing_by exact nodesRound_remains ‹_›

def parseNodes (structs strings : List UInt8) : Outcome String DeviceTreeNode :=
  parseNodesLoop strings (Scanner.new structs) State.new

/-! ## The blob -/

def parse (fdt : List UInt8) : Outcome String DeviceTree := do
  let header ← parseHeader fdt
  if header.magic ≠ 0xd00dfeed then .err "Incorrect FDT magic value."
  else if header.lastCompVersion > DEVICE_TREE_SPEC_VERSION then
    .err "FDT version is too new and not supported."
  else if header.totalsize > fdt.length then
    .err "The FDT size is too small to fit the Device Tree."
  else do
    let rsvmap ← slice fdt header.offMemRsvmap fdt.length
    let reserved ← parseReserved rsvmap
    let structs ← slice fdt header.offDtStruct (header.offDtStruct + header.sizeDtStruct)
    let strings ← slice fdt header.offDtStrings (header.offDtStrings + header.sizeDtStrings)
    let root ← parseNodes structs strings
    return ⟨reserved, root, header.lastCompVersion, header.bootCpuidPhys⟩

end Aarch64.Rust
