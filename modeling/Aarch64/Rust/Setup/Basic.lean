import Aarch64.Rust.DeviceTree.Tokens
import Aarch64.Rust.MemoryMap.Zones

/-!
# The memory map of a device tree

`mmap_from_devicetree` of `kernel/kernel/src/setup.rs`. The loop over a `reg` property
need not end, so it gets fuel: `none` means that the fuel ran out, and `some none` is a
panic. The ranges that the bootstrap reserved are a parameter.
-/

namespace Aarch64.Rust

/-- The result of a registration, unwrapped. -/
def unwrapped : Option (Except String Unit × MemoryMap) → Option MemoryMap
  | some (.ok (), mmap) => some mmap
  | some (.error _, _) | none => none

/-- The body of the loop over a `reg` property. -/
def regRound (space : AddressSpace) (reg : Scanner) (mmap : MemoryMap) :
    Option (Scanner × MemoryMap) := do
  let (addr, reg) ← (reg.consumeAddress space).unwrap
  let (size, reg) ← (reg.consumeSize space).unwrap
  let mmap ← unwrapped (mmap.addMemory ⟨addr, Word64.add addr size⟩ .regular)
  return (reg, mmap)

def regLoop (space : AddressSpace) : Nat → Scanner → MemoryMap → Option (Option MemoryMap)
  | 0, _, _ => none
  | fuel + 1, reg, mmap =>
      if reg.remains > 0 then
        match regRound space reg mmap with
        | some (reg, mmap) => regLoop space fuel reg mmap
        | none => some none
      else some (some mmap)

/-- The loop over the children of the root. -/
def childrenLoop (fuel : Nat) (space : AddressSpace) :
    List (List UInt8 × DeviceTreeNode) → MemoryMap → Option (Option MemoryMap)
  | [], mmap => some (some mmap)
  | (unitname, node) :: rest, mmap =>
      if unitname ≠ Bytes.ofString "memory" ∧ ¬ Bytes.ofString "memory@" <+: unitname then
        childrenLoop fuel space rest mmap
      else
        match node.property (Bytes.ofString "reg") with
        | some reg =>
            match regLoop space fuel reg mmap with
            | some (some mmap) => childrenLoop fuel space rest mmap
            | some none => some none
            | none => none
        | none => some none

/-- A loop of `reserve_memory` over ranges. -/
def reserveLoop (ranges : List Range) (mmap : MemoryMap) : Option MemoryMap :=
  ranges.foldlM (fun mmap reserved => unwrapped (mmap.reserveMemory reserved .regular)) mmap

def mmapFromDevicetree (fuel : Nat) (dt : DeviceTree) (bootstrap : List Range) :
    Option (Option MemoryMap) :=
  match childrenLoop fuel dt.root.addressSpace dt.root.children MemoryMap.new with
  | some (some mmap) => some (reserveLoop dt.reserved mmap >>= reserveLoop bootstrap)
  | some none => some none
  | none => none

/-! ## Cells -/

namespace Scanner

variable {data : List UInt8} {off : Nat}

/-- Nothing, one word or two words are read, and anything else is an error. -/
theorem consumeCells_cases (cells : Nat) (hoff : off ≤ data.length) :
    (cells ≤ 2 ∧ off + 4 * cells ≤ data.length ∧ (⟨data, off⟩ : Scanner).consumeCells cells =
        .ok (Bytes.toNat ((data.drop off).take (4 * cells)), ⟨data, off + 4 * cells⟩)) ∨
      ((2 < cells ∨ data.length < off + 4 * cells) ∧
        ∃ e, (⟨data, off⟩ : Scanner).consumeCells cells = .err e) := by
  have hbe : ∀ n mismatch, (off + n ≤ data.length ∧ (⟨data, off⟩ : Scanner).consumeBe n mismatch =
      .ok (Bytes.toNat ((data.drop off).take n), ⟨data, off + n⟩)) ∨
      (data.length < off + n ∧ ∃ e, (⟨data, off⟩ : Scanner).consumeBe n mismatch = .err e) := by
    intro n mismatch
    rcases consumeBe_cases ⟨data, off⟩ n mismatch with ⟨bytes, hlen, hprefix, hcall⟩ | ⟨hlt, hcall⟩
    · have hle := hprefix.length_le
      rw [List.length_drop] at hle
      rw [List.prefix_iff_eq_take.mp hprefix, hlen] at hcall
      change off ≤ data.length at hoff
      refine Or.inl ⟨?_, hcall⟩
      change bytes.length ≤ data.length - off at hle
      omega
    · exact Or.inr ⟨hlt, _, hcall⟩
  match cells with
  | 0 => exact Or.inl ⟨by decide, hoff, rfl⟩
  | 1 =>
      rcases hbe 4 "Error while parsing 4-byte big-endian" with ⟨hle, hcall⟩ | ⟨hlt, herr⟩
      · exact Or.inl ⟨by decide, hle, hcall⟩
      · exact Or.inr ⟨Or.inr hlt, herr⟩
  | 2 =>
      rcases hbe 8 "Error while parsing 8-byte big-endian" with ⟨hle, hcall⟩ | ⟨hlt, herr⟩
      · exact Or.inl ⟨by decide, hle, hcall⟩
      · exact Or.inr ⟨Or.inr hlt, herr⟩
  | n + 3 => exact Or.inr ⟨Or.inl (by omega), "Unsupported #address-cells value.", rfl⟩

end Scanner

variable {space : AddressSpace} {value : List UInt8} {off : Nat}

/-- A round registers the pair that stands at the offset, or it panics. -/
theorem regRound_cases (space : AddressSpace) (hoff : off ≤ value.length) (mmap : MemoryMap) :
    (space.addressCells ≤ 2 ∧ space.sizeCells ≤ 2 ∧
        off + 4 * (space.addressCells + space.sizeCells) ≤ value.length ∧
        regRound space ⟨value, off⟩ mmap =
          (unwrapped (mmap.addMemory
            ⟨Bytes.toNat ((value.drop off).take (4 * space.addressCells)),
              Word64.add (Bytes.toNat ((value.drop off).take (4 * space.addressCells)))
                (Bytes.toNat (((value.drop off).drop (4 * space.addressCells)).take
                  (4 * space.sizeCells)))⟩ .regular)).map
            fun mmap => (⟨value, off + 4 * (space.addressCells + space.sizeCells)⟩, mmap)) ∨
      ((2 < space.addressCells ∨ 2 < space.sizeCells ∨
          value.length < off + 4 * (space.addressCells + space.sizeCells)) ∧
        regRound space ⟨value, off⟩ mmap = none) := by
  rcases Scanner.consumeCells_cases space.addressCells hoff with
    ⟨ha, hle, hcall⟩ | ⟨hbad, e, hcall⟩
  swap
  · refine Or.inr ⟨by omega, ?_⟩
    rw [regRound, Scanner.consumeAddress, hcall]
    rfl
  rcases Scanner.consumeCells_cases space.sizeCells hle with ⟨hs, hle', hcall'⟩ | ⟨hbad, e, hcall'⟩
  swap
  · refine Or.inr ⟨by omega, ?_⟩
    rw [regRound, Scanner.consumeAddress, hcall, Outcome.unwrap_ok, Option.bind_eq_bind,
      Option.bind_some]
    dsimp only
    rw [Scanner.consumeSize, hcall']
    rfl
  refine Or.inl ⟨ha, hs, by omega, ?_⟩
  rw [Nat.mul_add, ← Nat.add_assoc, List.drop_drop, regRound, Scanner.consumeAddress, hcall,
    Outcome.unwrap_ok, Option.bind_eq_bind, Option.bind_some]
  dsimp only
  rw [Scanner.consumeSize, hcall', Outcome.unwrap_ok, Option.bind_eq_bind, Option.bind_some]
  dsimp only
  cases unwrapped _ with
  | none => rfl
  | some mmap => rfl

/-! ## The loop over the children -/

/-- The nodes that describe memory. -/
def IsMemory (unitname : List UInt8) : Prop :=
  unitname = Bytes.ofString "memory" ∨ Bytes.ofString "memory@" <+: unitname

instance (unitname : List UInt8) : Decidable (IsMemory unitname) :=
  inferInstanceAs (Decidable (_ ∨ _))

/-- The value of the property `reg`. -/
def DeviceTreeNode.reg (node : DeviceTreeNode) : Option (List UInt8) :=
  node.properties.lookup (Bytes.ofString "reg")

variable {fuel : Nat} {unitname : List UInt8} {node : DeviceTreeNode}
  {rest : List (List UInt8 × DeviceTreeNode)}

theorem childrenLoop_of_other (h : ¬ IsMemory unitname) (mmap : MemoryMap) :
    childrenLoop fuel space ((unitname, node) :: rest) mmap =
      childrenLoop fuel space rest mmap := by
  rw [childrenLoop, if_pos (not_or.mp h)]

theorem childrenLoop_of_missing (h : IsMemory unitname) (hreg : node.reg = none)
    (mmap : MemoryMap) :
    childrenLoop fuel space ((unitname, node) :: rest) mmap = some none := by
  have hproperty : node.property (Bytes.ofString "reg") = none :=
    congrArg (Option.map Scanner.new) hreg
  rw [childrenLoop, if_neg fun hnot => absurd h (not_or.mpr hnot), hproperty]

theorem childrenLoop_of_reg (h : IsMemory unitname) (hreg : node.reg = some value)
    (mmap : MemoryMap) :
    childrenLoop fuel space ((unitname, node) :: rest) mmap =
      match regLoop space fuel ⟨value, 0⟩ mmap with
      | some (some mmap) => childrenLoop fuel space rest mmap
      | some none => some none
      | none => none := by
  have hproperty : node.property (Bytes.ofString "reg") = some ⟨value, 0⟩ :=
    congrArg (Option.map Scanner.new) hreg
  rw [childrenLoop, if_neg fun hnot => absurd h (not_or.mpr hnot), hproperty]

end Aarch64.Rust
