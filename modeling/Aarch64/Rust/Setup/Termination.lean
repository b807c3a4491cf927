import Aarch64.Rust.DeviceTree.RoundTrip
import Aarch64.Rust.Setup.Basic

/-!
# When the memory map is built at all

A round of the loop over a `reg` property consumes a pair or panics. With no cells for
addresses and none for sizes a pair is empty: a round then consumes nothing, registers
an empty range and succeeds, so the loop never ends once it is entered.
-/

namespace Aarch64.Rust

variable {space : AddressSpace} {value : List UInt8}

/-! ## One property -/

theorem regLoop_ne_none (hpos : 0 < space.addressCells + space.sizeCells) :
    ∀ (fuel off : Nat) (mmap : MemoryMap), off ≤ value.length → value.length - off < fuel →
      regLoop space fuel ⟨value, off⟩ mmap ≠ none := by
  intro fuel
  induction fuel with
  | zero => exact fun _ _ _ hfuel => absurd hfuel (Nat.not_lt_zero _)
  | succ fuel ih =>
      intro off mmap hoff hfuel
      rw [regLoop]
      split
      swap
      · exact fun h => by cases h
      rcases regRound_cases space hoff mmap with ⟨_, _, hle, hround⟩ | ⟨_, hround⟩
      · rw [hround]
        cases unwrapped _ with
        | none => exact fun h => by cases h
        | some mmap => exact ih _ mmap hle (by omega)
      · rw [hround]
        exact fun h => by cases h

theorem regLoop_of_no_cells (ha : space.addressCells = 0) (hs : space.sizeCells = 0)
    (hne : value ≠ []) (fuel : Nat) (mmap : MemoryMap) :
    regLoop space fuel ⟨value, 0⟩ mmap = none := by
  have hpos := List.length_pos_iff.mpr hne
  have hround : regRound space ⟨value, 0⟩ mmap = some (⟨value, 0⟩, mmap) := by
    rw [regRound, Scanner.consumeAddress, ha]
    simp only [Scanner.consumeCells, Outcome.unwrap_ok, Option.bind_eq_bind, Option.bind_some]
    rw [Scanner.consumeSize, hs]
    simp only [Scanner.consumeCells, Outcome.unwrap_ok, Option.bind_some]
    rfl
  induction fuel with
  | zero => rfl
  | succ fuel ih =>
      have hremains : (⟨value, 0⟩ : Scanner).remains > 0 := hpos
      rw [regLoop, if_pos hremains, hround]
      exact ih

@[simp] theorem regLoop_nil (fuel : Nat) (mmap : MemoryMap) :
    regLoop space (fuel + 1) ⟨[], 0⟩ mmap = some (some mmap) := rfl

/-! ## All nodes -/

/-- Before a memory node without a `reg` property, which panics, there is one whose
property holds something. -/
inductive GetsToPairs : List (List UInt8 × DeviceTreeNode) → Prop
  | here {unitname value : List UInt8} {node : DeviceTreeNode}
      {rest : List (List UInt8 × DeviceTreeNode)} (hmemory : IsMemory unitname)
      (hreg : node.reg = some value) (hne : value ≠ []) : GetsToPairs ((unitname, node) :: rest)
  | there {unitname : List UInt8} {node : DeviceTreeNode}
      {rest : List (List UInt8 × DeviceTreeNode)}
      (hskip : IsMemory unitname → node.reg = some []) (hrest : GetsToPairs rest) :
      GetsToPairs ((unitname, node) :: rest)

theorem childrenLoop_of_getsToPairs {children : List (List UInt8 × DeviceTreeNode)}
    (ha : space.addressCells = 0) (hs : space.sizeCells = 0) (h : GetsToPairs children)
    (fuel : Nat) (mmap : MemoryMap) : childrenLoop fuel space children mmap = none := by
  induction h with
  | here hmemory hreg hne =>
      rw [childrenLoop_of_reg hmemory hreg, regLoop_of_no_cells ha hs hne]
  | @there unitname node rest hskip hrest ih =>
      by_cases hmemory : IsMemory unitname
      · rw [childrenLoop_of_reg hmemory (hskip hmemory)]
        cases fuel with
        | zero => rfl
        | succ fuel =>
            rw [regLoop_nil]
            exact ih
      · rw [childrenLoop_of_other hmemory]
        exact ih

/-- With enough fuel for each property the loops end, unless they get to empty pairs. -/
theorem childrenLoop_ne_none {children : List (List UInt8 × DeviceTreeNode)} {fuel : Nat}
    (h : 0 < space.addressCells + space.sizeCells ∨ ¬ GetsToPairs children)
    (hfuel : ∀ e ∈ children, ∀ value, e.2.reg = some value → value.length < fuel)
    (mmap : MemoryMap) : childrenLoop fuel space children mmap ≠ none := by
  induction children generalizing mmap with
  | nil => exact fun h => by cases h
  | cons e rest ih =>
      obtain ⟨unitname, node⟩ := e
      obtain ⟨hnode, hfuel⟩ := List.forall_mem_cons.mp hfuel
      have hrest : (IsMemory unitname → node.reg = some []) →
          0 < space.addressCells + space.sizeCells ∨ ¬ GetsToPairs rest := fun hskip =>
        h.imp_right fun hnot hget => hnot (.there hskip hget)
      by_cases hmemory : IsMemory unitname
      swap
      · rw [childrenLoop_of_other hmemory]
        exact ih (hrest fun h => absurd h hmemory) hfuel mmap
      cases hreg : node.reg with
      | none =>
          rw [childrenLoop_of_missing hmemory hreg]
          exact fun h => by cases h
      | some value =>
          have hlen := hnode value hreg
          have hloop : regLoop space fuel ⟨value, 0⟩ mmap ≠ none := by
            rcases h with hpos | hnot
            · exact regLoop_ne_none hpos fuel 0 mmap (Nat.zero_le _) hlen
            · have hnil : value = [] := by_contra fun hne => hnot (.here hmemory hreg hne)
              subst hnil
              cases fuel with
              | zero => exact absurd hlen (Nat.not_lt_zero _)
              | succ fuel => exact fun h => by cases h
          have hnext : 0 < space.addressCells + space.sizeCells ∨ ¬ GetsToPairs rest := by
            by_cases hnil : value = []
            · exact hrest fun _ => hnil ▸ hreg
            · exact h.imp_right fun hnot => absurd (.here hmemory hreg hnil) hnot
          rw [childrenLoop_of_reg hmemory hreg]
          cases hcall : regLoop space fuel ⟨value, 0⟩ mmap with
          | none => exact absurd hcall hloop
          | some result =>
              cases result with
              | none => exact fun h => by cases h
              | some mmap => exact ih hnext hfuel mmap

/-- Fuel for the properties of all nodes. -/
theorem exists_fuel (children : List (List UInt8 × DeviceTreeNode)) :
    ∃ fuel, ∀ e ∈ children, ∀ value, e.2.reg = some value → value.length < fuel := by
  induction children with
  | nil => exact ⟨0, fun e he => absurd he List.not_mem_nil⟩
  | cons e rest ih =>
      obtain ⟨fuel, hfuel⟩ := ih
      refine ⟨fuel + ((e.2.reg.getD []).length + 1), List.forall_mem_cons.mpr ⟨?_, ?_⟩⟩
      · intro value hreg
        rw [hreg, Option.getD_some]
        omega
      · intro e he value hreg
        have := hfuel e he value hreg
        omega

theorem mmapFromDevicetree_ne_none_iff {fuel : Nat} {dt : DeviceTree} {bootstrap : List Range} :
    mmapFromDevicetree fuel dt bootstrap ≠ none ↔
      childrenLoop fuel dt.root.addressSpace dt.root.children MemoryMap.new ≠ none := by
  rw [mmapFromDevicetree]
  cases childrenLoop fuel dt.root.addressSpace dt.root.children MemoryMap.new with
  | none => exact Iff.rfl
  | some result =>
      cases result with
      | none => exact iff_of_true (fun h => by cases h) fun h => by cases h
      | some mmap => exact iff_of_true (fun h => by cases h) fun h => by cases h

/-- Building the map ends, with a map, an error or a panic, unless the loop gets to pairs that take
no bytes, which it reads for ever. -/
theorem mmapFromDevicetree_terminates_iff (dt : DeviceTree) (bootstrap : List Range) :
    (∃ fuel, mmapFromDevicetree fuel dt bootstrap ≠ none) ↔
      ¬ (dt.root.addressSpace.addressCells = 0 ∧ dt.root.addressSpace.sizeCells = 0 ∧
        GetsToPairs dt.root.children) := by
  constructor
  · rintro ⟨fuel, hcall⟩ ⟨ha, hs, hget⟩
    exact mmapFromDevicetree_ne_none_iff.mp hcall
      (childrenLoop_of_getsToPairs ha hs hget fuel MemoryMap.new)
  · intro hnot
    obtain ⟨fuel, hfuel⟩ := exists_fuel dt.root.children
    refine ⟨fuel, mmapFromDevicetree_ne_none_iff.mpr (childrenLoop_ne_none ?_ hfuel _)⟩
    by_cases hzero : dt.root.addressSpace.addressCells + dt.root.addressSpace.sizeCells = 0
    · exact Or.inr fun hget => hnot ⟨by omega, by omega, hget⟩
    · exact Or.inl (Nat.pos_of_ne_zero hzero)

/-- A root without cells and a memory node of one byte. -/
theorem mmapFromDevicetree_hangs :
    ∃ dt, parse (Fdt.assemble []
        (Fdt.structBlock [(.beginNode [], 0),
          (.prop (Bytes.ofString "#address-cells") (Fdt.word 0), 0),
          (.prop (Bytes.ofString "#size-cells") (Fdt.word 0), 15),
          (.beginNode (Bytes.ofString "memory"), 0), (.prop (Bytes.ofString "reg") [0], 27),
          (.endNode, 0), (.endNode, 0)])
        (Bytes.ofString "#address-cells" ++ [0] ++ (Bytes.ofString "#size-cells" ++ [0]) ++
          (Bytes.ofString "reg" ++ [0]))) = .ok dt ∧
      ∀ bootstrap fuel, mmapFromDevicetree fuel dt bootstrap = none := by
  refine ⟨_, parse_of_flattened (Fdt.flattened_assemble
    (.node (.prop (.prop (.node (.prop .nil) .nil))) .nil) (by decide +kernel) (by decide +kernel))
    (by decide) (by decide) ?_, fun bootstrap fuel => ?_⟩
  · refine .prop (by decide) (by decide +kernel) (fun v => ?_) (fun _ => by decide) ?_
    · simp only [Fdt.Items.props, List.mem_singleton, Prod.mk.injEq]
      exact fun h => absurd h.1 (by decide)
    refine .prop (by decide) (by decide +kernel) (fun v => List.not_mem_nil)
      (fun _ => by decide) ?_
    refine .node (by decide) (by decide +kernel) (fun b => List.not_mem_nil) ?_ .nil
    exact .prop (by decide) (by decide +kernel) (fun v => List.not_mem_nil)
      (fun h => absurd h (by decide)) .nil
  · have hget : GetsToPairs [(Bytes.ofString "memory",
        ⟨[], [(Bytes.ofString "reg", [0])], ⟨0, 0⟩⟩)] := .here (by decide) rfl (by decide)
    have hloop : childrenLoop fuel ⟨0, 0⟩ _ MemoryMap.new = none :=
      childrenLoop_of_getsToPairs rfl rfl hget fuel MemoryMap.new
    exact by_contra fun h => mmapFromDevicetree_ne_none_iff.mp h hloop

end Aarch64.Rust
