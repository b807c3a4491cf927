import Aarch64.Rust.DeviceTree.RoundTrip
import Aarch64.Rust.Setup.Map

/-!
# The memory of a flattened tree

The loop over the children of the root registers what the `reg` properties of the memory
nodes list, in the cells of the root. Where these cells stand does not matter to it.
-/

namespace Aarch64.Rust

open Fdt (Header Items IsReservations)
open DeviceTreeNode (addItems)

variable {items : Items} {space : AddressSpace} {x : Nat}

/-- The children are those of the tree, each with its own `reg` property. -/
theorem exists_child_iff (hwf : items.WellFormed) (name : List UInt8)
    (Q : Option (List UInt8) → Prop) :
    (∃ child, (name, child) ∈ (addItems items ⟨[], [], space⟩).children ∧ Q child.reg) ↔
      ∃ body, (name, body) ∈ items.nodes ∧ Q (body.props.lookup (Bytes.ofString "reg")) := by
  have hsorted : SortedMap.Sorted (addItems items ⟨[], [], space⟩).children :=
    (addItems_sorted .nil .nil).2
  have hreg : ∀ body space', (name, body) ∈ items.nodes →
      (addItems body ⟨[], [], space'⟩).reg = body.props.lookup (Bytes.ofString "reg") := by
    intro body space' hmem
    rw [DeviceTreeNode.reg, addItems_properties (Items.wellFormed_of_mem hwf _ hmem)]
    exact Option.or_none
  simp only [SortedMap.mem_iff_lookup hsorted]
  rcases @addItems_child items ⟨[], [], space⟩ hwf name with
    ⟨body, space', hbody, hchild⟩ | ⟨hnone, hchild⟩
  · have hmem := (Items.lookup_nodes hwf name body).mp hbody
    rw [hchild]
    constructor
    · rintro ⟨child, heq, hQ⟩
      cases heq
      exact ⟨body, hmem, hreg body space' hmem ▸ hQ⟩
    · rintro ⟨body', hmem', hQ⟩
      obtain rfl : body = body' :=
        Option.some.inj (hbody.symm.trans ((Items.lookup_nodes hwf name body').mpr hmem'))
      exact ⟨_, rfl, (hreg body space' hmem).symm ▸ hQ⟩
  · rw [hchild]
    constructor
    · rintro ⟨child, heq, _⟩
      cases heq
    · rintro ⟨body, hmem, _⟩
      rw [(Items.lookup_nodes hwf name body).mpr hmem] at hnone
      cases hnone

variable {dt : DeviceTree}

/-- The memory nodes of the device tree list what those of its items do. -/
theorem ramAt_iff_lists (hwf : items.WellFormed) (hroot : dt.root = addItems items ⟨[], [], space⟩)
    (hbounded : items.Bounded IsMemory
      (items.cells (Bytes.ofString "#address-cells") space.addressCells)
      (items.cells (Bytes.ofString "#size-cells") space.sizeCells)) (x : Nat) :
    RamAt dt x ↔
      items.Lists IsMemory (items.cells (Bytes.ofString "#address-cells") space.addressCells)
        (items.cells (Bytes.ofString "#size-cells") space.sizeCells) x := by
  have hspace : (addItems items ⟨[], [], space⟩).addressSpace =
      ⟨items.cells (Bytes.ofString "#size-cells") space.sizeCells,
        items.cells (Bytes.ofString "#address-cells") space.addressCells⟩ :=
    addItems_addressSpace hwf
  rw [RamAt, hroot, hspace]
  generalize items.cells (Bytes.ofString "#address-cells") space.addressCells = address
    at hbounded
  generalize items.cells (Bytes.ofString "#size-cells") space.sizeCells = size at hbounded
  have hchild := fun name => @exists_child_iff items space hwf name fun reg =>
    ∃ value, reg = some value ∧ ∃ r ∈ regRanges ⟨size, address⟩ value, r.contains x = true
  constructor
  · rintro ⟨⟨name, child⟩, he, hmemory, hreg⟩
    obtain ⟨body, hbody, value, hvalue, r, hr, hx⟩ := (hchild name).mp ⟨child, he, hreg⟩
    rw [Items.lookup_props (Items.wellFormed_of_mem hwf _ hbody)] at hvalue
    obtain ⟨p, hp, rfl⟩ := List.mem_map.mp hr
    have hlt := hbounded _ hbody hmemory value hvalue p hp
    exact ⟨_, hbody, hmemory, value, hvalue, p, hp, (contains_rangeOf hlt).mp hx⟩
  · rintro ⟨⟨name, body⟩, hbody, hmemory, value, hvalue, p, hp, hx⟩
    have hlt := hbounded _ hbody hmemory value hvalue p hp
    have hlookup := (Items.lookup_props (Items.wellFormed_of_mem hwf _ hbody) _ _).mpr hvalue
    obtain ⟨child, he, hreg⟩ := (hchild name).mpr ⟨body, hbody, value, hlookup, rangeOf p,
      List.mem_map_of_mem hp, (contains_rangeOf hlt).mpr hx⟩
    exact ⟨_, he, hmemory, hreg⟩

/-- What the loop frees is what the memory nodes list. -/
theorem childrenLoop_free {fuel : Nat} {m : MemoryMap}
    (hloop : childrenLoop fuel dt.root.addressSpace dt.root.children MemoryMap.new =
      some (some m)) (x : Nat) :
    lookup m.memory x = some (.regular, .free) ↔ RamAt dt x := by
  obtain ⟨hgood, hbad⟩ := childrenLoop_result hloop
  have hdecode : AllDecode dt.root.addressSpace dt.root.children :=
    by_contra fun hnot => by cases hbad hnot
  have hnew : MemoryMap.Accepts MemoryMap.new .free := fun x memtype status h => by cases h
  obtain ⟨m', hcall, _, hlookup⟩ := registerAll_spec
    (memoryRanges dt.root.addressSpace dt.root.children) MemoryMap.Sound.new hnew
  obtain rfl : m = m' := Option.some.inj ((hgood hdecode).trans hcall)
  rw [hlookup, ramAt_iff]
  split
  next h => exact iff_of_true rfl h
  next h => exact iff_of_false (fun h => by cases h) h

end Aarch64.Rust
