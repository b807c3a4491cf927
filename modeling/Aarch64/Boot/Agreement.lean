import Aarch64.Cxx.Bootstrap.Tree
import Aarch64.Rust.Setup.Tree

/-!
# Two readers of one device tree

The bootstrap and the kernel each build a memory map from the same device tree. The
bootstrap takes every child of the root whose name starts with `memory` for memory, the
kernel those named `memory`, with or without a unit address. So both find the same memory
exactly if the other children that the bootstrap takes for memory list nothing new.
-/

namespace Aarch64.Boot

open Fdt (Tok Header Items IsCells IsReservations cellValue)
open Cxx.Bootstrap (StartsMemory registerMemory)
open Rust (IsMemory childrenLoop)

/-- The root gives its numbers of cells, and before its children. -/
structure RootCells (items : Items) (address size : Nat) : Prop where
  first : items.CellsFirst
  address : ∃ value, (Bytes.ofString "#address-cells", value) ∈ items.props ∧
    cellValue value = address
  size : ∃ value, (Bytes.ofString "#size-cells", value) ∈ items.props ∧ cellValue value = size

/-- A name that only the bootstrap takes for one of memory. -/
def OnlyStarts (name : List UInt8) : Prop := StartsMemory name ∧ ¬ IsMemory name

variable {fdt : List UInt8} {h : Header} {entries : List (Nat × Nat)} {items : Items}
variable {address size : Nat}

theorem startsMemory_of_isMemory {name : List UInt8} (h : IsMemory name) : StartsMemory name := by
  rcases h with rfl | h
  · exact List.prefix_refl _
  · have hprefix : Bytes.ofString "memory" <+: Bytes.ofString "memory@" := by decide +kernel
    exact hprefix.trans h

theorem lists_startsMemory_iff {x : Nat} : items.Lists StartsMemory address size x ↔
    items.Lists IsMemory address size x ∨ items.Lists OnlyStarts address size x := by
  constructor
  · rintro ⟨e, he, hname, hreg⟩
    by_cases hmemory : IsMemory e.1
    · exact Or.inl ⟨e, he, hmemory, hreg⟩
    · exact Or.inr ⟨e, he, ⟨hname, hmemory⟩, hreg⟩
  · rintro (⟨e, he, hmemory, hreg⟩ | ⟨e, he, hname, hreg⟩)
    · exact ⟨e, he, startsMemory_of_isMemory hmemory, hreg⟩
    · exact ⟨e, he, hname.1, hreg⟩

theorem RootCells.cells_eq (hcells : RootCells items address size) (hwf : items.WellFormed)
    (default : Nat) : items.cells (Bytes.ofString "#address-cells") default = address ∧
      items.cells (Bytes.ofString "#size-cells") default = size := by
  obtain ⟨avalue, ha, rfl⟩ := hcells.address
  obtain ⟨svalue, hs, rfl⟩ := hcells.size
  rw [Items.cells, Items.cells, (Items.lookup_props hwf _ _).mpr ha,
    (Items.lookup_props hwf _ _).mpr hs]
  exact ⟨rfl, rfl⟩

/-- Of a device tree that both accept, the bootstrap and the kernel take the same
addresses for free memory, exactly if no child whose name only starts with `memory` lists
an address that no memory node lists. -/
theorem free_agree_iff (hfdt : Fdt.Flattened fdt h entries items)
    (hentries : IsReservations entries) (hwf : items.WellFormed)
    (hcells : RootCells items address size) (hbounded : items.Bounded StartsMemory address size)
    {blob : Cxx.Fdt.Blob} {mmap : Cxx.MemoryMap} (hparse : Cxx.Fdt.Blob.parse fdt = .ok blob)
    (hregister : registerMemory fdt blob .new = .ok mmap)
    {dt : Rust.DeviceTree} {fuel : Nat} {m : Rust.MemoryMap} (hparse' : Rust.parse fdt = .ok dt)
    (hloop : childrenLoop fuel dt.root.addressSpace dt.root.children Rust.MemoryMap.new =
      some (some m)) :
    (∀ x, mmap.lookup x = some .free ↔ Rust.lookup m.memory x = some (.regular, .free)) ↔
      ∀ x, items.Lists OnlyStarts address size x → items.Lists IsMemory address size x := by
  obtain ⟨ha, hs⟩ := hcells.cells_eq hwf 2
  obtain ⟨ha', hs'⟩ := hcells.cells_eq hwf 1
  have hversion : h.lastCompVersion ≤ 17 := by
    obtain ⟨hblob, _, _, _⟩ := hfdt
    exact Cxx.Fdt.Blob.lastCompVersion_le_of_parse hblob hparse
  have htree := Rust.parse_of_flattened hfdt hversion hentries hwf
  rw [hparse'] at htree
  have hroot : dt.root = _ := congrArg Rust.DeviceTree.root (Outcome.ok.inj htree)
  have hcxx := Cxx.Bootstrap.registerMemory_of_flattened hfdt hwf hcells.first
    (by rw [ha, hs]; exact hbounded) hparse hregister
  have hrust := Rust.ramAt_iff_lists hwf hroot (by
    rw [ha', hs']
    exact fun e he hmemory => hbounded e he (startsMemory_of_isMemory hmemory))
  rw [ha, hs] at hcxx
  rw [ha', hs'] at hrust
  refine forall_congr' fun x => ?_
  rw [hcxx, Rust.childrenLoop_free hloop, hrust, lists_startsMemory_iff, or_iff_left_iff_imp]

/-! ## Two children -/

/-- A memory node for the first page, and a child with this name for the second. -/
private def twoItems (name : String) : Items :=
  .prop (Bytes.ofString "#address-cells") (Fdt.word 1)
    (.prop (Bytes.ofString "#size-cells") (Fdt.word 1)
      (.node (Bytes.ofString "memory")
        (.prop (Bytes.ofString "reg") (Fdt.word 0 ++ Fdt.word 4096) .nil)
        (.node (Bytes.ofString name)
          (.prop (Bytes.ofString "reg") (Fdt.word 4096 ++ Fdt.word 4096) .nil) .nil)))

private def twoToks (name : String) : List (Tok × Nat) :=
  [(.beginNode [], 0), (.prop (Bytes.ofString "#address-cells") (Fdt.word 1), 0),
    (.prop (Bytes.ofString "#size-cells") (Fdt.word 1), 15),
    (.beginNode (Bytes.ofString "memory"), 0),
    (.prop (Bytes.ofString "reg") (Fdt.word 0 ++ Fdt.word 4096), 27), (.endNode, 0),
    (.beginNode (Bytes.ofString name), 0),
    (.prop (Bytes.ofString "reg") (Fdt.word 4096 ++ Fdt.word 4096), 27), (.endNode, 0),
    (.endNode, 0)]

private def twoStrings : List UInt8 :=
  Bytes.ofString "#address-cells" ++ [0] ++ (Bytes.ofString "#size-cells" ++ [0]) ++
    (Bytes.ofString "reg" ++ [0])

private def twoFdt (name : String) : List UInt8 :=
  Fdt.assemble [] (Fdt.structBlock (twoToks name)) twoStrings

private theorem two_flattened (name : String)
    (hfits : ∀ t ∈ twoToks name, t.1.Fits twoStrings t.2) (hsize : (twoFdt name).length < 2 ^ 32) :
    Fdt.Flattened (twoFdt name) (Fdt.layout [] (Fdt.structBlock (twoToks name)) twoStrings) []
      (twoItems name) :=
  Fdt.flattened_assemble (.node (.prop (.prop (.node (.prop .nil) (.node (.prop .nil) .nil)))) .nil)
    hfits hsize

private theorem two_wellFormed (name : String) (hzero : 0 ∉ Bytes.ofString name)
    (hname : Bytes.isUtf8 (Bytes.ofString name) = true)
    (hne : Bytes.ofString "memory" ≠ Bytes.ofString name) : (twoItems name).WellFormed := by
  have hreg : ∀ value, (Items.prop (Bytes.ofString "reg") value .nil).WellFormed := fun value =>
    .prop (by decide) (by decide +kernel) (fun v => List.not_mem_nil)
      (fun h => absurd h (by decide +kernel)) .nil
  refine .prop (by decide +kernel) (by decide +kernel) ?_ (fun _ => by decide) (.prop
    (by decide +kernel) (by decide +kernel) (fun v => List.not_mem_nil) (fun _ => by decide) (.node
      (by decide +kernel) (by decide +kernel) ?_ (hreg _) (.node hzero hname
        (fun b => List.not_mem_nil) (hreg _) .nil)))
  · intro v hmem
    obtain ⟨heq, _⟩ := Prod.mk.inj (List.mem_singleton.mp hmem)
    exact absurd heq (by decide +kernel)
  · intro b hmem
    exact hne (Prod.mk.inj (List.mem_singleton.mp hmem)).1

private theorem two_cells (name : String) : RootCells (twoItems name) 1 1 where
  first := ⟨fun e he => absurd he List.not_mem_nil, fun e he => absurd he List.not_mem_nil, trivial⟩
  address := ⟨Fdt.word 1, List.mem_cons_self, by decide⟩
  size := ⟨Fdt.word 1, List.mem_cons_of_mem _ List.mem_cons_self, by decide⟩

private theorem two_bounded (name : String) : (twoItems name).Bounded StartsMemory 1 1 := by
  intro e he _ value hvalue
  rcases List.mem_cons.mp he with rfl | he
  · obtain ⟨_, rfl⟩ := Prod.mk.inj (List.mem_singleton.mp hvalue)
    decide +kernel
  · obtain rfl := List.mem_singleton.mp he
    obtain ⟨_, rfl⟩ := Prod.mk.inj (List.mem_singleton.mp hvalue)
    decide +kernel

private def twoTree (name : String) : Rust.DeviceTree :=
  ⟨[], Rust.DeviceTreeNode.addItems (twoItems name) ⟨[], [], ⟨1, 1⟩⟩, 16, 0⟩

/-- Both entries of the map of the bootstrap. -/
private def twoPages : Cxx.MemoryMap := ⟨⟨[⟨0, 4096, .free⟩, ⟨4096, 8192, .free⟩], by decide⟩⟩

/-- A second memory node, which has a unit address. -/
theorem free_agree_iff_unit :
    (∀ x, (twoItems "memory@1000").Lists OnlyStarts 1 1 x →
        (twoItems "memory@1000").Lists IsMemory 1 1 x) ∧
      ∀ x, twoPages.lookup x = some .free ↔
        Rust.lookup [⟨⟨0, 8192⟩, .regular, .free⟩] x = some (.regular, .free) := by
  have hfdt := two_flattened "memory@1000" (by decide +kernel) (by decide +kernel)
  have hwf := two_wellFormed "memory@1000" (by decide +kernel) (by decide +kernel)
    (by decide +kernel)
  have hcxx : ((Cxx.Fdt.Blob.parse (twoFdt "memory@1000")).replaceErr .new >>= fun blob =>
      registerMemory (twoFdt "memory@1000") blob .new) = .ok twoPages := by
    decide +kernel
  obtain ⟨blob, hparse, hregister⟩ := Outcome.bind_eq_ok_iff.mp hcxx
  have hparse' : Rust.parse (twoFdt "memory@1000") = .ok (twoTree "memory@1000") :=
    Rust.parse_of_flattened hfdt (by decide) (by decide) hwf
  have hloop : childrenLoop 2 (twoTree "memory@1000").root.addressSpace
      (twoTree "memory@1000").root.children Rust.MemoryMap.new =
        some (some ⟨[⟨⟨0, 8192⟩, .regular, .free⟩], [⟨⟨0, 8192⟩, .regular, .unknown⟩]⟩) := by
    decide +kernel
  have hmemory : ∀ e ∈ (twoItems "memory@1000").nodes, IsMemory e.1 := by decide +kernel
  have hnone : ∀ x, (twoItems "memory@1000").Lists OnlyStarts 1 1 x →
      (twoItems "memory@1000").Lists IsMemory 1 1 x := fun x ⟨e, he, hname, _⟩ =>
    absurd (hmemory e he) hname.2
  exact ⟨hnone, (free_agree_iff hfdt (by decide) hwf (two_cells _) (two_bounded _)
    (Outcome.replaceErr_eq_ok_iff.mp hparse) hregister hparse' hloop).mpr hnone⟩

/-- A memory controller: the bootstrap takes its registers for free memory, the kernel
does not. -/
theorem free_disagree :
    Fdt.Flattened (twoFdt "memory-controller")
        (Fdt.layout [] (Fdt.structBlock (twoToks "memory-controller")) twoStrings) []
        (twoItems "memory-controller") ∧
      (twoItems "memory-controller").WellFormed ∧
      RootCells (twoItems "memory-controller") 1 1 ∧
      (twoItems "memory-controller").Bounded StartsMemory 1 1 ∧
      (∃ blob mmap, Cxx.Fdt.Blob.parse (twoFdt "memory-controller") = .ok blob ∧
        registerMemory (twoFdt "memory-controller") blob .new = .ok mmap ∧
        mmap.lookup 4096 = some .free) ∧
      ∃ dt fuel m, Rust.parse (twoFdt "memory-controller") = .ok dt ∧
        childrenLoop fuel dt.root.addressSpace dt.root.children Rust.MemoryMap.new =
          some (some m) ∧
        Rust.lookup m.memory 4096 = none := by
  have hfdt := two_flattened "memory-controller" (by decide +kernel) (by decide +kernel)
  have hwf := two_wellFormed "memory-controller" (by decide +kernel) (by decide +kernel)
    (by decide +kernel)
  have hcxx : ((Cxx.Fdt.Blob.parse (twoFdt "memory-controller")).replaceErr .new >>= fun blob =>
      registerMemory (twoFdt "memory-controller") blob .new) = .ok twoPages := by
    decide +kernel
  obtain ⟨blob, hparse, hregister⟩ := Outcome.bind_eq_ok_iff.mp hcxx
  refine ⟨hfdt, hwf, two_cells _, two_bounded _, ⟨blob, twoPages,
    Outcome.replaceErr_eq_ok_iff.mp hparse, hregister, by decide⟩, twoTree "memory-controller", 2,
    ⟨[⟨⟨0, 4096⟩, .regular, .free⟩], [⟨⟨0, 4096⟩, .regular, .unknown⟩]⟩,
    Rust.parse_of_flattened hfdt (by decide) (by decide) hwf, ?_, by decide⟩
  decide +kernel

end Aarch64.Boot
