import Aarch64.Fdt.Encode
import Aarch64.Fdt.Grammar
import Aarch64.Fdt.Items
import Aarch64.Rust.DeviceTree.Blob

/-!
# Parsing undoes flattening

The tokens of a flattened tree rebuild the tree on the stack of the parser: what stands
between the tokens of a node is added to that node, and the nodes below on the stack are
left alone. The cells of a node are known before its first child starts, because its
properties stand first.
-/

namespace Aarch64.Rust

open Bytes (isUtf8)
open Fdt (Tok Lexes EndsAt Header Items IsCells cellValue IsReservations)

/-! ## Adding items to a node -/

namespace DeviceTreeNode

/-- The node with the items added one after the other. -/
def addItems : Items → DeviceTreeNode → DeviceTreeNode
  | .nil, node => node
  | .prop name value rest, node =>
      addItems rest ⟨node.children, SortedMap.insert name value node.properties,
        node.addressSpace.update name value⟩
  | .node name body rest, node =>
      addItems rest (node.addChild name (addItems body node.newChild))

end DeviceTreeNode

open DeviceTreeNode (addItems)

/-- The names in the tokens of the items can be read if all names are strings. -/
theorem readsNames_iff_isUtf8 {items : Items} {toks : List Tok} (h : items.Flattens toks) :
    (∀ tok ∈ toks, ReadsNames tok) ↔ items.IsUtf8 := by
  induction h with
  | nil => exact iff_of_true (fun tok htok => absurd htok List.not_mem_nil) trivial
  | nop h ih => exact List.forall_mem_cons.trans ((and_iff_right trivial).trans ih)
  | prop h ih => exact List.forall_mem_cons.trans (and_congr_right fun _ => ih)
  | node h hrest ih ihrest =>
      refine List.forall_mem_cons.trans (and_congr_right fun _ => ?_)
      refine List.forall_mem_append.trans (and_congr ih ?_)
      exact List.forall_mem_cons.trans ((and_iff_right trivial).trans ihrest)

/-- The tokens of the items add them to the current node. -/
theorem run_of_wide {items : Items} {toks : List Tok} (h : items.Flattens toks)
    (hwide : items.Wide) (state : State) (rest : List Tok) :
    state.run (toks ++ rest) =
      State.run rest ⟨state.parents, addItems items state.current⟩ := by
  induction h generalizing state rest with
  | nil => rfl
  | nop h ih => exact ih hwide state rest
  | prop h ih =>
      have hround : state.newProperty _ _ = .ok _ :=
        Outcome.bind_of_eq_ok (addProperty_of_wide state.current hwide.1) _
      rw [List.cons_append, State.run, State.apply, hround, Outcome.ok_bind]
      exact ih hwide.2 _ rest
  | node h hrest ih ihrest =>
      rw [List.cons_append, State.run, State.apply, Outcome.ok_bind, List.append_assoc,
        ih hwide.1, List.cons_append, State.run]
      exact ihrest hwide.2 _ rest

/-- A number of cells that is too short makes the parser panic. -/
theorem run_of_not_wide {items : Items} {toks : List Tok} (h : items.Flattens toks)
    (hwide : ¬ items.Wide) (state : State) (rest : List Tok) :
    state.run (toks ++ rest) = .fault := by
  induction h generalizing state rest with
  | nil => exact absurd trivial hwide
  | nop h ih => exact ih hwide state rest
  | @prop name value items toks h ih =>
      by_cases hcells : IsCells name → 4 ≤ value.length
      · have hround : state.newProperty name value = .ok _ :=
          Outcome.bind_of_eq_ok (addProperty_of_wide state.current hcells) _
        rw [List.cons_append, State.run, State.apply, hround, Outcome.ok_bind]
        exact ih (fun hrest => hwide ⟨hcells, hrest⟩) _ rest
      · obtain ⟨hname, hshort⟩ := Classical.not_imp.mp hcells
        rw [List.cons_append, State.run, State.apply, State.newProperty,
          addProperty_of_short _ hname (Nat.lt_of_not_le hshort)]
        rfl
  | @node name body items toks toks' h hrest ih ihrest =>
      rw [List.cons_append, State.run, State.apply, Outcome.ok_bind, List.append_assoc]
      by_cases hbody : body.Wide
      · rw [run_of_wide h hbody, List.cons_append, State.run]
        exact ihrest (fun hrest => hwide ⟨hbody, hrest⟩) _ rest
      · exact ih hbody _ _

/-! ## What a node with items holds -/

/-- The address space of a node with these items whose parent has `space`. -/
def AddressSpace.own (space : AddressSpace) (items : Items) : AddressSpace where
  sizeCells :=
    ((items.props.lookup (Bytes.ofString "#size-cells")).map cellValue).getD space.sizeCells
  addressCells :=
    ((items.props.lookup (Bytes.ofString "#address-cells")).map cellValue).getD space.addressCells

/-- The node holds exactly the items: the properties with their values, the children with
theirs, and its own cells or those of its parent. -/
inductive Represents : AddressSpace → Items → DeviceTreeNode → Prop
  | intro {space : AddressSpace} {items : Items} {node : DeviceTreeNode}
      (hspace : node.addressSpace = space.own items)
      (hproperties : SortedMap.Sorted node.properties)
      (hchildren : SortedMap.Sorted node.children)
      (hprops : ∀ name value, (name, value) ∈ node.properties ↔ (name, value) ∈ items.props)
      (hnodes : ∀ name, (∃ child, (name, child) ∈ node.children) ↔
        ∃ body, (name, body) ∈ items.nodes)
      (hbodies : ∀ name child body, (name, child) ∈ node.children → (name, body) ∈ items.nodes →
        Represents node.addressSpace body child) :
      Represents space items node

/-- A property that is not given again decides the cells it is about. -/
theorem AddressSpace.own_prop (space : AddressSpace) {name value : List UInt8} {rest : Items}
    (hfresh : ∀ v, (name, v) ∉ rest.props) :
    space.own (.prop name value rest) = (space.update name value).own rest :=
  congrArg₂ AddressSpace.mk (Items.cells_prop (Bytes.ofString "#size-cells") hfresh _)
    (Items.cells_prop (Bytes.ofString "#address-cells") hfresh _)

theorem AddressSpace.own_of_no_props (space : AddressSpace) {items : Items}
    (h : items.props = []) : space.own items = space := by
  rw [own, h]
  rfl

variable {items : Items} {node : DeviceTreeNode}

theorem addItems_sorted (hproperties : SortedMap.Sorted node.properties)
    (hchildren : SortedMap.Sorted node.children) :
    SortedMap.Sorted (addItems items node).properties ∧
      SortedMap.Sorted (addItems items node).children := by
  induction items generalizing node with
  | nil => exact ⟨hproperties, hchildren⟩
  | prop name value rest ih => exact ih (hproperties.insert name value) hchildren
  | node name body rest _ ih => exact ih hproperties (hchildren.insert name _)

theorem addItems_addressSpace (hwf : items.WellFormed) :
    (addItems items node).addressSpace = node.addressSpace.own items := by
  induction hwf generalizing node with
  | nil => exact (AddressSpace.own_of_no_props _ rfl).symm
  | prop hzero hname hfresh hcells hrest ih =>
      rw [addItems, ih, AddressSpace.own_prop _ hfresh]
  | node hzero hname hfresh hbody hrest ihbody ih => exact ih

theorem addItems_properties (hwf : items.WellFormed) (name : List UInt8) :
    (addItems items node).properties.lookup name =
      (items.props.lookup name).or (node.properties.lookup name) := by
  induction hwf generalizing node with
  | nil => rfl
  | @prop name' value rest hzero hname hfresh hcells hrest ih =>
      rw [addItems, ih, SortedMap.lookup_insert, Items.props, SortedMap.lookup_cons]
      by_cases heq : name = name'
      · rw [if_pos heq, if_pos heq, heq, SortedMap.lookup_eq_none_of_fresh hfresh]
        rfl
      · rw [if_neg heq, if_neg heq]
  | node hzero hname hfresh hbody hrest ihbody ih => exact ih

/-- A child starts with the final address space of its parent. -/
theorem addItems_children (hwf : items.WellFormed) (hfirst : items.PropsFirst)
    (name : List UInt8) :
    (addItems items node).children.lookup name =
      ((items.nodes.lookup name).map fun body =>
        addItems body ⟨[], [], node.addressSpace.own items⟩).or (node.children.lookup name) := by
  induction hwf generalizing node with
  | nil => rfl
  | prop hzero hname hfresh hcells hrest ih =>
      rw [addItems, ih hfirst, AddressSpace.own_prop _ hfresh]
      rfl
  | @node name' body rest hzero hname hfresh hbody hrest ihbody ih =>
      obtain ⟨hprops, _, hfirst⟩ := hfirst
      have hown : node.addressSpace.own (.node name' body rest) = node.addressSpace :=
        AddressSpace.own_of_no_props _ hprops
      rw [addItems, ih hfirst, hown]
      change Option.or (Option.map (fun body =>
        addItems body ⟨[], [], node.addressSpace.own rest⟩) _) _ = _
      rw [AddressSpace.own_of_no_props _ hprops, Items.nodes, SortedMap.lookup_cons]
      change Option.or _ ((SortedMap.insert name' _ node.children).lookup name) = _
      rw [SortedMap.lookup_insert]
      by_cases heq : name = name'
      · rw [if_pos heq, if_pos heq, heq, SortedMap.lookup_eq_none_of_fresh hfresh]
        rfl
      · rw [if_neg heq, if_neg heq]

/-- Without further assumptions a child has been given its items, and some address space. -/
theorem addItems_child (hwf : items.WellFormed) (name : List UInt8) :
    (∃ body space, items.nodes.lookup name = some body ∧
        (addItems items node).children.lookup name = some (addItems body ⟨[], [], space⟩)) ∨
      (items.nodes.lookup name = none ∧
        (addItems items node).children.lookup name = node.children.lookup name) := by
  induction hwf generalizing node with
  | nil => exact Or.inr ⟨rfl, rfl⟩
  | prop hzero hname hfresh hcells hrest ih => exact ih
  | @node name' body rest hzero hname hfresh hbody hrest ihbody ih =>
      rw [Items.nodes, SortedMap.lookup_cons, addItems]
      have hlookup : (node.addChild name' (addItems body node.newChild)).children.lookup name =
          if name = name' then some (addItems body node.newChild) else node.children.lookup name :=
        SortedMap.lookup_insert ..
      rcases @ih (node.addChild name' (addItems body node.newChild)) with
        ⟨body', space, hmem, hchild⟩ | ⟨hnone, hchild⟩
      · have hne : name ≠ name' := by
          rintro rfl
          rw [SortedMap.lookup_eq_none_of_fresh hfresh] at hmem
          cases hmem
        exact Or.inl ⟨body', space, by rw [if_neg hne, hmem], hchild⟩
      · rw [hchild, hlookup]
        by_cases heq : name = name'
        · rw [if_pos heq, if_pos heq]
          exact Or.inl ⟨body, node.addressSpace, rfl, rfl⟩
        · rw [if_neg heq, if_neg heq]
          exact Or.inr ⟨hnone, rfl⟩

/-- A new node represents the items that are added to it if the children do. -/
theorem represents_of_bodies {space : AddressSpace} (hwf : items.WellFormed)
    (hfirst : items.PropsFirst) (hbodies : ∀ e ∈ items.nodes, ∀ space,
      Represents space e.2 (addItems e.2 ⟨[], [], space⟩)) :
    Represents space items (addItems items ⟨[], [], space⟩) := by
  obtain ⟨hproperties, hchildren⟩ : SortedMap.Sorted (addItems items ⟨[], [], space⟩).properties ∧
      SortedMap.Sorted (addItems items ⟨[], [], space⟩).children := addItems_sorted .nil .nil
  have hchild : ∀ name child, (name, child) ∈ (addItems items ⟨[], [], space⟩).children ↔
      ∃ body, (name, body) ∈ items.nodes ∧ addItems body ⟨[], [], space.own items⟩ = child := by
    intro name child
    rw [SortedMap.mem_iff_lookup hchildren, addItems_children hwf hfirst, List.lookup_nil,
      Option.or_none, Option.map_eq_some_iff]
    simp only [Items.lookup_nodes hwf]
  have hspace : (addItems items ⟨[], [], space⟩).addressSpace = space.own items :=
    addItems_addressSpace hwf
  refine .intro hspace hproperties hchildren ?_ ?_ ?_
  · intro name value
    rw [SortedMap.mem_iff_lookup hproperties, addItems_properties hwf, List.lookup_nil,
      Option.or_none, Items.lookup_props hwf]
  · intro name
    constructor
    · rintro ⟨child, h⟩
      obtain ⟨body, hbody, _⟩ := (hchild name child).mp h
      exact ⟨body, hbody⟩
    · rintro ⟨body, hbody⟩
      exact ⟨_, (hchild name _).mpr ⟨body, hbody, rfl⟩⟩
  · intro name child body hmem hbody
    obtain ⟨body', hbody', rfl⟩ := (hchild name child).mp hmem
    have heq : body' = body := by
      rw [← Items.lookup_nodes hwf] at hbody hbody'
      exact Option.some.inj (hbody'.symm.trans hbody)
    rw [hspace, heq]
    exact hbodies _ hbody _

theorem represents_bodies (hwf : items.WellFormed) (hfirst : items.PropsFirst) :
    ∀ e ∈ items.nodes, ∀ space, Represents space e.2 (addItems e.2 ⟨[], [], space⟩) := by
  induction hwf with
  | nil => exact fun e he => absurd he List.not_mem_nil
  | prop hzero hname hfresh hcells hrest ih => exact ih hfirst
  | node hzero hname hfresh hbody hrest ihbody ih =>
      obtain ⟨_, hfirstbody, hfirst⟩ := hfirst
      refine List.forall_mem_cons.mpr ⟨fun space => ?_, ih hfirst⟩
      exact represents_of_bodies hbody hfirstbody (ihbody hfirstbody)

/-- The items represented by the node that they are added to. -/
theorem represents_addItems (space : AddressSpace) (hwf : items.WellFormed)
    (hfirst : items.PropsFirst) : Represents space items (addItems items ⟨[], [], space⟩) :=
  represents_of_bodies hwf hfirst (represents_bodies hwf hfirst)

/-! ## Whole blobs -/

/-- The tree of a flattened blob, as the parser builds it. -/
theorem parse_of_flattened {fdt : List UInt8} {h : Header} {entries : List (Nat × Nat)}
    (hfdt : Fdt.Flattened fdt h entries items) (hversion : h.lastCompVersion ≤ 17)
    (hentries : IsReservations entries) (hwf : items.WellFormed) :
    parse fdt = .ok ⟨entries.map rangeOf, addItems items ⟨[], [], ⟨1, 1⟩⟩, h.lastCompVersion,
      h.bootCpuidPhys⟩ := by
  obtain ⟨hblob, htoks, hlexes, hend⟩ := hfdt
  rename_i structs strings toks stop
  have hroot : (Items.node [] items .nil).WellFormed :=
    .node List.not_mem_nil (by decide +kernel) (fun _ => List.not_mem_nil) hwf .nil
  have hheader := parseHeader_of_bytes hblob.words hblob.header_at
  have hsize := hblob.totalsize
  have hrsv := hblob.reserved_le
  have hrsvmap : slice fdt h.offMemRsvmap fdt.length = .ok (fdt.drop h.offMemRsvmap) :=
    slice_strings (by omega)
  have hreserved := parseReserved_of_entries hentries hblob.reserved_at
  have hslice : ∀ {off : Nat} {data : List UInt8}, data <+: fdt.drop off →
      off + data.length ≤ h.totalsize → slice fdt off (off + data.length) = .ok data := by
    intro off data hat hle
    rw [Scanner.slice_of_le (Nat.le_trans hle hsize), ← List.prefix_iff_eq_take.mp hat]
  have hstructs := hslice hblob.structs_at hblob.structs_le
  have hstrings := hslice hblob.strings_at hblob.strings_le
  rw [hblob.size_structs] at hstructs
  rw [hblob.size_strings] at hstrings
  have hrun := run_of_wide htoks hroot.wide State.new []
  rw [List.append_nil] at hrun
  have hnodes := parseNodesLoop_of_lexes hlexes hend ((readsNames_iff_isUtf8 htoks).mpr hroot.isUtf8) State.new
  rw [hrun, State.run, Outcome.ok_bind] at hnodes
  have hparse : parseNodes structs strings = .ok (addItems items ⟨[], [], ⟨1, 1⟩⟩) := by
    rw [parseNodes, Scanner.new, hnodes]
    rfl
  simp only [parse, hheader, Outcome.ok_bind]
  rw [if_neg (by rw [hblob.magic]; decide),
    if_neg (by rw [DEVICE_TREE_SPEC_VERSION]; exact Nat.not_lt.mpr hversion),
    if_neg (Nat.not_lt.mpr hsize), hrsvmap, Outcome.ok_bind, hreserved, Outcome.ok_bind, hstructs,
    Outcome.ok_bind, hstrings, Outcome.ok_bind, hparse, Outcome.ok_bind]
  rfl

/-- Whatever well-formed tree was flattened, with properties before nodes, with reservations that do
not wrap and with NOPs in any places, the parser returns it: the same nodes by their names, the same
properties, the reservations as ranges and the numbers of the header. The induction behind it is on
the tree. -/
theorem parse_flattened {fdt : List UInt8} {h : Header} {entries : List (Nat × Nat)}
    (hfdt : Fdt.Flattened fdt h entries items) (hversion : h.lastCompVersion ≤ 17)
    (hentries : ∀ e ∈ entries, e ≠ (0, 0) ∧ e.1 + e.2 < 2 ^ 64) (hwf : items.WellFormed)
    (hfirst : items.PropsFirst) :
    ∃ root, parse fdt = .ok ⟨entries.map fun e => ⟨e.1, e.1 + e.2⟩, root, h.lastCompVersion,
      h.bootCpuidPhys⟩ ∧ Represents ⟨1, 1⟩ items root := by
  have hlt : IsReservations entries := fun e he => by
    obtain ⟨hne, hsum⟩ := hentries e he
    exact ⟨hne, by omega, by omega⟩
  have hranges : entries.map rangeOf = entries.map fun e => ⟨e.1, e.1 + e.2⟩ := by
    refine List.map_congr_left fun e he => ?_
    rw [rangeOf, Word64.add_of_lt (hentries e he).2]
  exact ⟨_, hranges ▸ parse_of_flattened hfdt hversion hlt hwf, represents_addItems _ hwf hfirst⟩

/-- A tree with one property and one child, and a NOP before the property. -/
theorem parse_flattened_small :
    ∃ root, parse (Fdt.assemble [(1, 2)]
        (Fdt.structBlock [(.beginNode [], 0), (.nop, 0),
          (.prop (Bytes.ofString "#size-cells") (Fdt.word 2), 0), (.beginNode [97], 0),
          (.endNode, 0), (.endNode, 0)])
        (Bytes.ofString "#size-cells" ++ [0])) = .ok ⟨[⟨1, 3⟩], root, 16, 0⟩ ∧
      Represents ⟨1, 1⟩
        (.prop (Bytes.ofString "#size-cells") (Fdt.word 2) (.node [97] .nil .nil)) root := by
  refine parse_flattened (Fdt.flattened_assemble (.node (.nop (.prop (.node .nil .nil))) .nil)
    (by decide +kernel) (by decide +kernel)) (by decide) (by decide) ?_ ⟨rfl, trivial, trivial⟩
  refine .prop (by decide) (by decide +kernel) (by simp [Items.props]) (fun _ => by decide) ?_
  exact .node (by decide) (by decide +kernel) (by simp [Items.nodes]) .nil .nil

end Aarch64.Rust
