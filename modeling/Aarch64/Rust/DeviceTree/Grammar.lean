import Aarch64.Rust.DeviceTree.RoundTrip

/-!
# The parser against the grammar

Without a panic, `parse_nodes` succeeds exactly where the structure can be read by
recursive descent, and it returns the tree of the last node without a name. The stack of
the parser is simulated by the nodes that are still open in the reading.
-/

namespace Aarch64.Rust

open Fdt (Tok Lex Lexes EndsAt Items IsCells cellValue Closes)
open DeviceTreeNode (addItems)

/-! ## The tree of a reading -/

/-- The value of the last property with this name. -/
def lastProperty (name : List UInt8) : Items → Option (List UInt8)
  | .nil => none
  | .prop name' value rest =>
      (lastProperty name rest).or (if name' = name then some value else none)
  | .node _ _ rest => lastProperty name rest

/-- The body of the last child with this name, and the address space of its parent when
it began. -/
def lastChild (name : List UInt8) : AddressSpace → Items → Option (AddressSpace × Items)
  | _, .nil => none
  | space, .prop name' value rest => lastChild name (space.update name' value) rest
  | space, .node name' body rest =>
      (lastChild name space rest).or (if name' = name then some (space, body) else none)

/-- The address space at the end of the items. -/
def AddressSpace.last (space : AddressSpace) (items : Items) : AddressSpace where
  sizeCells :=
    ((lastProperty (Bytes.ofString "#size-cells") items).map cellValue).getD space.sizeCells
  addressCells :=
    ((lastProperty (Bytes.ofString "#address-cells") items).map cellValue).getD space.addressCells

/-- The node is the tree of the items of a child of a node with `space`. -/
inductive IsTree : AddressSpace → Items → DeviceTreeNode → Prop
  | intro {space : AddressSpace} {items : Items} {node : DeviceTreeNode}
      (hspace : node.addressSpace = space.last items)
      (hproperties : SortedMap.Sorted node.properties)
      (hchildren : SortedMap.Sorted node.children)
      (hprops : ∀ name, node.properties.lookup name = lastProperty name items)
      (hnodes : ∀ name, (∃ child, node.children.lookup name = some child) ↔
        ∃ body, lastChild name space items = some body)
      (hbodies : ∀ name child body, node.children.lookup name = some child →
        lastChild name space items = some body → IsTree body.1 body.2 child) :
      IsTree space items node

/-- The structure is a sequence of items up to its end, and `t` is the tree of the last
item without a name. -/
def Describes (structs strings : List UInt8) (t : DeviceTreeNode) : Prop :=
  ∃ (items : Items) (stop : Nat) (body : AddressSpace × Items),
    items.Reads structs strings 0 stop ∧ EndsAt structs stop ∧ items.IsUtf8 ∧
      lastChild [] ⟨1, 1⟩ items = some body ∧ IsTree body.1 body.2 t

/-- A node has at most one tree. -/
theorem IsTree.unique {space : AddressSpace} {items : Items} {t t' : DeviceTreeNode}
    (h : IsTree space items t) (h' : IsTree space items t') : t = t' := by
  induction h generalizing t' with
  | @intro space items t hspace hproperties hchildren hprops hnodes hbodies ih =>
      obtain ⟨hspace', hproperties', hchildren', hprops', hnodes', hbodies'⟩ := h'
      have hps : t.properties = t'.properties :=
        hproperties.ext hproperties' fun name => (hprops name).trans (hprops' name).symm
      have hcs : t.children = t'.children := by
        refine hchildren.ext hchildren' fun name => ?_
        cases hlast : lastChild name space items with
        | none =>
            have hnone : ∀ {t : DeviceTreeNode}, ((∃ child, t.children.lookup name = some child) ↔
                ∃ body, lastChild name space items = some body) → t.children.lookup name = none := by
              intro t hiff
              rw [hlast] at hiff
              rw [Option.eq_none_iff_forall_ne_some]
              intro child hchild
              obtain ⟨_, hbody⟩ := hiff.mp ⟨child, hchild⟩
              cases hbody
            rw [hnone (hnodes name), hnone (hnodes' name)]
        | some body =>
            obtain ⟨child, hchild⟩ := (hnodes name).mpr ⟨body, hlast⟩
            obtain ⟨child', hchild'⟩ := (hnodes' name).mpr ⟨body, hlast⟩
            rw [hchild, hchild', ih name child body hchild hlast (hbodies' name child' body hchild' hlast)]
      obtain ⟨children, properties, addressSpace⟩ := t
      obtain ⟨children', properties', addressSpace'⟩ := t'
      cases hps
      cases hcs
      cases hspace.trans hspace'.symm
      rfl

/-! ## Adding items builds the tree -/

variable {items : Items} {node : DeviceTreeNode}

@[simp] theorem AddressSpace.last_prop (space : AddressSpace) (name value : List UInt8) (rest : Items) :
    space.last (.prop name value rest) = (space.update name value).last rest := by
  have hcell : ∀ (key : List UInt8) (default : Nat),
      ((lastProperty key (.prop name value rest)).map cellValue).getD default =
        ((lastProperty key rest).map cellValue).getD
          (if name = key then cellValue value else default) := by
    intro key default
    rw [lastProperty]
    cases lastProperty key rest with
    | none =>
        split
        next => rfl
        next => rfl
    | some v => rfl
  exact congrArg₂ AddressSpace.mk (hcell _ _) (hcell _ _)

@[simp] theorem addItems_last (items : Items) (node : DeviceTreeNode) :
    (addItems items node).addressSpace = node.addressSpace.last items := by
  induction items generalizing node with
  | nil => rfl
  | prop name value rest ih => rw [addItems, ih, AddressSpace.last_prop]
  | node name body rest _ ih => rw [addItems, ih]; rfl

theorem addItems_lookup_properties (name : List UInt8) :
    (addItems items node).properties.lookup name =
      (lastProperty name items).or (node.properties.lookup name) := by
  induction items generalizing node with
  | nil => rfl
  | prop name' value rest ih =>
      rw [addItems, ih, SortedMap.lookup_insert, lastProperty, Option.or_assoc]
      by_cases heq : name = name'
      · rw [if_pos heq, if_pos heq.symm]
        rfl
      · rw [if_neg heq, if_neg (Ne.symm heq)]
        rfl
  | node name' body rest _ ih => exact ih

/-- A child has been given the items of the last body with its name. -/
theorem addItems_lookup_children (name : List UInt8) :
    (addItems items node).children.lookup name =
      ((lastChild name node.addressSpace items).map fun e =>
        addItems e.2 ⟨[], [], e.1⟩).or (node.children.lookup name) := by
  induction items generalizing node with
  | nil => rfl
  | prop name' value rest ih => exact ih
  | node name' body rest _ ih =>
      have hlookup : (node.addChild name' (addItems body node.newChild)).children.lookup name =
          if name = name' then some (addItems body node.newChild) else node.children.lookup name :=
        SortedMap.lookup_insert ..
      rw [addItems, ih, hlookup, lastChild]
      change Option.or (Option.map _ (lastChild name node.addressSpace rest)) _ = _
      cases lastChild name node.addressSpace rest with
      | some e => rfl
      | none =>
          by_cases heq : name = name'
          · rw [if_pos heq, if_pos heq.symm]
            rfl
          · rw [if_neg heq, if_neg (Ne.symm heq)]
            rfl

/-- The items make a tree if the bodies of the last children do. -/
theorem isTree_of_bodies {space : AddressSpace}
    (h : ∀ name e, lastChild name space items = some e →
      IsTree e.1 e.2 (addItems e.2 ⟨[], [], e.1⟩)) :
    IsTree space items (addItems items ⟨[], [], space⟩) := by
  obtain ⟨hproperties, hchildren⟩ : SortedMap.Sorted (addItems items ⟨[], [], space⟩).properties ∧
      SortedMap.Sorted (addItems items ⟨[], [], space⟩).children := addItems_sorted .nil .nil
  have hlookup : ∀ name, (addItems items ⟨[], [], space⟩).children.lookup name =
      (lastChild name space items).map fun e => addItems e.2 ⟨[], [], e.1⟩ := by
    intro name
    rw [addItems_lookup_children, List.lookup_nil, Option.or_none]
  refine .intro (addItems_last items _) hproperties hchildren ?_ ?_ ?_
  · intro name
    rw [addItems_lookup_properties, List.lookup_nil, Option.or_none]
  · intro name
    rw [hlookup]
    simp only [Option.map_eq_some_iff]
    constructor
    · rintro ⟨_, e, he, _⟩
      exact ⟨e, he⟩
    · rintro ⟨e, he⟩
      exact ⟨_, e, he, rfl⟩
  · intro name child e hchild he
    rw [hlookup, he] at hchild
    cases hchild
    exact h name e he

theorem isTree_bodies (name : List UInt8) (items : Items) : ∀ (space : AddressSpace) e,
    lastChild name space items = some e → IsTree e.1 e.2 (addItems e.2 ⟨[], [], e.1⟩) := by
  induction items generalizing name with
  | nil => exact fun _ _ h => by cases h
  | prop name' value rest ih => exact fun space e h => ih name _ e h
  | node name' body rest ihbody ih =>
      intro space e h
      rw [lastChild] at h
      rcases Option.or_eq_some_iff.mp h with h | ⟨_, h⟩
      · exact ih name space e h
      · split at h
        next =>
          cases h
          exact isTree_of_bodies fun name e he => ihbody name _ e he
        next => cases h

/-- The tree of the items is what adding them to a new node gives. -/
theorem isTree_iff {space : AddressSpace} {t : DeviceTreeNode} :
    IsTree space items t ↔ t = addItems items ⟨[], [], space⟩ := by
  have htree : IsTree space items (addItems items ⟨[], [], space⟩) :=
    isTree_of_bodies fun name e he => isTree_bodies name items space e he
  constructor
  · exact fun h => h.unique htree
  · rintro rfl
    exact htree

/-! ## The stack simulates the open nodes -/

variable {structs strings : List UInt8} {off stop : Nat} {toks : List Tok}
variable {state state' : State} {root : DeviceTreeNode}

/-- Tokens that leave no node open complete the nodes that are open before them. -/
theorem closes_of_run (h : state.run toks = .ok state') (hdone : state'.parents = []) :
    Closes state.parents.length toks := by
  induction toks generalizing state with
  | nil =>
      cases h
      rw [hdone]
      exact .zero .nil
  | cons tok toks ih =>
      obtain ⟨next, happly, h⟩ := Outcome.bind_eq_ok_iff.mp h
      have hrest := ih h
      cases tok with
      | beginNode name =>
          cases happly
          exact hrest.beginNode name
      | endNode =>
          obtain ⟨parents, current⟩ := state
          cases parents with
          | nil => cases happly
          | cons e parents =>
              cases happly
              exact hrest.endNode
      | prop name value =>
          obtain ⟨current, _, happly⟩ := Outcome.bind_eq_ok_iff.mp happly
          cases happly
          exact hrest.prop name value
      | nop =>
          cases happly
          exact hrest.nop

/-- A loop that succeeds has read tokens up to the end of the structure. -/
theorem exists_lexes_of_ok : ∀ (n off : Nat) (state : State), structs.length - off = n →
    parseNodesLoop strings ⟨structs, off⟩ state = .ok root →
    ∃ toks stop, Lexes structs strings off toks stop ∧ EndsAt structs stop ∧
      (∀ tok ∈ toks, ReadsNames tok) ∧ (state.run toks >>= State.finish) = .ok root := by
  intro n
  induction n using Nat.strongRecOn with
  | _ n ih =>
      intro off state hn hok
      rw [parseNodesLoop_eq] at hok
      rcases nodesRound_cases structs strings off state with hreads | hend | hbad
      · rcases hreads with ⟨tok, next, hlex, hname, hround⟩ | ⟨e, hround⟩
        · rw [hround] at hok
          have hbounds := hlex.bounds
          cases happly : state.apply tok with
          | ok state' =>
              rw [happly, Outcome.ok_bind, Outcome.ok_bind] at hok
              obtain ⟨toks, stop, hlexes, hend, hnames, hrun⟩ := ih _ (by omega) next state' rfl hok
              refine ⟨tok :: toks, stop, .cons hlex hlexes, hend,
                List.forall_mem_cons.mpr ⟨hname, hnames⟩, ?_⟩
              rw [State.run, happly]
              exact hrun
          | err e =>
              rw [happly] at hok
              cases hok
          | fault =>
              rw [happly] at hok
              cases hok
        · rw [hround] at hok
          cases hok
      · refine ⟨[], off, .nil off, hend, fun tok htok => absurd htok List.not_mem_nil, ?_⟩
        rw [nodesRound_of_endsAt hend] at hok
        cases hfinish : state.finish with
        | ok t =>
            rw [hfinish] at hok
            cases hok
            exact hfinish
        | err e =>
            rw [hfinish] at hok
            cases hok
        | fault =>
            rw [hfinish] at hok
            cases hok
      · rw [nodesRound_of_badProp hbad] at hok
        cases hok

/-- Without open nodes, the parser returns the tree of the last item without a name. -/
theorem finish_addItems (items : Items) :
    State.finish ⟨[], addItems items DeviceTreeNode.new⟩ =
      match lastChild [] ⟨1, 1⟩ items with
      | some e => .ok (addItems e.2 ⟨[], [], e.1⟩)
      | none => .err "FDT doesn't have a root node with an empty name." := by
  have hlookup : (addItems items DeviceTreeNode.new).removeChild [] =
      (lastChild [] ⟨1, 1⟩ items).map fun e => addItems e.2 ⟨[], [], e.1⟩ :=
    (addItems_lookup_children []).trans (Option.or_none ..)
  rw [State.finish, if_neg (not_not.mpr rfl), hlookup]
  cases lastChild [] ⟨1, 1⟩ items with
  | some e => rfl
  | none => rfl

/-- What the parser makes of a structure that can be read, if it does not panic. -/
theorem parseNodes_of_reads {items : Items} (hreads : items.Reads structs strings 0 stop)
    (hend : EndsAt structs stop) (hutf : items.IsUtf8) (h : parseNodes structs strings ≠ .fault) :
    parseNodes structs strings = State.finish ⟨[], addItems items DeviceTreeNode.new⟩ := by
  obtain ⟨toks, hflat, hlexes⟩ := hreads.lexes
  have hloop := parseNodesLoop_of_lexes hlexes hend ((readsNames_iff_isUtf8 hflat).mpr hutf)
    State.new
  have hparse : parseNodes structs strings = _ := hloop
  by_cases hwide : items.Wide
  · have hrun := run_of_wide hflat hwide State.new []
    rw [List.append_nil] at hrun
    rw [hparse, hrun]
    rfl
  · have hrun := run_of_not_wide hflat hwide State.new []
    rw [List.append_nil] at hrun
    rw [hparse, hrun] at h
    exact absurd rfl h

/-- A tree is returned only for a structure that can be read. -/
theorem reads_of_parseNodes (h : parseNodes structs strings = .ok root) :
    ∃ (items : Items) (stop : Nat), items.Reads structs strings 0 stop ∧ EndsAt structs stop ∧
      items.IsUtf8 := by
  obtain ⟨toks, stop, hlexes, hend, hnames, hrun⟩ := exists_lexes_of_ok _ 0 State.new rfl h
  obtain ⟨state, hrun, hfinish⟩ := Outcome.bind_eq_ok_iff.mp hrun
  have hdone : state.parents = [] := by
    by_contra hopen
    rw [State.finish, if_pos hopen] at hfinish
    cases hfinish
  have hcloses := closes_of_run hrun hdone
  obtain ⟨hflat⟩ := hcloses
  exact ⟨_, stop, hflat.reads hlexes, hend, (readsNames_iff_isUtf8 hflat).mp hnames⟩

theorem parseNodes_eq_ok_iff (h : parseNodes structs strings ≠ .fault) (t : DeviceTreeNode) :
    parseNodes structs strings = .ok t ↔ Describes structs strings t := by
  constructor
  · intro hok
    obtain ⟨items, stop, hreads, hend, hutf⟩ := reads_of_parseNodes hok
    rw [parseNodes_of_reads hreads hend hutf h, finish_addItems] at hok
    cases hlast : lastChild [] ⟨1, 1⟩ items with
    | some e =>
        rw [hlast] at hok
        exact ⟨items, stop, e, hreads, hend, hutf, hlast, isTree_iff.mpr (Outcome.ok.inj hok).symm⟩
    | none =>
        rw [hlast] at hok
        cases hok
  · rintro ⟨items, stop, e, hreads, hend, hutf, hlast, htree⟩
    rw [parseNodes_of_reads hreads hend hutf h, finish_addItems, hlast, isTree_iff.mp htree]

/-- Where neither a slice nor an `unwrap` fails, the loop of the parser and its stack of nodes agree
with recursive descent: the tree that is returned is the one that the grammar describes, there is at
most one, and where there is none the parser reports an error. -/
theorem parseNodes_describes (h : parseNodes structs strings ≠ .fault) :
    (∀ t, parseNodes structs strings = .ok t ↔ Describes structs strings t) ∧
      ((∀ t, ¬ Describes structs strings t) → ∃ e, parseNodes structs strings = .err e) := by
  refine ⟨parseNodes_eq_ok_iff h, fun hnone => ?_⟩
  cases hparse : parseNodes structs strings with
  | ok t => exact absurd ((parseNodes_eq_ok_iff h t).mp hparse) (hnone t)
  | err e => exact ⟨e, rfl⟩
  | fault => exact absurd hparse h

/-- A node without a name that has one child. -/
theorem parseNodes_describes_child :
    ∃ structs, (∀ t, parseNodes structs [] = .ok t ↔ Describes structs [] t) ∧
      ((∀ t, ¬ Describes structs [] t) → ∃ e, parseNodes structs [] = .err e) := by
  refine ⟨Fdt.structBlock [(.beginNode [], 0), (.beginNode [97], 0), (.endNode, 0), (.endNode, 0)],
    parseNodes_describes ?_⟩
  have hfits : ∀ t ∈ [(Tok.beginNode [], 0), (.beginNode [97], 0), (.endNode, 0), (.endNode, 0)],
      t.1.Fits [] t.2 := by decide
  obtain ⟨stop, hlexes, hend⟩ := Fdt.lexes_structBlock hfits 0 rfl (List.prefix_refl _)
  have hflat : (Items.node [] (.node [97] .nil .nil) .nil).Flattens
      [.beginNode [], .beginNode [97], .endNode, .endNode] := .node (.node .nil .nil) .nil
  have hutf : (Items.node [] (.node [97] .nil .nil) .nil).IsUtf8 :=
    ⟨by decide +kernel, ⟨by decide +kernel, trivial, trivial⟩, trivial⟩
  have hloop := parseNodesLoop_of_lexes hlexes hend ((readsNames_iff_isUtf8 hflat).mpr hutf)
    State.new
  intro hfault
  rw [parseNodes, Scanner.new] at hfault
  cases hloop.symm.trans hfault

end Aarch64.Rust
