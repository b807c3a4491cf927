import Aarch64.Fdt.Format
import Aarch64.Lib.SortedMap

/-!
# Looking up items

In a well-formed tree a name is that of at most one property and at most one child, so
what a node lists under a name can be looked up. The cells of a node are those that its
properties give, or a default.
-/

namespace Aarch64.Fdt.Items

open SortedMap (lookup_cons lookup_eq_none_of_fresh)

theorem lookup_props {items : Items} (h : items.WellFormed) (name value : List UInt8) :
    items.props.lookup name = some value ↔ (name, value) ∈ items.props := by
  induction h with
  | nil => simp [props]
  | @prop name' value' rest hzero hname hfresh hcells hrest ih =>
      rw [props, lookup_cons, List.mem_cons, Prod.mk.injEq]
      by_cases heq : name = name'
      · subst heq
        simp [hfresh, eq_comm]
      · simp [heq, ih]
  | node hzero hname hfresh hbody hrest ihbody ih => exact ih

theorem lookup_nodes {items : Items} (h : items.WellFormed) (name : List UInt8) (body : Items) :
    items.nodes.lookup name = some body ↔ (name, body) ∈ items.nodes := by
  induction h with
  | nil => simp [nodes]
  | prop hzero hname hfresh hcells hrest ih => exact ih
  | @node name' body' rest hzero hname hfresh hbody hrest ihbody ih =>
      rw [nodes, lookup_cons, List.mem_cons, Prod.mk.injEq]
      by_cases heq : name = name'
      · subst heq
        simp [hfresh, eq_comm]
      · simp [heq, ih]

theorem wellFormed_of_mem {items : Items} (h : items.WellFormed) :
    ∀ e ∈ items.nodes, e.2.WellFormed := by
  induction h with
  | nil => exact fun e he => absurd he List.not_mem_nil
  | prop hzero hname hfresh hcells hrest ih => exact ih
  | node hzero hname hfresh hbody hrest ihbody ih => exact List.forall_mem_cons.mpr ⟨hbody, ih⟩

/-- The number that the property with this name gives, if it is there. -/
def cells (name : List UInt8) (items : Items) (default : Nat) : Nat :=
  ((items.props.lookup name).map cellValue).getD default

/-- A property that is not given again decides the number that it is about. -/
theorem cells_prop (key : List UInt8) {name value : List UInt8} {rest : Items}
    (hfresh : ∀ v, (name, v) ∉ rest.props) (default : Nat) :
    cells key (.prop name value rest) default =
      cells key rest (if name = key then cellValue value else default) := by
  rw [cells, cells, props, lookup_cons]
  by_cases h : name = key
  · rw [if_pos h.symm, if_pos h, ← h, lookup_eq_none_of_fresh hfresh]
    rfl
  · rw [if_neg (Ne.symm h), if_neg h]

/-- The numbers of cells stand before the children. -/
def CellsFirst : Items → Prop
  | nil => True
  | prop _ _ rest => rest.CellsFirst
  | node _ _ rest => (∀ e ∈ rest.props, ¬ IsCells e.1) ∧ rest.CellsFirst

/-- Properties of other names give no cells. -/
theorem cells_of_not_isCells {key : List UInt8} {items : Items} (hkey : IsCells key)
    (h : ∀ e ∈ items.props, ¬ IsCells e.1) (default : Nat) : cells key items default = default := by
  have hnone : items.props.lookup key = none :=
    lookup_eq_none_of_fresh fun v hmem => h _ hmem hkey
  rw [cells, hnone]
  rfl

/-- The address lies in a pair of the `reg` property of a child with such a name. -/
def Lists (P : List UInt8 → Prop) (address size : Nat) (items : Items) (x : Nat) : Prop :=
  ∃ e ∈ items.nodes, P e.1 ∧ ∃ value, (Bytes.ofString "reg", value) ∈ e.2.props ∧
    ∃ p ∈ pairs address size value, p.1 ≤ x ∧ x < p.1 + p.2

theorem not_lists_nil (P : List UInt8 → Prop) (address size x : Nat) :
    ¬ Items.nil.Lists P address size x := by
  rintro ⟨e, he, _⟩
  exact List.not_mem_nil he

theorem lists_node {P : List UInt8 → Prop} {address size x : Nat} {name : List UInt8}
    {body rest : Items} : (Items.node name body rest).Lists P address size x ↔
      (P name ∧ ∃ value, (Bytes.ofString "reg", value) ∈ body.props ∧
        ∃ p ∈ pairs address size value, p.1 ≤ x ∧ x < p.1 + p.2) ∨
      rest.Lists P address size x := List.exists_mem_cons_iff _ _ _

/-- No pair in the `reg` property of a child with such a name wraps around. -/
def Bounded (P : List UInt8 → Prop) (address size : Nat) (items : Items) : Prop :=
  ∀ e ∈ items.nodes, P e.1 → ∀ value, (Bytes.ofString "reg", value) ∈ e.2.props →
    ∀ p ∈ pairs address size value, p.1 + p.2 < 2 ^ 64

end Aarch64.Fdt.Items
