import Aarch64.Rust.DeviceTree.Grammar

/-!
# Following a path

`DeviceTree::follow` of `kernel/devicetree/src/lib.rs`. A path leads from one child to the
next, so in a parsed tree it finds what its names lead to in the structure of the blob. The
first character is cut off and never looked at.
-/

namespace Aarch64.Rust

open Fdt (EndsAt Items)
open DeviceTreeNode (addItems)

def slash : UInt8 := 0x2F

/-- A byte that is not the first of its character. -/
def Continues (b : UInt8) : Prop := 0x80 ≤ b ∧ b < 0xC0

instance (b : UInt8) : Decidable (Continues b) := inferInstanceAs (Decidable (_ ∧ _))

/-- `&path[1..]`, which panics if the path is empty or its first character is longer. -/
def dropFirst : List UInt8 → Option (List UInt8)
  | [] => none
  | _ :: rest => if ∃ b ∈ rest.head?, Continues b then none else some rest

def DeviceTreeNode.followLoop (current : DeviceTreeNode) :
    List (List UInt8) → Option DeviceTreeNode
  | [] => some current
  | name :: names =>
      match current.child name with
      | some node => node.followLoop names
      | none => none

/-- The outer option is `none` for a panic. -/
def DeviceTree.follow (dt : DeviceTree) (path : List UInt8) : Option (Option DeviceTreeNode) :=
  if path = [slash] then some (some dt.root)
  else (dropFirst path).map fun rest => dt.root.followLoop (rest.splitOn slash)

/-! ## Paths and names -/

/-- The path is any first byte and the names with slashes between them. A slash alone is the
path of the root, and not that of a child without a name. -/
def Leads (path : List UInt8) (names : List (List UInt8)) : Prop :=
  (path = [slash] ∧ names = []) ∨ (path ≠ [slash] ∧ names ≠ [] ∧
    (∀ name ∈ names, slash ∉ name) ∧ ∃ c, path = c :: [slash].intercalate names)

def SplitsCharacter (path : List UInt8) : Prop :=
  ∃ c b rest, path = c :: b :: rest ∧ Continues b

theorem notMem_of_mem_splitOn {b : UInt8} {l name : List UInt8} (h : name ∈ l.splitOn b) :
    b ∉ name := by
  induction l generalizing name with
  | nil =>
      rw [List.splitOn_nil, List.mem_singleton] at h
      rw [h]
      exact List.not_mem_nil
  | cons x l ih =>
      obtain ⟨head, tail, hsplit⟩ := List.exists_cons_of_ne_nil (List.splitOn_ne_nil b l)
      rw [hsplit] at ih
      rw [List.splitOn_cons_eq_if_modifyHead, hsplit] at h
      by_cases hx : x = b
      · rw [if_pos (beq_iff_eq.mpr hx)] at h
        cases List.mem_cons.mp h with
        | inl h => exact h ▸ List.not_mem_nil
        | inr h => exact ih h
      · rw [if_neg (fun h => hx (beq_iff_eq.mp h)), List.modifyHead_cons] at h
        cases List.mem_cons.mp h with
        | inl h =>
            rw [h, List.mem_cons]
            exact not_or.mpr ⟨Ne.symm hx, ih List.mem_cons_self⟩
        | inr h => exact ih (List.mem_cons_of_mem _ h)

/-- A path that is not empty and not a slash leads along the pieces behind its first byte. -/
theorem leads_cons_iff {c : UInt8} {rest : List UInt8} {names : List (List UInt8)}
    (hpath : c :: rest ≠ [slash]) : Leads (c :: rest) names ↔ names = rest.splitOn slash := by
  constructor
  · rintro (⟨heq, -⟩ | ⟨-, hne, hnames, d, heq⟩)
    · exact absurd heq hpath
    · rw [(List.cons.inj heq).2, List.splitOn_intercalate slash hnames hne]
  · rintro rfl
    refine Or.inr ⟨hpath, List.splitOn_ne_nil slash rest, ?_, c, ?_⟩
    · exact fun name => notMem_of_mem_splitOn
    · rw [List.intercalate_splitOn]

@[simp] theorem leads_slash_iff {names : List (List UInt8)} : Leads [slash] names ↔ names = [] := by
  constructor
  · rintro (⟨-, hnames⟩ | ⟨hne, -⟩)
    · exact hnames
    · exact absurd rfl hne
  · exact fun hnames => Or.inl ⟨rfl, hnames⟩

/-! ## Trees of readings -/

/-- What the names lead to below the items, each to the last child with its name. -/
def bodyAt : List (List UInt8) → AddressSpace × Items → Option (AddressSpace × Items)
  | [], e => some e
  | name :: names, e => (lastChild name e.1 e.2).bind (bodyAt names)

def treeOf (e : AddressSpace × Items) : DeviceTreeNode := addItems e.2 ⟨[], [], e.1⟩

variable {fdt structs strings path : List UInt8} {dt : DeviceTree} {e : AddressSpace × Items}

@[simp] theorem child_treeOf (e : AddressSpace × Items) (name : List UInt8) :
    (treeOf e).child name = (lastChild name e.1 e.2).map treeOf := by
  rw [DeviceTreeNode.child, treeOf, addItems_lookup_children]
  exact Option.or_none

theorem followLoop_treeOf (names : List (List UInt8)) (e : AddressSpace × Items) :
    (treeOf e).followLoop names = (bodyAt names e).map treeOf := by
  induction names generalizing e with
  | nil => rfl
  | cons name names ih =>
      rw [DeviceTreeNode.followLoop, child_treeOf, bodyAt]
      cases lastChild name e.1 e.2 with
      | none => rfl
      | some e' => exact ih e'

theorem dropFirst_eq_none_iff : dropFirst path = none ↔ path = [] ∨ SplitsCharacter path := by
  cases path with
  | nil => exact iff_of_true rfl (Or.inl rfl)
  | cons c rest =>
      have hsplits : SplitsCharacter (c :: rest) ↔ ∃ b ∈ rest.head?, Continues b := by
        constructor
        · rintro ⟨_, b, tail, heq, hb⟩
          rw [(List.cons.inj heq).2]
          exact ⟨b, rfl, hb⟩
        · rintro ⟨b, hhead, hb⟩
          obtain ⟨tail, rfl⟩ := List.head?_eq_some_iff.mp hhead
          exact ⟨c, b, tail, rfl, hb⟩
      rw [dropFirst, hsplits, or_iff_right (List.cons_ne_nil c rest)]
      by_cases h : ∃ b ∈ rest.head?, Continues b
      · exact iff_of_true (if_pos h) h
      · rw [if_neg h]
        exact iff_of_false (Option.some_ne_none rest) h

theorem follow_eq_none_iff : dt.follow path = none ↔ path = [] ∨ SplitsCharacter path := by
  rw [DeviceTree.follow]
  by_cases hroot : path = [slash]
  · rw [if_pos hroot, hroot]
    refine iff_of_false (Option.some_ne_none _) ?_
    rintro (h | ⟨_, _, _, h, -⟩)
    · cases h
    · cases h
  · rw [if_neg hroot, Option.map_eq_none_iff, dropFirst_eq_none_iff]

/-- Following a path whose names are known. -/
theorem follow_of_leads {names : List (List UInt8)} (hroot : dt.root = treeOf e)
    (hsplits : ¬ SplitsCharacter path) (h : Leads path names) :
    dt.follow path = some ((bodyAt names e).map treeOf) := by
  rw [DeviceTree.follow, hroot]
  by_cases hslash : path = [slash]
  · rw [if_pos hslash]
    rw [hslash, leads_slash_iff] at h
    rw [h, bodyAt]
    rfl
  · rw [if_neg hslash]
    cases path with
    | nil =>
        obtain ⟨heq, -⟩ | ⟨-, -, -, c, heq⟩ := h
        · cases heq
        · cases heq
    | cons c rest =>
        have hdrop : dropFirst (c :: rest) = some rest := by
          refine if_neg ?_
          rintro ⟨b, hhead, hb⟩
          obtain ⟨tail, rfl⟩ := List.head?_eq_some_iff.mp hhead
          exact hsplits ⟨c, b, tail, rfl, hb⟩
        rw [hdrop, Option.map_some, ← (leads_cons_iff hslash).mp h, followLoop_treeOf]

/-! ## Parsed trees -/

/-- The structure of the blob can be read up to its end, and `e` is the body of its last item
without a name. -/
def HasRoot (fdt : List UInt8) (e : AddressSpace × Items) : Prop :=
  ∃ h structs strings items stop, parseHeader fdt = .ok h ∧
    slice fdt h.offDtStruct (h.offDtStruct + h.sizeDtStruct) = .ok structs ∧
    slice fdt h.offDtStrings (h.offDtStrings + h.sizeDtStrings) = .ok strings ∧
    items.Reads structs strings 0 stop ∧ EndsAt structs stop ∧
    lastChild [] ⟨1, 1⟩ items = some e

theorem hasRoot_of_parse (h : parse fdt = .ok dt) : ∃ e, HasRoot fdt e ∧ dt.root = treeOf e := by
  obtain ⟨header, hheader, h⟩ := Outcome.bind_eq_ok_iff.mp h
  rw [ite_eq_iff] at h
  obtain ⟨-, h⟩ | ⟨-, h⟩ := h
  · cases h
  rw [ite_eq_iff] at h
  obtain ⟨-, h⟩ | ⟨-, h⟩ := h
  · cases h
  rw [ite_eq_iff] at h
  obtain ⟨-, h⟩ | ⟨-, h⟩ := h
  · cases h
  obtain ⟨rsvmap, -, h⟩ := Outcome.bind_eq_ok_iff.mp h
  obtain ⟨reserved, -, h⟩ := Outcome.bind_eq_ok_iff.mp h
  obtain ⟨structs, hstructs, h⟩ := Outcome.bind_eq_ok_iff.mp h
  obtain ⟨strings, hstrings, h⟩ := Outcome.bind_eq_ok_iff.mp h
  obtain ⟨root, hroot, h⟩ := Outcome.bind_eq_ok_iff.mp h
  cases h
  have hfault : parseNodes structs strings ≠ .fault := fun hfault => by
    rw [hroot] at hfault
    cases hfault
  obtain ⟨items, stop, e, hreads, hend, -, hlast, htree⟩ :=
    (parseNodes_eq_ok_iff hfault root).mp hroot
  exact ⟨e, ⟨header, structs, strings, items, stop, hheader, hstructs, hstrings, hreads, hend,
    hlast⟩, isTree_iff.mp htree⟩

/-- In every parsed tree a path that can be cut leads along exactly one list of names, and `follow`
returns the tree of what these names lead to in the structure of the blob, or nothing where they
lead to nothing. It panics for all other paths: the empty one, and one whose second byte is not the
first of a character. -/
theorem follow_finds (h : parse fdt = .ok dt) : ∃ e, HasRoot fdt e ∧ ∀ path,
    (dt.follow path = none ↔ path = [] ∨ SplitsCharacter path) ∧
    (path ≠ [] → ¬ SplitsCharacter path →
      ∃ names, (∀ names', Leads path names' ↔ names' = names) ∧
        (∀ t, dt.follow path = some (some t) ↔
          ∃ e', bodyAt names e = some e' ∧ IsTree e'.1 e'.2 t) ∧
        (dt.follow path = some none ↔ bodyAt names e = none)) := by
  obtain ⟨e, he, hroot⟩ := hasRoot_of_parse h
  refine ⟨e, he, fun path => ⟨follow_eq_none_iff, fun hne hsplits => ?_⟩⟩
  obtain ⟨names, hnames⟩ : ∃ names, ∀ names', Leads path names' ↔ names' = names := by
    by_cases hslash : path = [slash]
    · exact ⟨[], fun names' => hslash ▸ leads_slash_iff⟩
    · obtain ⟨c, rest, rfl⟩ := List.exists_cons_of_ne_nil hne
      exact ⟨rest.splitOn slash, fun names' => leads_cons_iff hslash⟩
  have hfollow := follow_of_leads hroot hsplits ((hnames names).mpr rfl)
  refine ⟨names, hnames, fun t => ?_, ?_⟩
  · rw [hfollow, Option.some_inj, Option.map_eq_some_iff]
    exact exists_congr fun e' => and_congr_right fun _ => eq_comm.trans isTree_iff.symm
  · rw [hfollow, Option.some_inj, Option.map_eq_none_iff]

/-- A root with a child "a". -/
def childToks : List (Fdt.Tok × Nat) :=
  [(.beginNode [], 0), (.beginNode [97], 0), (.endNode, 0), (.endNode, 0)]

theorem follow_finds_child : ∃ fdt dt e, parse fdt = .ok dt ∧ HasRoot fdt e ∧
    ∀ t, dt.follow [slash, 97] = some (some t) ↔
      ∃ e', bodyAt [[97]] e = some e' ∧ IsTree e'.1 e'.2 t := by
  have hflat : (Items.node [] (.node [97] .nil .nil) .nil).Flattens (childToks.map Prod.fst) :=
    .node (.node .nil .nil) .nil
  have hblob : Fdt.Flattened (Fdt.assemble [] (Fdt.structBlock childToks) [])
      (Fdt.layout [] (Fdt.structBlock childToks) []) [] (.node [97] .nil .nil) :=
    Fdt.flattened_assemble hflat (by decide +kernel) (by decide +kernel)
  have hparse := parse_of_flattened hblob (by decide) (by simp [Fdt.IsReservations])
    (.node (by decide) (by decide +kernel) (by simp [Items.nodes]) .nil .nil)
  obtain ⟨e, he, hfollow⟩ := follow_finds hparse
  have hsplits : ¬ SplitsCharacter [slash, 97] := by
    rintro ⟨_, b, _, heq, hb⟩
    obtain ⟨rfl, -⟩ := List.cons.inj (List.cons.inj heq).2
    revert hb
    decide
  obtain ⟨names, hnames, hsome, -⟩ := (hfollow [slash, 97]).2 (List.cons_ne_nil _ _) hsplits
  have hleads : Leads [slash, 97] [[97]] :=
    (leads_cons_iff (by decide)).mpr (by decide)
  rw [← (hnames [[97]]).mp hleads] at hsome
  exact ⟨_, _, e, hparse, he, hsome⟩

end Aarch64.Rust
