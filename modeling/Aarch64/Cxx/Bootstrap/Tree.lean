import Aarch64.Cxx.Bootstrap.Walk
import Aarch64.Fdt.Items

/-!
# The bootstrap reads a tree

Where the tokens are those of a tree, the walk registers what the `reg` properties of the
children list whose names start with `memory`. The tokens of a skipped child are passed
over, since they close what they open.
-/

namespace Aarch64.Cxx.Bootstrap

open Aarch64.Fdt (Tok Lexes EndsAt IsCells IsPairs Header Items pairs)
open Aarch64.Cxx.Fdt (Blob)
open Segments (Ordered)

variable {items : Items} {toks rest : List Tok} {depth address size : Nat}
variable {mmap mmap' : MemoryMap}

/-! ## Ranges -/

theorem registerRange_spec {begin size : Nat} (hm : Ordered mmap.segments)
    (hlt : begin + size < 2 ^ 64) (h : registerRange begin size mmap = .ok mmap') :
    Ordered mmap'.segments ∧ ∀ x, mmap'.lookup x = some .free ↔
      (begin ≤ x ∧ x < begin + size) ∨ mmap.lookup x = some .free := by
  rw [registerRange, Word64.add_of_lt hlt] at h
  split at h
  next mmap'' hcall =>
    cases h
    obtain ⟨hord, hlookup⟩ := MemoryMap.register_spec hm (Nat.le_add_right begin size) hcall
    refine ⟨hord, fun x => ?_⟩
    rw [hlookup]
    split
    next hx => exact iff_of_true rfl (Or.inl hx)
    next hx => exact (or_iff_right hx).symm
  next => cases h
  next => cases h

/-- Registering pairs frees their union. -/
theorem registerPairs_spec {ps : List (Nat × Nat)} (hm : Ordered mmap.segments)
    (hlt : ∀ p ∈ ps, p.1 + p.2 < 2 ^ 64) (h : registerPairs ps mmap = .ok mmap') :
    Ordered mmap'.segments ∧ ∀ x, mmap'.lookup x = some .free ↔
      (∃ p ∈ ps, p.1 ≤ x ∧ x < p.1 + p.2) ∨ mmap.lookup x = some .free := by
  induction ps generalizing mmap with
  | nil =>
      cases h
      exact ⟨hm, fun x => by simp⟩
  | cons p ps ih =>
      obtain ⟨hp, hps⟩ := List.forall_mem_cons.mp hlt
      obtain ⟨mmap₁, hfirst, hrest⟩ := Outcome.bind_eq_ok_iff.mp h
      obtain ⟨hm₁, hlookup₁⟩ := registerRange_spec hm hp hfirst
      obtain ⟨hm', hlookup⟩ := ih hm₁ hps hrest
      refine ⟨hm', fun x => ?_⟩
      rw [hlookup, hlookup₁, List.exists_mem_cons_iff, or_left_comm, or_assoc]

/-! ## Nodes -/

/-- The `reg` property of a node, if it has one, is the first thing that is acted on. -/
theorem memoryNode_of_flattens (h : items.Flattens toks)
    (hnode : memoryNode address size (toks ++ .endNode :: rest) mmap = .ok mmap') :
    (items.props.lookup (Bytes.ofString "reg") = none ∧ mmap' = mmap) ∨
      ∃ value, items.props.lookup (Bytes.ofString "reg") = some value ∧
        registerValue address size value mmap = .ok mmap' := by
  induction h with
  | nil =>
      cases hnode
      exact Or.inl ⟨rfl, rfl⟩
  | nop h ih => cases hnode
  | @prop name value items toks h ih =>
      rw [Items.props, SortedMap.lookup_cons]
      rw [List.cons_append, memoryNode] at hnode
      split at hnode
      next hreg => exact Or.inr ⟨value, if_pos hreg.symm, hnode⟩
      next hreg =>
        rw [if_neg (Ne.symm hreg)]
        exact ih hnode
  | node h hrest ih ihrest => cases hnode

/-- The tokens of items leave the depth at which they start. -/
theorem walk_skip (h : items.Flattens toks) (depth address size : Nat) (rest : List Tok)
    (mmap : MemoryMap) : walk (depth + 1) address size (toks ++ rest) mmap =
      walk (depth + 1) address size rest mmap := by
  induction h generalizing depth rest with
  | nil => rfl
  | nop h ih => exact ih depth rest
  | prop h ih => exact ih depth rest
  | node h hrest ih ihrest =>
      rw [List.cons_append, walk, List.append_assoc, ih (depth + 1), List.cons_append, walk]
      exact ihrest depth rest

theorem registerValue_spec {value : List UInt8} (hm : Ordered mmap.segments)
    (hlt : ∀ p ∈ pairs address size value, p.1 + p.2 < 2 ^ 64)
    (h : registerValue address size value mmap = .ok mmap') :
    Ordered mmap'.segments ∧ ∀ x, mmap'.lookup x = some .free ↔
      (∃ p ∈ pairs address size value, p.1 ≤ x ∧ x < p.1 + p.2) ∨
        mmap.lookup x = some .free := by
  rw [registerValue] at h
  split at h
  next => exact registerPairs_spec hm hlt h
  next => cases h

theorem child_of_flattens {name : List UInt8} {body : Items} (h : body.Flattens toks)
    (hwf : body.WellFormed) (hm : Ordered mmap.segments)
    (hlt : StartsMemory name → ∀ value, (Bytes.ofString "reg", value) ∈ body.props →
      ∀ p ∈ pairs address size value, p.1 + p.2 < 2 ^ 64)
    (hchild : child address size name (toks ++ .endNode :: rest) mmap = .ok mmap') :
    Ordered mmap'.segments ∧ ∀ x, mmap'.lookup x = some .free ↔
      (StartsMemory name ∧ ∃ value, (Bytes.ofString "reg", value) ∈ body.props ∧
        ∃ p ∈ pairs address size value, p.1 ≤ x ∧ x < p.1 + p.2) ∨
      mmap.lookup x = some .free := by
  rw [child] at hchild
  split at hchild
  next hname =>
    simp only [← Items.lookup_props hwf] at hlt ⊢
    rcases memoryNode_of_flattens h hchild with ⟨hnone, rfl⟩ | ⟨value, hvalue, hregister⟩
    · rw [hnone]
      exact ⟨hm, fun x => by simp⟩
    · obtain ⟨hm', hlookup⟩ := registerValue_spec hm (hlt hname value hvalue) hregister
      refine ⟨hm', fun x => ?_⟩
      rw [hlookup, hvalue]
      simp [hname]
  next hname =>
    cases hchild
    exact ⟨hm, fun x => (or_iff_right fun h => hname h.1).symm⟩

/-! ## The root -/

/-- The items of the root free what its children list, and leave its numbers of cells. -/
theorem walk_of_flattens (h : items.Flattens toks) (hwf : items.WellFormed)
    (hfirst : items.CellsFirst) (hm : Ordered mmap.segments)
    (hbounded : items.Bounded StartsMemory
      (items.cells (Bytes.ofString "#address-cells") address)
      (items.cells (Bytes.ofString "#size-cells") size))
    (hwalk : walk 0 address size (toks ++ rest) mmap = .ok mmap') :
    ∃ mmap₁, walk 0 (items.cells (Bytes.ofString "#address-cells") address)
        (items.cells (Bytes.ofString "#size-cells") size) rest mmap₁ = .ok mmap' ∧
      Ordered mmap₁.segments ∧ ∀ x, mmap₁.lookup x = some .free ↔
        items.Lists StartsMemory (items.cells (Bytes.ofString "#address-cells") address)
          (items.cells (Bytes.ofString "#size-cells") size) x ∨ mmap.lookup x = some .free := by
  induction h generalizing address size mmap with
  | nil =>
      exact ⟨mmap, hwalk, hm, fun x => (or_iff_right (Items.not_lists_nil _ _ _ x)).symm⟩
  | nop h ih => exact ih hwf hfirst hm hbounded hwalk
  | prop h ih =>
      cases hwf with
      | prop hzero hname hfresh hcells hrest =>
          rw [Items.cells_prop _ hfresh, Items.cells_prop _ hfresh] at hbounded ⊢
          rw [List.cons_append, walk] at hwalk
          split at hwalk
          next => cases hwalk
          next => exact ih hrest hfirst hm hbounded hwalk
  | @node name body items toks toks' h hrest ih ihrest =>
      cases hwf with
      | node hzero hname hfresh hbody hwfrest =>
          obtain ⟨hnone, hfirst⟩ := hfirst
          have hcells : ∀ key default, IsCells key →
              (Items.node name body items).cells key default = default ∧
                items.cells key default = default := fun key default hkey =>
            ⟨Items.cells_of_not_isCells hkey hnone default,
              Items.cells_of_not_isCells hkey hnone default⟩
          obtain ⟨ha, ha'⟩ := hcells (Bytes.ofString "#address-cells") address (Or.inr rfl)
          obtain ⟨hs, hs'⟩ := hcells (Bytes.ofString "#size-cells") size (Or.inl rfl)
          rw [ha, hs] at hbounded ⊢
          obtain ⟨hlt, hbounded⟩ := List.forall_mem_cons.mp hbounded
          rw [List.cons_append, walk, List.append_assoc, List.cons_append] at hwalk
          obtain ⟨mmap₁, hchild, hwalk⟩ := Outcome.bind_eq_ok_iff.mp hwalk
          rw [walk_skip h 0, walk] at hwalk
          obtain ⟨hm₁, hlookup₁⟩ := child_of_flattens h hbody hm hlt hchild
          obtain ⟨mmap₂, hwalk, hm₂, hlookup₂⟩ :=
            ihrest hwfrest hfirst hm₁ (by rw [ha', hs']; exact hbounded) hwalk
          rw [ha', hs'] at hwalk hlookup₂
          refine ⟨mmap₂, hwalk, hm₂, fun x => ?_⟩
          rw [hlookup₂, hlookup₁, Items.lists_node, or_left_comm, or_assoc]

variable {fdt : List UInt8} {h : Header} {entries : List (Nat × Nat)} {blob : Blob}

/-- What `RegisterMemory` frees is what the children of the root list whose names start
with `memory`. -/
theorem registerMemory_of_flattened (hfdt : Aarch64.Fdt.Flattened fdt h entries items)
    (hwf : items.WellFormed) (hfirst : items.CellsFirst)
    (hbounded : items.Bounded StartsMemory
      (items.cells (Bytes.ofString "#address-cells") 2)
      (items.cells (Bytes.ofString "#size-cells") 2))
    (hparse : Blob.parse fdt = .ok blob) (hregister : registerMemory fdt blob .new = .ok mmap')
    (x : Nat) : mmap'.lookup x = some .free ↔
      items.Lists StartsMemory (items.cells (Bytes.ofString "#address-cells") 2)
        (items.cells (Bytes.ofString "#size-cells") 2) x := by
  obtain ⟨hblob, htoks, hlexes, hend⟩ := hfdt
  have hsupported := Blob.lastCompVersion_le_of_parse hblob hparse
  cases htoks with
  | nop h =>
      cases hlexes with
      | cons hlex =>
          obtain ⟨name, hname⟩ := Blob.beginNode_of_parse hblob hlex hparse
          cases hname
  | @node _ _ _ toks toks' h hrest =>
      obtain ⟨blob', hparse', hroot, hstr, hlexes'⟩ := Blob.parse_of_lexes hblob hsupported hlexes
      obtain rfl : blob' = blob := Outcome.ok.inj (hparse'.symm.trans hparse)
      rw [registerMemory_of_lexes hlexes' hend hroot hstr] at hregister
      have hnew : Ordered MemoryMap.new.segments :=
        ⟨fun s hs => absurd hs List.not_mem_nil, List.Pairwise.nil⟩
      obtain ⟨mmap₁, hwalk, hm₁, hlookup₁⟩ := walk_of_flattens h hwf hfirst hnew hbounded hregister
      -- behind the root there can only be NOPs
      rw [walk, ← List.append_nil toks'] at hwalk
      obtain ⟨mmap₂, hwalk, _, hlookup₂⟩ := walk_of_flattens hrest .nil trivial hm₁
        (fun e he => absurd he List.not_mem_nil) hwalk
      cases hwalk
      have hnone : MemoryMap.new.lookup x ≠ some .free := fun h => by cases h
      rw [hlookup₂, hlookup₁, or_iff_left hnone]
      exact or_iff_right (Items.not_lists_nil _ _ _ x)

end Aarch64.Cxx.Bootstrap
