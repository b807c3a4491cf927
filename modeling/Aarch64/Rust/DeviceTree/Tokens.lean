import Aarch64.Rust.DeviceTree.Parse

/-!
# The rounds of the parser as tokens

A round of the loop of `parse_nodes` does to the stack what the token that stands at
the offset says. It panics exactly at a property whose name lies outside the strings,
or whose value is too short for the number of cells that it gives.
-/

namespace Aarch64.Rust

open Bytes (isUtf8)
open Fdt (Tok Lex EndsAt IsCells cellValue word dword toNat_word length_word)

namespace Scanner

variable {data : List UInt8} {off : Nat}

theorem consumeBe32_of_word {x : Nat} (hx : x < 2 ^ 32) (h : word x <+: data.drop off) :
    (⟨data, off⟩ : Scanner).consumeBe32 = .ok (x, ⟨data, off + 4⟩) := by
  have hcall := consumeBe_of_prefix (s := ⟨data, off⟩)
    "Error while parsing 4-byte big-endian"
    (List.length_pos_iff.mp (by rw [length_word]; decide)) h
  rwa [length_word, toNat_word hx] at hcall

theorem consumeBe32_cases (data : List UInt8) (off : Nat) :
    (∃ x, x < 2 ^ 32 ∧ word x <+: data.drop off ∧
        (⟨data, off⟩ : Scanner).consumeBe32 = .ok (x, ⟨data, off + 4⟩)) ∨
      (data.length < off + 4 ∧ ∃ e, (⟨data, off⟩ : Scanner).consumeBe32 = .err e) := by
  rcases consumeBe_cases ⟨data, off⟩ 4 "Error while parsing 4-byte big-endian" with
    ⟨bytes, hlen, hprefix, hcall⟩ | ⟨hlt, hcall⟩
  · have hx := Bytes.toNat_lt bytes
    rw [hlen] at hx
    exact Or.inl ⟨_, hx, by rwa [Fdt.word_toNat hlen], hcall⟩
  · exact Or.inr ⟨hlt, _, hcall⟩

theorem consumeBe64_of_dword {x : Nat} (hx : x < 2 ^ 64) (h : dword x <+: data.drop off) :
    (⟨data, off⟩ : Scanner).consumeBe64 = .ok (x, ⟨data, off + 8⟩) := by
  have hcall := consumeBe_of_prefix (s := ⟨data, off⟩)
    "Error while parsing 8-byte big-endian"
    (List.length_pos_iff.mp (by rw [Fdt.length_dword]; decide)) h
  rwa [Fdt.length_dword, Fdt.toNat_dword hx] at hcall

theorem consumeBe64_cases (data : List UInt8) (off : Nat) :
    (∃ x, x < 2 ^ 64 ∧ dword x <+: data.drop off ∧
        (⟨data, off⟩ : Scanner).consumeBe64 = .ok (x, ⟨data, off + 8⟩)) ∨
      (data.length < off + 8 ∧ ∃ e, (⟨data, off⟩ : Scanner).consumeBe64 = .err e) := by
  rcases consumeBe_cases ⟨data, off⟩ 8 "Error while parsing 8-byte big-endian" with
    ⟨bytes, hlen, hprefix, hcall⟩ | ⟨hlt, hcall⟩
  · have hx := Bytes.toNat_lt bytes
    rw [hlen] at hx
    exact Or.inl ⟨_, hx, by rwa [Fdt.dword_toNat hlen], hcall⟩
  · exact Or.inr ⟨hlt, _, hcall⟩

theorem consumeData_of_prefix {value : List UInt8} (h : value <+: data.drop off)
    (hoff : off ≤ data.length) :
    (⟨data, off⟩ : Scanner).consumeData value.length = .ok (value, ⟨data, off + value.length⟩) := by
  rcases consumeData_cases ⟨data, off⟩ value.length with ⟨value', hlen, hprefix, hcall⟩ | ⟨hlt, _⟩
  · rwa [Bytes.prefix_unique hprefix h hlen] at hcall
  · have hle := h.length_le
    rw [List.length_drop] at hle
    change data.length < off + value.length at hlt
    omega

theorem alignForward_cases (alignment : Nat) (hpos : 0 < alignment) (hoff : off ≤ data.length) :
    (off + Bytes.padding alignment off ≤ data.length ∧ (⟨data, off⟩ : Scanner).alignForward
        alignment = .ok ⟨data, off + Bytes.padding alignment off⟩) ∨
      ∃ e, (⟨data, off⟩ : Scanner).alignForward alignment = .err e := by
  by_cases hmod : off % alignment = 0
  · have hpadding := Bytes.padding_of_mod_eq_zero hmod
    refine Or.inl ⟨by omega, ?_⟩
    rw [hpadding]
    exact if_pos (Or.inr hmod)
  · rcases Nat.lt_or_ge (off + Bytes.padding alignment off) data.length with hlt | hge
    · exact Or.inl ⟨Nat.le_of_lt hlt, alignForward_of_lt alignment (s := ⟨data, off⟩) hpos hlt⟩
    · rw [Bytes.padding_of_mod_ne_zero hmod hpos] at hge
      refine Or.inr ⟨"Not enough data", ?_⟩
      rw [alignForward, if_neg (not_or.mpr ⟨Nat.ne_of_gt hpos, hmod⟩)]
      exact if_pos hge

end Scanner

/-! ## Cells -/

/-- The address space behind a property. -/
def AddressSpace.update (space : AddressSpace) (name value : List UInt8) : AddressSpace where
  sizeCells := if name = Bytes.ofString "#size-cells" then cellValue value else space.sizeCells
  addressCells :=
    if name = Bytes.ofString "#address-cells" then cellValue value else space.addressCells

theorem cells_of_le {value : List UInt8} (h : 4 ≤ value.length) :
    DeviceTreeNode.cells value = .ok (cellValue value) := by
  have hlen : (value.take 4).length = 4 := by
    rw [List.length_take]
    omega
  have hprefix : word (cellValue value) <+: value.drop 0 := by
    rw [cellValue, Fdt.word_toNat hlen]
    exact List.take_prefix _ _
  have hlt := Bytes.toNat_lt (value.take 4)
  rw [hlen] at hlt
  rw [DeviceTreeNode.cells, Scanner.new, Scanner.consumeBe32_of_word hlt hprefix]
  rfl

theorem cells_of_lt {value : List UInt8} (h : value.length < 4) :
    DeviceTreeNode.cells value = .fault := by
  rcases Scanner.consumeBe32_cases value 0 with ⟨x, _, hprefix, _⟩ | ⟨_, e, hcall⟩
  · have hle := Fdt.add_four_le_of_word hprefix
    omega
  · rw [DeviceTreeNode.cells, Scanner.new, hcall]

/-- `add_property` panics exactly for a short number of cells. -/
theorem addProperty_of_wide (node : DeviceTreeNode) {name value : List UInt8}
    (h : IsCells name → 4 ≤ value.length) :
    node.addProperty name value = .ok ⟨node.children,
      SortedMap.insert name value node.properties, node.addressSpace.update name value⟩ := by
  have hne : Bytes.ofString "#size-cells" ≠ Bytes.ofString "#address-cells" := by decide
  by_cases hsize : name = Bytes.ofString "#size-cells"
  · have hcells := cells_of_le (h (Or.inl hsize))
    simp [DeviceTreeNode.addProperty, AddressSpace.update, hsize, hne, hcells]
  · by_cases haddress : name = Bytes.ofString "#address-cells"
    · have hcells := cells_of_le (h (Or.inr haddress))
      simp [DeviceTreeNode.addProperty, AddressSpace.update, haddress, hne.symm, hcells]
    · simp [DeviceTreeNode.addProperty, AddressSpace.update, haddress, hsize]

theorem addProperty_of_short (node : DeviceTreeNode) {name value : List UInt8}
    (hname : IsCells name) (h : value.length < 4) : node.addProperty name value = .fault := by
  have hne : Bytes.ofString "#size-cells" ≠ Bytes.ofString "#address-cells" := by decide
  rcases hname with rfl | rfl
  · simp [DeviceTreeNode.addProperty, cells_of_lt h]
  · simp [DeviceTreeNode.addProperty, hne.symm, cells_of_lt h]

/-! ## Rounds -/

/-- What a token does to the stack. -/
def State.apply : Tok → State → Outcome String State
  | .beginNode name, state => .ok (state.beginNode name)
  | .endNode, state => state.endNode
  | .prop name value, state => state.newProperty name value
  | .nop, state => .ok state

/-- The names that a token carries are strings of the language. -/
def ReadsNames : Tok → Prop
  | .beginNode name | .prop name _ => isUtf8 name = true
  | .endNode | .nop => True

/-- A property stands at `off` whose name lies outside the strings, or which gives a
number of cells in fewer than four bytes. -/
def BadProp (structs strings : List UInt8) (off : Nat) : Prop :=
  ∃ (value : List UInt8) (nameoff : Nat), value.length < 2 ^ 32 ∧ nameoff < 2 ^ 32 ∧
    word 3 ++ (word value.length ++ (word nameoff ++ value)) <+: structs.drop off ∧
    (strings.length < nameoff ∨
      ∃ name, name ++ [0] <+: strings.drop nameoff ∧ IsCells name ∧ value.length < 4)

variable {structs strings : List UInt8} {off : Nat}

/-- The string at an offset into the strings. -/
theorem slice_strings (h : off ≤ strings.length) :
    slice strings off strings.length = .ok (strings.drop off) := by
  rw [slice, if_pos ⟨h, Nat.le_refl _⟩, List.take_of_length_le (by rw [List.length_drop])]

theorem slice_strings_of_lt (h : strings.length < off) :
    slice strings off strings.length = .fault := by
  rw [slice, if_neg (by omega)]

/-- A round on a property, up to its name. -/
theorem nodesRound_prop {value : List UInt8} {nameoff : Nat} (hvalue : value.length < 2 ^ 32)
    (hoff : nameoff < 2 ^ 32)
    (h : word 3 ++ (word value.length ++ (word nameoff ++ value)) <+: structs.drop off)
    (state : State) :
    nodesRound strings ⟨structs, off⟩ state = (do
      let string ← slice strings nameoff strings.length
      let (name, _) ← (Scanner.new string).consumeCstr
      let state ← state.newProperty name value
      let scanner ← Scanner.alignForward ⟨structs, off + 12 + value.length⟩ 4
      return .inr (scanner, state)) := by
  have htoken := Scanner.consumeBe32_of_word (by decide) (Bytes.prefix_append_left h)
  have h₁ := Bytes.prefix_append_right h
  rw [length_word] at h₁
  have hlen := Scanner.consumeBe32_of_word hvalue (Bytes.prefix_append_left h₁)
  have h₂ := Bytes.prefix_append_right h₁
  rw [length_word] at h₂
  have hname := Scanner.consumeBe32_of_word hoff (Bytes.prefix_append_left h₂)
  have h₃ := Bytes.prefix_append_right h₂
  rw [length_word] at h₃
  have hle := Fdt.add_length_le_of_word h
  simp only [List.length_append, length_word] at hle
  have hdata := Scanner.consumeData_of_prefix h₃ (by omega)
  simp only [nodesRound, htoken, Outcome.ok_bind]
  rw [if_neg (by decide), if_neg (by decide), if_pos (by decide)]
  simp only [hlen, hname, hdata, Outcome.ok_bind]

/-- With room behind a token, the round does what the token says. -/
theorem nodesRound_of_lex {tok : Tok} {next : Nat} (h : Lex structs strings off tok next)
    (hnames : ReadsNames tok) (hroom : next < structs.length) (state : State) :
    nodesRound strings ⟨structs, off⟩ state =
      (state.apply tok >>= fun state' => .ok (.inr (⟨structs, next⟩, state'))) := by
  cases h with
  | @beginNode name pad h hname hpad =>
      have htoken := Scanner.consumeBe32_of_word (by decide) (Bytes.prefix_append_left h)
      have h₁ := Bytes.prefix_append_right h
      rw [length_word, ← List.singleton_append, ← List.append_assoc] at h₁
      have hcstr := Scanner.consumeCstr_of_prefix (s := ⟨structs, off + 4⟩)
        (Bytes.prefix_append_left h₁) hname hnames
      have halign := Scanner.alignForward_of_lt 4
        (s := ⟨structs, off + 4 + (name.length + 1)⟩) (by decide) (by rwa [← hpad])
      rw [← hpad] at halign
      simp only [nodesRound, htoken, Outcome.ok_bind]
      rw [if_pos (by decide), hcstr, Outcome.ok_bind, halign]
      rfl
  | endNode h =>
      have htoken := Scanner.consumeBe32_of_word (by decide) h
      simp only [nodesRound, htoken, Outcome.ok_bind]
      rw [if_neg (by decide), if_pos (by decide)]
      rfl
  | @prop nameoff name value pad h hvalue hoff hstring hname hpad =>
      have hprop : word 3 ++ (word value.length ++ (word nameoff ++ value)) <+:
          structs.drop off := by
        simp only [← List.append_assoc] at h ⊢
        exact Bytes.prefix_append_left h
      have hle := Bytes.add_length_succ_le_of_prefix_drop hstring
      have hcstr := Scanner.consumeCstr_of_prefix (s := Scanner.new (strings.drop nameoff))
        hstring hname hnames
      have halign := Scanner.alignForward_of_lt 4
        (s := ⟨structs, off + 12 + value.length⟩) (by decide) (by rwa [← hpad])
      rw [← hpad] at halign
      rw [nodesRound_prop hvalue hoff hprop, slice_strings (by omega), Outcome.ok_bind, hcstr,
        Outcome.ok_bind, halign]
      rfl
  | nop h =>
      have htoken := Scanner.consumeBe32_of_word (by decide) h
      simp only [nodesRound, htoken, Outcome.ok_bind]
      rw [if_neg (by decide), if_neg (by decide), if_neg (by decide), if_pos (by decide)]
      rfl

theorem nodesRound_of_endsAt (h : EndsAt structs off) (state : State) :
    nodesRound strings ⟨structs, off⟩ state = (state.finish >>= fun root => .ok (.inl root)) := by
  have htoken := Scanner.consumeBe32_of_word (by decide) h
  simp only [nodesRound, htoken, Outcome.ok_bind]
  rw [if_neg (by decide), if_neg (by decide), if_neg (by decide), if_neg (by decide),
    if_pos (by decide)]
  rfl

theorem nodesRound_of_badProp (h : BadProp structs strings off) (state : State) :
    nodesRound strings ⟨structs, off⟩ state = .fault := by
  obtain ⟨value, nameoff, hvalue, hoff, hprop, hbad⟩ := h
  rw [nodesRound_prop hvalue hoff hprop]
  rcases Nat.lt_or_ge strings.length nameoff with hlt | hge
  · rw [slice_strings_of_lt hlt]
    rfl
  · obtain ⟨name, hstring, hcells, hshort⟩ := hbad.resolve_left (Nat.not_lt.mpr hge)
    have hname : 0 ∉ name ∧ isUtf8 name = true := by
      rcases hcells with rfl | rfl
      · exact ⟨by decide, by decide +kernel⟩
      · exact ⟨by decide, by decide +kernel⟩
    have hcstr := Scanner.consumeCstr_of_prefix (s := Scanner.new (strings.drop nameoff))
      hstring hname.1 hname.2
    have hproperty : state.newProperty name value = .fault := by
      rw [State.newProperty, addProperty_of_short _ hcells hshort]
      rfl
    simp only [slice_strings hge, hcstr, hproperty, Outcome.ok_bind, Outcome.fault_bind]

/-- The round read the token that stands at `off`, or it stopped with an error. -/
def Reads (structs strings : List UInt8) (off : Nat) (state : State) : Prop :=
  (∃ tok next, Lex structs strings off tok next ∧ ReadsNames tok ∧
    nodesRound strings ⟨structs, off⟩ state =
      (state.apply tok >>= fun state' => .ok (.inr (⟨structs, next⟩, state')))) ∨
    ∃ e, nodesRound strings ⟨structs, off⟩ state = .err e

theorem reads_beginNode (h : word 1 <+: structs.drop off) (state : State) :
    Reads structs strings off state := by
  have hbound := Fdt.add_four_le_of_word h
  have hround : nodesRound strings ⟨structs, off⟩ state = _ :=
    Outcome.bind_of_eq_ok (Scanner.consumeBe32_of_word (by decide) h) _
  dsimp only at hround
  rw [if_pos (by decide)] at hround
  rcases Scanner.consumeCstr_cases (s := ⟨structs, off + 4⟩) hbound with
    ⟨name, hprefix, hname, hutf, hcstr⟩ | ⟨_, e, hcstr⟩
  swap
  · exact Or.inr ⟨e, by rw [hround, hcstr, Outcome.err_bind]⟩
  have hle := Bytes.add_length_succ_le_of_prefix_drop hprefix
  rw [hcstr, Outcome.ok_bind] at hround
  dsimp only at hround
  rcases Scanner.alignForward_cases 4 (by decide) hle with
    ⟨hpad, halign⟩ | ⟨e, halign⟩
  swap
  · exact Or.inr ⟨e, by rw [hround, halign, Outcome.err_bind]⟩
  obtain ⟨hpadding, hlength⟩ := Scanner.take_drop_prefix hpad
  refine Or.inl ⟨.beginNode name, _, .beginNode ?_ hname hlength, hutf, ?_⟩
  · refine Bytes.prefix_append h ?_
    rw [length_word, ← List.singleton_append, ← List.append_assoc]
    refine Bytes.prefix_append hprefix ?_
    rw [List.length_append, List.length_singleton]
    exact hpadding
  · rw [hround, halign, hlength]
    rfl

theorem reads_prop (h : word 3 <+: structs.drop off) (state : State) :
    Reads structs strings off state ∨ BadProp structs strings off := by
  have hround : nodesRound strings ⟨structs, off⟩ state = _ :=
    Outcome.bind_of_eq_ok (Scanner.consumeBe32_of_word (by decide) h) _
  dsimp only at hround
  rw [if_neg (by decide), if_neg (by decide), if_pos (by decide)] at hround
  rcases Scanner.consumeBe32_cases structs (off + 4) with ⟨len, hlen, hlenAt, hcall⟩ | ⟨_, e, hcall⟩
  swap
  · exact Or.inl (Or.inr ⟨e, by rw [hround, hcall, Outcome.err_bind]⟩)
  rw [hcall, Outcome.ok_bind] at hround
  dsimp only at hround
  rcases Scanner.consumeBe32_cases structs (off + 4 + 4) with
    ⟨nameoff, hoff, hoffAt, hcall⟩ | ⟨_, e, hcall⟩
  swap
  · exact Or.inl (Or.inr ⟨e, by rw [hround, hcall, Outcome.err_bind]⟩)
  rw [hcall, Outcome.ok_bind] at hround
  dsimp only at hround
  rcases Scanner.consumeData_cases ⟨structs, off + 4 + 4 + 4⟩ len with
    ⟨value, rfl, hvalueAt, hcall⟩ | ⟨_, hcall⟩
  swap
  · exact Or.inl (Or.inr ⟨_, by rw [hround, hcall, Outcome.err_bind]⟩)
  have hprop : word 3 ++ (word value.length ++ (word nameoff ++ value)) <+: structs.drop off := by
    refine Bytes.prefix_append h ?_
    rw [length_word]
    refine Bytes.prefix_append hlenAt ?_
    rw [length_word]
    refine Bytes.prefix_append hoffAt ?_
    rwa [length_word]
  clear hround
  have hround : nodesRound strings ⟨structs, off⟩ state = _ :=
    nodesRound_prop hlen hoff hprop state
  rcases Nat.lt_or_ge strings.length nameoff with hout | hin
  · exact Or.inr ⟨value, nameoff, hlen, hoff, hprop, Or.inl hout⟩
  rw [slice_strings hin, Outcome.ok_bind] at hround
  rcases Scanner.consumeCstr_cases (s := Scanner.new (strings.drop nameoff)) (Nat.zero_le _) with
    ⟨name, hstring, hname, hutf, hcstr⟩ | ⟨_, e, hcstr⟩
  swap
  · exact Or.inl (Or.inr ⟨e, by rw [hround, hcstr, Outcome.err_bind]⟩)
  rw [hcstr, Outcome.ok_bind] at hround
  dsimp only at hround
  by_cases hshort : IsCells name ∧ value.length < 4
  · exact Or.inr ⟨value, nameoff, hlen, hoff, hprop, Or.inr ⟨name, hstring, hshort⟩⟩
  have hwide : IsCells name → 4 ≤ value.length := fun h =>
    Nat.le_of_not_lt fun hlt => hshort ⟨h, hlt⟩
  have hproperty : state.newProperty name value = .ok _ :=
    Outcome.bind_of_eq_ok (addProperty_of_wide state.current hwide) _
  have hle := Fdt.add_length_le_of_word hprop
  simp only [List.length_append, length_word] at hle
  have hbound : off + 12 + value.length ≤ structs.length := by omega
  rcases Scanner.alignForward_cases 4 (by decide) hbound with
    ⟨hpad, halign⟩ | ⟨e, halign⟩
  swap
  · refine Or.inl (Or.inr ⟨e, ?_⟩)
    rw [hround, hproperty, Outcome.ok_bind, halign, Outcome.err_bind]
  obtain ⟨hpadding, hlength⟩ := Scanner.take_drop_prefix hpad
  refine Or.inl (Or.inl ⟨.prop name value, _, .prop ?_ hlen hoff hstring hname hlength, hutf, ?_⟩)
  · simp only [← List.append_assoc] at hprop ⊢
    refine Bytes.prefix_append hprop ?_
    simp only [List.length_append, length_word]
    have heq : off + (4 + 4 + 4 + value.length) = off + 12 + value.length := by omega
    rw [heq]
    exact hpadding
  · rw [hround, halign, hlength]
    rfl

/-- A round reads a token, ends the tree, panics at a bad property or reports an error. -/
theorem nodesRound_cases (structs strings : List UInt8) (off : Nat) (state : State) :
    Reads structs strings off state ∨ EndsAt structs off ∨ BadProp structs strings off := by
  rcases Scanner.consumeBe32_cases structs off with ⟨token, _, htoken, hcall⟩ | ⟨_, e, hcall⟩
  swap
  · exact Or.inl (Or.inr ⟨e, by rw [nodesRound, hcall, Outcome.err_bind]⟩)
  have hat : ∀ x, token = x → word x <+: structs.drop off := fun x hx => hx ▸ htoken
  by_cases hbegin : token = FDT_BEGIN_NODE
  · exact Or.inl (reads_beginNode (hat _ hbegin) state)
  by_cases hprop : token = FDT_PROP
  · exact (reads_prop (hat _ hprop) state).imp_right Or.inr
  by_cases hnode : token = FDT_END_NODE
  · have hlex : Lex structs strings off .endNode (off + 4) := .endNode (hat _ hnode)
    refine Or.inl (Or.inl ⟨.endNode, _, hlex, trivial, ?_⟩)
    simp only [nodesRound, hcall, Outcome.ok_bind, if_neg hbegin, if_pos hnode]
    rfl
  by_cases hnop : token = FDT_NOP
  · have hlex : Lex structs strings off .nop (off + 4) := .nop (hat _ hnop)
    refine Or.inl (Or.inl ⟨.nop, _, hlex, trivial, ?_⟩)
    simp only [nodesRound, hcall, Outcome.ok_bind, if_neg hbegin, if_neg hnode, if_neg hprop,
      if_pos hnop]
    rfl
  by_cases hend : token = FDT_END
  · exact Or.inr (Or.inl (hat _ hend))
  · refine Or.inl (Or.inr ⟨"Unknown FDT token.", ?_⟩)
    simp only [nodesRound, hcall, Outcome.ok_bind, if_neg hbegin, if_neg hnode, if_neg hprop,
      if_neg hnop, if_neg hend]

/-! ## The loop -/

theorem parseNodesLoop_eq (strings : List UInt8) (s : Scanner) (state : State) :
    parseNodesLoop strings s state = (nodesRound strings s state >>= fun r =>
      match r with
      | .inl root => .ok root
      | .inr (s', state') => parseNodesLoop strings s' state') := by
  rw [parseNodesLoop]
  split
  next h => rw [h, Outcome.ok_bind]
  next h => rw [h, Outcome.ok_bind]
  next h => rw [h, Outcome.err_bind]
  next h => rw [h, Outcome.fault_bind]

end Aarch64.Rust
