import Aarch64.Rust.DeviceTree.Blob

/-!
# When the parser panics

The parser checks the total size of a blob and the room for what it reads, but not the
places of the three blocks, the place of a name among the strings, or the room for a
number of cells. It panics exactly when one of these is wrong and the parser gets there.
-/

namespace Aarch64.Rust

open Fdt (Tok Lex EndsAt Header IsCells IsReservations reservations word length_word)

/-! ## The structure -/

/-- The number of open nodes behind a token, or nothing if there is no node to end. -/
def depthAfter : Tok → Nat → Option Nat
  | .beginNode _, depth => some (depth + 1)
  | .endNode, 0 => none
  | .endNode, depth + 1 => some depth
  | .prop _ _, depth => some depth
  | .nop, depth => some depth

/-- Tokens that the parser can read lead from the start of the structure to `off`. -/
inductive Reaches (structs strings : List UInt8) : (off depth : Nat) → Prop
  | start : Reaches structs strings 0 0
  | step {off depth next depth' : Nat} {tok : Tok} (h : Reaches structs strings off depth)
      (hlex : Lex structs strings off tok next) (hnames : ReadsNames tok)
      (hdepth : depthAfter tok depth = some depth') : Reaches structs strings next depth'

variable {structs strings : List UInt8} {off depth : Nat} {tok : Tok} {state state' : State}

theorem BadProp.bounds (h : BadProp structs strings off) : off < structs.length := by
  obtain ⟨value, nameoff, _, _, hprop, _⟩ := h
  have hle := Fdt.add_length_le_of_word hprop
  simp only [List.length_append, length_word] at hle
  omega

/-- A token that is read grows or shrinks the stack as it opens or ends a node. -/
theorem depthAfter_of_apply (h : state.apply tok = .ok state') :
    depthAfter tok state.parents.length = some state'.parents.length := by
  cases tok with
  | beginNode name =>
      cases h
      rfl
  | endNode =>
      obtain ⟨parents, current⟩ := state
      cases parents with
      | nil => cases h
      | cons e parents =>
          cases h
          rfl
  | prop name value =>
      obtain ⟨current, _, h⟩ := Outcome.bind_eq_ok_iff.mp h
      cases h
      rfl
  | nop =>
      cases h
      rfl

/-- With a node to end, a token can only go wrong as a short number of cells. -/
theorem apply_cases {depth' : Nat} (h : depthAfter tok state.parents.length = some depth') :
    (∃ state', state.apply tok = .ok state' ∧ state'.parents.length = depth') ∨
      state.apply tok = .fault := by
  cases htok : state.apply tok with
  | ok state' =>
      refine Or.inl ⟨state', rfl, ?_⟩
      exact Option.some.inj ((depthAfter_of_apply htok).symm.trans h)
  | err e =>
      exfalso
      cases tok with
      | beginNode name => cases htok
      | endNode =>
          obtain ⟨parents, current⟩ := state
          cases parents with
          | nil => cases h
          | cons e parents => cases htok
      | prop name value =>
          by_cases hshort : IsCells name ∧ value.length < 4
          · rw [State.apply, State.newProperty,
              addProperty_of_short _ hshort.1 hshort.2] at htok
            cases htok
          · rw [State.apply, State.newProperty, addProperty_of_wide _ fun hcells =>
              Nat.le_of_not_lt fun hlt => hshort ⟨hcells, hlt⟩] at htok
            cases htok
      | nop => cases htok
  | fault => exact Or.inr rfl

theorem badProp_of_apply {next : Nat} (hlex : Lex structs strings off tok next)
    (h : state.apply tok = .fault) : BadProp structs strings off := by
  cases hlex with
  | beginNode _ _ _ => cases h
  | endNode _ =>
      obtain ⟨parents, current⟩ := state
      cases parents with
      | nil => cases h
      | cons e parents => cases h
  | @prop nameoff name value pad hprop hvalue hoff hstring hname hpad =>
      by_cases hshort : IsCells name ∧ value.length < 4
      · refine ⟨value, nameoff, hvalue, hoff, ?_, Or.inr ⟨name, hstring, hshort⟩⟩
        simp only [← List.append_assoc] at hprop ⊢
        exact Bytes.prefix_append_left hprop
      · rw [State.apply, State.newProperty, addProperty_of_wide _ fun hcells =>
          Nat.le_of_not_lt fun hlt => hshort ⟨hcells, hlt⟩] at h
        cases h
  | nop _ => cases h

/-- A panic of the loop comes from a bad property ahead. -/
theorem exists_badProp_of_fault : ∀ (n off : Nat) (state : State), structs.length - off = n →
    Reaches structs strings off state.parents.length →
    parseNodesLoop strings ⟨structs, off⟩ state = .fault →
    ∃ off depth, Reaches structs strings off depth ∧ BadProp structs strings off := by
  intro n
  induction n using Nat.strongRecOn with
  | _ n ih =>
      intro off state hn hreach hfault
      rw [parseNodesLoop_eq] at hfault
      rcases nodesRound_cases structs strings off state with hreads | hend | hbad
      · rcases hreads with ⟨tok, next, hlex, hnames, hround⟩ | ⟨e, hround⟩
        · rw [hround] at hfault
          have hbounds := hlex.bounds
          cases happly : state.apply tok with
          | ok state' =>
              rw [happly, Outcome.ok_bind, Outcome.ok_bind] at hfault
              exact ih _ (by omega) next state' rfl
                (hreach.step hlex hnames (depthAfter_of_apply happly)) hfault
          | err e =>
              rw [happly] at hfault
              cases hfault
          | fault => exact ⟨off, _, hreach, badProp_of_apply hlex happly⟩
        · rw [hround] at hfault
          cases hfault
      · rw [nodesRound_of_endsAt hend] at hfault
        cases hfinish : state.finish with
        | ok root =>
            rw [hfinish] at hfault
            cases hfault
        | err e =>
            rw [hfinish] at hfault
            cases hfault
        | fault =>
            rw [State.finish] at hfinish
            split at hfinish
            next => cases hfinish
            next =>
              split at hfinish
              next => cases hfinish
              next => cases hfinish
      · exact ⟨off, _, hreach, hbad⟩

/-- The loop gets to every place that the tokens reach, unless it panics before. -/
theorem parseNodes_of_reaches (h : Reaches structs strings off depth)
    (hoff : off < structs.length) : parseNodes structs strings = .fault ∨
      ∃ state : State, state.parents.length = depth ∧
        parseNodes structs strings = parseNodesLoop strings ⟨structs, off⟩ state := by
  induction h with
  | start => exact Or.inr ⟨State.new, rfl, rfl⟩
  | @step off depth next depth' tok h hlex hnames hdepth ih =>
      have hbounds := hlex.bounds
      rcases ih (by omega) with hfault | ⟨state, hparents, heq⟩
      · exact Or.inl hfault
      · rw [parseNodesLoop_eq, nodesRound_of_lex hlex hnames hoff] at heq
        rw [← hparents] at hdepth
        rcases apply_cases hdepth with ⟨state', happly, hparents'⟩ | happly
        · rw [happly, Outcome.ok_bind, Outcome.ok_bind] at heq
          exact Or.inr ⟨state', hparents', heq⟩
        · rw [happly] at heq
          exact Or.inl heq

theorem parseNodes_eq_fault_iff : parseNodes structs strings = .fault ↔
    ∃ off depth, Reaches structs strings off depth ∧ BadProp structs strings off := by
  constructor
  · exact exists_badProp_of_fault _ 0 State.new rfl .start
  · rintro ⟨off, depth, hreach, hbad⟩
    rcases parseNodes_of_reaches hreach hbad.bounds with hfault | ⟨state, _, heq⟩
    · exact hfault
    · rw [heq, parseNodesLoop_eq, nodesRound_of_badProp hbad]
      rfl

/-! ## The blob -/

/-- The header passes the checks of `parse`. -/
structure Passes (fdt : List UInt8) (h : Header) : Prop where
  magic : h.magic = 0xd00dfeed
  version : h.lastCompVersion ≤ DEVICE_TREE_SPEC_VERSION
  totalsize : h.totalsize ≤ fdt.length

/-- Neither the places in the header nor the properties lead out of the blob. The
structure and the strings matter only behind a reservation block with an end. -/
def InRange (fdt : List UInt8) (h : Header) : Prop :=
  h.offMemRsvmap ≤ fdt.length ∧
    ∀ entries, IsReservations entries → reservations entries <+: fdt.drop h.offMemRsvmap →
      h.offDtStruct + h.sizeDtStruct ≤ fdt.length ∧
        h.offDtStrings + h.sizeDtStrings ≤ fdt.length ∧
        ∀ off depth,
          Reaches ((fdt.drop h.offDtStruct).take h.sizeDtStruct)
            ((fdt.drop h.offDtStrings).take h.sizeDtStrings) off depth →
          ¬ BadProp ((fdt.drop h.offDtStruct).take h.sizeDtStruct)
            ((fdt.drop h.offDtStrings).take h.sizeDtStrings) off

theorem slice_eq_fault {data : List UInt8} {start n : Nat} (h : data.length < start + n) :
    slice data start (start + n) = .fault := by
  rw [slice, if_neg (by omega)]

theorem bind_ok_ne_fault {α β : Type} {x : Outcome String α} {f : α → β} :
    (x >>= fun a => .ok (f a)) ≠ .fault ↔ x ≠ .fault := by
  cases x with
  | ok a => simp
  | err e => simp
  | fault => simp

/-- Behind the checks, the parser panics exactly out of range. -/
theorem parse_ne_fault_of_passes {fdt : List UInt8} {h : Header}
    (hparse : parseHeader fdt = .ok h) (hpasses : Passes fdt h) :
    parse fdt ≠ .fault ↔ InRange fdt h := by
  simp only [parse, hparse, Outcome.ok_bind]
  rw [if_neg (not_not.mpr hpasses.magic), if_neg (Nat.not_lt.mpr hpasses.version),
    if_neg (Nat.not_lt.mpr hpasses.totalsize)]
  rcases Nat.lt_or_ge fdt.length h.offMemRsvmap with hlt | hge
  · rw [slice_strings_of_lt hlt, Outcome.fault_bind]
    exact iff_of_false (fun h => h rfl) fun hin => absurd hin.1 (by omega)
  rw [slice_strings hge, Outcome.ok_bind]
  rcases parseReserved_cases (fdt.drop h.offMemRsvmap) with
    ⟨entries, hentries, hprefix, hreserved⟩ | ⟨e, herr⟩
  swap
  · rw [herr, Outcome.err_bind]
    refine iff_of_true (fun h => by cases h) ⟨hge, fun entries hentries hprefix => ?_⟩
    rw [parseReserved_of_entries hentries hprefix] at herr
    cases herr
  rw [hreserved, Outcome.ok_bind]
  have hrange : InRange fdt h ↔ _ :=
    ⟨fun hin => hin.2 entries hentries hprefix, fun hin => ⟨hge, fun _ _ _ => hin⟩⟩
  rw [hrange]
  rcases Nat.lt_or_ge fdt.length (h.offDtStruct + h.sizeDtStruct) with hstruct | hstruct
  · rw [slice_eq_fault hstruct, Outcome.fault_bind]
    exact iff_of_false (fun h => h rfl) fun hin => absurd hin.1 (by omega)
  rw [Scanner.slice_of_le hstruct, Outcome.ok_bind]
  rcases Nat.lt_or_ge fdt.length (h.offDtStrings + h.sizeDtStrings) with hstring | hstring
  · rw [slice_eq_fault hstring, Outcome.fault_bind]
    exact iff_of_false (fun h => h rfl) fun hin => absurd hin.2.1 (by omega)
  rw [Scanner.slice_of_le hstring, Outcome.ok_bind]
  refine bind_ok_ne_fault.trans ?_
  rw [Ne, parseNodes_eq_fault_iff]
  constructor
  · exact fun hbad => ⟨hstruct, hstring, fun off depth hreach hprop =>
      hbad ⟨off, depth, hreach, hprop⟩⟩
  · rintro ⟨_, _, hin⟩ ⟨off, depth, hreach, hprop⟩
    exact hin off depth hreach hprop

/-- On any bytes the parser returns, with a tree or with an error, exactly if a header that passes
its checks leads nowhere out of range. A slice and an `unwrap` that fail are faults here; `InRange`
lists the places where the code relies on the blob. -/
theorem parse_ne_fault_iff (fdt : List UInt8) : parse fdt ≠ .fault ↔
    ∀ h : Header, (∀ x ∈ h.words, x < 2 ^ 32) → h.bytes <+: fdt → Passes fdt h →
      InRange fdt h := by
  rcases parseHeader_cases fdt with ⟨h, hwords, hbytes, hparse⟩ | ⟨hlt, e, hparse⟩
  · by_cases hpasses : Passes fdt h
    · rw [parse_ne_fault_of_passes hparse hpasses]
      constructor
      · intro hin h' hwords' hbytes' _
        have heq : h' = h :=
          Outcome.ok.inj ((parseHeader_of_bytes hwords' hbytes').symm.trans hparse)
        exact heq ▸ hin
      · exact fun hin => hin h hwords hbytes hpasses
    · refine iff_of_true ?_ fun h' hwords' hbytes' hpasses' => ?_
      · simp only [parse, hparse, Outcome.ok_bind]
        split
        next => exact fun h => by cases h
        next hmagic =>
          split
          next => exact fun h => by cases h
          next hversion =>
            split
            next => exact fun h => by cases h
            next hsize =>
              exact absurd ⟨not_not.mp hmagic, Nat.not_lt.mp hversion, Nat.not_lt.mp hsize⟩ hpasses
      · have heq : h' = h :=
          Outcome.ok.inj ((parseHeader_of_bytes hwords' hbytes').symm.trans hparse)
        exact absurd (heq ▸ hpasses') hpasses
  · refine iff_of_true ?_ fun h _ hbytes _ => ?_
    · rw [parse, hparse, Outcome.err_bind]
      exact fun h => by cases h
    · have hle := hbytes.length_le
      rw [Header.length_bytes] at hle
      omega

/-- A header alone whose reservation block would start behind it. -/
theorem parse_header_only :
    parse (Header.bytes ⟨0xd00dfeed, 40, 40, 40, 41, 17, 16, 0, 0, 0⟩) = .fault := by
  have hparse : parseHeader (Header.bytes ⟨0xd00dfeed, 40, 40, 40, 41, 17, 16, 0, 0, 0⟩) = _ :=
    parseHeader_of_bytes (by decide) (List.prefix_refl _)
  rw [parse, hparse, Outcome.ok_bind, if_neg (by decide), if_neg (by decide),
    if_neg (by rw [Header.length_bytes]; decide),
    slice_strings_of_lt (by rw [Header.length_bytes]; decide)]
  rfl

end Aarch64.Rust
