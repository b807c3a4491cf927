import Aarch64.Rust.DeviceTree.Tokens

/-!
# Headers, reservations and whole structures

What the parser makes of the header and of the reservation block of a blob, and of a
structure whose tokens are known.
-/

namespace Aarch64.Rust

open Fdt (Tok Lex Lexes EndsAt Header IsReservations reservations word dword length_word)

/-! ## The header -/

theorem parseHeader_of_bytes {fdt : List UInt8} {h : Header} (hwords : ∀ x ∈ h.words, x < 2 ^ 32)
    (hbytes : h.bytes <+: fdt) : parseHeader fdt = .ok h := by
  have hprefix : h.words.flatMap word <+: fdt.drop 0 := hbytes
  have read : ∀ i x, h.words[i]? = some x →
      (⟨fdt, 0 + 4 * i⟩ : Scanner).consumeBe32 = .ok (x, ⟨fdt, 0 + 4 * i + 4⟩) := fun i x hi =>
    Scanner.consumeBe32_of_word (hwords x (List.mem_of_getElem? hi)) (Fdt.word_of_words hprefix hi)
  have h0 : (⟨fdt, 0⟩ : Scanner).consumeBe32 = .ok (h.magic, ⟨fdt, 4⟩) := read 0 _ rfl
  have h1 : (⟨fdt, 4⟩ : Scanner).consumeBe32 = .ok (h.totalsize, ⟨fdt, 8⟩) := read 1 _ rfl
  have h2 : (⟨fdt, 8⟩ : Scanner).consumeBe32 = .ok (h.offDtStruct, ⟨fdt, 12⟩) := read 2 _ rfl
  have h3 : (⟨fdt, 12⟩ : Scanner).consumeBe32 = .ok (h.offDtStrings, ⟨fdt, 16⟩) := read 3 _ rfl
  have h4 : (⟨fdt, 16⟩ : Scanner).consumeBe32 = .ok (h.offMemRsvmap, ⟨fdt, 20⟩) := read 4 _ rfl
  have h5 : (⟨fdt, 20⟩ : Scanner).consumeBe32 = .ok (h.version, ⟨fdt, 24⟩) := read 5 _ rfl
  have h6 : (⟨fdt, 24⟩ : Scanner).consumeBe32 = .ok (h.lastCompVersion, ⟨fdt, 28⟩) := read 6 _ rfl
  have h7 : (⟨fdt, 28⟩ : Scanner).consumeBe32 = .ok (h.bootCpuidPhys, ⟨fdt, 32⟩) := read 7 _ rfl
  have h8 : (⟨fdt, 32⟩ : Scanner).consumeBe32 = .ok (h.sizeDtStrings, ⟨fdt, 36⟩) := read 8 _ rfl
  have h9 : (⟨fdt, 36⟩ : Scanner).consumeBe32 = .ok (h.sizeDtStruct, ⟨fdt, 40⟩) := read 9 _ rfl
  simp only [parseHeader, Scanner.new, h0, h1, h2, h3, h4, h5, h6, h7, h8, h9, Outcome.ok_bind,
    Outcome.pure_def]

theorem consumeBe32_bind_ne_fault {α : Type} {s : Scanner} {f : Nat × Scanner → Outcome String α}
    (h : ∀ x s', f (x, s') ≠ .fault) : (s.consumeBe32 >>= f) ≠ .fault := by
  rcases Scanner.consumeBe32_cases s.data s.offset with ⟨x, _, _, hcall⟩ | ⟨_, e, hcall⟩
  · rw [hcall, Outcome.ok_bind]
    exact h _ _
  · rw [hcall, Outcome.err_bind]
    exact fun h => by cases h

theorem offset_of_consumeBe32 {s s' : Scanner} {x : Nat} (h : s.consumeBe32 = .ok (x, s')) :
    s' = ⟨s.data, s.offset + 4⟩ ∧ s'.offset ≤ s.data.length := by
  rcases Scanner.consumeBe32_cases s.data s.offset with ⟨_, _, hprefix, hcall⟩ | ⟨_, _, hcall⟩
  · rw [hcall] at h
    cases h
    exact ⟨rfl, Fdt.add_four_le_of_word hprefix⟩
  · rw [hcall] at h
    cases h

/-- The header is the first forty bytes, and a shorter blob is an error. -/
theorem parseHeader_cases (fdt : List UInt8) :
    (∃ h : Header, (∀ x ∈ h.words, x < 2 ^ 32) ∧ h.bytes <+: fdt ∧ parseHeader fdt = .ok h) ∨
      (fdt.length < 40 ∧ ∃ e, parseHeader fdt = .err e) := by
  rcases Nat.lt_or_ge fdt.length 40 with hlt | hge
  · refine Or.inr ⟨hlt, ?_⟩
    cases hcall : parseHeader fdt with
    | ok h =>
        obtain ⟨⟨_, s₀⟩, h₀, hcall⟩ := Outcome.bind_eq_ok_iff.mp hcall
        obtain ⟨⟨_, s₁⟩, h₁, hcall⟩ := Outcome.bind_eq_ok_iff.mp hcall
        obtain ⟨⟨_, s₂⟩, h₂, hcall⟩ := Outcome.bind_eq_ok_iff.mp hcall
        obtain ⟨⟨_, s₃⟩, h₃, hcall⟩ := Outcome.bind_eq_ok_iff.mp hcall
        obtain ⟨⟨_, s₄⟩, h₄, hcall⟩ := Outcome.bind_eq_ok_iff.mp hcall
        obtain ⟨⟨_, s₅⟩, h₅, hcall⟩ := Outcome.bind_eq_ok_iff.mp hcall
        obtain ⟨⟨_, s₆⟩, h₆, hcall⟩ := Outcome.bind_eq_ok_iff.mp hcall
        obtain ⟨⟨_, s₇⟩, h₇, hcall⟩ := Outcome.bind_eq_ok_iff.mp hcall
        obtain ⟨⟨_, s₈⟩, h₈, hcall⟩ := Outcome.bind_eq_ok_iff.mp hcall
        obtain ⟨⟨_, s₉⟩, h₉, hcall⟩ := Outcome.bind_eq_ok_iff.mp hcall
        obtain ⟨rfl, _⟩ := offset_of_consumeBe32 h₀
        obtain ⟨rfl, _⟩ := offset_of_consumeBe32 h₁
        obtain ⟨rfl, _⟩ := offset_of_consumeBe32 h₂
        obtain ⟨rfl, _⟩ := offset_of_consumeBe32 h₃
        obtain ⟨rfl, _⟩ := offset_of_consumeBe32 h₄
        obtain ⟨rfl, _⟩ := offset_of_consumeBe32 h₅
        obtain ⟨rfl, _⟩ := offset_of_consumeBe32 h₆
        obtain ⟨rfl, _⟩ := offset_of_consumeBe32 h₇
        obtain ⟨rfl, _⟩ := offset_of_consumeBe32 h₈
        obtain ⟨rfl, hle⟩ := offset_of_consumeBe32 h₉
        have hend : 40 ≤ fdt.length := hle
        omega
    | err e => exact ⟨e, rfl⟩
    | fault =>
        refine absurd hcall ?_
        iterate 10 refine consumeBe32_bind_ne_fault fun _ _ => ?_
        exact fun h => by cases h
  · obtain ⟨h, hlt, hprefix⟩ := Fdt.exists_header hge
    exact Or.inl ⟨h, hlt, hprefix, parseHeader_of_bytes hlt hprefix⟩

/-! ## The reservations -/

/-- The range that the parser makes of an entry. -/
def rangeOf (e : Nat × Nat) : Range := ⟨e.1, Word64.add e.1 e.2⟩

theorem reservedRound_of_entry {data : List UInt8} {off : Nat} {e : Nat × Nat}
    (h₁ : e.1 < 2 ^ 64) (h₂ : e.2 < 2 ^ 64) (h : dword e.1 ++ dword e.2 <+: data.drop off) :
    reservedRound ⟨data, off⟩ =
      .ok (if e = (0, 0) then none else some (rangeOf e), ⟨data, off + 16⟩) := by
  have haddr := Scanner.consumeBe64_of_dword h₁ (Bytes.prefix_append_left h)
  have hnext := Bytes.prefix_append_right h
  rw [Fdt.length_dword] at hnext
  have hsize := Scanner.consumeBe64_of_dword h₂ hnext
  simp only [reservedRound, haddr, hsize, Outcome.ok_bind]
  have hzero : (e.1 = 0 ∧ e.2 = 0) ↔ e = (0, 0) := by rw [Prod.ext_iff]
  rw [if_congr hzero rfl rfl]
  split <;> rfl

theorem parseReservedLoop_eq (s : Scanner) (reserved : List Range) :
    parseReservedLoop s reserved = (reservedRound s >>= fun r =>
      match r with
      | (none, _) => .ok reserved
      | (some range, s') => parseReservedLoop s' (reserved ++ [range])) := by
  rw [parseReservedLoop]
  split
  next h => rw [h, Outcome.ok_bind]
  next h => rw [h, Outcome.ok_bind]
  next h => rw [h, Outcome.err_bind]
  next h => rw [h, Outcome.fault_bind]

theorem parseReservedLoop_of_entries {data : List UInt8} (entries : List (Nat × Nat)) :
    ∀ (off : Nat) (reserved : List Range), IsReservations entries →
      reservations entries <+: data.drop off →
      parseReservedLoop ⟨data, off⟩ reserved = .ok (reserved ++ entries.map rangeOf) := by
  induction entries with
  | nil =>
      intro off reserved _ hprefix
      have hround := reservedRound_of_entry (e := (0, 0)) (by decide) (by decide) hprefix
      rw [parseReservedLoop_eq, hround, if_pos rfl, Outcome.ok_bind, List.map_nil, List.append_nil]
  | cons e entries ih =>
      intro off reserved hentries hprefix
      obtain ⟨⟨hne, h₁, h₂⟩, hentries⟩ := List.forall_mem_cons.mp hentries
      have hprefix : (dword e.1 ++ dword e.2) ++ reservations entries <+: data.drop off := by
        rwa [reservations, List.flatMap_cons, List.append_assoc] at hprefix
      have hround := reservedRound_of_entry h₁ h₂ (Bytes.prefix_append_left hprefix)
      have hrest := Bytes.prefix_append_right hprefix
      rw [List.length_append, Fdt.length_dword, Fdt.length_dword] at hrest
      rw [parseReservedLoop_eq, hround, if_neg hne, Outcome.ok_bind]
      dsimp only
      rw [ih (off + 16) _ hentries hrest, List.map_cons, List.append_assoc, List.singleton_append]

theorem parseReserved_of_entries {data : List UInt8} {entries : List (Nat × Nat)}
    (hentries : IsReservations entries) (h : reservations entries <+: data) :
    parseReserved data = .ok (entries.map rangeOf) :=
  parseReservedLoop_of_entries entries 0 [] hentries h

theorem parseReservedLoop_cases (data : List UInt8) : ∀ (n off : Nat) (reserved : List Range),
    data.length - off = n →
    (∃ entries, IsReservations entries ∧ reservations entries <+: data.drop off) ∨
      ∃ e, parseReservedLoop ⟨data, off⟩ reserved = .err e := by
  intro n
  induction n using Nat.strongRecOn with
  | _ n ih =>
      intro off reserved hn
      rw [parseReservedLoop_eq]
      rcases Scanner.consumeBe64_cases data off with ⟨addr, h₁, haddr, hcall₁⟩ | ⟨_, e, hcall₁⟩
      swap
      · exact Or.inr ⟨e, by rw [reservedRound, hcall₁]; rfl⟩
      rcases Scanner.consumeBe64_cases data (off + 8) with ⟨size, h₂, hsize, hcall₂⟩ | ⟨_, e, hcall₂⟩
      swap
      · exact Or.inr ⟨e, by rw [reservedRound, hcall₁, Outcome.ok_bind]; dsimp only; rw [hcall₂]; rfl⟩
      have hentry : dword addr ++ dword size <+: data.drop off :=
        Bytes.prefix_append haddr (by rwa [Fdt.length_dword])
      have hround := reservedRound_of_entry (e := (addr, size)) h₁ h₂ hentry
      by_cases hzero : (addr, size) = (0, 0)
      · obtain ⟨rfl, rfl⟩ := Prod.mk.inj hzero
        exact Or.inl ⟨[], by simp [IsReservations], hentry⟩
      · have hle := Bytes.add_length_le_of_prefix_drop hentry (by simp)
        rw [List.length_append, Fdt.length_dword, Fdt.length_dword] at hle
        rw [hround, if_neg hzero, Outcome.ok_bind]
        rcases ih (data.length - (off + 16)) (by omega) (off + 16)
          (reserved ++ [rangeOf (addr, size)]) rfl with ⟨entries, hentries, hrest⟩ | herr
        · refine Or.inl ⟨(addr, size) :: entries,
            List.forall_mem_cons.mpr ⟨⟨hzero, h₁, h₂⟩, hentries⟩, ?_⟩
          rw [reservations, List.flatMap_cons, List.append_assoc]
          refine Bytes.prefix_append hentry ?_
          rw [List.length_append, Fdt.length_dword, Fdt.length_dword]
          exact hrest
        · exact Or.inr herr

theorem parseReserved_cases (data : List UInt8) :
    (∃ entries, IsReservations entries ∧ reservations entries <+: data ∧
        parseReserved data = .ok (entries.map rangeOf)) ∨
      ∃ e, parseReserved data = .err e := by
  rcases parseReservedLoop_cases data _ 0 [] rfl with ⟨entries, hentries, hprefix⟩ | herr
  · exact Or.inl ⟨entries, hentries, hprefix, parseReserved_of_entries hentries hprefix⟩
  · exact Or.inr herr

/-! ## The structure -/

/-- What a list of tokens does to the stack. -/
def State.run : List Tok → State → Outcome String State
  | [], state => .ok state
  | tok :: toks, state => do
      let state ← state.apply tok
      State.run toks state

theorem parseNodesLoop_of_lexes {structs strings : List UInt8} {off stop : Nat} {toks : List Tok}
    (h : Lexes structs strings off toks stop) (hend : EndsAt structs stop)
    (hnames : ∀ tok ∈ toks, ReadsNames tok) (state : State) :
    parseNodesLoop strings ⟨structs, off⟩ state = (state.run toks >>= State.finish) := by
  induction h generalizing state with
  | nil off =>
      rw [parseNodesLoop_eq, nodesRound_of_endsAt hend, State.run, Outcome.ok_bind]
      cases state.finish with
      | ok root => rfl
      | err e => rfl
      | fault => rfl
  | @cons off next stop tok toks h hrest ih =>
      obtain ⟨hname, hnames⟩ := List.forall_mem_cons.mp hnames
      have hroom := hrest.bounds hend
      rw [parseNodesLoop_eq, nodesRound_of_lex h hname (by omega), State.run]
      cases state.apply tok with
      | ok state' => exact ih hend hnames state'
      | err e => rfl
      | fault => rfl

end Aarch64.Rust
