import Aarch64.Cxx.Fdt.Safety

/-!
# Walking over tokens

The calls of a blob do what the token says that stands at the position: they return its
name and, for a property, where its value stands, and advance to the next token.
-/

namespace Aarch64.Cxx.Fdt

open Aarch64.Fdt (Tok Lex Lexes EndsAt Header cellValue word dword length_word length_dword
  reservations)
open Scanner (Over)

variable {buf bytes structs strings : List UInt8} {s : Scanner} {next : Nat}

/-- The word that stands for the token. -/
def Token.value : Token → Nat
  | .beginNode => 1
  | .endNode => 2
  | .prop => 3
  | .nop => 4
  | .stop => 9

def kind : Tok → Token
  | .beginNode _ => .beginNode
  | .endNode => .endNode
  | .prop _ _ => .prop
  | .nop => .nop

theorem word_of_lex {tok : Tok} (h : Lex structs strings s.off tok next) :
    word (kind tok).value <+: structs.drop s.off := by
  cases h with
  | beginNode h => exact Bytes.prefix_append_left h
  | endNode h => exact h
  | prop h => exact Bytes.prefix_append_left h
  | nop h => exact h

theorem consumeToken_of_word (h : Over buf s bytes) (token : Token)
    (hword : word token.value <+: bytes.drop s.off) :
    s.consumeToken buf = .ok (token, { s with off := s.off + 4 }) := by
  have hvalue : token.value < 2 ^ 32 := by
    cases token
    all_goals decide
  rw [Scanner.consumeToken, consumeBe32_of_word h hvalue hword]
  cases token
  all_goals rfl

theorem ensureToken_of_word (h : Over buf s bytes) (token : Token)
    (hword : word token.value <+: bytes.drop s.off) :
    ensureToken buf s token = .ok { s with off := s.off + 4 } := by
  rw [ensureToken, consumeToken_of_word h token hword]
  exact if_pos rfl

/-- The string that stands at the offset is consumed. -/
theorem consumeCstr_of_string (h : Over buf s bytes) {name : List UInt8}
    (hstring : name ++ [0] <+: bytes.drop s.off) (hname : 0 ∉ name) :
    s.consumeCstr buf = .ok (name, { s with off := s.off + (name.length + 1) }) := by
  have hle := Bytes.add_length_succ_le_of_prefix_drop hstring
  rcases Scanner.consumeCstr_cases h (by omega) with ⟨name', hstring', hname', hcall⟩ | ⟨hzero, _⟩
  · obtain ⟨rest, hrest⟩ := hstring
    obtain ⟨rest', hrest'⟩ := hstring'
    rw [← hrest, List.append_assoc, List.append_assoc] at hrest'
    rw [hcall, (Bytes.terminated_unique hname' hname hrest').1]
  · obtain ⟨rest, hrest⟩ := hstring
    exact absurd (by rw [← hrest]; simp) hzero

theorem alignForward_of_le (hle : s.off + Bytes.padding kAlignment s.off ≤ s.size) :
    s.alignForward kAlignment = .ok { s with off := s.off + Bytes.padding kAlignment s.off } := by
  rcases Scanner.alignForward_cases kAlignment (by decide) (s := s) (by omega) with
    ⟨_, hcall⟩ | ⟨hlt, _⟩
  · exact hcall
  · omega

theorem consumeBe_of_le (h : Over buf s bytes) {n : Nat} (hle : s.off + n ≤ bytes.length) :
    s.consumeBe buf n =
      .ok (Bytes.toNat ((bytes.drop s.off).take n), { s with off := s.off + n }) := by
  rcases Scanner.consumeBe_cases h n with ⟨l, hlen, hprefix, hcall⟩ | ⟨hlt, _⟩
  · rw [List.prefix_iff_eq_take, hlen] at hprefix
    rw [hcall, hprefix]
  · omega

theorem consumeRange_of_le (h : Over buf s bytes) {a n : Nat}
    (hle : s.off + a + n ≤ bytes.length) : s.consumeRange buf a n =
      .ok ((Bytes.toNat ((bytes.drop s.off).take a), Bytes.toNat ((bytes.drop (s.off + a)).take n)),
        { s with off := s.off + a + n }) := by
  have hsize := consumeBe_of_le (s := { s with off := s.off + a }) (h.of_sameWindow ⟨rfl, rfl⟩) hle
  rw [Scanner.consumeRange, consumeBe_of_le h (by omega)]
  dsimp only at hsize ⊢
  rw [hsize]

/-! ## Values of properties -/

/-- The property has this value. -/
def Property.Holds (buf : List UInt8) (property : Property) (value : List UInt8) : Prop :=
  Over buf (Scanner.new property.data property.size) value

theorem Property.Holds.valueAsBe32 {property : Property} {value : List UInt8}
    (h : property.Holds buf value) :
    (4 ≤ value.length ∧ property.valueAsBe32 buf = .ok (cellValue value)) ∨
      (value.length < 4 ∧ ∃ e, property.valueAsBe32 buf = .err e) := by
  rcases Nat.lt_or_ge value.length 4 with hlt | hge
  · rcases Scanner.consumeBe_cases h 4 with ⟨l, hlen, hprefix, _⟩ | ⟨_, hcall⟩
    · have hle := hprefix.length_le
      rw [List.length_drop] at hle
      omega
    · refine Or.inr ⟨hlt, Scanner.new property.data property.size, ?_⟩
      rw [Property.valueAsBe32, Scanner.consumeBe32, hcall]
      rfl
  · have hcall := consumeBe_of_le h (Nat.le_trans (Nat.le_of_eq (Nat.zero_add 4)) hge)
    refine Or.inl ⟨hge, ?_⟩
    rw [Property.valueAsBe32, Scanner.consumeBe32, hcall]
    rfl

/-- An element of a span of ranges is the pair that stands there in the value. -/
theorem Span.at_of_le {value : List UInt8} {data count a n pos : Nat}
    (h : Over buf (Scanner.new data ((a + n) * count)) value) (hpos : pos < count) :
    (Span.new data count (a + n)).at buf a n pos =
      .ok (Bytes.toNat ((value.drop (pos * (a + n))).take a),
        Bytes.toNat ((value.drop (pos * (a + n) + a)).take n)) := by
  have hlen : value.length = (a + n) * count := h.size.symm
  have hle : (a + n) * (pos + 1) ≤ (a + n) * count := Nat.mul_le_mul_left _ hpos
  rw [Nat.mul_succ, Nat.mul_comm (a + n) pos] at hle
  have hover : Over buf (Scanner.new (data + pos * (a + n)) ((a + n) * count - pos * (a + n))) _ :=
    h.new_drop (pos * (a + n))
  have hcall := consumeRange_of_le hover (a := a) (n := n) (by
    change 0 + a + n ≤ _
    rw [List.length_drop, hlen]
    omega)
  have hsize : (value.drop (pos * (a + n))).drop (0 + a) = value.drop (pos * (a + n) + a) := by
    rw [List.drop_drop, Nat.zero_add]
  rw [← hsize]
  exact Outcome.bind_of_eq_ok hcall _

/-! ## Nodes and properties -/

theorem parseStartNode_of_lex (h : Over buf s structs) {name : List UInt8}
    (hlex : Lex structs strings s.off (.beginNode name) next) :
    parseStartNode buf s = .ok (⟨name, { s with off := next }⟩, { s with off := next }) := by
  have hbounds := hlex.bounds
  have hword := word_of_lex hlex
  cases hlex with
  | beginNode hat hname hpad =>
      rename_i pad
      have hstring := Bytes.prefix_append_right hat
      rw [length_word, List.append_cons] at hstring
      have hcstr := consumeCstr_of_string (s := { s with off := s.off + 4 })
        (h.of_sameWindow ⟨rfl, rfl⟩) (Bytes.prefix_append_left hstring) hname
      have halign := alignForward_of_le (s := { s with off := s.off + 4 + (name.length + 1) })
        (by rw [h.size, kAlignment, ← hpad]; exact hbounds.2)
      rw [kAlignment, ← hpad] at halign
      rw [parseStartNode, ensureToken_of_word h .beginNode hword, Outcome.ok_bind,
        hcstr, Outcome.ok_bind, kAlignment]
      dsimp only at halign ⊢
      rw [halign]
      rfl

namespace Blob

variable {blob : Blob}

/-- The strings of the blob. -/
def StringsAt (buf : List UInt8) (blob : Blob) (strings : List UInt8) : Prop :=
  Over buf (Scanner.new blob.str blob.strsz) strings

theorem tokenAt_of_lex (h : Over buf s structs) {tok : Tok}
    (hlex : Lex structs strings s.off tok next) : tokenAt buf s = .ok (kind tok) := by
  rw [tokenAt, consumeToken_of_word h (kind tok) (word_of_lex hlex)]
  rfl

theorem tokenAt_of_endsAt (h : Over buf s structs) (hend : EndsAt structs s.off) :
    tokenAt buf s = .ok .stop := by
  rw [tokenAt, consumeToken_of_word h .stop hend]
  rfl

theorem consumeStartNode_of_lex (h : Over buf s structs) {name : List UInt8}
    (hlex : Lex structs strings s.off (.beginNode name) next) :
    consumeStartNode buf s = .ok (⟨name, { s with off := next }⟩, { s with off := next }) := by
  rw [consumeStartNode, parseStartNode_of_lex h hlex]
  rfl

theorem consumeEndNode_of_lex (h : Over buf s structs)
    (hlex : Lex structs strings s.off .endNode next) :
    consumeEndNode buf s = .ok { s with off := next } := by
  rw [consumeEndNode, ensureToken_of_word h .endNode (word_of_lex hlex)]
  cases hlex
  rfl

theorem consumeNop_of_lex (h : Over buf s structs) (hlex : Lex structs strings s.off .nop next) :
    consumeNop buf s = .ok { s with off := next } := by
  rw [consumeNop, ensureToken_of_word h .nop (word_of_lex hlex)]
  cases hlex
  rfl

/-- The property that is consumed points to its value. -/
theorem consumeProperty_of_lex (h : Over buf s structs) (hstr : StringsAt buf blob strings)
    {name value : List UInt8} (hlex : Lex structs strings s.off (.prop name value) next) :
    ∃ data, consumeProperty buf blob s =
        .ok (⟨name, data, value.length⟩, { s with off := next }) ∧
      Property.Holds buf ⟨name, data, value.length⟩ value := by
  have hbounds := hlex.bounds
  have hword := word_of_lex hlex
  cases hlex with
  | prop hat hvalue hoff hstring hname hpad =>
      rename_i nameoff pad
      have hlen := Bytes.prefix_append_right hat
      have hnameoff := Bytes.prefix_append_right hlen
      have hbytes := Bytes.prefix_append_right hnameoff
      rw [length_word] at hlen hnameoff hbytes
      rw [length_word] at hnameoff hbytes
      rw [length_word] at hbytes
      have hsize := consumeBe32_of_word (s := { s with off := s.off + 4 })
        (h.of_sameWindow ⟨rfl, rfl⟩) hvalue (Bytes.prefix_append_left hlen)
      have hoffset := consumeBe32_of_word (s := { s with off := s.off + 4 + 4 })
        (h.of_sameWindow ⟨rfl, rfl⟩) hoff (Bytes.prefix_append_left hnameoff)
      have hstrle := Bytes.add_length_succ_le_of_prefix_drop hstring
      have hstrsz : blob.strsz = strings.length := hstr.size
      have hdata : ({ s with off := s.off + 12 } : Scanner).consumeBytes value.length =
          .ok (s.data + (s.off + 12), { s with off := s.off + 12 + value.length }) :=
        if_neg (Nat.not_lt.mpr (by rw [h.size]; dsimp only; omega))
      have halign := alignForward_of_le (s := { s with off := s.off + 12 + value.length })
        (by rw [h.size, kAlignment, ← hpad]; exact hbounds.2)
      have hover : Over buf (Scanner.new (blob.str + nameoff) (blob.strsz - nameoff)) _ :=
        hstr.new_drop nameoff
      have hcstr := consumeCstr_of_string hover hstring hname
      rw [kAlignment, ← hpad] at halign
      refine ⟨s.data + (s.off + 12), ?_, rfl, h.prefix_drop (Bytes.prefix_append_left hbytes)⟩
      rw [consumeProperty, ensureToken_of_word h .prop hword, Outcome.ok_bind,
        hsize, Outcome.ok_bind]
      dsimp only at hoffset halign ⊢
      rw [hoffset, Outcome.ok_bind]
      dsimp only
      rw [if_neg (by omega), hdata, Outcome.ok_bind, kAlignment]
      dsimp only
      rw [halign, Outcome.ok_bind, hcstr]
      rfl

/-- Where a round of `SkipNode` over a token goes on, at the position behind the token. -/
def skipStep (pos : Scanner) (depth : Nat) : Tok → Scanner ⊕ Scanner × Nat
  | .beginNode _ => .inr (pos, depth + 1)
  | .endNode => if depth - 1 = 0 then .inl pos else .inr (pos, depth - 1)
  | .prop _ _ => .inr (pos, depth)
  | .nop => .inr (pos, depth)

theorem skipRound_of_lex (h : Over buf s structs) (hstr : StringsAt buf blob strings) {tok : Tok}
    (hlex : Lex structs strings s.off tok next) (depth : Nat) :
    blob.skipRound buf s depth = .ok (skipStep { s with off := next } depth tok) := by
  rw [skipRound, tokenAt_of_lex h hlex, Outcome.ok_bind]
  cases tok with
  | beginNode name =>
      change (consumeStartNode buf s >>= _) = _
      rw [consumeStartNode_of_lex h hlex]
      rfl
  | endNode =>
      change (consumeEndNode buf s >>= _) = _
      rw [consumeEndNode_of_lex h hlex, Outcome.ok_bind, skipStep]
      split
      next => rfl
      next => rfl
  | prop name value =>
      obtain ⟨data, hcall, _⟩ := consumeProperty_of_lex h hstr hlex
      change (consumeProperty buf blob s >>= _) = _
      rw [hcall]
      rfl
  | nop =>
      change (consumeNop buf s >>= _) = _
      rw [consumeNop_of_lex h hlex]
      rfl

/-! ## Parsing -/

theorem consumeRange_of_dwords (h : Over buf s bytes) {x y : Nat}
    (hat : dword x ++ dword y <+: bytes.drop s.off) : s.consumeRange buf 8 8 =
      .ok ((Bytes.toNat (dword x), Bytes.toNat (dword y)), { s with off := s.off + 16 }) := by
  have hle := Bytes.add_length_le_of_prefix_drop hat (by simp)
  have hfirst := List.prefix_iff_eq_take.mp (Bytes.prefix_append_left hat)
  have hsecond := List.prefix_iff_eq_take.mp (Bytes.prefix_append_right hat)
  rw [List.length_append] at hle
  simp only [length_dword] at hle hfirst hsecond
  rw [consumeRange_of_le h (by omega), ← hfirst, ← hsecond]

/-- The pair of zeros at the latest ends the reservations. -/
theorem parseReservedLoop_of_entries {entries : List (Nat × Nat)} (data count : Nat)
    (h : Over buf s bytes) (hat : reservations entries <+: bytes.drop s.off) :
    ∃ span, parseReservedLoop buf data s count = .ok span := by
  induction entries generalizing s count with
  | nil =>
      refine ⟨Span.new data count 16, ?_⟩
      rw [parseReservedLoop_eq, consumeRange_of_dwords h hat, Outcome.ok_bind,
        if_pos ⟨Aarch64.Fdt.toNat_dword (by decide), Aarch64.Fdt.toNat_dword (by decide)⟩]
  | cons e rest ih =>
      rw [reservations, List.flatMap_cons, List.append_assoc] at hat
      have hrest := Bytes.prefix_append_right hat
      rw [List.length_append, length_dword, length_dword] at hrest
      rw [parseReservedLoop_eq, consumeRange_of_dwords h (Bytes.prefix_append_left hat),
        Outcome.ok_bind]
      split
      next => exact ⟨_, rfl⟩
      next => exact ih (s := { s with off := s.off + 16 }) _ (h.of_sameWindow ⟨rfl, rfl⟩) hrest

variable {fdt : List UInt8} {h : Header} {entries : List (Nat × Nat)} {name : List UInt8}
variable {toks : List Tok} {stop : Nat}

theorem checkHeader_of_blob (hblob : Aarch64.Fdt.Blob fdt h entries structs strings) :
    checkHeader fdt.length h = true ↔ h.lastCompVersion ≤ kVersion := by
  have hsize := hblob.size_lt
  have htotal := hblob.totalsize
  have hrsv := hblob.reserved_le
  have hstructs := hblob.structs_le
  have hstrings := hblob.strings_le
  have hend : 16 ≤ (reservations entries).length := by
    rw [reservations, List.length_append, List.length_append, length_dword]
    exact Nat.le_add_left _ _
  rw [hblob.size_structs] at hstructs
  rw [hblob.size_strings] at hstrings
  rw [checkHeader_iff, Nat.mod_eq_of_lt (by omega), Nat.mod_eq_of_lt (by omega)]
  exact ⟨fun hcheck => hcheck.2.2.1,
    fun hversion => ⟨hblob.magic, htotal, hversion, by omega, hstrings, hstructs⟩⟩

/-- A blob whose structure starts with a node is parsed if its version is supported. -/
theorem parse_of_lexes (hblob : Aarch64.Fdt.Blob fdt h entries structs strings)
    (hversion : h.lastCompVersion ≤ kVersion)
    (hlexes : Lexes structs strings 0 (.beginNode name :: toks) stop) :
    ∃ blob, parse fdt = .ok blob ∧ Over fdt blob.root.offset structs ∧
      StringsAt fdt blob strings ∧ Lexes structs strings blob.root.offset.off toks stop := by
  have hheader := parseHeader_of_bytes hblob.words hblob.header_at
  rw [if_pos ((checkHeader_of_blob hblob).mpr hversion)] at hheader
  have hstructs : Over fdt (Scanner.new h.offDtStruct h.sizeDtStruct) structs :=
    ⟨hblob.size_structs.symm, hblob.structs_at⟩
  have hstrings : Over fdt (Scanner.new h.offDtStrings h.sizeDtStrings) strings :=
    ⟨hblob.size_strings.symm, hblob.strings_at⟩
  have htotal := hblob.totalsize
  have hrsv := hblob.reserved_le
  have hreserved : Over fdt (Scanner.new h.offMemRsvmap (h.totalsize - h.offMemRsvmap)) _ :=
    Over.of_le (by
      change h.offMemRsvmap + (h.totalsize - h.offMemRsvmap) ≤ fdt.length
      omega)
  have hentries : reservations entries <+: ((fdt.drop h.offMemRsvmap).take
      (h.totalsize - h.offMemRsvmap)).drop 0 := by
    rw [List.drop_zero, List.prefix_take_iff]
    exact ⟨hblob.reserved_at, by omega⟩
  obtain ⟨span, hspan⟩ := parseReservedLoop_of_entries h.offMemRsvmap 0 hreserved hentries
  cases hlexes with
  | cons hroot hrest =>
      rename_i next
      have hstart := parseStartNode_of_lex hstructs hroot
      refine ⟨⟨h, ⟨name, ⟨h.offDtStruct, h.sizeDtStruct, next⟩⟩, span, h.offDtStrings,
        h.sizeDtStrings⟩, ?_, hstructs.of_sameWindow ⟨rfl, rfl⟩, hstrings, hrest⟩
      simp only [parse, hheader, Outcome.ok_bind, hstart]
      change (parseReservedLoop fdt h.offMemRsvmap _ 0 >>= _) = _
      rw [hspan]
      rfl

/-- A blob that is parsed starts with a node. -/
theorem beginNode_of_parse (hblob : Aarch64.Fdt.Blob fdt h entries structs strings) {tok : Tok}
    {next : Nat} (hlex : Lex structs strings 0 tok next) {blob : Blob}
    (hparse : parse fdt = .ok blob) : ∃ name, tok = .beginNode name := by
  obtain ⟨header, hheader, hparse⟩ := Outcome.bind_eq_ok_iff.mp hparse
  obtain ⟨⟨root, _⟩, hroot, _⟩ := Outcome.bind_eq_ok_iff.mp hparse
  obtain ⟨pos, htoken, _⟩ := Outcome.bind_eq_ok_iff.mp hroot
  have hcall := parseHeader_of_bytes hblob.words hblob.header_at
  rw [hheader] at hcall
  split at hcall
  next =>
    obtain rfl := Outcome.ok.inj hcall
    have hstructs : Over fdt (Scanner.new header.offDtStruct header.sizeDtStruct) structs :=
      ⟨hblob.size_structs.symm, hblob.structs_at⟩
    rw [ensureToken, consumeToken_of_word hstructs (kind tok) (word_of_lex hlex)] at htoken
    cases tok with
    | beginNode name => exact ⟨name, rfl⟩
    | endNode => cases htoken
    | prop name value => cases htoken
    | nop => cases htoken
  next => cases hcall

theorem lastCompVersion_le_of_parse (hblob : Aarch64.Fdt.Blob fdt h entries structs strings)
    {blob : Blob} (hparse : parse fdt = .ok blob) : h.lastCompVersion ≤ kVersion := by
  obtain ⟨header, hheader, _⟩ := Outcome.bind_eq_ok_iff.mp hparse
  have hcall := parseHeader_of_bytes hblob.words hblob.header_at
  by_cases hcheck : checkHeader fdt.length h = true
  · exact (checkHeader_of_blob hblob).mp hcheck
  · rw [hheader, if_neg hcheck] at hcall
    cases hcall

end Blob

end Aarch64.Cxx.Fdt
