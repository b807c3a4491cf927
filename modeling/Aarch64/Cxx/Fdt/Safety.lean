import Aarch64.Cxx.Fdt.Blob
import Aarch64.Fdt.Encode

/-!
# Reads stay in the buffer

A scanner only reads the bytes that it covers, so all reads of a blob stay in the buffer
if its three blocks do. `ParseHeader` checks that, but the sums for the structure and
the strings are formed in 32 bits: a block that wraps around passes the check and lies
outside. As long as neither does, no walk over the blob leaves the buffer.
-/

namespace Aarch64.Cxx.Fdt

open Aarch64.Fdt (Header word length_word)

variable {buf bytes : List UInt8} {s : Scanner}

namespace Scanner

/-- The scanners cover the same bytes. -/
def SameWindow (s s' : Scanner) : Prop := s'.data = s.data ∧ s'.size = s.size

theorem SameWindow.refl (s : Scanner) : s.SameWindow s := ⟨rfl, rfl⟩

theorem SameWindow.trans {s' s'' : Scanner} (h : s.SameWindow s') (h' : s'.SameWindow s'') :
    s.SameWindow s'' := ⟨h'.1.trans h.1, h'.2.trans h.2⟩

theorem Over.of_sameWindow {s' : Scanner} (h : Over buf s bytes) (hw : s.SameWindow s') :
    Over buf s' bytes := ⟨hw.2.trans h.size, hw.1 ▸ h.at_⟩

theorem consumeBe_post (h : Over buf s bytes) (n : Nat) :
    (s.consumeBe buf n).Post (fun r => s.SameWindow r.2) s.SameWindow := by
  rcases consumeBe_cases h n with ⟨l, _, _, hcall⟩ | ⟨_, hcall⟩
  · rw [hcall]
    exact ⟨rfl, rfl⟩
  · rw [hcall]
    exact .refl s

theorem consumeCstr_post (h : Over buf s bytes) :
    (s.consumeCstr buf).Post (fun r => s.SameWindow r.2) s.SameWindow := by
  by_cases hoff : s.off ≤ bytes.length
  · rcases consumeCstr_cases h hoff with ⟨name, _, _, hcall⟩ | ⟨_, hcall⟩
    · rw [hcall]
      exact ⟨rfl, rfl⟩
    · rw [hcall]
      exact .refl s
  · rw [consumeCstr, cstrLoop, h.size, if_neg (by omega)]
    exact .refl s

theorem consumeBytes_post (s : Scanner) (size : Nat) :
    (s.consumeBytes size).Post (fun r => s.SameWindow r.2) s.SameWindow := by
  rcases consumeBytes_cases s size with ⟨_, hcall⟩ | ⟨_, hcall⟩
  · rw [hcall]
    exact ⟨rfl, rfl⟩
  · rw [hcall]
    exact .refl s

theorem consumeToken_post (h : Over buf s bytes) :
    (s.consumeToken buf).Post (fun r => s.SameWindow r.2) s.SameWindow := by
  have hbe := consumeBe_post h 4
  rw [consumeToken, consumeBe32]
  cases hcall : s.consumeBe buf 4 with
  | ok r =>
      rw [hcall] at hbe
      dsimp only
      split
      all_goals first | exact hbe | exact .refl s
  | err e => exact .refl s
  | fault =>
      rw [hcall] at hbe
      exact hbe

theorem alignForward_post (s : Scanner) (alignment : Nat) :
    (s.alignForward alignment).Post s.SameWindow s.SameWindow := by
  rw [alignForward]
  split
  next => exact .refl s
  next =>
    dsimp only
    split
    next => exact .refl s
    next => exact ⟨rfl, rfl⟩

theorem consumeRange_post (h : Over buf s bytes) (a n : Nat) :
    (s.consumeRange buf a n).Post (fun r => s.SameWindow r.2) s.SameWindow := by
  have hfirst := consumeBe_post h a
  rw [consumeRange]
  cases hcall : s.consumeBe buf a with
  | ok r =>
      rw [hcall] at hfirst
      have hsecond := consumeBe_post (h.of_sameWindow hfirst) n
      dsimp only
      cases hcall' : r.2.consumeBe buf n with
      | ok r' =>
          rw [hcall'] at hsecond
          exact hfirst.trans hsecond
      | err e => exact .refl s
      | fault =>
          rw [hcall'] at hsecond
          exact hsecond
  | err e => exact .refl s
  | fault =>
      rw [hcall] at hfirst
      exact hfirst

end Scanner

open Scanner (Over SameWindow)

/-! ## The calls of a blob -/

theorem ensureToken_post (h : Over buf s bytes) (token : Token) :
    (ensureToken buf s token).Post s.SameWindow s.SameWindow := by
  have hpost := Scanner.consumeToken_post h
  rw [ensureToken]
  cases hcall : s.consumeToken buf with
  | ok r =>
      rw [hcall] at hpost
      dsimp only
      split
      next => exact hpost
      next => exact hpost
  | err e =>
      rw [hcall] at hpost
      exact hpost
  | fault =>
      rw [hcall] at hpost
      exact hpost

theorem parseStartNode_post (h : Over buf s bytes) :
    (parseStartNode buf s).Post (fun r => s.SameWindow r.2 ∧ r.1.offset = r.2)
      s.SameWindow := by
  refine (ensureToken_post h .beginNode).bind fun s₁ h₁ => ?_
  refine ((Scanner.consumeCstr_post (h.of_sameWindow h₁)).mono (fun r hr => hr)
    fun e he => h₁.trans he).bind fun r hr => ?_
  refine ((Scanner.alignForward_post r.2 kAlignment).mono (fun s' hs' => hs')
    fun e he => h₁.trans (hr.trans he)).bind fun s₃ h₃ => ?_
  exact ⟨h₁.trans (hr.trans h₃), rfl⟩

namespace Blob

variable {blob : Blob}

/-- The strings of the blob lie in the buffer. -/
def HasStrings (buf : List UInt8) (blob : Blob) : Prop := blob.str + blob.strsz ≤ buf.length

theorem consumeStartNode_post (h : Over buf s bytes) :
    (consumeStartNode buf s).Post (fun r => s.SameWindow r.2) s.SameWindow :=
  ((parseStartNode_post h).mono (fun _ hr => hr.1) fun _ he => he).replaceErr (.refl s)

theorem consumeProperty_post (h : Over buf s bytes) (hstr : HasStrings buf blob) :
    (consumeProperty buf blob s).Post (fun r => s.SameWindow r.2) s.SameWindow := by
  refine Outcome.Post.replaceErr (E := fun _ => True) ?_ (.refl s)
  refine ((ensureToken_post h .prop).mono (fun s' hs' => hs') fun _ _ => trivial).bind
    fun s₁ h₁ => ?_
  refine ((Scanner.consumeBe_post (h.of_sameWindow h₁) 4).mono (fun r hr => h₁.trans hr)
    fun _ _ => trivial).bind fun r₂ h₂ => ?_
  refine ((Scanner.consumeBe_post (h.of_sameWindow h₂) 4).mono (fun r hr => h₂.trans hr)
    fun _ _ => trivial).bind fun r₃ h₃ => ?_
  dsimp only
  split
  next => trivial
  next hoff =>
    refine ((Scanner.consumeBytes_post r₃.2 r₂.1).mono (fun r hr => h₃.trans hr)
      fun _ _ => trivial).bind fun r₄ h₄ => ?_
    refine ((Scanner.alignForward_post r₄.2 kAlignment).mono (fun s' hs' => h₄.trans hs')
      fun _ _ => trivial).bind fun s₅ h₅ => ?_
    have hover : Over buf (Scanner.new (blob.str + r₃.1) (blob.strsz - r₃.1)) _ :=
      Over.of_le (by
        change blob.str + r₃.1 + (blob.strsz - r₃.1) ≤ buf.length
        have : blob.str + blob.strsz ≤ buf.length := hstr
        omega)
    refine ((Scanner.consumeCstr_post hover).mono (fun r hr => hr) fun _ _ => trivial).bind
      fun r₆ h₆ => ?_
    exact h₅

theorem tokenAt_post (h : Over buf s bytes) :
    (tokenAt buf s).Post (fun _ => True) s.SameWindow :=
  (Scanner.consumeToken_post h).bind fun _ _ => trivial

theorem skipRound_post (h : Over buf s bytes) (hstr : HasStrings buf blob) (depth : Nat) :
    (blob.skipRound buf s depth).Post
      (fun r => match r with
        | .inl pos => s.SameWindow pos
        | .inr (copy, _) => s.SameWindow copy) s.SameWindow := by
  refine (tokenAt_post h).bind fun token _ => ?_
  cases token with
  | beginNode => exact (consumeStartNode_post h).bind fun r hr => hr
  | endNode =>
      refine (ensureToken_post h .endNode).bind fun s' hs' => ?_
      split
      next => exact hs'
      next => exact hs'
  | prop => exact (consumeProperty_post h hstr).bind fun r hr => hr
  | nop => exact (ensureToken_post h .nop).bind fun s' hs' => hs'
  | stop => exact .refl s

theorem skipLoop_post (hstr : HasStrings buf blob) (depth : Nat) (h : Over buf s bytes) :
    (blob.skipLoop buf s depth).Post s.SameWindow s.SameWindow := by
  induction s, depth using skipLoop.induct buf blob with
  | case1 s depth pos hround =>
      have hpost := skipRound_post h hstr depth
      rw [hround] at hpost
      rw [skipLoop_eq, hround]
      exact hpost
  | case2 s depth copy' depth' hround ih =>
      have hpost := skipRound_post h hstr depth
      rw [hround] at hpost
      rw [skipLoop_eq, hround]
      exact (ih (h.of_sameWindow hpost)).mono (fun _ hr => hpost.trans hr)
        fun _ he => hpost.trans he
  | case3 s depth e hround =>
      have hpost := skipRound_post h hstr depth
      rw [hround] at hpost
      rw [skipLoop_eq, hround]
      exact hpost
  | case4 s depth hround =>
      have hpost := skipRound_post h hstr depth
      rw [hround] at hpost
      exact hpost.elim

theorem skipNode_post (h : Over buf s bytes) (hstr : HasStrings buf blob) :
    (skipNode buf blob s).Post s.SameWindow s.SameWindow :=
  (skipLoop_post hstr 1 h).replaceErr (.refl s)

/-! ## Walks over a blob -/

inductive Op
  | tokenAt
  | consumeStartNode
  | consumeProperty
  | consumeEndNode
  | consumeNop
  | skipNode

/-- The position after a call, whether it succeeds or not. -/
def Op.run (buf : List UInt8) (blob : Blob) : Op → Scanner → Outcome Scanner Scanner
  | .tokenAt, pos => do
      let _ ← Blob.tokenAt buf pos
      return pos
  | .consumeStartNode, pos => do
      let (_, pos) ← Blob.consumeStartNode buf pos
      return pos
  | .consumeProperty, pos => do
      let (_, pos) ← Blob.consumeProperty buf blob pos
      return pos
  | .consumeEndNode, pos => Blob.consumeEndNode buf pos
  | .consumeNop, pos => Blob.consumeNop buf pos
  | .skipNode, pos => Blob.skipNode buf blob pos

/-- The positions that some sequence of calls leads to from the root. -/
inductive Visits (buf : List UInt8) (blob : Blob) : Scanner → Prop
  | root : Visits buf blob blob.root.offset
  | ok {pos pos' : Scanner} (h : Visits buf blob pos) (op : Op)
      (hrun : op.run buf blob pos = .ok pos') : Visits buf blob pos'
  | err {pos pos' : Scanner} (h : Visits buf blob pos) (op : Op)
      (hrun : op.run buf blob pos = .err pos') : Visits buf blob pos'

theorem Op.run_post (op : Op) (h : Over buf s bytes) (hstr : HasStrings buf blob) :
    (op.run buf blob s).Post s.SameWindow s.SameWindow := by
  cases op with
  | tokenAt => exact (tokenAt_post h).bind fun _ _ => .refl s
  | consumeStartNode => exact (consumeStartNode_post h).bind fun r hr => hr
  | consumeProperty => exact (consumeProperty_post h hstr).bind fun r hr => hr
  | consumeEndNode => exact ensureToken_post h .endNode
  | consumeNop => exact ensureToken_post h .nop
  | skipNode => exact skipNode_post h hstr

/-- All positions cover the bytes that the root covers. -/
theorem Visits.over {pos : Scanner} (h : Visits buf blob pos)
    (hroot : Over buf blob.root.offset bytes) (hstr : HasStrings buf blob) :
    Over buf pos bytes := by
  induction h with
  | root => exact hroot
  | ok h op hrun ih =>
      have hpost := op.run_post ih hstr
      rw [hrun] at hpost
      exact ih.of_sameWindow hpost
  | err h op hrun ih =>
      have hpost := op.run_post ih hstr
      rw [hrun] at hpost
      exact ih.of_sameWindow hpost

end Blob

/-! ## The header -/

theorem consumeBe32_of_word (h : Over buf s bytes) {x : Nat} (hx : x < 2 ^ 32)
    (hword : word x <+: bytes.drop s.off) :
    s.consumeBe32 buf = .ok (x, { s with off := s.off + 4 }) := by
  rcases Scanner.consumeBe_cases h 4 with ⟨l, hlen, hprefix, hcall⟩ | ⟨hlt, _⟩
  · rw [Bytes.prefix_unique hprefix hword (hlen.trans (length_word x).symm),
      Aarch64.Fdt.toNat_word hx] at hcall
    exact hcall
  · have hle := Aarch64.Fdt.add_four_le_of_word hword
    omega

/-- The buffer as a whole, from any offset on. -/
theorem over_buffer (buf : List UInt8) (off : Nat) : Over buf ⟨0, buf.length, off⟩ buf :=
  ⟨rfl, List.prefix_refl buf⟩

theorem parseHeader_of_bytes {h : Header} (hwords : ∀ x ∈ h.words, x < 2 ^ 32)
    (hbytes : h.bytes <+: buf) : parseHeader buf (Scanner.new 0 buf.length) =
      if checkHeader buf.length h then .ok h else .err ⟨0, buf.length, 40⟩ := by
  have hprefix : h.words.flatMap word <+: buf.drop 0 := hbytes
  have read : ∀ i x, h.words[i]? = some x →
      (⟨0, buf.length, 0 + 4 * i⟩ : Scanner).consumeBe32 buf =
        .ok (x, ⟨0, buf.length, 0 + 4 * i + 4⟩) := fun i x hi =>
    consumeBe32_of_word (over_buffer buf _) (hwords x (List.mem_of_getElem? hi))
      (Aarch64.Fdt.word_of_words hprefix hi)
  have h0 := read 0 _ rfl
  have h1 := read 1 _ rfl
  have h2 := read 2 _ rfl
  have h3 := read 3 _ rfl
  have h4 := read 4 _ rfl
  have h5 := read 5 _ rfl
  have h6 := read 6 _ rfl
  have h7 := read 7 _ rfl
  have h8 := read 8 _ rfl
  have h9 := read 9 _ rfl
  simp only [Nat.zero_add, Nat.mul_zero, Nat.reduceMul, Nat.reduceAdd] at h0 h1 h2 h3 h4 h5 h6 h7 h8 h9
  simp only [parseHeader, Scanner.new, h0, h1, h2, h3, h4, h5, h6, h7, h8, h9, Outcome.ok_bind,
    Outcome.pure_def]

/-- The header is the first forty bytes if it passes the checks. -/
theorem parseHeader_post (buf : List UInt8) :
    (parseHeader buf (Scanner.new 0 buf.length)).Post
      (fun h => (∀ x ∈ h.words, x < 2 ^ 32) ∧ h.bytes <+: buf ∧ checkHeader buf.length h = true)
      fun _ => True := by
  rcases Nat.lt_or_ge buf.length 40 with hlt | hge
  · have step : ∀ off, ((⟨0, buf.length, off⟩ : Scanner).consumeBe32 buf).Post
        (fun r => r.2 = ⟨0, buf.length, off + 4⟩ ∧ off + 4 ≤ buf.length) fun _ => True := by
      intro off
      rcases Scanner.consumeBe_cases (over_buffer buf off) 4 with ⟨l, hlen, hl, hcall⟩ | ⟨_, hcall⟩
      · have hle := Bytes.add_length_le_of_prefix_drop hl (by omega)
        rw [Scanner.consumeBe32, hcall]
        exact ⟨rfl, by change off + l.length ≤ buf.length at hle; omega⟩
      · rw [Scanner.consumeBe32, hcall]
        trivial
    rw [parseHeader, Scanner.new]
    iterate 10
      refine (step _).bind ?_
      rintro ⟨_, _⟩ ⟨rfl, hle⟩
    omega
  · obtain ⟨h, hwords, hprefix⟩ := Aarch64.Fdt.exists_header hge
    rw [parseHeader_of_bytes hwords hprefix]
    split
    next hcheck => exact ⟨hwords, hprefix, hcheck⟩
    next => trivial

theorem checkHeader_iff {size : Nat} {h : Header} : checkHeader size h = true ↔
    h.magic = kMagic ∧ h.totalsize ≤ size ∧ h.lastCompVersion ≤ kVersion ∧
      h.offMemRsvmap + 16 ≤ h.totalsize ∧
      (h.offDtStrings + h.sizeDtStrings) % 2 ^ 32 ≤ h.totalsize ∧
      (h.offDtStruct + h.sizeDtStruct) % 2 ^ 32 ≤ h.totalsize := by
  simp [checkHeader]

/-! ## The reservations -/

theorem parseReservedLoop_eq (data : Nat) (s : Scanner) (count : Nat) :
    parseReservedLoop buf data s count = (s.consumeRange buf 8 8 >>= fun r =>
      if r.1.1 = 0 ∧ r.1.2 = 0 then .ok (Span.new data count 16)
      else parseReservedLoop buf data r.2 (count + 1)) := by
  rw [parseReservedLoop]
  split
  next h => rw [h, Outcome.ok_bind]
  next h => rw [h, Outcome.err_bind]
  next h => rw [h, Outcome.fault_bind]

/-- All ranges of the span were read. -/
theorem parseReservedLoop_post (data count : Nat) (h : Over buf s bytes)
    (hoff : s.off = 16 * count) :
    (parseReservedLoop buf data s count).Post
      (fun span => span.data = data ∧ span.bytes ≤ s.size) fun _ => True := by
  induction s, count using parseReservedLoop.induct buf with
  | case1 s count range s' hround hzero =>
      have hpost := Scanner.consumeRange_post h 8 8
      obtain ⟨hsize, hoff', hle⟩ := consumeRange_advances hround
      rw [parseReservedLoop_eq, hround, Outcome.ok_bind, if_pos hzero]
      refine ⟨rfl, ?_⟩
      change 16 * count ≤ s.size
      omega
  | case2 s count range s' hround hzero ih =>
      have hpost := Scanner.consumeRange_post h 8 8
      rw [hround] at hpost
      obtain ⟨hsize, hoff', hle⟩ := consumeRange_advances hround
      rw [parseReservedLoop_eq, hround, Outcome.ok_bind, if_neg hzero, ← hsize]
      exact ih (h.of_sameWindow hpost) (by omega)
  | case3 s count e hround =>
      rw [parseReservedLoop_eq, hround]
      trivial
  | case4 s count hround =>
      have hpost := Scanner.consumeRange_post h 8 8
      rw [hround] at hpost
      exact hpost.elim

theorem Span.at_ne_fault {span : Span} (hspan : span.data + span.bytes ≤ buf.length) {pos : Nat} (hpos : pos < span.size) (a n : Nat) :
    span.at buf a n pos ≠ .fault := by
  have hle : pos * span.wire ≤ span.bytes :=
    Nat.le_trans (Nat.mul_le_mul_right _ (Nat.le_of_lt hpos)) (Nat.div_mul_le_self _ _)
  have hover : Over buf (Scanner.new (span.data + pos * span.wire)
      (span.bytes - pos * span.wire)) _ := Over.of_le (by
    change span.data + pos * span.wire + (span.bytes - pos * span.wire) ≤ buf.length
    omega)
  have hpost : (span.at buf a n pos).Post (fun _ => True) fun _ => True :=
    ((Scanner.consumeRange_post hover a n).mono (fun _ h => h) fun _ _ => trivial).bind
      fun _ _ => trivial
  exact hpost.ne_fault

/-! ## The blob -/

/-- The blocks of a header that passes the checks lie in the buffer. -/
def BlocksFit (buf : List UInt8) : Prop :=
  ∀ h : Header, (∀ x ∈ h.words, x < 2 ^ 32) → h.bytes <+: buf → checkHeader buf.length h = true →
    h.offDtStruct + h.sizeDtStruct ≤ buf.length ∧ h.offDtStrings + h.sizeDtStrings ≤ buf.length

namespace Blob

theorem parse_post (hfits : BlocksFit buf) : (parse buf).Post
    (fun blob => (∃ bytes, Over buf blob.root.offset bytes) ∧ HasStrings buf blob ∧
      blob.reserved.data + blob.reserved.bytes ≤ buf.length)
    fun _ => True := by
  refine (parseHeader_post buf).bind fun h hheader => ?_
  obtain ⟨hwords, hbytes, hcheck⟩ := hheader
  obtain ⟨hstruct, hstrings⟩ := hfits h hwords hbytes hcheck
  obtain ⟨_, htotal, _, hrsv, _⟩ := checkHeader_iff.mp hcheck
  have hnodes : Over buf (Scanner.new h.offDtStruct h.sizeDtStruct) _ := Over.of_le hstruct
  refine ((parseStartNode_post hnodes).mono (fun r hr => hr) fun _ _ => trivial).bind
    fun r hr => ?_
  have hreserved : Over buf (Scanner.new h.offMemRsvmap (h.totalsize - h.offMemRsvmap)) _ :=
    Over.of_le (by
      change h.offMemRsvmap + (h.totalsize - h.offMemRsvmap) ≤ buf.length
      omega)
  refine (parseReservedLoop_post _ 0 hreserved rfl).bind fun span hspan => ?_
  obtain ⟨hdata, hsize⟩ := hspan
  refine ⟨⟨_, hnodes.of_sameWindow (hr.2 ▸ hr.1)⟩, hstrings, ?_⟩
  change span.bytes ≤ h.totalsize - h.offMemRsvmap at hsize
  change span.data = h.offMemRsvmap at hdata
  change span.data + span.bytes ≤ buf.length
  omega

/-- If no block wraps around, neither parsing nor any walk reads outside of the buffer. A walk is
any sequence of cursor calls from the root on, successful or not, and the reservations that the blob
counts can be read as well. -/
theorem walk_safe (hfits : BlocksFit buf) :
    parse buf ≠ .fault ∧ ∀ blob, parse buf = .ok blob →
      (∀ pos, Visits buf blob pos → ∀ op : Op, op.run buf blob pos ≠ .fault) ∧
        ∀ i < blob.reserved.size, blob.reserved.at buf 8 8 i ≠ .fault := by
  have hpost := parse_post hfits
  refine ⟨hpost.ne_fault, fun blob hparse => ?_⟩
  rw [hparse] at hpost
  obtain ⟨⟨bytes, hroot⟩, hstr, hspan⟩ := hpost
  refine ⟨fun pos hpos op => ?_, fun i hi => ?_⟩
  · exact (op.run_post (hpos.over hroot hstr) hstr).ne_fault
  · exact Span.at_ne_fault hspan hi 8 8

/-- A reservation, and a root with a property and a child. -/
private def smallBlob : List UInt8 :=
  Aarch64.Fdt.assemble [(0x1000, 0x100)] (Aarch64.Fdt.structBlock
    [(.beginNode [], 0), (.prop (Bytes.ofString "reg") [1, 2], 0),
      (.beginNode (Bytes.ofString "a"), 0), (.endNode, 0), (.endNode, 0)])
    (Bytes.ofString "reg" ++ [0])

/-- Every walk over a blob with all that a walk can meet is safe, and so is its reservation. -/
theorem walk_safe_small : parse smallBlob ≠ .fault ∧ ∀ blob, parse smallBlob = .ok blob →
    (∀ pos, Visits smallBlob blob pos → ∀ op : Op, op.run smallBlob blob pos ≠ .fault) ∧
      ∀ i < blob.reserved.size, blob.reserved.at smallBlob 8 8 i ≠ .fault := by
  refine walk_safe ?_
  intro h hwords hbytes hcheck
  have hparse := parseHeader_of_bytes hwords hbytes
  have hblob : Aarch64.Fdt.Blob smallBlob _ [(0x1000, 0x100)] _ (Bytes.ofString "reg" ++ [0]) :=
    Aarch64.Fdt.blob_assemble (by decide +kernel)
  have hparse' := parseHeader_of_bytes hblob.words hblob.header_at
  rw [if_pos hcheck, hparse', if_pos (by decide +kernel)] at hparse
  rw [← Outcome.ok.inj hparse]
  decide +kernel

/-- A structure block that wraps around: the first token is read far behind the buffer. -/
theorem parse_wrapping :
    parse (Header.bytes ⟨0xd00dfeed, 56, 2 ^ 31, 40, 40, 17, 16, 0, 0, 2 ^ 31⟩ ++
      List.replicate 16 0) = .fault := by
  decide +kernel

end Blob

end Aarch64.Cxx.Fdt
