import Aarch64.Cxx.Fdt.Tokens
import Aarch64.Fdt.Encode
import Aarch64.Fdt.Grammar

/-!
# Cursors over a blob

`SkipNode` moves behind the body of a node, whatever it contains. A cursor that returns
`false` stays where it was, with one exception: `EnsureToken` advances over any token, so
`ConsumeEndNode` and `ConsumeNop`, which call it on the scanner of their caller, lose a
token that they do not expect.
-/

namespace Aarch64.Cxx.Fdt

open Aarch64.Fdt (Tok Lex Items lex_bytes word length_word)
open Scanner (Over)

variable {buf structs strings : List UInt8} {blob : Blob}

/-! ## Skipping a node -/

namespace Blob

/-- The body of a node leaves the depth as it was. The induction is on its reading. -/
theorem skipLoop_of_reads {body : Items} {off stop : Nat}
    (h : body.Reads structs strings off stop) (hstr : StringsAt buf blob strings) :
    ∀ (s : Scanner) (depth : Nat), s.off = off → Over buf s structs →
      blob.skipLoop buf s (depth + 1) = blob.skipLoop buf { s with off := stop } (depth + 1) := by
  induction h with
  | done off =>
      rintro s depth rfl _
      rfl
  | nop hlex hrest ih =>
      rintro s depth rfl hover
      rw [skipLoop_eq, skipRound_of_lex hover hstr hlex]
      exact ih { s with off := _ } depth rfl (hover.of_sameWindow ⟨rfl, rfl⟩)
  | prop hlex hrest ih =>
      rintro s depth rfl hover
      rw [skipLoop_eq, skipRound_of_lex hover hstr hlex]
      exact ih { s with off := _ } depth rfl (hover.of_sameWindow ⟨rfl, rfl⟩)
  | @node off inner close next stop name body rest hopen hbody hclose hrest ihbody ih =>
      rintro s depth rfl hover
      rw [skipLoop_eq, skipRound_of_lex hover hstr hopen]
      have hinner := ihbody { s with off := inner } (depth + 1) rfl (hover.of_sameWindow ⟨rfl, rfl⟩)
      refine hinner.trans ?_
      -- the end of the nested node does not bring the depth to zero
      rw [skipLoop_eq, skipRound_of_lex (s := { s with off := close })
        (hover.of_sameWindow ⟨rfl, rfl⟩) hstr hclose]
      exact ih { s with off := next } depth rfl (hover.of_sameWindow ⟨rfl, rfl⟩)

theorem skipNode_of_reads {s : Scanner} {body : Items} {close stop : Nat} (hover : Over buf s structs)
    (hstr : StringsAt buf blob strings) (h : body.Reads structs strings s.off close)
    (hclose : Lex structs strings close .endNode stop) :
    skipNode buf blob s = .ok { s with off := stop } := by
  rw [skipNode, skipLoop_of_reads h hstr s 0 rfl hover, skipLoop_eq,
    skipRound_of_lex (s := { s with off := close }) (hover.of_sameWindow ⟨rfl, rfl⟩) hstr hclose]
  rfl

theorem eq_of_skipNode_err {s s' : Scanner} (h : skipNode buf blob s = .err s') : s' = s :=
  Outcome.eq_of_replaceErr_eq_err h

theorem hasStrings_of_stringsAt (h : StringsAt buf blob strings) (hle : blob.str ≤ buf.length) :
    HasStrings buf blob := by
  have hlen := h.at_.length_le
  have hsize : blob.strsz = strings.length := h.size
  rw [List.length_drop] at hlen
  change blob.str + blob.strsz ≤ buf.length
  change strings.length ≤ buf.length - blob.str at hlen
  omega

/-- From behind the name of a node, `SkipNode` leads behind the end of that node, whatever
properties, NOPs and nodes are in it and whatever stands behind it. On any other input it returns
too, and it leaves the scanner alone when it returns `false`. -/
theorem skipNode_matches {s : Scanner} (hover : Over buf s structs)
    (hstr : StringsAt buf blob strings) (hle : blob.str ≤ buf.length) :
    (∀ (body : Items) (close stop : Nat), body.Reads structs strings s.off close →
        Lex structs strings close .endNode stop →
        skipNode buf blob s = .ok { s with off := stop }) ∧
      ((∃ s', skipNode buf blob s = .ok s') ∨ skipNode buf blob s = .err s) := by
  refine ⟨fun body close stop h hclose => skipNode_of_reads hover hstr h hclose, ?_⟩
  have hpost := skipNode_post hover (hasStrings_of_stringsAt hstr hle)
  cases hcall : skipNode buf blob s with
  | ok s' => exact .inl ⟨s', rfl⟩
  | err s' =>
      rw [eq_of_skipNode_err hcall]
      exact .inr rfl
  | fault =>
      rw [hcall] at hpost
      exact hpost.elim

/-- A property with two bytes of padding, a NOP, a node "a" with a property of its own, the end
of the node that is skipped, and bytes that are no tokens. -/
private def innards : List UInt8 :=
  (Tok.prop (Bytes.ofString "reg") [1, 2]).bytes 0 ++ (Tok.nop.bytes 0 ++
    ((Tok.beginNode (Bytes.ofString "a")).bytes 0 ++
      ((Tok.prop (Bytes.ofString "eg") [3, 4, 5, 6]).bytes 1 ++
        (Tok.endNode.bytes 0 ++ (Tok.endNode.bytes 0 ++ [7, 7, 7])))))

private def names : List UInt8 := Bytes.ofString "reg" ++ [0]

/-- The node is skipped to its own end, which is not the first one. -/
theorem skipNode_matches_nested :
    skipNode (innards ++ names) ⟨⟨0, 0, 0, 0, 0, 0, 0, 0, names.length, 0⟩,
      ⟨[], Scanner.new 0 0⟩, Span.new 0 0 0, innards.length, names.length⟩
      (Scanner.new 0 innards.length) = .ok ⟨0, innards.length, 52⟩ := by
  have hover : Over (innards ++ names) (Scanner.new 0 innards.length) innards :=
    ⟨rfl, List.prefix_append _ _⟩
  have hstr : StringsAt (innards ++ names) ⟨⟨0, 0, 0, 0, 0, 0, 0, 0, names.length, 0⟩,
      ⟨[], Scanner.new 0 0⟩, Span.new 0 0 0, innards.length, names.length⟩ names :=
    ⟨by decide, by decide +kernel⟩
  have hprop : Lex innards names 0 (.prop (Bytes.ofString "reg") [1, 2]) 16 :=
    lex_bytes (by decide : Tok.Fits names 0 _) rfl (by decide)
  have hnop : Lex innards names 16 .nop 20 := .nop (by decide)
  have hopen : Lex innards names 20 (.beginNode (Bytes.ofString "a")) 28 :=
    lex_bytes (by decide : Tok.Fits names 0 _) rfl (by decide)
  have hinner : Lex innards names 28 (.prop (Bytes.ofString "eg") [3, 4, 5, 6]) 44 :=
    lex_bytes (by decide : Tok.Fits names 1 _) rfl (by decide)
  have hend : Lex innards names 44 .endNode 48 := .endNode (by decide)
  have hclose : Lex innards names 48 .endNode 52 := .endNode (by decide)
  have hbody : Items.Reads innards names 0 _ 48 :=
    .prop hprop (.nop hnop (.node hopen (.prop hinner (.done 44)) hend (.done 48)))
  exact (skipNode_matches hover hstr (by decide)).1 _ 48 52 hbody hclose

end Blob

/-! ## Tokens without a window -/

section Tokens

variable {s s' : Scanner}

theorem length_le_of_loadBe {n p x y : Nat} (h : Scanner.loadBe buf n p x = some y) :
    n = 0 ∨ p + n ≤ buf.length := by
  induction n generalizing p x with
  | zero => exact .inl rfl
  | succ n ih =>
      rw [Scanner.loadBe] at h
      split at h
      next b hb =>
        have hlt := (List.getElem?_eq_some_iff.mp hb).1
        rcases ih h with rfl | hle
        · exact .inr hlt
        · exact .inr (by omega)
      next => cases h

theorem consumeBe_eq_ok_iff {n x : Nat} (hn : 0 < n) :
    s.consumeBe buf n = .ok (x, s') ↔ s.off + n ≤ s.size ∧
      (∃ l, l.length = n ∧ l <+: buf.drop (s.data + s.off) ∧ x = Bytes.toNat l) ∧
      s' = { s with off := s.off + n } := by
  have hload : ∀ l, l.length = n → l <+: buf.drop (s.data + s.off) →
      Scanner.loadBe buf n (s.data + s.off) 0 = some (Bytes.toNat l) := by
    rintro l rfl hl
    rw [Scanner.loadBe_of_prefix hl 0, Nat.zero_mul, Nat.zero_add]
  rw [Scanner.consumeBe]
  constructor
  · intro h
    split at h
    next => cases h
    next hle =>
      split at h
      next y hy =>
        cases h
        have hin := (length_le_of_loadBe hy).resolve_left (by omega)
        have hlen : ((buf.drop (s.data + s.off)).take n).length = n := by
          rw [List.length_take, List.length_drop]
          omega
        have hvalue := hload _ hlen (List.take_prefix _ _)
        exact ⟨Nat.le_of_not_lt hle, ⟨_, hlen, List.take_prefix _ _,
          Option.some.inj (hy.symm.trans hvalue)⟩, rfl⟩
      next => cases h
  · rintro ⟨hle, ⟨l, hlen, hl, rfl⟩, rfl⟩
    rw [if_neg (Nat.not_lt.mpr hle), hload l hlen hl]

/-- The token is the one whose word stands at the offset. -/
theorem consumeToken_eq_ok_iff {token : Token} :
    s.consumeToken buf = .ok (token, s') ↔ s.off + 4 ≤ s.size ∧
      word token.value <+: buf.drop (s.data + s.off) ∧ s' = { s with off := s.off + 4 } := by
  rw [Scanner.consumeToken, Scanner.consumeBe32]
  constructor
  · intro h
    split at h
    next val copy hval =>
      obtain ⟨hle, ⟨l, hlen, hl, rfl⟩, rfl⟩ := (consumeBe_eq_ok_iff (by decide)).mp hval
      have hword : ∀ v, Bytes.toNat l = v → word v <+: buf.drop (s.data + s.off) := by
        rintro _ rfl
        rwa [Aarch64.Fdt.word_toNat hlen]
      split at h
      next hv =>
        cases h
        exact ⟨hle, hword _ hv, rfl⟩
      next hv =>
        cases h
        exact ⟨hle, hword _ hv, rfl⟩
      next hv =>
        cases h
        exact ⟨hle, hword _ hv, rfl⟩
      next hv =>
        cases h
        exact ⟨hle, hword _ hv, rfl⟩
      next hv =>
        cases h
        exact ⟨hle, hword _ hv, rfl⟩
      next => cases h
    next => cases h
    next => cases h
  · rintro ⟨hle, hword, rfl⟩
    have hvalue : token.value < 2 ^ 32 := by
      cases token
      all_goals decide
    have hbe : s.consumeBe buf 4 = .ok (token.value, { s with off := s.off + 4 }) :=
      (consumeBe_eq_ok_iff (by decide)).mpr ⟨hle, ⟨_, length_word _, hword,
        (Aarch64.Fdt.toNat_word hvalue).symm⟩, rfl⟩
    rw [hbe]
    cases token
    all_goals rfl

theorem eq_of_consumeToken_err (h : s.consumeToken buf = .err s') : s' = s := by
  rw [Scanner.consumeToken] at h
  split at h
  next =>
    split at h
    all_goals cases h
    rfl
  next =>
    cases h
    rfl
  next => cases h

/-- `EnsureToken` loses exactly a token other than the expected one. -/
theorem ensureToken_eq_err_iff {token : Token} :
    ensureToken buf s token = .err s' ↔ s.consumeToken buf = .err s' ∨
      ∃ actual, actual ≠ token ∧ s.consumeToken buf = .ok (actual, s') := by
  rw [ensureToken]
  cases hcall : s.consumeToken buf with
  | ok r =>
      dsimp only
      split
      next heq =>
        simp only [reduceCtorEq, false_or, false_iff]
        rintro ⟨actual, hne, h⟩
        cases h
        exact hne heq
      next hne =>
        simp only [reduceCtorEq, false_or]
        constructor
        · intro h
          cases h
          exact ⟨r.1, hne, rfl⟩
        · rintro ⟨actual, _, h⟩
          cases h
          rfl
  | err e => simp
  | fault => simp

end Tokens

/-! ## What a failing cursor leaves behind -/

/-- The operations that move a scanner; the arguments are sizes in bytes. `ConsumeBytes` takes
those with which its sum does not wrap; with another it fails before it stores anything, or it
succeeds. -/
inductive Cursor
  | skipNode
  | consumeStartNode
  | consumeEndNode
  | consumeProperty
  | consumeNop
  | consumeBe32
  | consumeBe64
  | consumeCstr
  | consumeCstrData
  | consumeBytes (size : Nat)
  | consumeToken
  | consumeRange (begin size : Nat)
  | alignForward (alignment : Nat)

namespace Cursor

/-- The scanner after a call, whether it succeeds or not. -/
def run (buf : List UInt8) (blob : Blob) (pos : Scanner) : Cursor → Outcome Scanner Scanner
  | skipNode => Blob.skipNode buf blob pos
  | consumeStartNode => do
      let (_, pos) ← Blob.consumeStartNode buf pos
      return pos
  | consumeEndNode => Blob.consumeEndNode buf pos
  | consumeProperty => do
      let (_, pos) ← Blob.consumeProperty buf blob pos
      return pos
  | consumeNop => Blob.consumeNop buf pos
  | consumeBe32 => do
      let (_, pos) ← pos.consumeBe32 buf
      return pos
  | consumeBe64 => do
      let (_, pos) ← pos.consumeBe64 buf
      return pos
  | consumeCstr => do
      let (_, pos) ← pos.consumeCstr buf
      return pos
  | consumeCstrData => do
      let (_, pos) ← pos.consumeCstrData buf
      return pos
  | consumeBytes size => do
      let (_, pos) ← pos.consumeBytes size
      return pos
  | consumeToken => do
      let (_, pos) ← pos.consumeToken buf
      return pos
  | consumeRange begin size => do
      let (_, pos) ← pos.consumeRange buf begin size
      return pos
  | alignForward alignment => pos.alignForward alignment

/-- The token that the operation expects and looks for on the scanner of its caller. -/
def expected : Cursor → Option Token
  | consumeEndNode => some .endNode
  | consumeNop => some .nop
  | _ => none

/-- Another token stands at the offset than the operation looks for in place. -/
def Misses (buf : List UInt8) (pos : Scanner) (c : Cursor) : Prop :=
  ∃ token ∈ c.expected, pos.off + 4 ≤ pos.size ∧
    ∃ actual, actual ≠ token ∧ word actual.value <+: buf.drop (pos.data + pos.off)

variable {pos pos' : Scanner}

/-- A token that is lost is one that is not expected. -/
theorem ensureToken_atomic_iff {token : Token} :
    (∀ pos', ensureToken buf pos token = .err pos' → pos'.off = pos.off) ↔
      ¬ (pos.off + 4 ≤ pos.size ∧
        ∃ actual, actual ≠ token ∧ word actual.value <+: buf.drop (pos.data + pos.off)) := by
  constructor
  · rintro h ⟨hle, actual, hne, hword⟩
    have hcall := consumeToken_eq_ok_iff.mpr ⟨hle, hword, rfl⟩
    have hoff := h _ (ensureToken_eq_err_iff.mpr (.inr ⟨actual, hne, hcall⟩))
    exact absurd hoff (by simp)
  · intro h pos' hcall
    rcases ensureToken_eq_err_iff.mp hcall with herr | ⟨actual, hne, hok⟩
    · rw [eq_of_consumeToken_err herr]
    · obtain ⟨hle, hword, _⟩ := consumeToken_eq_ok_iff.mp hok
      exact absurd ⟨hle, actual, hne, hword⟩ h

theorem eq_of_consumeBe_err {n : Nat} (h : pos.consumeBe buf n = .err pos') : pos' = pos := by
  rw [Scanner.consumeBe] at h
  split at h
  next =>
    cases h
    rfl
  next =>
    split at h
    next => cases h
    next => cases h

theorem eq_of_cstrLoop_err (size : Nat) (h : pos.cstrLoop buf size = .err pos') : pos' = pos := by
  rcases @cstrLoop_ends buf pos size with ⟨_, _, _, hok⟩ | herr | hfault
  · cases hok.symm.trans h
  · cases herr.symm.trans h
    rfl
  · cases hfault.symm.trans h

theorem eq_of_consumeRange_err {a n : Nat} (h : pos.consumeRange buf a n = .err pos') :
    pos' = pos := by
  rw [Scanner.consumeRange] at h
  split at h
  next =>
    split at h
    next => cases h
    next =>
      cases h
      rfl
    next => cases h
  next =>
    cases h
    rfl
  next => cases h

theorem eq_of_alignForward_err {alignment : Nat} (h : pos.alignForward alignment = .err pos') :
    pos' = pos := by
  rw [Scanner.alignForward] at h
  split at h
  next => cases h
  next =>
    dsimp only at h
    split at h
    next =>
      cases h
      rfl
    next => cases h

/-- The operations that work on a copy, or check before they move. -/
theorem eq_of_run_err {c : Cursor} (hc : c.expected = none) (h : c.run buf blob pos = .err pos') :
    pos' = pos := by
  cases c with
  | skipNode => exact Blob.eq_of_skipNode_err h
  | consumeStartNode =>
      exact Outcome.eq_of_replaceErr_eq_err (Outcome.eq_err_of_bind h fun _ h => by cases h)
  | consumeEndNode => cases hc
  | consumeProperty =>
      exact Outcome.eq_of_replaceErr_eq_err (Outcome.eq_err_of_bind h fun _ h => by cases h)
  | consumeNop => cases hc
  | consumeBe32 => exact eq_of_consumeBe_err (Outcome.eq_err_of_bind h fun _ h => by cases h)
  | consumeBe64 => exact eq_of_consumeBe_err (Outcome.eq_err_of_bind h fun _ h => by cases h)
  | consumeCstr => exact eq_of_cstrLoop_err 0 (Outcome.eq_err_of_bind h fun _ h => by cases h)
  | consumeCstrData =>
      have hcall := Outcome.eq_err_of_bind h fun _ h => by cases h
      exact eq_of_cstrLoop_err 0 (Outcome.eq_err_of_bind hcall fun _ h => by cases h)
  | consumeBytes size =>
      have hcall := Outcome.eq_err_of_bind h fun _ h => by cases h
      rcases Scanner.consumeBytes_cases pos size with ⟨_, hok⟩ | ⟨_, herr⟩
      · cases hok.symm.trans hcall
      · exact (Outcome.err.inj (herr.symm.trans hcall)).symm
  | consumeToken => exact eq_of_consumeToken_err (Outcome.eq_err_of_bind h fun _ h => by cases h)
  | consumeRange begin size =>
      exact eq_of_consumeRange_err (Outcome.eq_err_of_bind h fun _ h => by cases h)
  | alignForward alignment => exact eq_of_alignForward_err h

/-- A cursor that returns `false` keeps its offset, unless it looks in place for another
token than the one that stands there. -/
theorem run_atomic_iff (buf : List UInt8) (blob : Blob) (pos : Scanner) (c : Cursor) :
    (∀ pos', c.run buf blob pos = .err pos' → pos'.off = pos.off) ↔ ¬ c.Misses buf pos := by
  have hmisses : ∀ {token}, c.expected = some token → (c.Misses buf pos ↔ pos.off + 4 ≤ pos.size ∧
      ∃ actual, actual ≠ token ∧ word actual.value <+: buf.drop (pos.data + pos.off)) := by
    intro token hc
    rw [Misses, hc]
    simp only [Option.mem_some_iff, exists_eq_left']
  cases hc : c.expected with
  | none =>
      refine iff_of_true (fun pos' h => congrArg Scanner.off (eq_of_run_err hc h)) ?_
      rintro ⟨token, htoken, _⟩
      rw [hc] at htoken
      cases htoken
  | some token =>
      rw [hmisses hc, ← ensureToken_atomic_iff]
      cases c with
      | consumeEndNode =>
          cases hc
          rfl
      | consumeNop =>
          cases hc
          rfl
      | _ => cases hc

/-- `ConsumeEndNode` advances over a NOP and returns `false`. -/
theorem run_atomic_fails : ¬ ∀ (buf : List UInt8) (blob : Blob) (pos : Scanner) (c : Cursor),
    ∀ pos', c.run buf blob pos = .err pos' → pos'.off = pos.off := by
  intro h
  have hcall : consumeEndNode.run [0, 0, 0, 4] ⟨⟨0, 0, 0, 0, 0, 0, 0, 0, 0, 0⟩,
      ⟨[], Scanner.new 0 0⟩, Span.new 0 0 0, 0, 0⟩ (Scanner.new 0 4) = .err ⟨0, 4, 4⟩ := by decide
  exact absurd (h _ _ _ _ _ hcall) (by decide)

end Cursor

end Aarch64.Cxx.Fdt
