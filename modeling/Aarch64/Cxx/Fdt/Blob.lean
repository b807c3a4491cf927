import Aarch64.Cxx.Fdt.Scanner
import Aarch64.Cxx.StringView
import Aarch64.Fdt.Format

/-!
# Device trees of the bootstrap

`fdt/blob.cc` and `fdt/span.h`. The tree is not built: a blob keeps where the blocks are
and the calls walk over the tokens in place. The header is a record of words, and the
sums of `ParseHeader` whose two terms are 32-bit words are 32-bit words too.
-/

namespace Aarch64.Cxx.Fdt

open Aarch64.Fdt (Header)

structure Node where
  name : List UInt8
  offset : Scanner
  deriving DecidableEq, Repr

/-- `data` points to the value. -/
structure Property where
  name : List UInt8
  data : Nat
  size : Nat
  deriving DecidableEq, Repr

/-! ## Spans -/

/-- A span of elements that take `wire` bytes each; `bytes` is `size_` of the source. -/
structure Span where
  data : Nat
  bytes : Nat
  wire : Nat
  deriving DecidableEq, Repr

namespace Span

def new (data count wire : Nat) : Span := ⟨data, wire * count, wire⟩

def size (span : Span) : Nat := span.bytes / span.wire

/-- `At` of a span of ranges whose addresses take `a` bytes and whose sizes take `n`. -/
def «at» (buf : List UInt8) (a n : Nat) (span : Span) (pos : Nat) :
    Outcome Scanner (Nat × Nat) := do
  let offset := pos * span.wire
  let (item, _) ← (Scanner.new (span.data + offset) (span.bytes - offset)).consumeRange buf a n
  return item

end Span

/-! ## Parsing -/

variable (buf : List UInt8)

theorem consumeBe_advances {buf : List UInt8} {s s' : Scanner} {n x : Nat}
    (h : s.consumeBe buf n = .ok (x, s')) :
    s'.size = s.size ∧ s'.off = s.off + n ∧ s'.off ≤ s'.size := by
  rw [Scanner.consumeBe] at h
  split at h
  next => cases h
  next hle =>
    split at h
    next =>
      cases h
      exact ⟨rfl, rfl, Nat.le_of_not_lt hle⟩
    next => cases h

theorem consumeRange_advances {buf : List UInt8} {s s' : Scanner} {a n : Nat} {r : Nat × Nat}
    (h : s.consumeRange buf a n = .ok (r, s')) :
    s'.size = s.size ∧ s'.off = s.off + a + n ∧ s'.off ≤ s'.size := by
  rw [Scanner.consumeRange] at h
  split at h
  next begin copy hfirst =>
    obtain ⟨hsize, hoff, _⟩ := consumeBe_advances hfirst
    split at h
    next size copy' hsecond =>
      obtain ⟨hsize', hoff', hle⟩ := consumeBe_advances hsecond
      cases h
      exact ⟨hsize'.trans hsize, by rw [hoff', hoff], hle⟩
    next => cases h
    next => cases h
  next => cases h
  next => cases h

/-- The loop of `ParseReserved`, which has counted `count` ranges from `data` on. -/
def parseReservedLoop (data : Nat) (scanner : Scanner) (count : Nat) : Outcome Scanner Span :=
  match _h : scanner.consumeRange buf 8 8 with
  | .ok (range, scanner') =>
      if range.1 = 0 ∧ range.2 = 0 then .ok (Span.new data count 16)
      else parseReservedLoop data scanner' (count + 1)
  | .err s => .err s
  | .fault => .fault
termination_by scanner.size - scanner.off
decreasing_by
  have := consumeRange_advances ‹_›
  omega

def parseReserved (scanner : Scanner) : Outcome Scanner Span :=
  parseReservedLoop buf scanner.data scanner 0

def kAlignment : Nat := 4
def kVersion : Nat := 17
def kMagic : Nat := 0xd00dfeed

/-- The checks of `ParseHeader`, for a scanner of `size` bytes. -/
def checkHeader (size : Nat) (header : Header) : Bool :=
  if header.magic ≠ kMagic then false
  else if header.totalsize > size then false
  else if header.lastCompVersion > kVersion then false
  else if header.offMemRsvmap + 2 * 8 > header.totalsize then false
  else if (header.offDtStrings + header.sizeDtStrings) % 2 ^ 32 > header.totalsize then false
  else if (header.offDtStruct + header.sizeDtStruct) % 2 ^ 32 > header.totalsize then false
  else true

def parseHeader (scanner : Scanner) : Outcome Scanner Header := do
  let (magic, scanner) ← scanner.consumeBe32 buf
  let (totalsize, scanner) ← scanner.consumeBe32 buf
  let (offDtStruct, scanner) ← scanner.consumeBe32 buf
  let (offDtStrings, scanner) ← scanner.consumeBe32 buf
  let (offMemRsvmap, scanner) ← scanner.consumeBe32 buf
  let (version, scanner) ← scanner.consumeBe32 buf
  let (lastCompVersion, scanner) ← scanner.consumeBe32 buf
  let (bootCpuidPhys, scanner) ← scanner.consumeBe32 buf
  let (sizeDtStrings, scanner) ← scanner.consumeBe32 buf
  let (sizeDtStruct, scanner) ← scanner.consumeBe32 buf
  let header : Header := ⟨magic, totalsize, offDtStruct, offDtStrings, offMemRsvmap, version,
    lastCompVersion, bootCpuidPhys, sizeDtStrings, sizeDtStruct⟩
  if checkHeader scanner.size header then return header else .err scanner

/-- The scanner advances over a token even if it is not the one that is expected. -/
def ensureToken (pos : Scanner) (token : Token) : Outcome Scanner Scanner :=
  match pos.consumeToken buf with
  | .ok (actual, pos) => if actual = token then .ok pos else .err pos
  | .err pos => .err pos
  | .fault => .fault

def parseStartNode (pos : Scanner) : Outcome Scanner (Node × Scanner) := do
  let pos ← ensureToken buf pos .beginNode
  let (name, pos) ← pos.consumeCstr buf
  let pos ← pos.alignForward kAlignment
  return (⟨name, pos⟩, pos)

namespace Property

def valueAsBe32 (property : Property) : Outcome Scanner Nat := do
  let (value, _) ← (Scanner.new property.data property.size).consumeBe32 buf
  return value

/-- `ValueAsSpan` for elements that take `wire` bytes each. -/
def valueAsSpan (property : Property) (wire : Nat) : Option Span :=
  if property.size % wire ≠ 0 then none
  else some (Span.new property.data (property.size / wire) wire)

end Property

structure Blob where
  header : Header
  root : Node
  reserved : Span
  str : Nat
  strsz : Nat
  deriving DecidableEq, Repr

namespace Blob

def parse : Outcome Scanner Blob := do
  let scanner := Scanner.new 0 buf.length
  let header ← parseHeader buf scanner
  let nodes := Scanner.new header.offDtStruct header.sizeDtStruct
  let (root, _) ← parseStartNode buf nodes
  let rsv := Scanner.new header.offMemRsvmap (header.totalsize - header.offMemRsvmap)
  let reserved ← parseReserved buf rsv
  let str := header.offDtStrings
  let strsz := header.sizeDtStrings
  return ⟨header, root, reserved, str, strsz⟩

variable (blob : Blob)

def tokenAt (pos : Scanner) : Outcome Scanner Token := do
  let (token, _) ← pos.consumeToken buf
  return token

def consumeStartNode (pos : Scanner) : Outcome Scanner (Node × Scanner) :=
  (parseStartNode buf pos).replaceErr pos

def consumeProperty (pos : Scanner) : Outcome Scanner (Property × Scanner) :=
  Outcome.replaceErr pos do
    let copy ← ensureToken buf pos .prop
    let (size, copy) ← copy.consumeBe32 buf
    let (off, copy) ← copy.consumeBe32 buf
    if off ≥ blob.strsz then .err copy
    else do
      let (data, copy) ← copy.consumeBytes size
      let copy ← copy.alignForward kAlignment
      let str := Scanner.new (blob.str + off) (blob.strsz - off)
      let (name, _) ← str.consumeCstr buf
      return (⟨name, data, size⟩, copy)

def consumeEndNode (pos : Scanner) : Outcome Scanner Scanner := ensureToken buf pos .endNode

def consumeNop (pos : Scanner) : Outcome Scanner Scanner := ensureToken buf pos .nop

/-- One round of the loop of `SkipNode`: the scanner behind the node, or the scanner and
the depth to go on with. -/
def skipRound (copy : Scanner) (depth : Nat) : Outcome Scanner (Scanner ⊕ Scanner × Nat) := do
  let token ← tokenAt buf copy
  match token with
  | .beginNode => do
      let (_, copy) ← consumeStartNode buf copy
      return .inr (copy, depth + 1)
  | .endNode => do
      let copy ← consumeEndNode buf copy
      if depth - 1 = 0 then return .inl copy
      return .inr (copy, depth - 1)
  | .prop => do
      let (_, copy) ← consumeProperty buf blob copy
      return .inr (copy, depth)
  | .nop => do
      let copy ← consumeNop buf copy
      return .inr (copy, depth)
  | .stop => .err copy

end Blob

/-! ## The walks end -/

section Advances

variable {buf} {s s' : Scanner}

theorem consumeToken_advances {token : Token} (h : s.consumeToken buf = .ok (token, s')) :
    s'.size = s.size ∧ s'.off = s.off + 4 ∧ s'.off ≤ s'.size := by
  rw [Scanner.consumeToken] at h
  split at h
  next val copy hval =>
    have hcopy : s' = copy := by
      split at h
      all_goals cases h
      all_goals rfl
    exact hcopy ▸ consumeBe_advances hval
  next => cases h
  next => cases h

theorem ensureToken_advances {token : Token} (h : ensureToken buf s token = .ok s') :
    s'.size = s.size ∧ s'.off = s.off + 4 ∧ s'.off ≤ s'.size := by
  rw [ensureToken] at h
  split at h
  next actual pos hpos =>
    split at h
    next =>
      cases h
      exact consumeToken_advances hpos
    next => cases h
  next => cases h
  next => cases h

/-- What the loop of `ConsumeCstr` does: it stops past a zero below the end, or leaves the
scanner where it was. -/
theorem cstrLoop_ends (size : Nat) :
    (∃ name n, s.off + n < s.size ∧
      s.cstrLoop buf size = .ok (name, { s with off := s.off + (n + 1) })) ∨
    s.cstrLoop buf size = .err s ∨ s.cstrLoop buf size = .fault := by
  induction size using Scanner.cstrLoop.induct buf s with
  | case1 size hlt hsome =>
      refine Or.inl ⟨(buf.drop (s.data + s.off)).take size, size, hlt, ?_⟩
      rw [Scanner.cstrLoop, if_pos hlt, hsome]
      rfl
  | case2 size hlt b hsome hne ih =>
      have hnext : s.cstrLoop buf size = s.cstrLoop buf (size + 1) := by
        rw [Scanner.cstrLoop, if_pos hlt, hsome]
        exact if_neg hne
      rwa [hnext]
  | case3 size hlt hnone => exact Or.inr (Or.inr (by rw [Scanner.cstrLoop, if_pos hlt, hnone]))
  | case4 size hge => exact Or.inr (Or.inl (by rw [Scanner.cstrLoop, if_neg hge]))

theorem cstrLoop_advances {name : List UInt8} (size : Nat)
    (h : s.cstrLoop buf size = .ok (name, s')) :
    s'.size = s.size ∧ s.off ≤ s'.off ∧ s'.off ≤ s'.size := by
  rcases @cstrLoop_ends buf s size with ⟨_, n, hlt, hok⟩ | herr | hfault
  · cases hok.symm.trans h
    exact ⟨rfl, Nat.le_add_right _ _, by change s.off + (n + 1) ≤ s.size; omega⟩
  · cases herr.symm.trans h
  · cases hfault.symm.trans h

theorem alignForward_advances {alignment : Nat} (h : s.alignForward alignment = .ok s')
    (hoff : s.off ≤ s.size) : s'.size = s.size ∧ s.off ≤ s'.off ∧ s'.off ≤ s'.size := by
  rw [Scanner.alignForward] at h
  split at h
  next =>
    cases h
    exact ⟨rfl, Nat.le_refl _, hoff⟩
  next =>
    dsimp only at h
    split at h
    next => cases h
    next hle =>
      cases h
      exact ⟨rfl, Nat.le_add_right _ _, Nat.le_of_not_lt hle⟩

theorem consumeBytes_advances {size data : Nat} (h : s.consumeBytes size = .ok (data, s')) :
    s'.size = s.size ∧ s.off ≤ s'.off ∧ s'.off ≤ s'.size := by
  rw [Scanner.consumeBytes] at h
  split at h
  next => cases h
  next hle =>
    cases h
    exact ⟨rfl, Nat.le_add_right _ _, Nat.le_of_not_lt hle⟩

theorem parseStartNode_advances {node : Node} (h : parseStartNode buf s = .ok (node, s')) :
    s'.size = s.size ∧ s.off + 4 ≤ s'.off ∧ s'.off ≤ s'.size := by
  obtain ⟨s₁, h₁, h⟩ := Outcome.bind_eq_ok_iff.mp h
  obtain ⟨⟨name, s₂⟩, h₂, h⟩ := Outcome.bind_eq_ok_iff.mp h
  obtain ⟨s₃, h₃, h⟩ := Outcome.bind_eq_ok_iff.mp h
  cases h
  obtain ⟨hsize₁, hoff₁, _⟩ := ensureToken_advances h₁
  obtain ⟨hsize₂, hoff₂, hle₂⟩ := cstrLoop_advances 0 h₂
  obtain ⟨hsize₃, hoff₃, hle₃⟩ := alignForward_advances h₃ hle₂
  exact ⟨by omega, by omega, hle₃⟩

theorem consumeProperty_advances {blob : Blob} {property : Property}
    (h : Blob.consumeProperty buf blob s = .ok (property, s')) :
    s'.size = s.size ∧ s.off + 4 ≤ s'.off ∧ s'.off ≤ s'.size := by
  obtain ⟨s₁, h₁, h⟩ := Outcome.bind_eq_ok_iff.mp (Outcome.replaceErr_eq_ok_iff.mp h)
  obtain ⟨⟨size, s₂⟩, h₂, h⟩ := Outcome.bind_eq_ok_iff.mp h
  obtain ⟨⟨off, s₃⟩, h₃, h⟩ := Outcome.bind_eq_ok_iff.mp h
  dsimp only at h
  split at h
  next => cases h
  next =>
    obtain ⟨⟨data, s₄⟩, h₄, h⟩ := Outcome.bind_eq_ok_iff.mp h
    dsimp only at h
    obtain ⟨s₅, h₅, h⟩ := Outcome.bind_eq_ok_iff.mp h
    obtain ⟨⟨name, _⟩, _, h⟩ := Outcome.bind_eq_ok_iff.mp h
    cases h
    obtain ⟨hsize₁, hoff₁, _⟩ := ensureToken_advances h₁
    obtain ⟨hsize₂, hoff₂, _⟩ := consumeBe_advances h₂
    obtain ⟨hsize₃, hoff₃, _⟩ := consumeBe_advances h₃
    obtain ⟨hsize₄, hoff₄, hle₄⟩ := consumeBytes_advances h₄
    obtain ⟨hsize₅, hoff₅, hle₅⟩ := alignForward_advances h₅ hle₄
    exact ⟨by omega, by omega, hle₅⟩

/-- Both ways to go on from a round advance. -/
theorem skipRound_advances {blob : Blob} {depth : Nat} {r : Scanner ⊕ Scanner × Nat}
    (h : blob.skipRound buf s depth = .ok r) :
    (r.elim id Prod.fst).size = s.size ∧ s.off + 4 ≤ (r.elim id Prod.fst).off ∧
      (r.elim id Prod.fst).off ≤ (r.elim id Prod.fst).size := by
  obtain ⟨token, _, h⟩ := Outcome.bind_eq_ok_iff.mp h
  cases token with
  | beginNode =>
      obtain ⟨⟨node, s₁⟩, h₁, h⟩ := Outcome.bind_eq_ok_iff.mp h
      cases h
      exact parseStartNode_advances (Outcome.replaceErr_eq_ok_iff.mp h₁)
  | endNode =>
      obtain ⟨s₁, h₁, h⟩ := Outcome.bind_eq_ok_iff.mp h
      have hs : r.elim id Prod.fst = s₁ := by
        split at h
        next =>
          cases h
          rfl
        next =>
          cases h
          rfl
      obtain ⟨hsize, hoff, hle⟩ := ensureToken_advances h₁
      exact hs ▸ ⟨hsize, Nat.le_of_eq hoff.symm, hle⟩
  | prop =>
      obtain ⟨⟨property, s₁⟩, h₁, h⟩ := Outcome.bind_eq_ok_iff.mp h
      cases h
      exact consumeProperty_advances h₁
  | nop =>
      obtain ⟨s₁, h₁, h⟩ := Outcome.bind_eq_ok_iff.mp h
      cases h
      obtain ⟨hsize, hoff, hle⟩ := ensureToken_advances h₁
      exact ⟨hsize, Nat.le_of_eq hoff.symm, hle⟩
  | stop => cases h

end Advances

namespace Blob

def skipLoop (buf : List UInt8) (blob : Blob) (copy : Scanner) (depth : Nat) :
    Outcome Scanner Scanner :=
  match _h : blob.skipRound buf copy depth with
  | .ok (.inl pos) => .ok pos
  | .ok (.inr (copy', depth')) => skipLoop buf blob copy' depth'
  | .err s => .err s
  | .fault => .fault
termination_by copy.size - copy.off
decreasing_by
  have := skipRound_advances ‹_›
  dsimp only [Sum.elim_inr] at this
  omega

def skipNode (blob : Blob) (pos : Scanner) : Outcome Scanner Scanner :=
  (blob.skipLoop buf pos 1).replaceErr pos

variable {buf} in
theorem skipLoop_eq (blob : Blob) (s : Scanner) (depth : Nat) :
    blob.skipLoop buf s depth = (blob.skipRound buf s depth >>= fun r =>
      match r with
      | .inl pos => .ok pos
      | .inr (copy, depth) => blob.skipLoop buf copy depth) := by
  rw [skipLoop]
  split
  next h => rw [h, Outcome.ok_bind]
  next h => rw [h, Outcome.ok_bind]
  next h => rw [h, Outcome.err_bind]
  next h => rw [h, Outcome.fault_bind]

variable {buf} in
theorem skipLoop_advances {blob : Blob} {s s' : Scanner} {depth : Nat}
    (h : blob.skipLoop buf s depth = .ok s') :
    s'.size = s.size ∧ s.off + 4 ≤ s'.off ∧ s'.off ≤ s'.size := by
  induction s, depth using skipLoop.induct buf blob with
  | case1 s depth pos hround =>
      rw [skipLoop_eq, hround] at h
      cases h
      exact skipRound_advances hround
  | case2 s depth copy' depth' hround ih =>
      rw [skipLoop_eq, hround] at h
      obtain ⟨hsize, hoff, hle⟩ := skipRound_advances hround
      obtain ⟨hsize', hoff', hle'⟩ := ih h
      dsimp only [Sum.elim_inr] at hsize hoff
      exact ⟨hsize'.trans hsize, by omega, hle'⟩
  | case3 s depth e hround =>
      rw [skipLoop_eq, hround] at h
      cases h
  | case4 s depth hround =>
      rw [skipLoop_eq, hround] at h
      cases h

end Blob

end Aarch64.Cxx.Fdt
