import Aarch64.Lib.Bytes
import Aarch64.Lib.Outcome
import Mathlib.Data.List.Basic

/-!
# The scanner of the bootstrap

`fdt/scanner.cc`. A pointer into the buffer is its index, and a read outside of the
buffer is a fault. A call that returns `true` is `ok` with what it stores and the
scanner that it leaves behind; one that returns `false` is `err` with the scanner that
it leaves behind. Offsets stay within the size of a scanner and sizes are those of
buffers or 32-bit words, so no sum of them wraps.
-/

namespace Aarch64.Cxx.Fdt

/-- `data_` is the index of the first byte. -/
structure Scanner where
  data : Nat
  size : Nat
  off : Nat
  deriving DecidableEq, Repr

inductive Token
  | beginNode
  | endNode
  | prop
  | nop
  | stop
  deriving DecidableEq, Repr

namespace Scanner

def new (data size : Nat) : Scanner := ⟨data, size, 0⟩

/-- The loop that shifts `n` bytes from index `p` on into `x`. -/
def loadBe (buf : List UInt8) : (n p x : Nat) → Option Nat
  | 0, _, x => some x
  | n + 1, p, x =>
      match buf[p]? with
      | some b => loadBe buf n (p + 1) ((x <<< 8) ||| b.toNat)
      | none => none

variable (buf : List UInt8)

/-- The common body of `ConsumeBe32` and `ConsumeBe64`. -/
def consumeBe (n : Nat) (s : Scanner) : Outcome Scanner (Nat × Scanner) :=
  if s.off + n > s.size then .err s
  else
    match loadBe buf n (s.data + s.off) 0 with
    | some x => .ok (x, { s with off := s.off + n })
    | none => .fault

def consumeBe32 (s : Scanner) : Outcome Scanner (Nat × Scanner) := s.consumeBe buf 4

def consumeBe64 (s : Scanner) : Outcome Scanner (Nat × Scanner) := s.consumeBe buf 8

/-- The loop of `ConsumeCstr`, which has looked at `size` bytes. -/
def cstrLoop (s : Scanner) (size : Nat) : Outcome Scanner (List UInt8 × Scanner) :=
  if s.off + size < s.size then
    match buf[s.data + s.off + size]? with
    | some b =>
        if b = 0 then
          .ok ((buf.drop (s.data + s.off)).take size, { s with off := s.off + (size + 1) })
        else s.cstrLoop (size + 1)
    | none => .fault
  else .err s
termination_by s.size - (s.off + size)

def consumeCstr (s : Scanner) : Outcome Scanner (List UInt8 × Scanner) := s.cstrLoop buf 0

/-- The overload of `ConsumeCstr` that stores the pointer to the string. -/
def consumeCstrData (s : Scanner) : Outcome Scanner (Nat × Scanner) := do
  let (_, s') ← s.consumeCstr buf
  return (s.data + s.off, s')

/-- The pointer that `ConsumeBytes` stores. It reads nothing. The sum is one of numbers and not
of `size_t`: `ConsumeProperty`, the only caller, passes a length of 32 bits, with which it
does not wrap. -/
def consumeBytes (s : Scanner) (size : Nat) : Outcome Scanner (Nat × Scanner) :=
  if s.off + size > s.size then .err s
  else .ok (s.data + s.off, { s with off := s.off + size })

def consumeToken (s : Scanner) : Outcome Scanner (Token × Scanner) :=
  match s.consumeBe32 buf with
  | .ok (val, copy) =>
      match val with
      | 1 => .ok (.beginNode, copy)
      | 2 => .ok (.endNode, copy)
      | 3 => .ok (.prop, copy)
      | 4 => .ok (.nop, copy)
      | 9 => .ok (.stop, copy)
      | _ => .err s
  | .err _ => .err s
  | .fault => .fault

def alignForward (s : Scanner) (alignment : Nat) : Outcome Scanner Scanner :=
  if alignment = 0 ∨ s.off % alignment = 0 then .ok s
  else
    let shift := alignment - s.off % alignment
    if s.off + shift > s.size then .err s
    else .ok { s with off := s.off + shift }

/-- `ConsumeRange` of a range whose address takes `a` bytes and whose size takes `n`. -/
def consumeRange (a n : Nat) (s : Scanner) : Outcome Scanner ((Nat × Nat) × Scanner) :=
  match s.consumeBe buf a with
  | .ok (begin, copy) =>
      match copy.consumeBe buf n with
      | .ok (size, copy) => .ok ((begin, size), copy)
      | .err _ => .err s
      | .fault => .fault
  | .err _ => .err s
  | .fault => .fault

/-! ## What the calls consume -/

variable {buf} {s : Scanner} {bytes : List UInt8}

/-- The scanner covers these bytes of the buffer. -/
structure Over (buf : List UInt8) (s : Scanner) (bytes : List UInt8) : Prop where
  size : s.size = bytes.length
  at_ : bytes <+: buf.drop s.data

theorem Over.of_le (h : s.data + s.size ≤ buf.length) :
    Over buf s ((buf.drop s.data).take s.size) := by
  refine ⟨?_, List.take_prefix _ _⟩
  rw [List.length_take, List.length_drop]
  omega

/-- What stands at the offset stands in the buffer. -/
theorem Over.prefix_drop (h : Over buf s bytes) {l : List UInt8} {off : Nat}
    (hl : l <+: bytes.drop off) : l <+: buf.drop (s.data + off) := by
  obtain ⟨rest, hrest⟩ := h.at_
  rw [← List.drop_drop, ← hrest]
  by_cases hoff : off ≤ bytes.length
  · rw [List.drop_append_of_le_length hoff]
    exact hl.trans (List.prefix_append _ _)
  · rw [List.drop_eq_nil_of_le (by omega)] at hl
    exact List.prefix_nil.mp hl ▸ List.nil_prefix

/-- A scanner of the rest of the bytes. -/
theorem Over.new_drop (h : Over buf s bytes) (off : Nat) :
    Over buf (new (s.data + off) (s.size - off)) (bytes.drop off) :=
  ⟨by rw [List.length_drop, ← h.size, new], h.prefix_drop (List.prefix_refl _)⟩

theorem loadBe_of_prefix {l : List UInt8} {p : Nat} (h : l <+: buf.drop p) (x : Nat) :
    loadBe buf l.length p x = some (x * 256 ^ l.length + Bytes.toNat l) := by
  induction l generalizing p x with
  | nil => simp [loadBe]
  | cons b l ih =>
      have hb : buf[p]? = some b := by
        obtain ⟨rest, hrest⟩ := h
        rw [← List.head?_drop, ← hrest]
        rfl
      have hnext : l <+: buf.drop (p + 1) := Bytes.prefix_append_right (l := [b]) h
      have hor : (x <<< 8) ||| b.toNat = x * 256 + b.toNat := by
        rw [← Nat.shiftLeft_add_eq_or_of_lt (UInt8.toNat_lt b), Nat.shiftLeft_eq]
      rw [List.length_cons, loadBe, hb]
      dsimp only
      rw [ih hnext, hor, Bytes.toNat_cons, Nat.pow_succ', Nat.add_mul, Nat.mul_assoc,
        Nat.add_assoc]

theorem consumeBe_cases (h : Over buf s bytes) (n : Nat) :
    (∃ l, l.length = n ∧ l <+: bytes.drop s.off ∧
        s.consumeBe buf n = .ok (Bytes.toNat l, { s with off := s.off + n })) ∨
      (bytes.length < s.off + n ∧ s.consumeBe buf n = .err s) := by
  rcases Nat.lt_or_ge bytes.length (s.off + n) with hlt | hge
  · exact Or.inr ⟨hlt, by rw [consumeBe, h.size, if_pos hlt]⟩
  · have hlen : ((bytes.drop s.off).take n).length = n := by
      rw [List.length_take, List.length_drop]
      omega
    have hload := loadBe_of_prefix (h.prefix_drop (List.take_prefix n (bytes.drop s.off))) 0
    rw [hlen, Nat.zero_mul, Nat.zero_add] at hload
    refine Or.inl ⟨_, hlen, List.take_prefix _ _, ?_⟩
    rw [consumeBe, h.size, if_neg (Nat.not_lt.mpr hge), hload]

theorem cstrLoop_cases (h : Over buf s bytes) : ∀ (k size : Nat),
    bytes.length - (s.off + size) = k → s.off + size ≤ bytes.length →
    0 ∉ (bytes.drop s.off).take size →
    (∃ name, name ++ [0] <+: bytes.drop s.off ∧ 0 ∉ name ∧
        s.cstrLoop buf size = .ok (name, { s with off := s.off + (name.length + 1) })) ∨
      (0 ∉ bytes.drop s.off ∧ s.cstrLoop buf size = .err s) := by
  intro k
  induction k with
  | zero =>
      intro size hk hle hzero
      refine Or.inr ⟨?_, ?_⟩
      · rwa [List.take_of_length_le (by rw [List.length_drop]; omega)] at hzero
      · rw [cstrLoop, h.size, if_neg (by omega)]
  | succ k ih =>
      intro size hk hle hzero
      have hlt : s.off + size < bytes.length := by omega
      obtain ⟨b, hb⟩ : ∃ b, bytes[s.off + size]? = some b :=
        ⟨_, List.getElem?_eq_getElem hlt⟩
      have hat : [b] <+: bytes.drop (s.off + size) := by
        rw [List.drop_eq_getElem_cons hlt]
        rw [List.getElem?_eq_getElem hlt] at hb
        rw [Option.some.inj hb]
        exact ⟨_, rfl⟩
      have hbuf : buf[s.data + s.off + size]? = some b := by
        obtain ⟨rest, hrest⟩ := h.prefix_drop hat
        rw [Nat.add_assoc, ← List.head?_drop, ← hrest]
        rfl
      have hnext : (bytes.drop s.off).take (size + 1) = (bytes.drop s.off).take size ++ [b] := by
        rw [List.take_add_one, List.getElem?_drop, hb]
        rfl
      have hlen : ((bytes.drop s.off).take size).length = size := by
        rw [List.length_take, List.length_drop]
        omega
      rw [cstrLoop, if_pos (by rw [h.size]; exact hlt), hbuf]
      dsimp only
      by_cases hb0 : b = 0
      · rw [if_pos hb0]
        have hname : (buf.drop (s.data + s.off)).take size = (bytes.drop s.off).take size := by
          have hpre := h.prefix_drop (List.take_prefix size (bytes.drop s.off))
          rw [List.prefix_iff_eq_take, hlen] at hpre
          exact hpre.symm
        refine Or.inl ⟨(bytes.drop s.off).take size, ?_, hzero, ?_⟩
        · rw [← hb0, ← hnext]
          exact List.take_prefix _ _
        · rw [hname, hlen]
      · rw [if_neg hb0]
        refine ih (size + 1) (by omega) (by omega) ?_
        rw [hnext, List.mem_append, not_or, List.mem_singleton]
        exact ⟨hzero, fun h => hb0 h.symm⟩

/-- The string up to the next zero byte is consumed, if there is one. -/
theorem consumeCstr_cases (h : Over buf s bytes) (hoff : s.off ≤ bytes.length) :
    (∃ name, name ++ [0] <+: bytes.drop s.off ∧ 0 ∉ name ∧
        s.consumeCstr buf = .ok (name, { s with off := s.off + (name.length + 1) })) ∨
      (0 ∉ bytes.drop s.off ∧ s.consumeCstr buf = .err s) :=
  cstrLoop_cases h _ 0 rfl hoff (by simp)

theorem consumeBytes_cases (s : Scanner) (size : Nat) :
    (s.off + size ≤ s.size ∧
        s.consumeBytes size = .ok (s.data + s.off, { s with off := s.off + size })) ∨
      (s.size < s.off + size ∧ s.consumeBytes size = .err s) := by
  rcases Nat.lt_or_ge s.size (s.off + size) with hlt | hge
  · exact Or.inr ⟨hlt, if_pos hlt⟩
  · exact Or.inl ⟨hge, if_neg (Nat.not_lt.mpr hge)⟩

theorem alignForward_cases (alignment : Nat) (hpos : 0 < alignment) (hoff : s.off ≤ s.size) :
    (s.off + Bytes.padding alignment s.off ≤ s.size ∧ s.alignForward alignment =
        .ok { s with off := s.off + Bytes.padding alignment s.off }) ∨
      (s.size < s.off + Bytes.padding alignment s.off ∧ s.alignForward alignment = .err s) := by
  by_cases hmod : s.off % alignment = 0
  · rw [Bytes.padding_of_mod_eq_zero hmod]
    exact Or.inl ⟨hoff, if_pos (Or.inr hmod)⟩
  · rw [Bytes.padding_of_mod_ne_zero hmod hpos, alignForward,
      if_neg (not_or.mpr ⟨Nat.ne_of_gt hpos, hmod⟩)]
    dsimp only
    rcases Nat.lt_or_ge s.size (s.off + (alignment - s.off % alignment)) with hlt | hge
    · exact Or.inr ⟨hlt, if_pos hlt⟩
    · exact Or.inl ⟨hge, if_neg (Nat.not_lt.mpr hge)⟩

end Scanner

end Aarch64.Cxx.Fdt
