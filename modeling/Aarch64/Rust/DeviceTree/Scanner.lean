import Aarch64.Lib.Bytes
import Aarch64.Lib.Outcome
import Mathlib.Data.List.Basic

/-!
# The scanner of the Rust device tree

`kernel/devicetree/src/scanner.rs`. A call that returns `Err` leaves the scanner as it
was; a call that returns `Ok` gives the scanner behind what it consumed. A slice has
fewer than `2 ^ 63` bytes and sizes come from 32-bit words, so no sum of offsets wraps.
A string slice is the list of its bytes, and `str::from_utf8` succeeds on UTF-8.
-/

namespace Aarch64.Rust

open Bytes (isUtf8)

/-- `&data[start..stop]`, which panics out of range. -/
def slice (data : List UInt8) (start stop : Nat) : Outcome String (List UInt8) :=
  if start ≤ stop ∧ stop ≤ data.length then .ok ((data.drop start).take (stop - start))
  else .fault

structure AddressSpace where
  sizeCells : Nat
  addressCells : Nat
  deriving DecidableEq, Repr

structure Scanner where
  data : List UInt8
  offset : Nat
  deriving DecidableEq, Repr

namespace Scanner

def new (data : List UInt8) : Scanner := ⟨data, 0⟩

def remains (s : Scanner) : Nat := s.data.length - s.offset

/-- The common body of `consume_be32` and `consume_be64`. -/
def consumeBe (n : Nat) (mismatch : String) (s : Scanner) : Outcome String (Nat × Scanner) :=
  if s.offset + n > s.data.length then .err "Not enough data"
  else do
    let value ← slice s.data s.offset (s.offset + n)
    if value.length = n then
      return (Bytes.toNat value, { s with offset := s.offset + value.length })
    else .err mismatch

def consumeBe32 (s : Scanner) : Outcome String (Nat × Scanner) :=
  s.consumeBe 4 "Error while parsing 4-byte big-endian"

def consumeBe64 (s : Scanner) : Outcome String (Nat × Scanner) :=
  s.consumeBe 8 "Error while parsing 8-byte big-endian"

/-- The common body of `consume_address` and `consume_size`, which share the text of
their error too. -/
def consumeCells (cells : Nat) (s : Scanner) : Outcome String (Nat × Scanner) :=
  match cells with
  | 0 => .ok (0, s)
  | 1 => s.consumeBe32
  | 2 => s.consumeBe64
  | _ => .err "Unsupported #address-cells value."

def consumeAddress (s : Scanner) (space : AddressSpace) : Outcome String (Nat × Scanner) :=
  s.consumeCells space.addressCells

def consumeSize (s : Scanner) (space : AddressSpace) : Outcome String (Nat × Scanner) :=
  s.consumeCells space.sizeCells

/-- The loop of `consume_cstr` from index `i` on. -/
def cstrLoop (s : Scanner) (i : Nat) : Outcome String (List UInt8 × Scanner) :=
  if h : i < s.data.length then
    if s.data[i] ≠ 0 then s.cstrLoop (i + 1)
    else do
      let bytes ← slice s.data s.offset i
      if isUtf8 bytes then return (bytes, { s with offset := i + 1 })
      else .err "Not a valid UTF8 string"
  else .err "Failed to find terminating '\x00' in the data"
termination_by s.data.length - i

def consumeCstr (s : Scanner) : Outcome String (List UInt8 × Scanner) := s.cstrLoop s.offset

def consumeData (s : Scanner) (size : Nat) : Outcome String (List UInt8 × Scanner) :=
  if s.offset + size > s.data.length then .err "Not enough data"
  else do
    let value ← slice s.data s.offset (s.offset + size)
    return (value, { s with offset := s.offset + size })

def alignForward (s : Scanner) (alignment : Nat) : Outcome String Scanner :=
  if alignment = 0 ∨ s.offset % alignment = 0 then .ok s
  else
    let shift := alignment - s.offset % alignment
    if s.offset + shift ≥ s.data.length then .err "Not enough data"
    else .ok { s with offset := s.offset + shift }

/-! ## What the calls consume -/

variable {s : Scanner}

theorem slice_of_le {data : List UInt8} {start n : Nat} (h : start + n ≤ data.length) :
    slice data start (start + n) = .ok ((data.drop start).take n) := by
  rw [slice, if_pos ⟨Nat.le_add_right _ _, h⟩, Nat.add_sub_cancel_left]

/-- The bytes that a slice covers, and their number. -/
theorem take_drop_prefix {data : List UInt8} {start n : Nat} (h : start + n ≤ data.length) :
    (data.drop start).take n <+: data.drop start ∧ ((data.drop start).take n).length = n := by
  refine ⟨List.take_prefix _ _, ?_⟩
  rw [List.length_take, List.length_drop]
  omega

theorem consumeBe_cases (s : Scanner) (n : Nat) (mismatch : String) :
    (∃ bytes, bytes.length = n ∧ bytes <+: s.data.drop s.offset ∧
        s.consumeBe n mismatch = .ok (Bytes.toNat bytes, { s with offset := s.offset + n })) ∨
      (s.data.length < s.offset + n ∧ s.consumeBe n mismatch = .err "Not enough data") := by
  rcases Nat.lt_or_ge s.data.length (s.offset + n) with hlt | hge
  · exact Or.inr ⟨hlt, by rw [consumeBe, if_pos hlt]⟩
  · obtain ⟨hbytes, hlen⟩ := take_drop_prefix hge
    refine Or.inl ⟨_, hlen, hbytes, ?_⟩
    rw [consumeBe, if_neg (Nat.not_lt.mpr hge), slice_of_le hge, Outcome.ok_bind, if_pos hlen, hlen]
    rfl

theorem consumeBe_of_prefix {bytes : List UInt8} (mismatch : String) (hpos : bytes ≠ [])
    (h : bytes <+: s.data.drop s.offset) :
    s.consumeBe bytes.length mismatch =
      .ok (Bytes.toNat bytes, { s with offset := s.offset + bytes.length }) := by
  have hlen := Bytes.add_length_le_of_prefix_drop h (List.length_pos_iff.mpr hpos)
  rcases consumeBe_cases s bytes.length mismatch with ⟨bytes', hlen', hbytes, hcall⟩ | ⟨hlt, _⟩
  · rwa [Bytes.prefix_unique hbytes h hlen'] at hcall
  · omega

theorem consumeData_cases (s : Scanner) (size : Nat) :
    (∃ value, value.length = size ∧ value <+: s.data.drop s.offset ∧
        s.consumeData size = .ok (value, { s with offset := s.offset + size })) ∨
      (s.data.length < s.offset + size ∧ s.consumeData size = .err "Not enough data") := by
  rcases Nat.lt_or_ge s.data.length (s.offset + size) with hlt | hge
  · exact Or.inr ⟨hlt, by rw [consumeData, if_pos hlt]⟩
  · obtain ⟨hbytes, hlen⟩ := take_drop_prefix hge
    refine Or.inl ⟨_, hlen, hbytes, ?_⟩
    rw [consumeData, if_neg (Nat.not_lt.mpr hge), slice_of_le hge]
    rfl

/-- The loop has passed the bytes from `offset` to `i`, none of which is zero. -/
theorem cstrLoop_spec (s : Scanner) : ∀ (n i : Nat), s.data.length - i = n → s.offset ≤ i →
    i ≤ s.data.length → 0 ∉ (s.data.drop s.offset).take (i - s.offset) →
    (∃ name, name ++ [0] <+: s.data.drop s.offset ∧ 0 ∉ name ∧ isUtf8 name = true ∧
        s.cstrLoop i = .ok (name, { s with offset := s.offset + (name.length + 1) })) ∨
      ((∀ name, name ++ [0] <+: s.data.drop s.offset → 0 ∉ name → isUtf8 name = false) ∧
        ∃ e, s.cstrLoop i = .err e) := by
  intro n
  induction n with
  | zero =>
      intro i hn hle hlen hzero
      rw [cstrLoop, dif_neg (by omega)]
      refine Or.inr ⟨fun name hname _ => absurd ?_ hzero, _, rfl⟩
      rw [List.take_of_length_le (by rw [List.length_drop]; omega)]
      exact hname.subset (List.mem_append_right _ (List.mem_singleton.mpr rfl))
  | succ n ih =>
      intro i hn hle hlen hzero
      have hlt : i < s.data.length := by omega
      have hdrop : s.data.drop s.offset =
          (s.data.drop s.offset).take (i - s.offset) ++ s.data[i] :: s.data.drop (i + 1) := by
        conv_lhs => rw [← List.take_append_drop (i - s.offset) (s.data.drop s.offset)]
        rw [List.drop_drop, Nat.add_sub_cancel' hle, List.drop_eq_getElem_cons hlt]
      rw [cstrLoop, dif_pos hlt]
      by_cases hbyte : s.data[i] ≠ 0
      · rw [if_pos hbyte]
        refine ih (i + 1) (by omega) (by omega) (by omega) ?_
        have hnext : (s.data.drop s.offset).take (i + 1 - s.offset) =
            (s.data.drop s.offset).take (i - s.offset) ++ [s.data[i]] := by
          conv_lhs => rw [hdrop]
          rw [List.take_append, List.length_take, List.length_drop]
          have hmin : min (i - s.offset) (s.data.length - s.offset) = i - s.offset := by omega
          have hone : i + 1 - s.offset - (i - s.offset) = 1 := by omega
          rw [hmin, hone, List.take_of_length_le (by rw [List.length_take]; omega)]
          rfl
        rw [hnext, List.mem_append, List.mem_singleton]
        exact fun h => h.elim hzero fun h => hbyte h.symm
      · rw [not_not] at hbyte
        have hslice : slice s.data s.offset i =
            .ok ((s.data.drop s.offset).take (i - s.offset)) := by
          rw [slice, if_pos ⟨hle, Nat.le_of_lt hlt⟩]
        rw [if_neg (not_not.mpr hbyte), hslice, Outcome.ok_bind]
        have hlength : ((s.data.drop s.offset).take (i - s.offset)).length = i - s.offset := by
          rw [List.length_take, List.length_drop]
          omega
        rw [hbyte] at hdrop
        by_cases hutf : isUtf8 ((s.data.drop s.offset).take (i - s.offset)) = true
        · refine Or.inl ⟨_, ?_, hzero, hutf, ?_⟩
          · conv_rhs => rw [hdrop]
            exact ⟨s.data.drop (i + 1), by simp⟩
          · have hoffset : s.offset + (i - s.offset + 1) = i + 1 := by omega
            rw [if_pos hutf, hlength, hoffset]
            rfl
        · refine Or.inr ⟨fun name hname hfree => ?_, _, by rw [if_neg hutf]⟩
          obtain ⟨rest, hrest⟩ := hname
          rw [hdrop, List.append_assoc, List.singleton_append] at hrest
          rw [(Bytes.terminated_unique hfree hzero hrest).1]
          exact Bool.not_eq_true _ ▸ hutf

theorem consumeCstr_cases (hs : s.offset ≤ s.data.length) :
    (∃ name, name ++ [0] <+: s.data.drop s.offset ∧ 0 ∉ name ∧ isUtf8 name = true ∧
        s.consumeCstr = .ok (name, { s with offset := s.offset + (name.length + 1) })) ∨
      ((∀ name, name ++ [0] <+: s.data.drop s.offset → 0 ∉ name → isUtf8 name = false) ∧
        ∃ e, s.consumeCstr = .err e) :=
  cstrLoop_spec s _ s.offset rfl (Nat.le_refl _) hs (by simp)

theorem consumeCstr_of_prefix {name : List UInt8} (h : name ++ [0] <+: s.data.drop s.offset)
    (hname : 0 ∉ name) (hutf : isUtf8 name = true) :
    s.consumeCstr = .ok (name, { s with offset := s.offset + (name.length + 1) }) := by
  have hle := Bytes.add_length_succ_le_of_prefix_drop h
  rcases consumeCstr_cases (s := s) (by omega) with ⟨name', hbytes, hname', _, hcall⟩ | ⟨hbad, _⟩
  · obtain ⟨rest, hrest⟩ := h
    obtain ⟨rest', hrest'⟩ := hbytes
    rw [← hrest', List.append_assoc, List.append_assoc] at hrest
    rwa [(Bytes.terminated_unique hname hname' hrest).1]
  · rw [hbad name h hname] at hutf
    cases hutf

/-- With room for another byte behind it, the padding is skipped. -/
theorem alignForward_of_lt (alignment : Nat) (hpos : 0 < alignment)
    (h : s.offset + Bytes.padding alignment s.offset < s.data.length) :
    s.alignForward alignment =
      .ok { s with offset := s.offset + Bytes.padding alignment s.offset } := by
  by_cases hmod : s.offset % alignment = 0
  · rw [alignForward, if_pos (Or.inr hmod), Bytes.padding_of_mod_eq_zero hmod]
    rfl
  · rw [Bytes.padding_of_mod_ne_zero hmod hpos] at h ⊢
    rw [alignForward, if_neg (not_or.mpr ⟨Nat.ne_of_gt hpos, hmod⟩)]
    exact if_neg (Nat.not_le.mpr h)

end Scanner

end Aarch64.Rust
