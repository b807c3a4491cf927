import Aarch64.Lib.Bytes

/-!
# The flattened device tree

A blob starts with a header of ten words and holds three blocks: the memory
reservations, the structure and the strings. The structure is a sequence of tokens
that spells a tree; each token starts at a multiple of four, and names of properties
are offsets into the strings. Both kernels read this format, so it is described here
for both of them, by what stands where.
-/

namespace Aarch64.Fdt

open Bytes (padding)

/-- A 32-bit word of the format. -/
def word (x : Nat) : List UInt8 := Bytes.ofNat 4 x

/-- A 64-bit word of the format. -/
def dword (x : Nat) : List UInt8 := Bytes.ofNat 8 x

@[simp] theorem length_word (x : Nat) : (word x).length = 4 := Bytes.length_ofNat 4 x

theorem add_length_le_of_word {x off : Nat} {l data : List UInt8}
    (h : word x ++ l <+: data.drop off) : off + (4 + l.length) ≤ data.length := by
  have hpos : 0 < (word x ++ l).length := by
    rw [List.length_append, length_word]
    omega
  have hle := Bytes.add_length_le_of_prefix_drop h hpos
  rwa [List.length_append, length_word] at hle

theorem add_four_le_of_word {x off : Nat} {data : List UInt8} (h : word x <+: data.drop off) :
    off + 4 ≤ data.length :=
  add_length_le_of_word (l := []) (by rwa [List.append_nil])

@[simp] theorem length_dword (x : Nat) : (dword x).length = 8 := Bytes.length_ofNat 8 x

theorem toNat_word {x : Nat} (h : x < 2 ^ 32) : Bytes.toNat (word x) = x :=
  Bytes.toNat_ofNat_of_lt h

theorem toNat_dword {x : Nat} (h : x < 2 ^ 64) : Bytes.toNat (dword x) = x :=
  Bytes.toNat_ofNat_of_lt h

theorem word_toNat {bytes : List UInt8} (h : bytes.length = 4) : word (Bytes.toNat bytes) = bytes := by
  rw [word, ← h, Bytes.ofNat_toNat]

theorem dword_toNat {bytes : List UInt8} (h : bytes.length = 8) :
    dword (Bytes.toNat bytes) = bytes := by
  rw [dword, ← h, Bytes.ofNat_toNat]

/-! ## Tokens -/

/-- The tokens of the structure before its end. -/
inductive Tok
  | beginNode (name : List UInt8)
  | endNode
  | prop (name value : List UInt8)
  | nop
  deriving DecidableEq, Repr

/-- A token stands at `off`, and the next one stands at `next`. The bytes of the padding
are not looked at. -/
inductive Lex (structs strings : List UInt8) : (off : Nat) → Tok → (next : Nat) → Prop
  | beginNode {off : Nat} {name pad : List UInt8}
      (h : word 1 ++ (name ++ 0 :: pad) <+: structs.drop off) (hname : 0 ∉ name)
      (hpad : pad.length = padding 4 (off + 4 + (name.length + 1))) :
      Lex structs strings off (.beginNode name) (off + 4 + (name.length + 1) + pad.length)
  | endNode {off : Nat} (h : word 2 <+: structs.drop off) :
      Lex structs strings off .endNode (off + 4)
  | prop {off nameoff : Nat} {name value pad : List UInt8}
      (h : word 3 ++ (word value.length ++ (word nameoff ++ (value ++ pad))) <+: structs.drop off)
      (hvalue : value.length < 2 ^ 32) (hoff : nameoff < 2 ^ 32)
      (hstring : name ++ [0] <+: strings.drop nameoff) (hname : 0 ∉ name)
      (hpad : pad.length = padding 4 (off + 12 + value.length)) :
      Lex structs strings off (.prop name value) (off + 12 + value.length + pad.length)
  | nop {off : Nat} (h : word 4 <+: structs.drop off) : Lex structs strings off .nop (off + 4)

/-- Tokens stand one after the other. -/
inductive Lexes (structs strings : List UInt8) : Nat → List Tok → Nat → Prop
  | nil (off : Nat) : Lexes structs strings off [] off
  | cons {off next stop : Nat} {tok : Tok} {toks : List Tok} (h : Lex structs strings off tok next)
      (hrest : Lexes structs strings next toks stop) : Lexes structs strings off (tok :: toks) stop

/-- The word that ends the structure stands at `off`. -/
def EndsAt (structs : List UInt8) (off : Nat) : Prop := word 9 <+: structs.drop off

instance (structs : List UInt8) (off : Nat) : Decidable (EndsAt structs off) :=
  inferInstanceAs (Decidable (_ <+: _))

variable {structs strings : List UInt8} {off next stop : Nat} {tok : Tok} {toks : List Tok}

/-- A token takes at least a word, and all of it lies in the structure. -/
theorem Lex.bounds (h : Lex structs strings off tok next) :
    off + 4 ≤ next ∧ next ≤ structs.length := by
  cases h with
  | beginNode h hname hpad =>
      have hlen := add_length_le_of_word h
      rw [List.length_append, List.length_cons] at hlen
      omega
  | endNode h =>
      have hlen := add_four_le_of_word h
      omega
  | prop h hvalue hoff hstring hname hpad =>
      have hlen := add_length_le_of_word h
      simp only [List.length_append, length_word] at hlen
      omega
  | nop h =>
      have hlen := add_four_le_of_word h
      omega

theorem EndsAt.bounds (h : EndsAt structs off) : off + 4 ≤ structs.length :=
  add_four_le_of_word h

/-- Something stands after a token if the structure ends properly. -/
theorem Lexes.bounds (h : Lexes structs strings off toks stop) (hend : EndsAt structs stop) :
    off + 4 ≤ structs.length := by
  cases h with
  | nil => exact hend.bounds
  | cons h _ =>
      have := h.bounds
      omega

/-! ## Trees -/

/-- What stands between the two tokens of a node: properties and nodes in some order. -/
inductive Items
  | nil
  | prop (name value : List UInt8) (rest : Items)
  | node (name : List UInt8) (body rest : Items)
  deriving DecidableEq, Repr

/-- The two properties that say how wide addresses and sizes are. -/
def IsCells (name : List UInt8) : Prop :=
  name = Bytes.ofString "#size-cells" ∨ name = Bytes.ofString "#address-cells"

instance (name : List UInt8) : Decidable (IsCells name) := inferInstanceAs (Decidable (_ ∨ _))

/-- The number that the first word of a value spells. -/
def cellValue (value : List UInt8) : Nat := Bytes.toNat (value.take 4)

namespace Items

def props : Items → List (List UInt8 × List UInt8)
  | nil => []
  | prop name value rest => (name, value) :: rest.props
  | node _ _ rest => rest.props

def nodes : Items → List (List UInt8 × Items)
  | nil => []
  | prop _ _ rest => rest.nodes
  | node name body rest => (name, body) :: rest.nodes

/-- The tokens that spell the items, with any number of NOPs between them. -/
inductive Flattens : Items → List Tok → Prop
  | nil : Flattens .nil []
  | nop {items : Items} {toks : List Tok} (h : Flattens items toks) : Flattens items (.nop :: toks)
  | prop {name value : List UInt8} {rest : Items} {toks : List Tok} (h : Flattens rest toks) :
      Flattens (.prop name value rest) (.prop name value :: toks)
  | node {name : List UInt8} {body rest : Items} {toks toks' : List Tok} (h : Flattens body toks)
      (hrest : Flattens rest toks') :
      Flattens (.node name body rest) (.beginNode name :: (toks ++ .endNode :: toks'))

/-- Names are strings without a zero byte and name one node or one property each, and
numbers of cells are words. -/
inductive WellFormed : Items → Prop
  | nil : WellFormed .nil
  | prop {name value : List UInt8} {rest : Items} (hzero : 0 ∉ name)
      (hname : Bytes.isUtf8 name = true) (hfresh : ∀ v, (name, v) ∉ rest.props)
      (hcells : IsCells name → 4 ≤ value.length) (hrest : WellFormed rest) :
      WellFormed (.prop name value rest)
  | node {name : List UInt8} {body rest : Items} (hzero : 0 ∉ name)
      (hname : Bytes.isUtf8 name = true) (hfresh : ∀ b, (name, b) ∉ rest.nodes)
      (hbody : WellFormed body) (hrest : WellFormed rest) : WellFormed (.node name body rest)

/-- The properties of each node stand before its children. -/
def PropsFirst : Items → Prop
  | nil => True
  | prop _ _ rest => rest.PropsFirst
  | node _ body rest => rest.props = [] ∧ body.PropsFirst ∧ rest.PropsFirst

end Items

/-! ## Pairs of an address and a size -/

/-- The first `n` pairs of a value whose addresses take `a` words and whose sizes take
`s` words. -/
def takePairs (a s : Nat) : Nat → List UInt8 → List (Nat × Nat)
  | 0, _ => []
  | n + 1, value =>
      (Bytes.toNat (value.take (4 * a)), Bytes.toNat ((value.drop (4 * a)).take (4 * s))) ::
        takePairs a s n (value.drop (4 * (a + s)))

/-- The whole pairs of a value. -/
def pairs (a s : Nat) (value : List UInt8) : List (Nat × Nat) :=
  takePairs a s (value.length / (4 * (a + s))) value

/-- A value made of whole pairs. -/
def IsPairs (a s : Nat) (value : List UInt8) : Prop := 4 * (a + s) ∣ value.length

instance (a s : Nat) (value : List UInt8) : Decidable (IsPairs a s value) :=
  inferInstanceAs (Decidable (_ ∣ _))

@[simp] theorem pairs_nil (a s : Nat) : pairs a s [] = [] := by
  rw [pairs, List.length_nil, Nat.zero_div, takePairs]

theorem isPairs_nil (a s : Nat) : IsPairs a s [] := Nat.dvd_zero _

theorem pairs_of_le {a s : Nat} {value : List UInt8} (hpos : 0 < a + s)
    (hle : 4 * (a + s) ≤ value.length) : pairs a s value =
      (Bytes.toNat (value.take (4 * a)), Bytes.toNat ((value.drop (4 * a)).take (4 * s))) ::
        pairs a s (value.drop (4 * (a + s))) := by
  have hdiv : value.length / (4 * (a + s)) =
      (value.length - 4 * (a + s)) / (4 * (a + s)) + 1 := Nat.div_eq_sub_div (by omega) hle
  rw [pairs, pairs, hdiv, List.length_drop, takePairs]

theorem isPairs_drop_iff {a s : Nat} {value : List UInt8} (hle : 4 * (a + s) ≤ value.length) :
    IsPairs a s (value.drop (4 * (a + s))) ↔ IsPairs a s value := by
  obtain ⟨d, hd⟩ := Nat.exists_eq_add_of_le hle
  rw [IsPairs, IsPairs, List.length_drop, hd, Nat.add_sub_cancel_left]
  exact (Nat.dvd_add_right (Nat.dvd_refl _)).symm

/-- A value of whole pairs is empty or starts with a pair. -/
theorem IsPairs.le_length {a s : Nat} {value : List UInt8} (h : IsPairs a s value)
    (hne : value ≠ []) : 0 < a + s ∧ 4 * (a + s) ≤ value.length := by
  have hpos := List.length_pos_iff.mpr hne
  have hle := Nat.le_of_dvd hpos h
  refine ⟨Nat.pos_of_ne_zero fun hzero => ?_, hle⟩
  rw [IsPairs, hzero, Nat.mul_zero, Nat.zero_dvd] at h
  omega

/-! ## Blobs -/

structure Header where
  magic : Nat
  totalsize : Nat
  offDtStruct : Nat
  offDtStrings : Nat
  offMemRsvmap : Nat
  version : Nat
  lastCompVersion : Nat
  bootCpuidPhys : Nat
  sizeDtStrings : Nat
  sizeDtStruct : Nat
  deriving DecidableEq, Repr

namespace Header

def words (h : Header) : List Nat :=
  [h.magic, h.totalsize, h.offDtStruct, h.offDtStrings, h.offMemRsvmap, h.version,
    h.lastCompVersion, h.bootCpuidPhys, h.sizeDtStrings, h.sizeDtStruct]

def bytes (h : Header) : List UInt8 := h.words.flatMap word

@[simp] theorem length_bytes (h : Header) : h.bytes.length = 40 := by simp [bytes, words]

end Header

/-- The reservation block: pairs of an address and a size up to the pair of zeros. -/
def reservations (entries : List (Nat × Nat)) : List UInt8 :=
  entries.flatMap (fun e => dword e.1 ++ dword e.2) ++ (dword 0 ++ dword 0)

/-- Pairs of words other than the pair of zeros, which would end them. -/
def IsReservations (entries : List (Nat × Nat)) : Prop :=
  ∀ e ∈ entries, e ≠ (0, 0) ∧ e.1 < 2 ^ 64 ∧ e.2 < 2 ^ 64

instance (entries : List (Nat × Nat)) : Decidable (IsReservations entries) :=
  inferInstanceAs (Decidable (∀ e ∈ entries, _))

/-- A blob with its three blocks, which lie anywhere in its first `totalsize` bytes. -/
structure Blob (fdt : List UInt8) (h : Header) (entries : List (Nat × Nat))
    (structs strings : List UInt8) : Prop where
  size_lt : fdt.length < 2 ^ 32
  words : ∀ x ∈ h.words, x < 2 ^ 32
  header_at : h.bytes <+: fdt
  magic : h.magic = 0xd00dfeed
  totalsize : h.totalsize ≤ fdt.length
  reserved_at : reservations entries <+: fdt.drop h.offMemRsvmap
  reserved_le : h.offMemRsvmap + (reservations entries).length ≤ h.totalsize
  structs_at : structs <+: fdt.drop h.offDtStruct
  size_structs : structs.length = h.sizeDtStruct
  structs_le : h.offDtStruct + structs.length ≤ h.totalsize
  strings_at : strings <+: fdt.drop h.offDtStrings
  size_strings : strings.length = h.sizeDtStrings
  strings_le : h.offDtStrings + strings.length ≤ h.totalsize

/-- A blob whose structure is a flattening of one tree with a nameless root, with any
bytes behind its end. -/
inductive Flattened (fdt : List UInt8) (h : Header) (entries : List (Nat × Nat)) (items : Items) :
    Prop
  | intro {structs strings : List UInt8} {toks : List Tok} {stop : Nat}
      (hblob : Blob fdt h entries structs strings)
      (htoks : (Items.node [] items .nil).Flattens toks)
      (hlexes : Lexes structs strings 0 toks stop) (hend : EndsAt structs stop) :
      Flattened fdt h entries items

/-! ## Words one after the other -/

theorem word_of_words {words : List Nat} {data : List UInt8} {off : Nat}
    (h : words.flatMap word <+: data.drop off) {i x : Nat} (hi : words[i]? = some x) :
    word x <+: data.drop (off + 4 * i) := by
  induction words generalizing off i with
  | nil => simp at hi
  | cons w words ih =>
      rw [List.flatMap_cons] at h
      cases i with
      | zero =>
          obtain rfl : w = x := by simpa using hi
          exact Bytes.prefix_append_left h
      | succ i =>
          have hnext := Bytes.prefix_append_right h
          rw [length_word] at hnext
          have hrest := ih hnext (by simpa using hi)
          have heq : off + 4 * (i + 1) = off + 4 + 4 * i := by omega
          rwa [heq]

/-- Any bytes are words if there are enough of them. -/
theorem exists_words (data : List UInt8) : ∀ (n off : Nat), off + 4 * n ≤ data.length →
    ∃ words : List Nat, words.length = n ∧ (∀ x ∈ words, x < 2 ^ 32) ∧
      words.flatMap word <+: data.drop off := by
  intro n
  induction n with
  | zero => exact fun off _ => ⟨[], rfl, by simp, List.nil_prefix⟩
  | succ n ih =>
      intro off hle
      obtain ⟨words, hlen, hlt, hprefix⟩ := ih (off + 4) (by omega)
      have hbytes : ((data.drop off).take 4).length = 4 := by
        rw [List.length_take, List.length_drop]
        omega
      have hx := Bytes.toNat_lt ((data.drop off).take 4)
      rw [hbytes] at hx
      refine ⟨Bytes.toNat ((data.drop off).take 4) :: words, by rw [List.length_cons, hlen],
        List.forall_mem_cons.mpr ⟨hx, hlt⟩, ?_⟩
      rw [List.flatMap_cons, word_toNat hbytes]
      refine Bytes.prefix_append (List.take_prefix _ _) ?_
      rwa [hbytes]

/-- Any forty bytes are a header. -/
theorem exists_header {data : List UInt8} (h : 40 ≤ data.length) :
    ∃ h : Header, (∀ x ∈ h.words, x < 2 ^ 32) ∧ h.bytes <+: data := by
  obtain ⟨words, hlen, hwords, hbytes⟩ := exists_words data 10 0 h
  match words, hlen with
  | [a, b, c, d, e, f, g, i, j, k], _ => exact ⟨⟨a, b, c, d, e, f, g, i, j, k⟩, hwords, hbytes⟩

end Aarch64.Fdt
