import Aarch64.Cxx.StringView.Order
import Aarch64.Lib.Word
import Mathlib.Data.List.Infix

/-!
# String views over memory

The class `StringView` of `common/string_view.cc`: a pointer and a length, over any bytes.
A view is compared with `strncmp`, and the end of `Substr` is a sum that may wrap. These
are the two places where it is not the byte string that it covers, and both are
determined exactly.
-/

namespace Aarch64.Cxx.StringView

structure View where
  data : Nat
  size : Nat
  size_lt : size < 2 ^ 64

/-- The bytes from an address on. -/
def bytesAt (mem : Nat → UInt8) : Nat → Nat → List UInt8
  | _, 0 => []
  | data, size + 1 => mem data :: bytesAt mem (data + 1) size

/-- `strncmp` on two pointers. The bytes that it compares last are those where it stops. -/
def strncmpAt (mem : Nat → UInt8) : Nat → Nat → Nat → Int
  | _, _, 0 => 0
  | l, r, size + 1 =>
      if size + 1 > 1 ∧ mem l = mem r ∧ mem l ≠ 0 then strncmpAt mem (l + 1) (r + 1) size
      else if mem l < mem r then -1
      else if mem l > mem r then 1
      else 0

namespace View

def bytes (mem : Nat → UInt8) (v : View) : List UInt8 := bytesAt mem v.data v.size

def compare (mem : Nat → UInt8) (l r : View) : Int :=
  let len := min l.size r.size
  let rc := strncmpAt mem l.data r.data len
  if rc ≠ 0 then rc
  else if l.size ≠ r.size then if l.size < r.size then -1 else 1
  else 0

def substr (v : View) («from» count : Nat) : View :=
  let «to» := Word64.add «from» count
  let «from» := if «from» > v.size then v.size else «from»
  let «to» := if «to» > v.size then v.size else «to»
  ⟨v.data + «from», Word64.sub «to» «from», Nat.mod_lt _ (Nat.two_pow_pos 64)⟩

/-- `operator==` -/
def eq (mem : Nat → UInt8) (l r : View) : Bool := compare mem l r = 0

/-- `operator!=` -/
def ne (mem : Nat → UInt8) (l r : View) : Bool := !eq mem l r

/-- `operator<` -/
def lt (mem : Nat → UInt8) (l r : View) : Bool := compare mem l r < 0

/-- `operator>` -/
def gt (mem : Nat → UInt8) (l r : View) : Bool := lt mem r l

/-- `operator<=` -/
def le (mem : Nat → UInt8) (l r : View) : Bool := !lt mem r l

/-- `operator>=` -/
def ge (mem : Nat → UInt8) (l r : View) : Bool := le mem r l

def startsWith (mem : Nat → UInt8) (v start : View) : Bool := eq mem (v.substr 0 start.size) start

def endsWith (mem : Nat → UInt8) (v suffix : View) : Bool :=
  if suffix.size > v.size then false
  else eq mem (v.substr (v.size - suffix.size) suffix.size) suffix

end View

/-! ## What the class is for -/

/-- The views `a`, `b` and `c` behave as the byte strings that they cover, and so does the
part of `a` from `from` on. -/
structure IsByteString (mem : Nat → UInt8) (a b c : View) («from» count : Nat) : Prop where
  compare_zero : a.compare mem b = 0 ↔ a.bytes mem = b.bytes mem
  eq_iff : a.eq mem b = true ↔ a.bytes mem = b.bytes mem
  ne_iff : a.ne mem b = true ↔ a.bytes mem ≠ b.bytes mem
  irrefl : a.lt mem a = false
  asymm : a.lt mem b = true → b.lt mem a = false
  trans : a.lt mem b = true → b.lt mem c = true → a.lt mem c = true
  total : a.bytes mem ≠ b.bytes mem ↔ a.lt mem b = true ∨ b.lt mem a = true
  gt_iff : a.gt mem b = true ↔ b.lt mem a = true
  le_iff : a.le mem b = true ↔ a.lt mem b = true ∨ a.bytes mem = b.bytes mem
  ge_iff : a.ge mem b = true ↔ b.lt mem a = true ∨ a.bytes mem = b.bytes mem
  substr : (a.substr «from» count).bytes mem = ((a.bytes mem).drop «from»).take count
  startsWith : a.startsWith mem b = true ↔ b.bytes mem <+: a.bytes mem
  endsWith : a.endsWith mem b = true ↔ b.bytes mem <:+ a.bytes mem

/-- No comparison meets strings that differ only behind a zero byte, and the end of the
part does not wrap, or wraps to a place behind the end of the view. -/
structure Clear (mem : Nat → UInt8) (a b : View) («from» count : Nat) : Prop where
  whole : ¬ Blind (a.bytes mem) (b.bytes mem)
  first : ¬ Blind ((a.bytes mem).take b.size) (b.bytes mem)
  last : ¬ Blind ((a.bytes mem).drop (a.size - b.size)) (b.bytes mem)
  range : «from» + count < 2 ^ 64 ∨ 2 ^ 64 + a.size ≤ «from» + count

/-! ## The bytes of a view -/

variable {mem : Nat → UInt8} {data size : Nat} {a b c : View} {«from» count : Nat}

@[simp] theorem length_bytesAt (mem : Nat → UInt8) (data size : Nat) :
    (bytesAt mem data size).length = size := by
  induction size generalizing data with
  | zero => rfl
  | succ size ih => rw [bytesAt, List.length_cons, ih]

@[simp] theorem View.length_bytes (v : View) : (v.bytes mem).length = v.size := length_bytesAt ..

theorem drop_bytesAt {n : Nat} (h : n ≤ size) :
    (bytesAt mem data size).drop n = bytesAt mem (data + n) (size - n) := by
  induction n generalizing data size with
  | zero => rfl
  | succ n ih =>
      obtain ⟨size, rfl⟩ := Nat.exists_eq_add_of_lt (Nat.lt_of_lt_of_le (Nat.succ_pos n) h)
      rw [Nat.zero_add] at h ⊢
      have hsum : data + 1 + n = data + (n + 1) := by omega
      rw [bytesAt, List.drop_succ_cons, ih (Nat.le_of_succ_le_succ h), hsum, Nat.add_sub_add_right]

theorem take_bytesAt {n : Nat} (h : n ≤ size) :
    (bytesAt mem data size).take n = bytesAt mem data n := by
  induction n generalizing data size with
  | zero => rfl
  | succ n ih =>
      obtain ⟨size, rfl⟩ := Nat.exists_eq_add_of_lt (Nat.lt_of_lt_of_le (Nat.succ_pos n) h)
      rw [Nat.zero_add] at h ⊢
      rw [bytesAt, List.take_succ_cons, ih (Nat.le_of_succ_le_succ h), bytesAt]

/-! ## The comparison -/

theorem strncmpAt_eq (mem : Nat → UInt8) : ∀ (n data data' size size' : Nat), n ≤ size → n ≤ size' →
    strncmpAt mem data data' n = strncmp (bytesAt mem data size) (bytesAt mem data' size') n := by
  intro n
  induction n with
  | zero =>
      intro data data' size size' _ _
      rw [strncmpAt, strncmp]
  | succ n ih =>
      intro data data' size size' h h'
      obtain ⟨size, rfl⟩ := Nat.exists_eq_add_of_lt (Nat.lt_of_lt_of_le (Nat.succ_pos n) h)
      obtain ⟨size', rfl⟩ := Nat.exists_eq_add_of_lt (Nat.lt_of_lt_of_le (Nat.succ_pos n) h')
      rw [Nat.zero_add] at h h' ⊢
      rw [Nat.zero_add, bytesAt, bytesAt, strncmpAt, strncmp,
        ih _ _ size size' (Nat.le_of_succ_le_succ h) (Nat.le_of_succ_le_succ h')]

theorem View.compare_eq (l r : View) :
    l.compare mem r = StringView.compare (l.bytes mem) (r.bytes mem) := by
  have hloop := strncmpAt_eq mem _ l.data r.data l.size r.size
    (Nat.min_le_left _ _) (Nat.min_le_right _ _)
  rw [View.compare, StringView.compare, length_bytes, length_bytes, hloop]
  rfl

theorem View.eq_iff_or_blind : a.eq mem b = true ↔
    a.bytes mem = b.bytes mem ∨ Blind (a.bytes mem) (b.bytes mem) := by
  rw [View.eq, decide_eq_true_iff, compare_eq, (compare_spec _ _).2, key_eq_iff]

theorem View.lt_iff : a.lt mem b = true ↔ key (a.bytes mem) < key (b.bytes mem) := by
  rw [View.lt, decide_eq_true_iff, compare_eq, (compare_spec _ _).1]

theorem View.lt_eq_false_iff : a.lt mem b = false ↔ key (b.bytes mem) ≤ key (a.bytes mem) := by
  rw [← Bool.not_eq_true, lt_iff, not_lt]

theorem View.le_iff : a.le mem b = true ↔ key (a.bytes mem) ≤ key (b.bytes mem) := by
  rw [View.le, Bool.not_eq_true', lt_eq_false_iff]

/-! ## Parts of a view -/

theorem View.substr_eq (v : View) («from» count : Nat) :
    (v.substr «from» count).data = v.data + min «from» v.size ∧
      (v.substr «from» count).size =
        Word64.sub (min (Word64.add «from» count) v.size) (min «from» v.size) := by
  have hclip : ∀ n, (if n > v.size then v.size else n) = min n v.size := by
    intro n
    split <;> omega
  simp only [substr, hclip, and_self]

/-- Without a wrap, `Substr` drops and takes. -/
theorem View.bytes_substr (h : «from» + count < 2 ^ 64) :
    (a.substr «from» count).bytes mem = ((a.bytes mem).drop «from»).take count := by
  obtain ⟨hdata, hsize⟩ := a.substr_eq «from» count
  have hlt := a.size_lt
  rw [Word64.add_of_lt h, Word64.sub_of_le (by omega) (by omega)] at hsize
  rw [bytes, bytes, hdata, hsize]
  by_cases hfrom : «from» ≤ a.size
  · rw [Nat.min_eq_left hfrom, drop_bytesAt hfrom]
    by_cases hcount : count ≤ a.size - «from»
    · have hsum : min («from» + count) a.size - «from» = count := by omega
      rw [hsum, take_bytesAt hcount]
    · have hsum : min («from» + count) a.size - «from» = a.size - «from» := by omega
      rw [hsum, List.take_of_length_le (by rw [length_bytesAt]; omega)]
  · have hsum : min («from» + count) a.size - min «from» a.size = 0 := by omega
    rw [hsum, List.drop_eq_nil_of_le (by rw [length_bytesAt]; omega), List.take_nil, bytesAt]

/-- The length is right exactly if the end does not wrap, or wraps behind the view. -/
theorem View.bytes_substr_iff (hfrom : «from» < 2 ^ 64) (hcount : count < 2 ^ 64) :
    (a.substr «from» count).bytes mem = ((a.bytes mem).drop «from»).take count ↔
      «from» + count < 2 ^ 64 ∨ 2 ^ 64 + a.size ≤ «from» + count := by
  have hlt := a.size_lt
  by_cases hwrap : «from» + count < 2 ^ 64
  · exact iff_of_true (bytes_substr hwrap) (Or.inl hwrap)
  · obtain ⟨hdata, hsize⟩ := a.substr_eq «from» count
    have hend : Word64.add «from» count = «from» + count - 2 ^ 64 := by
      unfold Word64.add
      omega
    rw [hend] at hsize
    constructor
    · intro h
      have hlen := congrArg List.length h
      rw [length_bytes, List.length_take, List.length_drop, length_bytes, hsize] at hlen
      by_contra hrange
      have hshort : «from» + count - 2 ^ 64 < min «from» a.size := by omega
      rw [Nat.min_eq_left (by omega), Word64.sub_of_lt hshort (by omega)] at hlen
      omega
    · intro h
      have hzero : (a.substr «from» count).size = 0 := by
        rw [hsize, Nat.min_eq_right (by omega), Nat.min_eq_right (by omega),
          Word64.sub_of_le (Nat.le_refl _) hlt, Nat.sub_self]
      rw [bytes, hzero, bytesAt, List.drop_eq_nil_of_le (by rw [length_bytes]; omega),
        List.take_nil]

theorem View.startsWith_iff : a.startsWith mem b = true ↔
    b.bytes mem <+: a.bytes mem ∨ Blind ((a.bytes mem).take b.size) (b.bytes mem) := by
  have hlt := b.size_lt
  rw [startsWith, eq_iff_or_blind, bytes_substr (by omega), List.drop_zero,
    List.prefix_iff_eq_take, length_bytes, eq_comm]

theorem View.endsWith_iff : a.endsWith mem b = true ↔
    b.bytes mem <:+ a.bytes mem ∨ Blind ((a.bytes mem).drop (a.size - b.size)) (b.bytes mem) := by
  have hlt := a.size_lt
  rw [endsWith]
  by_cases hsize : b.size > a.size
  · rw [if_pos hsize]
    refine iff_of_false (by decide) ?_
    rintro (hsuffix | ⟨s, u, v, hx, hy, hlen, _⟩)
    · have hle := hsuffix.length_le
      rw [length_bytes, length_bytes] at hle
      omega
    · have hx := congrArg List.length hx
      have hy := congrArg List.length hy
      simp only [List.length_drop, length_bytes, List.length_append, List.length_cons] at hx hy
      omega
  · have htake : ((a.bytes mem).drop (a.size - b.size)).length ≤ b.size := by
      rw [List.length_drop, length_bytes]
      omega
    rw [if_neg hsize, eq_iff_or_blind, bytes_substr (by omega), List.take_of_length_le htake,
      List.suffix_iff_eq_drop, length_bytes, length_bytes, eq_comm]

/-! ## The class as a byte string -/

/-- The bytes of views that are told apart are compared as they should be, and the order
of the keys does the rest. -/
theorem isByteString_of_clear (h : Clear mem a b «from» count) (hfrom : «from» < 2 ^ 64)
    (hcount : count < 2 ^ 64) : IsByteString mem a b c «from» count := by
  have hkey : key (a.bytes mem) = key (b.bytes mem) ↔ a.bytes mem = b.bytes mem := by
    rw [key_eq_iff, or_iff_left h.whole]
  have heq : a.eq mem b = true ↔ a.bytes mem = b.bytes mem := by
    rw [View.eq_iff_or_blind, or_iff_left h.whole]
  constructor
  case compare_zero => rw [View.compare_eq, (compare_spec _ _).2, hkey]
  case eq_iff => exact heq
  case ne_iff => rw [View.ne, Bool.not_eq_true', ← Bool.not_eq_true, heq]
  case irrefl => exact View.lt_eq_false_iff.mpr (le_refl _)
  case asymm =>
    intro hlt
    exact View.lt_eq_false_iff.mpr (View.lt_iff.mp hlt).le
  case trans =>
    intro hab hbc
    exact View.lt_iff.mpr ((View.lt_iff.mp hab).trans (View.lt_iff.mp hbc))
  case total =>
    rw [View.lt_iff, View.lt_iff]
    exact (lt_or_lt_iff_ne.trans (not_congr hkey)).symm
  case gt_iff => exact Iff.rfl
  case le_iff => rw [View.le_iff, View.lt_iff, le_iff_lt_or_eq, hkey]
  case ge_iff =>
    show b.le mem a = true ↔ _
    rw [View.le_iff, View.lt_iff, le_iff_lt_or_eq, eq_comm, hkey]
  case substr => exact (View.bytes_substr_iff hfrom hcount).mpr h.range
  case startsWith => rw [View.startsWith_iff, or_iff_left h.first]
  case endsWith => rw [View.endsWith_iff, or_iff_left h.last]

theorem IsByteString.clear (h : IsByteString mem a b c «from» count) (hfrom : «from» < 2 ^ 64)
    (hcount : count < 2 ^ 64) : Clear mem a b «from» count where
  whole hblind := hblind.ne (h.eq_iff.mp (View.eq_iff_or_blind.mpr (Or.inr hblind)))
  first hblind := by
    have hprefix := h.startsWith.mp (View.startsWith_iff.mpr (Or.inr hblind))
    rw [List.prefix_iff_eq_take, View.length_bytes] at hprefix
    exact hblind.ne hprefix.symm
  last hblind := by
    have hsuffix := h.endsWith.mp (View.endsWith_iff.mpr (Or.inr hblind))
    rw [List.suffix_iff_eq_drop, View.length_bytes, View.length_bytes] at hsuffix
    exact hblind.ne hsuffix.symm
  range := (View.bytes_substr_iff hfrom hcount).mp h.substr

/-- Views behave as the byte strings that they cover, in all their comparisons and in `Substr`,
`StartsWith` and `EndsWith`, exactly if no comparison meets two strings that differ only behind a
zero byte, where `strncmp` stops, and the end of the part does not wrap into the view. -/
theorem isByteString_iff_clear (hfrom : «from» < 2 ^ 64) (hcount : count < 2 ^ 64) :
    IsByteString mem a b c «from» count ↔ Clear mem a b «from» count :=
  ⟨fun h => h.clear hfrom hcount, fun h => isByteString_of_clear h hfrom hcount⟩

/-- Two strings with a zero byte in the middle, one after the other. -/
def twoStrings (address : Nat) : UInt8 := [97, 0, 98, 97, 0, 99].getD address 0

theorem isByteString_iff_clear_two :
    IsByteString twoStrings ⟨0, 2, by decide⟩ ⟨2, 1, by decide⟩ ⟨3, 3, by decide⟩ 1 4 ↔
      Clear twoStrings ⟨0, 2, by decide⟩ ⟨2, 1, by decide⟩ 1 4 :=
  isByteString_iff_clear (by decide) (by decide)

/-- The first pair is taken for equal, the second is a part that is as long as memory. -/
theorem not_isByteString :
    ¬ IsByteString twoStrings ⟨0, 3, by decide⟩ ⟨3, 3, by decide⟩ ⟨0, 3, by decide⟩ 0 0 ∧
      ¬ IsByteString twoStrings ⟨0, 3, by decide⟩ ⟨3, 1, by decide⟩ ⟨0, 3, by decide⟩ 1
        (2 ^ 64 - 1) := by
  constructor
  · intro h
    exact absurd (h.compare_zero.mp (by decide)) (by decide)
  · intro h
    exact absurd ((View.bytes_substr_iff (by decide) (by decide)).mp h.substr) (by decide)

end Aarch64.Cxx.StringView
