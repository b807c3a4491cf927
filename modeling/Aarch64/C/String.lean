import Aarch64.Cxx.Heap.Basic
import Aarch64.Cxx.StringView.Views

/-!
# The C library

`memcpy` and `strlen` of `c/string.c`, over memory that maps addresses to bytes. `strncmp` is
with the class that calls it. `memcpy` copies the first byte first, which shows where the
target begins inside the source.
-/

namespace Aarch64.C

open Cxx (Heap.memcpy)
open Cxx.StringView

/-- The loop of `memcpy`, which gives up when it has no fuel. -/
def memcpyFrom (dst src n : Nat) : Nat → Nat → (Nat → UInt8) → Option (Nat → UInt8)
  | 0, _, _ => none
  | fuel + 1, i, mem =>
      if i < n then
        memcpyFrom dst src n fuel (i + 1) (Function.update mem (dst + i) (mem (src + i)))
      else some mem

def memcpy (fuel : Nat) (mem : Nat → UInt8) (dst src n : Nat) : Option (Nat → UInt8) :=
  memcpyFrom dst src n fuel 0 mem

/-- The loop of `strlen`, with its pointer. -/
def strlenFrom (mem : Nat → UInt8) : Nat → Nat → Option Nat
  | 0, _ => none
  | fuel + 1, str => if mem str ≠ 0 then strlenFrom mem fuel (str + 1) else some str

def strlen (fuel : Nat) (mem : Nat → UInt8) (str : Nat) : Option Nat := do
  let «end» ← strlenFrom mem fuel str
  return «end» - str

variable {mem mem' : Nat → UInt8} {dst src n i fuel : Nat}

/-! ## Copies -/

/-- The copied bytes. Where the target begins inside the source, the bytes in front of the
target are repeated. -/
def copied (mem : Nat → UInt8) (dst src n : Nat) : Nat → UInt8 :=
  fun a => if dst ≤ a ∧ a < dst + n then mem (src + (a - dst) % (dst - src)) else mem a

theorem copied_of_mem (mem : Nat → UInt8) (dst src : Nat) (hi : i < n) :
    copied mem dst src n (dst + i) = mem (src + i % (dst - src)) := by
  rw [copied, if_pos ⟨Nat.le_add_right _ _, Nat.add_lt_add_left hi _⟩, Nat.add_sub_cancel_left]

/-- A byte of the source after `i` bytes. If it lies in the target, it was copied from as far
in front of it as the target is behind the source. -/
theorem copied_src (mem : Nat → UInt8) (dst src i : Nat) :
    copied mem dst src i (src + i) = mem (src + i % (dst - src)) := by
  by_cases hin : dst ≤ src + i ∧ src + i < dst + i
  · obtain ⟨hle, hlt⟩ := hin
    have hsub : src + i - dst = i - (dst - src) := by omega
    rw [copied, if_pos ⟨hle, hlt⟩, hsub, Nat.mod_eq_sub_mod (show i ≥ dst - src by omega)]
  · rw [copied, if_neg hin]
    by_cases hzero : dst - src = 0
    · rw [hzero, Nat.mod_zero]
    · rw [Nat.mod_eq_of_lt (by omega)]

theorem copied_succ (mem : Nat → UInt8) (dst src i : Nat) :
    Function.update (copied mem dst src i) (dst + i) (copied mem dst src i (src + i)) =
      copied mem dst src (i + 1) := by
  funext a
  rw [copied_src]
  by_cases ha : a = dst + i
  · rw [ha, Function.update_self, copied_of_mem mem dst src i.lt_succ_self]
  · rw [Function.update_of_ne ha, copied, copied]
    exact if_congr (by omega) rfl rfl

theorem memcpyFrom_eq (mem : Nat → UInt8) (dst src : Nat) (hi : i ≤ n) (hfuel : n < fuel + i) :
    memcpyFrom dst src n fuel i (copied mem dst src i) = some (copied mem dst src n) := by
  induction fuel generalizing i with
  | zero => omega
  | succ fuel ih =>
      rw [memcpyFrom]
      by_cases hlt : i < n
      · rw [if_pos hlt, copied_succ]
        exact ih hlt (by omega)
      · have heq : i = n := by omega
        rw [if_neg hlt, heq]

theorem memcpy_eq (mem : Nat → UInt8) (dst src : Nat) (hfuel : n < fuel) :
    memcpy fuel mem dst src n = some (copied mem dst src n) := by
  have hstart : copied mem dst src 0 = mem := by
    funext a
    exact if_neg (by omega)
  have hrun := memcpyFrom_eq mem dst src (Nat.zero_le n) hfuel
  rwa [hstart] at hrun

/-- The bytes repeat with a period if each equals the one a period earlier. -/
theorem mod_of_periodic {f : Nat → UInt8} {d : Nat} (h : ∀ i, d ≤ i → i < n → f i = f (i - d)) :
    ∀ i < n, f (i % d) = f i := by
  intro i hi
  induction i using Nat.strong_induction_on with
  | _ i ih =>
      by_cases hlt : i < d
      · rw [Nat.mod_eq_of_lt hlt]
      · have hle : d ≤ i := Nat.le_of_not_lt hlt
        cases Nat.eq_zero_or_pos d with
        | inl hzero => rw [hzero, Nat.mod_zero]
        | inr hpos => rw [Nat.mod_eq_sub_mod hle, ih (i - d) (by omega) (by omega), h i hle hi]

/-- The source arrives in the target exactly if the target does not begin inside it, or if the
source repeats itself there. -/
theorem copied_eq_memcpy_iff (mem : Nat → UInt8) (dst src n : Nat) :
    copied mem dst src n = Heap.memcpy mem dst src n ↔
      (src < dst → ∀ i, dst ≤ src + i → i < n → mem (src + i) = mem (src + i - (dst - src))) := by
  have hbyte {i : Nat} (hi : i < n) : Heap.memcpy mem dst src n (dst + i) = mem (src + i) := by
    rw [Heap.memcpy, if_pos ⟨Nat.le_add_right _ _, Nat.add_lt_add_left hi _⟩,
      Nat.add_sub_cancel_left]
  constructor
  · intro h hlt i hle hi
    have hfirst : mem (src + i % (dst - src)) = mem (src + i) := by
      rw [← copied_of_mem mem dst src hi, h, hbyte hi]
    have hsecond : mem (src + (i - (dst - src)) % (dst - src)) = mem (src + (i - (dst - src))) := by
      have hi' : i - (dst - src) < n := by omega
      rw [← copied_of_mem mem dst src hi', h, hbyte hi']
    rw [← hfirst, Nat.mod_eq_sub_mod (by omega), hsecond, Nat.add_sub_assoc (by omega)]
  · intro h
    funext a
    by_cases ha : dst ≤ a ∧ a < dst + n
    · obtain ⟨i, rfl⟩ := Nat.exists_eq_add_of_le ha.1
      have hi : i < n := by omega
      rw [copied_of_mem mem dst src hi, hbyte hi]
      cases Nat.lt_or_ge src dst with
      | inl hlt =>
          refine mod_of_periodic (f := fun i => mem (src + i)) (fun j hj hn => ?_) i hi
          have hsub : src + (j - (dst - src)) = src + j - (dst - src) := by omega
          rw [hsub]
          exact h hlt j (by omega) hn
      | inr hge => rw [Nat.sub_eq_zero_of_le hge, Nat.mod_zero]
    · rw [copied, Heap.memcpy, if_neg ha, if_neg ha]

/-- `memcpy` returns for every target and source and writes nothing outside the target. Behind a
target that begins inside the source it repeats the bytes in front of the target, since it copies
the first byte first, and it moves the source exactly if that makes no difference. -/
theorem memcpy_repeats (mem : Nat → UInt8) (dst src n : Nat) :
    ∃ mem', (∀ fuel, n < fuel → memcpy fuel mem dst src n = some mem') ∧
      (∀ i < n, mem' (dst + i) = mem (src + i % (dst - src))) ∧
      (∀ a, a < dst ∨ dst + n ≤ a → mem' a = mem a) ∧
      (mem' = Heap.memcpy mem dst src n ↔
        (src < dst → ∀ i, dst ≤ src + i → i < n →
          mem (src + i) = mem (src + i - (dst - src)))) :=
  ⟨copied mem dst src n, fun _ hfuel => memcpy_eq mem dst src hfuel,
    fun _ hi => copied_of_mem mem dst src hi, fun _ ha => if_neg (by omega),
    copied_eq_memcpy_iff mem dst src n⟩

/-! ## Strings -/

theorem strlenFrom_eq_some_iff {str «end» : Nat} : (∃ fuel, strlenFrom mem fuel str = some «end») ↔
    str ≤ «end» ∧ mem «end» = 0 ∧ ∀ p, str ≤ p → p < «end» → mem p ≠ 0 := by
  constructor
  · rintro ⟨fuel, h⟩
    induction fuel generalizing str with
    | zero => cases h
    | succ fuel ih =>
        rw [strlenFrom] at h
        split at h
        next hne =>
          obtain ⟨hle, hzero, hbefore⟩ := ih h
          refine ⟨Nat.le_of_succ_le hle, hzero, fun p hp hlt => ?_⟩
          rcases Nat.eq_or_lt_of_le hp with rfl | hp
          · exact hne
          · exact hbefore p hp hlt
        next hzero =>
          obtain rfl := Option.some.inj h
          exact ⟨Nat.le_refl _, not_not.mp hzero, fun p hp hlt => absurd hp (Nat.not_le.mpr hlt)⟩
  · rintro ⟨hle, hzero, hbefore⟩
    obtain ⟨k, rfl⟩ := Nat.exists_eq_add_of_le hle
    induction k generalizing str with
    | zero =>
        rw [Nat.add_zero] at hzero ⊢
        exact ⟨1, by rw [strlenFrom, if_neg (not_not_intro hzero)]⟩
    | succ k ih =>
        have hne : mem str ≠ 0 := hbefore str (Nat.le_refl _) (by omega)
        have hadd : str + 1 + k = str + (k + 1) := by omega
        obtain ⟨fuel, h⟩ := ih (Nat.le_add_right _ _) (hadd ▸ hzero) fun p hp hlt =>
          hbefore p (Nat.le_of_succ_le hp) (by omega)
        refine ⟨fuel + 1, ?_⟩
        rw [strlenFrom, if_pos hne, h, hadd]

theorem strlen_eq_some_iff {str size : Nat} : (∃ fuel, strlen fuel mem str = some size) ↔
    mem (str + size) = 0 ∧ ∀ i < size, mem (str + i) ≠ 0 := by
  have hfrom (fuel : Nat) : strlen fuel mem str = some size ↔
      ∃ «end», strlenFrom mem fuel str = some «end» ∧ «end» - str = size := by
    rw [strlen, Option.bind_eq_bind, Option.bind_eq_some_iff]
    exact exists_congr fun «end» => and_congr_right fun _ => Option.some_inj
  constructor
  · rintro ⟨fuel, h⟩
    obtain ⟨«end», hfound, rfl⟩ := (hfrom fuel).mp h
    obtain ⟨hle, hzero, hbefore⟩ := strlenFrom_eq_some_iff.mp ⟨fuel, hfound⟩
    rw [Nat.add_sub_cancel' hle]
    exact ⟨hzero, fun i hi => hbefore _ (Nat.le_add_right _ _) (by omega)⟩
  · rintro ⟨hzero, hbefore⟩
    obtain ⟨fuel, h⟩ := strlenFrom_eq_some_iff.mpr ⟨Nat.le_add_right str size, hzero,
      fun p hp hlt => by
        obtain ⟨i, rfl⟩ := Nat.exists_eq_add_of_le hp
        exact hbefore i (by omega)⟩
    exact ⟨fuel, (hfrom fuel).mpr ⟨_, h, Nat.add_sub_cancel_left _ _⟩⟩

/-! ## Views of strings

`StringView(const char*)` takes the length from `strlen`. -/

/-- A view that was made from a string. -/
def IsString (mem : Nat → UInt8) (v : View) : Prop := ∃ fuel, strlen fuel mem v.data = some v.size

variable {a b : View}

theorem mem_bytesAt {x : UInt8} {data size : Nat} (h : x ∈ bytesAt mem data size) :
    ∃ i < size, x = mem (data + i) := by
  induction size generalizing data with
  | zero => cases h
  | succ size ih =>
      rcases List.mem_cons.mp h with rfl | h
      · exact ⟨0, Nat.succ_pos size, rfl⟩
      · obtain ⟨i, hi, rfl⟩ := ih h
        exact ⟨i + 1, Nat.succ_lt_succ hi, congrArg mem (by omega)⟩

theorem IsString.zero_notMem (h : IsString mem a) : 0 ∉ a.bytes mem := by
  intro hzero
  obtain ⟨i, hi, heq⟩ := mem_bytesAt hzero
  exact (strlen_eq_some_iff.mp h).2 i hi heq.symm

theorem not_blind_of_notMem {x y : List UInt8} (h : 0 ∉ x) : ¬ Blind x y := by
  rintro ⟨s, u, v, rfl, -⟩
  exact h (List.mem_append_right s List.mem_cons_self)

theorem not_blind_of_notMem_right {x y : List UInt8} (h : 0 ∉ y) : ¬ Blind x y := by
  rintro ⟨s, u, v, -, rfl, -⟩
  exact h (List.mem_append_right s List.mem_cons_self)

/-- Where one of the strings has no zero byte, the keys are in the order of the bytes. -/
theorem key_lt_iff_of_or {x y : List UInt8} (h : 0 ∉ x ∨ 0 ∉ y) : key x < key y ↔ x < y := by
  induction x generalizing y with
  | nil =>
      cases y with
      | nil => exact iff_of_false (lt_irrefl _) (List.not_lt_nil _)
      | cons b r => exact iff_of_true (key_nil_lt b r) (List.nil_lt_cons b r)
  | cons c l ih =>
      cases y with
      | nil => exact iff_of_false (key_nil_lt c l).asymm (List.not_lt_nil _)
      | cons b r =>
          rw [List.cons_lt_cons_iff]
          rcases byte_trichotomy c b with hlt | rfl | hlt
          · exact iff_of_true (key_lt_of_lt hlt) (Or.inl hlt)
          · simp only [List.mem_cons, not_or] at h
            have hc : c ≠ 0 := fun hzero => h.elim (fun hx => hx.1 hzero.symm)
              fun hy => hy.1 hzero.symm
            rw [key_cons_lt_iff hc, ih (h.imp And.right And.right)]
            exact ⟨fun hlt => Or.inr ⟨rfl, hlt⟩,
              fun hcases => hcases.elim (fun hlt => absurd hlt (UInt8.lt_irrefl c)) And.right⟩
          · refine iff_of_false (key_lt_of_lt hlt).asymm ?_
            rintro (hlt' | ⟨rfl, -⟩)
            · exact UInt8.lt_asymm hlt hlt'
            · exact UInt8.lt_irrefl c hlt

/-- A view of a string, or its argument, has no zero byte, and then nothing is missed: the sign of
the comparison is the order of the bytes, and the tests of both ends are those for prefixes and
suffixes. -/
theorem string_views (h : IsString mem a ∨ IsString mem b) :
    (a.compare mem b < 0 ↔ a.bytes mem < b.bytes mem) ∧
    (a.compare mem b = 0 ↔ a.bytes mem = b.bytes mem) ∧
    (0 < a.compare mem b ↔ b.bytes mem < a.bytes mem) ∧
    (a.startsWith mem b = true ↔ b.bytes mem <+: a.bytes mem) ∧
    (a.endsWith mem b = true ↔ b.bytes mem <:+ a.bytes mem) := by
  have hzero : 0 ∉ a.bytes mem ∨ 0 ∉ b.bytes mem := h.imp IsString.zero_notMem IsString.zero_notMem
  have hblind (x : List UInt8) (hx : x ⊆ a.bytes mem) : ¬ Blind x (b.bytes mem) := by
    rcases hzero with ha | hb
    · exact not_blind_of_notMem fun hmem => ha (hx hmem)
    · exact not_blind_of_notMem_right hb
  obtain ⟨hlt, heq⟩ := compare_spec (a.bytes mem) (b.bytes mem)
  have hkey : key (a.bytes mem) = key (b.bytes mem) ↔ a.bytes mem = b.bytes mem := by
    rw [key_eq_iff, or_iff_left (hblind _ (List.Subset.refl _))]
  rw [View.compare_eq, View.startsWith_iff, View.endsWith_iff,
    or_iff_left (hblind _ (List.take_subset _ _)), or_iff_left (hblind _ (List.drop_subset _ _))]
  refine ⟨hlt.trans (key_lt_iff_of_or hzero), heq.trans hkey, ?_, Iff.rfl, Iff.rfl⟩
  rw [← key_lt_iff_of_or hzero.symm, lt_iff_not_ge (a := key (b.bytes mem)), le_iff_lt_or_eq,
    ← hlt, ← heq]
  omega

/-- The strings "ab" and "b" behind each other. -/
def twoTexts (address : Nat) : UInt8 := [97, 98, 0, 98, 0].getD address 0

theorem string_views_twoTexts :
    View.endsWith twoTexts ⟨0, 2, by decide⟩ ⟨3, 1, by decide⟩ = true := by
  have hstring : IsString twoTexts ⟨0, 2, by decide⟩ := ⟨3, by decide⟩
  obtain ⟨-, -, -, -, hends⟩ := string_views (b := ⟨3, 1, by decide⟩) (Or.inl hstring)
  exact hends.mpr ⟨[97], rfl⟩

end Aarch64.C
