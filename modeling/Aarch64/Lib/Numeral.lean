import Mathlib.Data.List.Forall2
import Mathlib.Data.Nat.Digits.Lemmas

/-!
# Numerals

The symbols of an alphabet stand for the numbers below a base, in order. A numeral is a
sequence of them, most significant first, that has no leading zero unless the zero is all
of it. Every number has exactly one.
-/

namespace Numeral

variable {α : Type} {alphabet cs : List α} {base x n d : Nat} {c : α} {ds : List Nat}

/-- The digits of a number, most significant first. -/
def digits (base x : Nat) : List Nat := if x = 0 then [0] else (Nat.digits base x).reverse

/-- `cs` is how the digits `ds` are written. -/
def Writes (alphabet : List α) (base : Nat) (cs : List α) (ds : List Nat) : Prop :=
  List.Forall₂ (fun c d => d < base ∧ alphabet[d]? = some c) cs ds

/-- The symbols of a number. -/
def ofNat (alphabet : List α) (base x : Nat) : List α :=
  (digits base x).filterMap (alphabet[·]?)

/-! ## The digits of a number -/

theorem ofDigits_digits (base x : Nat) : Nat.ofDigits base (digits base x).reverse = x := by
  rw [digits]
  split
  next h => rw [h, List.reverse_singleton, Nat.ofDigits_singleton]
  next => rw [List.reverse_reverse, Nat.ofDigits_digits]

theorem lt_of_mem_digits (hbase : 1 < base) (hd : d ∈ digits base x) : d < base := by
  rw [digits] at hd
  split at hd
  next =>
    rw [List.mem_singleton.mp hd]
    omega
  next => exact Nat.digits_lt_base hbase (List.mem_reverse.mp hd)

theorem digits_ne_nil : digits base x ≠ [] := by
  rw [digits]
  split
  next => exact List.cons_ne_nil 0 []
  next h => exact List.reverse_ne_nil_iff.mpr (Nat.digits_ne_nil_iff_ne_zero.mpr h)

theorem eq_nil_of_digits_eq_zero_cons {ds : List Nat} (h : digits base x = 0 :: ds) : ds = [] := by
  rw [digits] at h
  split at h
  next =>
    cases h
    rfl
  next hx =>
    have hlast := Nat.getLast_digit_ne_zero base hx
    rw [← List.head_reverse (List.reverse_ne_nil_iff.mpr (Nat.digits_ne_nil_iff_ne_zero.mpr hx))]
      at hlast
    simp only [h, List.head_cons] at hlast
    exact absurd rfl hlast

/-- Digits without a leading zero are the digits of what they stand for. -/
theorem eq_digits (hbase : 1 < base) (hlt : ∀ d ∈ ds, d < base) (hne : ds ≠ [])
    (hzero : ∀ rest, ds = 0 :: rest → rest = []) :
    ds = digits base (Nat.ofDigits base ds.reverse) := by
  obtain ⟨d, rest, rfl⟩ := List.exists_cons_of_ne_nil hne
  by_cases hd : d = 0
  · subst hd
    rw [hzero rest rfl]
    rfl
  · have hdigits : Nat.digits base (Nat.ofDigits base (d :: rest).reverse) = (d :: rest).reverse := by
      refine Nat.digits_ofDigits base hbase _ (fun e he => hlt e (List.mem_reverse.mp he)) ?_
      intro h
      rw [List.getLast_reverse]
      exact hd
    have hx : Nat.ofDigits base (d :: rest).reverse ≠ 0 := by
      rw [← Nat.digits_ne_nil_iff_ne_zero (b := base), hdigits]
      exact List.reverse_ne_nil_iff.mpr hne
    rw [digits, if_neg hx, hdigits, List.reverse_reverse]

/-! ## Symbols for digits -/

theorem Writes.lt (h : Writes alphabet base cs ds) : ∀ d ∈ ds, d < base := by
  induction h with
  | nil => exact fun _ hd => by cases hd
  | cons hc _ ih => exact List.forall_mem_cons.mpr ⟨hc.1, ih⟩

theorem Writes.unique {cs' : List α} (h : Writes alphabet base cs ds)
    (h' : Writes alphabet base cs' ds) : cs = cs' := by
  induction h generalizing cs' with
  | nil =>
      cases h'
      rfl
  | cons hc hcs ih =>
      obtain _ | ⟨hc', hcs'⟩ := h'
      rw [Option.some.inj (hc.2.symm.trans hc'.2), ih hcs']

theorem head?_eq_iff (hnodup : alphabet.Nodup) (h : alphabet[d]? = some c) :
    some c = alphabet.head? ↔ d = 0 := by
  rw [← h, List.head?_eq_getElem?]
  constructor
  · intro heq
    obtain ⟨hd, hc⟩ := List.getElem?_eq_some_iff.mp h
    obtain ⟨hz, hc'⟩ := List.getElem?_eq_some_iff.mp (heq.symm.trans h)
    exact hnodup.getElem_inj_iff.mp (hc.trans hc'.symm)
  · rintro rfl
    rfl

theorem writes_filterMap (hlen : base ≤ alphabet.length) (h : ∀ d ∈ ds, d < base) :
    Writes alphabet base (ds.filterMap (alphabet[·]?)) ds := by
  induction ds with
  | nil => exact .nil
  | cons d ds ih =>
      obtain ⟨hd, hds⟩ := List.forall_mem_cons.mp h
      have hlt : d < alphabet.length := by omega
      have hc : alphabet[d]? = some alphabet[d] := List.getElem?_eq_getElem hlt
      rw [List.filterMap_cons, hc]
      exact .cons ⟨hd, hc⟩ (ih hds)

theorem writes_ofNat (hbase : 1 < base) (hlen : base ≤ alphabet.length) (x : Nat) :
    Writes alphabet base (ofNat alphabet base x) (digits base x) :=
  writes_filterMap hlen fun _ hd => lt_of_mem_digits hbase hd

theorem length_ofNat_le (hbase : 1 < base) (hlen : base ≤ alphabet.length) {k : Nat} (hk : 0 < k)
    (hx : x < base ^ k) : (ofNat alphabet base x).length ≤ k := by
  rw [(writes_ofNat hbase hlen x).length_eq, digits]
  split
  next => exact hk
  next =>
    rw [List.length_reverse]
    exact (Nat.digits_length_le_iff hbase x).mpr hx

/-! ## Reading symbols back -/

variable [DecidableEq α]

/-- The number below the base that a symbol stands for. -/
def digitOf (alphabet : List α) (base : Nat) (c : α) : Option Nat := (alphabet.take base).idxOf? c

/-- The number that the symbols stand for behind what stands for `n`. -/
def readFrom (alphabet : List α) (base : Nat) (n : Nat) : List α → Option Nat
  | [] => some n
  | c :: cs => do
      let d ← digitOf alphabet base c
      readFrom alphabet base (n * base + d) cs

def read (alphabet : List α) (base : Nat) (cs : List α) : Option Nat := readFrom alphabet base 0 cs

structure IsNumeral (alphabet : List α) (base x : Nat) (cs : List α) : Prop where
  ne_nil : cs ≠ []
  leading : cs.head? = alphabet.head? → cs.length = 1
  read_eq : read alphabet base cs = some x

theorem digitOf_eq_some_iff (hnodup : alphabet.Nodup) :
    digitOf alphabet base c = some d ↔ d < base ∧ alphabet[d]? = some c := by
  have hread : (alphabet.take base)[d]? = some c ↔ d < base ∧ alphabet[d]? = some c := by
    rw [List.getElem?_take]
    split
    next hd => exact (and_iff_right hd).symm
    next hd => exact iff_of_false (by simp) fun h => hd h.1
  rw [← hread, digitOf, List.idxOf?_eq_some_iff, List.getElem?_eq_some_iff]
  constructor
  · rintro ⟨hd, hc, -⟩
    exact ⟨hd, hc⟩
  · rintro ⟨hd, hc⟩
    refine ⟨hd, hc, fun j hj heq => ?_⟩
    have hnodup' : (alphabet.take base).Nodup := hnodup.sublist (List.take_sublist base alphabet)
    exact absurd ((hnodup'.getElem_inj_iff).mp (heq.trans hc.symm)) (by omega)

theorem readFrom_of_writes (hnodup : alphabet.Nodup) (h : Writes alphabet base cs ds) (n : Nat) :
    readFrom alphabet base n cs =
      some (n * base ^ ds.length + Nat.ofDigits base ds.reverse) := by
  induction h generalizing n with
  | nil => simp [readFrom]
  | @cons c d cs ds hc hcs ih =>
      rw [readFrom, (digitOf_eq_some_iff hnodup).mpr hc, Option.bind_eq_bind, Option.bind_some, ih,
        List.reverse_cons, Nat.ofDigits_append, Nat.ofDigits_singleton, List.length_reverse,
        List.length_cons]
      congr 1
      ring

theorem exists_writes_of_readFrom (hnodup : alphabet.Nodup)
    (h : readFrom alphabet base n cs = some x) : ∃ ds, Writes alphabet base cs ds := by
  induction cs generalizing n with
  | nil => exact ⟨[], .nil⟩
  | cons c cs ih =>
      obtain ⟨d, hd, hrest⟩ := Option.bind_eq_some_iff.mp h
      obtain ⟨ds, hds⟩ := ih hrest
      exact ⟨d :: ds, .cons ((digitOf_eq_some_iff hnodup).mp hd) hds⟩

theorem isNumeral_ofNat (hnodup : alphabet.Nodup) (hbase : 1 < base)
    (hlen : base ≤ alphabet.length) (x : Nat) :
    IsNumeral alphabet base x (ofNat alphabet base x) := by
  have hwrites := writes_ofNat hbase hlen x
  have hread := readFrom_of_writes hnodup hwrites 0
  rw [Nat.zero_mul, Nat.zero_add, ofDigits_digits] at hread
  generalize hds : digits base x = ds at hwrites
  generalize ofNat alphabet base x = cs at hwrites hread ⊢
  cases hwrites with
  | nil => exact absurd hds digits_ne_nil
  | @cons c d cs ds hc hcs =>
      refine ⟨List.cons_ne_nil c cs, fun hhead => ?_, hread⟩
      have hd : d = 0 := (head?_eq_iff hnodup hc.2).mp hhead
      subst hd
      rw [eq_nil_of_digits_eq_zero_cons hds] at hcs
      rw [List.forall₂_nil_right_iff.mp hcs, List.length_singleton]

theorem IsNumeral.eq_ofNat (hnodup : alphabet.Nodup) (hbase : 1 < base)
    (hlen : base ≤ alphabet.length) (h : IsNumeral alphabet base x cs) :
    cs = ofNat alphabet base x := by
  obtain ⟨ds, hds⟩ := exists_writes_of_readFrom hnodup h.read_eq
  have hread := h.read_eq.symm.trans (readFrom_of_writes hnodup hds 0)
  rw [Nat.zero_mul, Nat.zero_add, Option.some.injEq] at hread
  have hne : ds ≠ [] := by
    rintro rfl
    exact h.ne_nil (List.forall₂_nil_right_iff.mp hds)
  have hzero : ∀ rest, ds = 0 :: rest → rest = [] := by
    rintro rest rfl
    obtain _ | ⟨hc, hrest⟩ := hds
    have hone := h.leading ((head?_eq_iff hnodup hc.2).mpr rfl)
    have hlength := hrest.length_eq
    rw [List.length_cons] at hone
    exact List.eq_nil_of_length_eq_zero (by omega)
  have hdigits := eq_digits hbase hds.lt hne hzero
  rw [← hread] at hdigits
  rw [hdigits] at hds
  exact hds.unique (writes_ofNat hbase hlen x)

end Numeral
