import Aarch64.Lib.Arm.Memory
import Aarch64.Lib.Outcome
import Mathlib.Algebra.Group.Nat.Defs
import Mathlib.Data.List.Pairwise

/-!
# Relocation of the image

`c/relocate.c`. The linker leaves a table of the words that hold addresses, and
`__relocate` stores each of these words for the place to which the image was loaded. The
loop stays for ever at an entry of another type, and the sum of two signed numbers that does
not fit is not defined.
-/

namespace Aarch64.Boot

open Arm (Word Memory)

/-- `elf64_rela`, three words that lie one after the other. -/
structure Rela where
  offset : Word
  info : Word
  addend : Word
  deriving DecidableEq, Repr

def R_AARCH64_RELATIVE : BitVec 32 := 1027

def relaType (info : Word) : BitVec 32 := (info &&& 0xffffffff).setWidth 32

/-- The loop from `ptr` on, which takes fuel also where it stays. -/
def relocateFrom (diff «end» : Word) : Nat → Memory → Word → Option (Outcome Empty Memory)
  | 0, _, _ => none
  | fuel + 1, m, ptr =>
      if ptr = «end» then some (.ok m)
      else if relaType (m.load (ptr + 8)) ≠ R_AARCH64_RELATIVE then
        relocateFrom diff «end» fuel m ptr
      else if (m.load (ptr + 16)).saddOverflow diff then some .fault
      else
        relocateFrom diff «end» fuel (m.store (m.load ptr + diff) (m.load (ptr + 16) + diff))
          (ptr + 24)

/-- `__relocate` -/
def relocate (fuel : Nat) (m : Memory) (diff begin «end» : Word) :
    Option (Outcome Empty Memory) :=
  relocateFrom diff «end» fuel m begin

/-! ## The table -/

/-- The entries lie one after the other from `ptr` on. -/
def Table (m : Memory) : Word → List Rela → Prop
  | _, [] => True
  | ptr, e :: l =>
      (m.load ptr = e.offset ∧ m.load (ptr + 8) = e.info ∧ m.load (ptr + 16) = e.addend) ∧
        Table m (ptr + 24) l

/-- Behind the last of `n` entries. -/
def tableEnd (ptr : Word) (n : Nat) : Word := ptr + BitVec.ofNat 64 (24 * n)

/-- No word that is stored lies in the table. -/
def Clear (diff ptr : Word) (n : Nat) (l : List Rela) : Prop :=
  ∀ e ∈ l, ∀ p : Word, (p - ptr).toNat < 24 * n → 8 ≤ (p - (e.offset + diff)).toNat

/-- An entry that is stored. -/
def Rela.Relative (diff : Word) (e : Rela) : Prop :=
  relaType e.info = R_AARCH64_RELATIVE ∧ e.addend.saddOverflow diff = false

instance (diff : Word) (e : Rela) : Decidable (e.Relative diff) :=
  inferInstanceAs (Decidable (_ ∧ _))

/-- What the entries store, one after the other. -/
def relocated (diff : Word) (l : List Rela) (m : Memory) : Memory :=
  l.foldl (fun m e => m.store (e.offset + diff) (e.addend + diff)) m

variable {m m' : Memory} {diff ptr : Word} {l : List Rela} {e : Rela}

theorem add_ofNat_mul_succ (ptr : Word) (k n : Nat) :
    ptr + BitVec.ofNat 64 (k * (n + 1)) = ptr + BitVec.ofNat 64 k + BitVec.ofNat 64 (k * n) := by
  rw [Nat.mul_succ, Nat.add_comm, BitVec.ofNat_add, BitVec.add_assoc]

theorem ne_add_ofNat {n : Nat} (hpos : 0 < n) (hsize : n < 2 ^ 64) :
    ptr ≠ ptr + BitVec.ofNat 64 n := by
  intro h
  have hzero : BitVec.ofNat 64 n = 0 := by
    have hsub := congrArg (· - ptr) h
    simp only [BitVec.sub_self] at hsub
    rw [BitVec.add_comm, BitVec.add_sub_cancel] at hsub
    exact hsub.symm
  have hnat := congrArg BitVec.toNat hzero
  rw [BitVec.toNat_ofNat, Nat.mod_eq_of_lt hsize] at hnat
  exact Nat.ne_of_gt hpos hnat

theorem tableEnd_succ (ptr : Word) (n : Nat) : tableEnd ptr (n + 1) = tableEnd (ptr + 24) n :=
  add_ofNat_mul_succ ptr 24 n

theorem ne_tableEnd {n : Nat} (hsize : 24 * (n + 1) < 2 ^ 64) : ptr ≠ tableEnd ptr (n + 1) :=
  ne_add_ofNat (Nat.mul_pos (by decide) n.succ_pos) hsize

theorem Clear.tail {n : Nat} (h : Clear diff ptr (n + 1) (e :: l)) : Clear diff (ptr + 24) n l := by
  intro e' he' p hp
  refine h e' (List.mem_cons_of_mem e he') p ?_
  bv_omega

theorem Table.congr (h : Table m ptr l) (hsize : 24 * l.length < 2 ^ 64)
    (heq : ∀ p : Word, (p - ptr).toNat < 24 * l.length → m' p = m p) : Table m' ptr l := by
  induction l generalizing ptr with
  | nil => trivial
  | cons e l ih =>
      rw [List.length_cons] at hsize heq
      obtain ⟨⟨hoffset, hinfo, haddend⟩, htail⟩ := h
      have hload : ∀ k : Word, k.toNat ≤ 16 → m'.load (ptr + k) = m.load (ptr + k) := fun k hk =>
        Memory.load_congr fun p hp => heq p (by bv_omega)
      have hfirst : m'.load ptr = m.load ptr :=
        Memory.load_congr fun p hp => heq p (by omega)
      refine ⟨⟨hfirst.trans hoffset, (hload 8 (by decide)).trans hinfo,
        (hload 16 (by decide)).trans haddend⟩, ih htail (by omega) fun p hp => heq p ?_⟩
      bv_omega

/-! ## The loop -/

/-- The loop never gets past an entry of another type. -/
theorem relocateFrom_stays {«end» : Word} (hne : ptr ≠ «end»)
    (htype : relaType (m.load (ptr + 8)) ≠ R_AARCH64_RELATIVE) (fuel : Nat) :
    relocateFrom diff «end» fuel m ptr = none := by
  induction fuel with
  | zero => rfl
  | succ fuel ih =>
      rw [relocateFrom, if_neg hne, if_pos htype]
      exact ih

theorem relocateFrom_eq_ok_iff (htable : Table m ptr l) (hclear : Clear diff ptr l.length l)
    (hsize : 24 * l.length < 2 ^ 64) :
    (∃ fuel, relocateFrom diff (tableEnd ptr l.length) fuel m ptr = some (.ok m')) ↔
      (∀ e ∈ l, e.Relative diff) ∧ m' = relocated diff l m := by
  induction l generalizing m ptr with
  | nil =>
      have hend : ptr = tableEnd ptr 0 := (BitVec.add_zero ptr).symm
      constructor
      · rintro ⟨fuel, h⟩
        cases fuel with
        | zero => cases h
        | succ fuel =>
            rw [relocateFrom, List.length_nil, if_pos hend] at h
            exact ⟨List.forall_mem_nil _, (Outcome.ok.inj (Option.some.inj h)).symm⟩
      · rintro ⟨-, rfl⟩
        refine ⟨1, ?_⟩
        rw [relocateFrom, List.length_nil, if_pos hend]
  | cons e l ih =>
      rw [List.length_cons] at hclear hsize ⊢
      have hne : ptr ≠ tableEnd ptr (l.length + 1) := ne_tableEnd hsize
      have hkeeps (p : Word) (hp : (p - (ptr + 24)).toNat < 24 * l.length) :
          (m.store (e.offset + diff) (e.addend + diff)) p = m p := by
        refine Memory.store_of_le (hclear e List.mem_cons_self p ?_)
        bv_omega
      obtain ⟨⟨hoffset, hinfo, haddend⟩, htail⟩ := htable
      have hrest := ih (htail.congr (by omega) hkeeps) hclear.tail (by omega)
      rw [← tableEnd_succ] at hrest
      have hstep (fuel : Nat) (hrel : e.Relative diff) :
          relocateFrom diff (tableEnd ptr (l.length + 1)) (fuel + 1) m ptr =
            relocateFrom diff (tableEnd ptr (l.length + 1)) fuel
              (m.store (e.offset + diff) (e.addend + diff)) (ptr + 24) := by
        rw [relocateFrom, if_neg hne, hinfo, if_neg (not_not_intro hrel.1), haddend, hrel.2,
          hoffset, if_neg Bool.false_ne_true]
      constructor
      · rintro ⟨fuel, h⟩
        by_cases htype : relaType e.info = R_AARCH64_RELATIVE
        · cases fuel with
          | zero => cases h
          | succ fuel =>
              cases hover : e.addend.saddOverflow diff with
              | true =>
                  rw [relocateFrom, if_neg hne, hinfo, if_neg (not_not_intro htype), haddend, hover,
                    if_pos rfl] at h
                  cases h
              | false =>
                  rw [hstep fuel ⟨htype, hover⟩] at h
                  obtain ⟨hall, hm⟩ := hrest.mp ⟨fuel, h⟩
                  exact ⟨List.forall_mem_cons.mpr ⟨⟨htype, hover⟩, hall⟩, hm⟩
        · rw [relocateFrom_stays hne (hinfo.symm ▸ htype)] at h
          cases h
      · rintro ⟨hall, hm⟩
        obtain ⟨hrel, hall⟩ := List.forall_mem_cons.mp hall
        obtain ⟨fuel, h⟩ := hrest.mpr ⟨hall, hm⟩
        exact ⟨fuel + 1, (hstep fuel hrel).trans h⟩

/-! ## What is stored -/

/-- Two words of which no byte is shared. -/
def WordsApart (a b : Word) : Prop := 8 ≤ (b - a).toNat ∧ 8 ≤ (a - b).toNat

instance (a b : Word) : Decidable (WordsApart a b) := inferInstanceAs (Decidable (_ ∧ _))

theorem relocated_cons (diff : Word) (e : Rela) (l : List Rela) (m : Memory) :
    relocated diff (e :: l) m =
      relocated diff l (m.store (e.offset + diff) (e.addend + diff)) := rfl

theorem relocated_of_le {p : Word} (h : ∀ e ∈ l, 8 ≤ (p - (e.offset + diff)).toNat) :
    relocated diff l m p = m p := by
  induction l generalizing m with
  | nil => rfl
  | cons e l ih =>
      obtain ⟨hhead, htail⟩ := List.forall_mem_cons.mp h
      rw [relocated_cons, ih htail, Memory.store_of_le hhead]

/-- A byte that is stored does not depend on what lay there. -/
theorem relocated_congr {p : Word} (h : ∃ e ∈ l, (p - (e.offset + diff)).toNat < 8) :
    relocated diff l m p = relocated diff l m' p := by
  induction l generalizing m m' with
  | nil => simp at h
  | cons e l ih =>
      rw [relocated_cons, relocated_cons]
      by_cases hlater : ∃ e' ∈ l, (p - (e'.offset + diff)).toNat < 8
      · exact ih hlater
      · have hnone : ∀ e' ∈ l, 8 ≤ (p - (e'.offset + diff)).toNat := fun e' he' =>
          Nat.le_of_not_lt fun hlt => hlater ⟨e', he', hlt⟩
        have hhead : (p - (e.offset + diff)).toNat < 8 := by
          obtain ⟨e', he', hlt⟩ := h
          rcases List.mem_cons.mp he' with rfl | he'
          · exact hlt
          · exact absurd hlt (Nat.not_lt.mpr (hnone e' he'))
        rw [relocated_of_le hnone, relocated_of_le hnone, Memory.store, Memory.store, if_pos hhead,
          if_pos hhead]

theorem relocated_idem (diff : Word) (l : List Rela) (m : Memory) :
    relocated diff l (relocated diff l m) = relocated diff l m := by
  funext p
  by_cases h : ∃ e ∈ l, (p - (e.offset + diff)).toNat < 8
  · exact relocated_congr h
  · exact relocated_of_le fun e he => Nat.le_of_not_lt fun hlt => h ⟨e, he, hlt⟩

theorem load_relocated (hl : l.Pairwise fun e e' => WordsApart e.offset e'.offset) (he : e ∈ l) :
    (relocated diff l m).load (e.offset + diff) = e.addend + diff := by
  induction l generalizing m with
  | nil => cases he
  | cons e' l ih =>
      obtain ⟨hhead, htail⟩ := List.pairwise_cons.mp hl
      rw [relocated_cons]
      rcases List.mem_cons.mp he with rfl | he
      · have hkept : (relocated diff l (m.store (e.offset + diff) (e.addend + diff))).load
            (e.offset + diff) = (m.store (e.offset + diff) (e.addend + diff)).load
              (e.offset + diff) := by
          refine Memory.load_congr fun p hp => relocated_of_le fun e' he' => ?_
          obtain ⟨hab, hba⟩ := hhead e' he'
          bv_omega
        rw [hkept, Memory.load_store_self]
      · exact ih htail he

theorem relocated_table (htable : Table m ptr l) (hclear : Clear diff ptr l.length l)
    (hsize : 24 * l.length < 2 ^ 64) : Table (relocated diff l m) ptr l :=
  htable.congr hsize fun p hp => relocated_of_le fun e he => hclear e he p hp

/-- For a table that is not itself relocated, `__relocate` returns exactly if each entry is of
the type that it knows and no sum is out of range. Then it has changed the words that the table
names and no other byte, all of them hold the addresses of the loaded image, and to relocate
once more would change nothing. -/
theorem relocate_links (htable : Table m ptr l) (hclear : Clear diff ptr l.length l)
    (hsize : 24 * l.length < 2 ^ 64) :
    ((∃ fuel m', relocate fuel m diff ptr (tableEnd ptr l.length) = some (.ok m')) ↔
      ∀ e ∈ l, e.Relative diff) ∧
    ∀ fuel m', relocate fuel m diff ptr (tableEnd ptr l.length) = some (.ok m') →
      (∀ p : Word, (∀ e ∈ l, 8 ≤ (p - (e.offset + diff)).toNat) → m' p = m p) ∧
      ((l.Pairwise fun e e' => WordsApart e.offset e'.offset) →
        ∀ e ∈ l, m'.load (e.offset + diff) = e.addend + diff) ∧
      ∃ fuel', relocate fuel' m' diff ptr (tableEnd ptr l.length) = some (.ok m') := by
  have hiff (m' : Memory) :
      (∃ fuel, relocate fuel m diff ptr (tableEnd ptr l.length) = some (.ok m')) ↔
        (∀ e ∈ l, e.Relative diff) ∧ m' = relocated diff l m :=
    relocateFrom_eq_ok_iff htable hclear hsize
  refine ⟨⟨?_, fun hall => ?_⟩, fun fuel m' h => ?_⟩
  · rintro ⟨fuel, m', h⟩
    exact ((hiff m').mp ⟨fuel, h⟩).1
  · obtain ⟨fuel, h⟩ := (hiff (relocated diff l m)).mpr ⟨hall, rfl⟩
    exact ⟨fuel, _, h⟩
  · obtain ⟨hall, rfl⟩ := (hiff m').mp ⟨fuel, h⟩
    refine ⟨fun p hp => relocated_of_le hp, fun hl e he => load_relocated hl he, ?_⟩
    have hagain : Table (relocated diff l m) ptr l := relocated_table htable hclear hsize
    exact (relocateFrom_eq_ok_iff hagain hclear hsize).mpr ⟨hall, (relocated_idem diff l m).symm⟩

/-- A table of one entry at 0x40005000. -/
def smallImage : Memory :=
  ((Memory.store (fun _ => 0) 0x40005000 0x6000).store 0x40005008 1027).store 0x40005010 0x1000

theorem relocate_links_smallImage : ∃ fuel m',
    relocate fuel smallImage 0x40000000 0x40005000 0x40005018 = some (.ok m') ∧
      m'.load 0x40006000 = 0x40001000 := by
  have htable : Table smallImage 0x40005000 [⟨0x6000, 1027, 0x1000⟩] := by
    refine ⟨⟨?_, ?_, ?_⟩, trivial⟩ <;> decide
  have hclear : Clear 0x40000000 0x40005000 1 [⟨0x6000, 1027, 0x1000⟩] := by
    intro e he p hp
    rw [List.mem_singleton.mp he]
    bv_omega
  obtain ⟨hiff, hafter⟩ := relocate_links htable hclear (by decide)
  have hrelative : ∀ e ∈ [Rela.mk 0x6000 1027 0x1000], e.Relative 0x40000000 :=
    List.forall_mem_singleton.mpr ⟨rfl, rfl⟩
  obtain ⟨fuel, m', h⟩ := hiff.mpr hrelative
  obtain ⟨-, hlinked, -⟩ := hafter fuel m' h
  have hload := hlinked (List.pairwise_singleton _ _) _ List.mem_cons_self
  have hend : tableEnd 0x40005000 1 = 0x40005018 := by decide
  rw [List.length_singleton, hend] at h
  exact ⟨fuel, m', h, hload⟩

end Aarch64.Boot
