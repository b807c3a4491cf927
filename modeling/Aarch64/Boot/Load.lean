import Aarch64.Boot.Relocate
import Aarch64.Boot.Start

/-!
# A loaded image

What `bootstrap/start.S`, `c/relocate.c` and `__constructors` of `cc/ccrt.cc` do together. The
array of constructors holds addresses, so its words are among those that `__relocate` stores.
-/

namespace Aarch64.Boot

open Arm (Word Memory)

/-! ## Constructors -/

/-- The loop from `ctor` on. The code at an address does `run` to the memory, if it returns. -/
def constructorsFrom (run : Word → Memory → Option Memory) («to» : Word) :
    Nat → Memory → Word → Option Memory
  | 0, _, _ => none
  | fuel + 1, m, ctor =>
      if ctor = «to» then some m
      else do
        let m ← run (m.load ctor) m
        constructorsFrom run «to» fuel m (ctor + 8)

/-- `__constructors` -/
def constructors (run : Word → Memory → Option Memory) (fuel : Nat) (m : Memory)
    («from» «to» : Word) : Option Memory :=
  constructorsFrom run «to» fuel m «from»

/-- The words lie one after the other from `ptr` on. -/
def Words (m : Memory) : Word → List Word → Prop
  | _, [] => True
  | ptr, f :: fs => m.load ptr = f ∧ Words m (ptr + 8) fs

/-- Behind the last of `n` words. -/
def wordsEnd (ptr : Word) (n : Nat) : Word := ptr + BitVec.ofNat 64 (8 * n)

/-- No constructor changes the first `size` bytes from `ptr` on. -/
def Keeps (run : Word → Memory → Option Memory) (ptr : Word) (size : Nat) : Prop :=
  ∀ f m m', run f m = some m' → ∀ p : Word, (p - ptr).toNat < size → m' p = m p

variable {run : Word → Memory → Option Memory} {m m' : Memory} {ptr diff : Word}
  {fs : List Word} {l : List Rela}

theorem Words.congr (h : Words m ptr fs) (hsize : 8 * fs.length < 2 ^ 64)
    (heq : ∀ p : Word, (p - ptr).toNat < 8 * fs.length → m' p = m p) : Words m' ptr fs := by
  induction fs generalizing ptr with
  | nil => trivial
  | cons f fs ih =>
      rw [List.length_cons] at hsize heq
      obtain ⟨hfirst, htail⟩ := h
      have hload : m'.load ptr = m.load ptr := Memory.load_congr fun p hp => heq p (by omega)
      refine ⟨hload.trans hfirst, ih htail (by omega) fun p hp => heq p ?_⟩
      bv_omega

/-- Every constructor of the array is called, in the order of the array, until one does not
return. -/
theorem constructorsFrom_eq_some_iff (hwords : Words m ptr fs)
    (hkeeps : Keeps run ptr (8 * fs.length)) (hsize : 8 * fs.length < 2 ^ 64) :
    (∃ fuel, constructorsFrom run (wordsEnd ptr fs.length) fuel m ptr = some m') ↔
      fs.foldlM (fun m f => run f m) m = some m' := by
  induction fs generalizing m ptr with
  | nil =>
      have hend : ptr = wordsEnd ptr 0 := (BitVec.add_zero ptr).symm
      constructor
      · rintro ⟨fuel, h⟩
        cases fuel with
        | zero => cases h
        | succ fuel => rwa [constructorsFrom, List.length_nil, if_pos hend] at h
      · intro h
        refine ⟨1, ?_⟩
        rwa [constructorsFrom, List.length_nil, if_pos hend]
  | cons f fs ih =>
      rw [List.length_cons] at hkeeps hsize ⊢
      obtain ⟨hfirst, htail⟩ := hwords
      have hne : ptr ≠ wordsEnd ptr (fs.length + 1) := ne_add_ofNat (by omega) hsize
      have hend : wordsEnd ptr (fs.length + 1) = wordsEnd (ptr + 8) fs.length :=
        add_ofNat_mul_succ ptr 8 fs.length
      have hkeeps' : Keeps run (ptr + 8) (8 * fs.length) := by
        intro f m m' h p hp
        refine hkeeps f m m' h p ?_
        bv_omega
      -- The rest of the array is still there when the first constructor has returned.
      have hrest (m₁ : Memory) (h : run f m = some m₁) :
          (∃ fuel, constructorsFrom run (wordsEnd ptr (fs.length + 1)) fuel m₁ (ptr + 8) =
            some m') ↔ fs.foldlM (fun m f => run f m) m₁ = some m' := by
        rw [hend]
        exact ih (htail.congr (by omega) (hkeeps' f m m₁ h)) hkeeps' (by omega)
      rw [List.foldlM_cons, Option.bind_eq_bind, Option.bind_eq_some_iff]
      constructor
      · rintro ⟨fuel, h⟩
        cases fuel with
        | zero => cases h
        | succ fuel =>
            rw [constructorsFrom, if_neg hne, hfirst, Option.bind_eq_bind,
              Option.bind_eq_some_iff] at h
            obtain ⟨m₁, hrun, hloop⟩ := h
            exact ⟨m₁, hrun, (hrest m₁ hrun).mp ⟨fuel, hloop⟩⟩
      · rintro ⟨m₁, hrun, hfold⟩
        obtain ⟨fuel, hloop⟩ := (hrest m₁ hrun).mpr hfold
        refine ⟨fuel + 1, ?_⟩
        rw [constructorsFrom, if_neg hne, hfirst, hrun]
        exact hloop

/-! ## The image -/

/-- The table names the words from `ptr` on, which hold the addresses `fs`. -/
def Named (l : List Rela) : Word → List Word → Prop
  | _, [] => True
  | ptr, f :: fs => (∃ info, ⟨ptr, info, f⟩ ∈ l) ∧ Named l (ptr + 8) fs

theorem add_moved (a b diff : Word) : a + b + diff = a + diff + b := by
  rw [BitVec.add_assoc, BitVec.add_comm b diff, ← BitVec.add_assoc]

theorem Named.words (h : Named l ptr fs)
    (hlinked : ∀ e ∈ l, m.load (e.offset + diff) = e.addend + diff) :
    Words m (ptr + diff) (fs.map (· + diff)) := by
  induction fs generalizing ptr with
  | nil => trivial
  | cons f fs ih =>
      obtain ⟨⟨info, hmem⟩, htail⟩ := h
      have hrest : Words m (ptr + diff + 8) (fs.map (· + diff)) := add_moved ptr 8 diff ▸ ih htail
      rw [List.map_cons, Words]
      exact ⟨hlinked ⟨ptr, info, f⟩ hmem, hrest⟩

open Start

/-- An image that was loaded `bias` bytes behind its place, with the table `l` and an array of
the constructors `ctors`. The table names neither itself nor the stack. -/
structure Image (link : Symbol → Word) (bias : Word) (stack : Set Word) (m : Memory)
    (l : List Rela) (ctors : List Word) : Prop where
  table : Table m (link .relaBegin + bias) l
  relaEnd : link .relaEnd = tableEnd (link .relaBegin) l.length
  relaSize : 24 * l.length < 2 ^ 64
  clear : Clear bias (link .relaBegin + bias) l.length l
  apart : l.Pairwise fun e e' => WordsApart e.offset e'.offset
  stack : ∀ e ∈ l, ∀ p : Word, (p - (e.offset + bias)).toNat < 8 → p ∉ stack
  named : Named l (link .initBegin) ctors
  initEnd : link .initEnd = wordsEnd (link .initBegin) ctors.length
  initSize : 8 * ctors.length < 2 ^ 64

variable {link : Symbol → Word} {bias : Word} {stack : Set Word} {ctors : List Word}
  {s : Arm.Levels.State}

theorem Image.relocate_eq_ok_iff (h : Image link bias stack m l ctors) :
    (∃ fuel, relocate fuel m bias (link .relaBegin + bias) (link .relaEnd + bias) =
      some (.ok m')) ↔ (∀ e ∈ l, e.Relative bias) ∧ m' = relocated bias l m := by
  have hend : link .relaEnd + bias = tableEnd (link .relaBegin + bias) l.length := by
    rw [h.relaEnd, tableEnd, tableEnd, add_moved]
  rw [hend]
  exact relocateFrom_eq_ok_iff h.table h.clear h.relaSize

/-- Functions may use the stack, which the table does not name. -/
theorem Image.load_named (h : Image link bias stack m l ctors)
    (hm : ∀ p ∉ stack, m' p = relocated bias l m p) :
    ∀ e ∈ l, m'.load (e.offset + bias) = e.addend + bias := by
  intro e he
  rw [← load_relocated (m := m) h.apart he]
  exact Memory.load_congr fun p hp => hm p (h.stack e he p hp)

theorem Image.constructors_eq_some_iff {m₀ : Memory} (h : Image link bias stack m₀ l ctors)
    (hlinked : ∀ e ∈ l, m.load (e.offset + bias) = e.addend + bias)
    (hkeeps : Keeps run (link .initBegin + bias) (8 * ctors.length)) :
    (∃ fuel, constructors run fuel m (link .initBegin + bias) (link .initEnd + bias) =
      some m') ↔ ctors.foldlM (fun m f => run (f + bias) m) m = some m' := by
  have hend : link .initEnd + bias = wordsEnd (link .initBegin + bias) ctors.length := by
    rw [h.initEnd, wordsEnd, wordsEnd, add_moved]
  have hlength : (ctors.map (· + bias)).length = ctors.length := List.length_map _
  have hcalls : (∃ fuel, constructorsFrom run
      (wordsEnd (link .initBegin + bias) (ctors.map (· + bias)).length) fuel m
        (link .initBegin + bias) = some m') ↔
      (ctors.map (· + bias)).foldlM (fun m f => run f m) m = some m' :=
    constructorsFrom_eq_some_iff (h.named.words hlinked) (hlength.symm ▸ hkeeps)
      (hlength.symm ▸ h.initSize)
  rw [hlength, List.foldlM_map] at hcalls
  rw [hend]
  exact hcalls

/-- From the loader to `kernel`, link by link. Entered above level 1, the code calls `__relocate`,
which returns exactly if it knows every entry of the table. When it has returned, whatever it left
on the stack, every word that the table names holds the address at which its target was loaded and
the rest of the memory is as the loader left it, and `__constructors` is called. It calls every
constructor where it was loaded, in the order of the table, as long as none of them overwrites that
table. When it has returned, `kernel` is called on the prepared level 2 with the arguments of the
loader. -/
theorem boot_links (h : Linked link) (hpc : s.pc = link .start + bias) (hlevel : 2 ≤ s.el)
    (himage : Image link bias stack s.mem l ctors) :
    ∃ t, (program link bias).Steps s t ∧ t.pc = link .relocate + bias ∧
      ((∃ fuel m, relocate fuel t.mem (t.x 0) (t.x 1) (t.x 2) = some (.ok m)) ↔
        ∀ e ∈ l, e.Relative bias) ∧
    ∀ fuel m t', relocate fuel t.mem (t.x 0) (t.x 1) (t.x 2) = some (.ok m) → Returned t t' →
      (∀ p ∉ stack, t'.mem p = m p) →
    ∃ u, (program link bias).Steps t' u ∧ u.pc = link .constructors + bias ∧
      (∀ e ∈ l, u.mem.load (e.offset + bias) = e.addend + bias) ∧
      (∀ p ∉ stack, (∀ e ∈ l, 8 ≤ (p - (e.offset + bias)).toNat) → u.mem p = s.mem p) ∧
    ∀ run, Keeps run (link .initBegin + bias) (8 * ctors.length) →
      (∀ m, (∃ fuel, constructors run fuel u.mem (u.x 0) (u.x 1) = some m) ↔
        ctors.foldlM (fun m f => run (f + bias) m) u.mem = some m) ∧
    ∀ u', Returned u u' → ∃ k, (program link bias).Steps u' k ∧ k.pc = link .kernel + bias ∧
      (k.x 0 = s.x 0 ∧ k.x 1 = s.x 1) ∧ k.mem = u'.mem ∧ Prepared link bias s k := by
  have hplace : s.pc = (program link bias).place 0 :=
    hpc.trans (Arm.Levels.Program.place_zero (program link bias)).symm
  obtain ⟨t, hsteps, ht, hbias, hbegin, hend, hlink, hmem, hprepared⟩ :=
    steps_relocate h hplace hlevel
  refine ⟨t, hsteps, ht, ?_, ?_⟩
  · rw [hmem, hbias, hbegin, hend]
    constructor
    · rintro ⟨fuel, m, hrelocate⟩
      exact (himage.relocate_eq_ok_iff.mp ⟨fuel, hrelocate⟩).1
    · intro hall
      obtain ⟨fuel, hrelocate⟩ := himage.relocate_eq_ok_iff.mpr ⟨hall, rfl⟩
      exact ⟨fuel, _, hrelocate⟩
  intro fuel m t' hrelocate ht' hstack
  rw [hmem, hbias, hbegin, hend] at hrelocate
  obtain ⟨-, rfl⟩ := himage.relocate_eq_ok_iff.mp ⟨fuel, hrelocate⟩
  obtain ⟨u, hsteps, hu, hfrom, hto, hlink, hmem, hkept⟩ := steps_constructors (ht'.pc.trans hlink)
  have hprepared' := hkept s (ht'.prepared hprepared)
  rw [← hmem] at hstack
  have hlinked := himage.load_named hstack
  refine ⟨u, hsteps, hu, hlinked, fun p hp hout => (hstack p hp).trans (relocated_of_le hout),
    fun run hkeeps => ⟨fun m => ?_, fun u' hu' => ?_⟩⟩
  · rw [hfrom, hto]
    exact himage.constructors_eq_some_iff hlinked hkeeps
  · obtain ⟨k, hsteps, hk, hfirst, hsecond, -, hmem, hkept⟩ := steps_kernel (hu'.pc.trans hlink)
    have hcalled := hu'.prepared hprepared'
    exact ⟨k, hsteps, hk, ⟨hfirst.trans hcalled.first, hsecond.trans hcalled.second⟩, hmem,
      hkept s hcalled⟩

/-- One constructor at 0x2200, whose address is the first word behind 0x4000. -/
def oneConstructor : Symbol → Word := Function.update smallLink .initEnd 0x4008

/-- The table has one entry, for the word at 0x4000. -/
def loadedImage : Arm.Levels.State :=
  { loaded with
    mem := ((Memory.store (fun _ => 0) 0x40005000 0x4000).store 0x40005008 1027).store 0x40005010
      0x2200 }

theorem boot_links_loadedImage : ∃ t t' u,
    (program oneConstructor 0x40000000).Steps loadedImage t ∧ t.pc = 0x40002000 ∧
      Returned t t' ∧ (program oneConstructor 0x40000000).Steps t' u ∧ u.pc = 0x40002100 ∧
      u.mem.load 0x40004000 = 0x40002200 := by
  have hlink : Linked oneConstructor := ⟨rfl, rfl, rfl⟩
  have hpc : loadedImage.pc = oneConstructor .start + 0x40000000 := by decide
  have himage : Image oneConstructor 0x40000000 {p | 0x40009000 ≤ p} loadedImage.mem
      [⟨0x4000, 1027, 0x2200⟩] [0x2200] := {
    table := by refine ⟨⟨?_, ?_, ?_⟩, trivial⟩ <;> decide
    relaEnd := by decide
    relaSize := by decide
    clear := by
      intro e he p hp
      rw [List.mem_singleton.mp he]
      have hbegin : oneConstructor .relaBegin = 0x5000 := rfl
      rw [hbegin, List.length_singleton] at hp
      bv_omega
    apart := List.pairwise_singleton _ _
    stack := by
      intro e he p hp hstack
      rw [List.mem_singleton.mp he] at hp
      have hle : (0x40009000 : Word) ≤ p := hstack
      bv_omega
    named := ⟨⟨1027, List.mem_cons_self⟩, trivial⟩
    initEnd := by decide
    initSize := by decide }
  obtain ⟨t, hsteps, ht, hiff, hafter⟩ := boot_links hlink hpc (by decide) himage
  have hrelative : ∀ e ∈ [Rela.mk 0x4000 1027 0x2200], e.Relative 0x40000000 :=
    List.forall_mem_singleton.mpr ⟨rfl, rfl⟩
  obtain ⟨fuel, m, hrelocate⟩ := hiff.mpr hrelative
  have hreturned : Returned t { t with pc := t.x 30, mem := m } :=
    ⟨rfl, fun _ _ _ => rfl, rfl, rfl, rfl, rfl, rfl⟩
  obtain ⟨u, hsteps', hu, hlinked, -, -⟩ :=
    hafter fuel m _ hrelocate hreturned fun p hp => rfl
  have hload := hlinked ⟨0x4000, 1027, 0x2200⟩ List.mem_cons_self
  exact ⟨t, _, u, hsteps, ht, hreturned, hsteps', hu, hload⟩

end Aarch64.Boot
