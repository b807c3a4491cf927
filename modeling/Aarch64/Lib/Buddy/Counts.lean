import Aarch64.Lib.Buddy.FreeLists

/-!
# Counting free blocks

Which block of a level is taken makes no difference to how many blocks of each level are left
behind, so the numbers of free blocks alone decide which of a sequence of allocations are
granted. One more level on top makes no difference to requests below it: a block of that level
stands for its two halves.
-/

namespace Buddy

open Dyadic

/-- How many blocks of each level are free. -/
abbrev Counts := Nat → Nat

namespace Counts

/-- A block of level `m` is cut down to one of level `order`. -/
def carve (c : Counts) (order m : Nat) : Counts := fun l =>
  if l = m then c l - 1 else if order ≤ l ∧ l < m then c l + 1 else c l

/-- The smallest level from `order` on that has a free block. -/
def smallest (c : Counts) (top order : Nat) : Option Nat :=
  (List.range' order (top + 1 - order)).find? fun m => decide (c m ≠ 0)

/-- Which of the requests are granted, one after the other. -/
def answers (top : Nat) : Counts → List Nat → List Bool
  | _, [] => []
  | c, order :: orders =>
      match c.smallest top order with
      | none => false :: answers top c orders
      | some m => true :: answers top (c.carve order m) orders

/-- Two requests for the halves of a block of level 2, and one that is refused. -/
example : answers 2 (fun l => if l = 2 then 1 else 0) [1, 0, 1] = [true, true, false] := by decide

variable {top order m : Nat} {c c' : Counts}

theorem smallest_eq_none_iff :
    c.smallest top order = none ↔ ∀ m, order ≤ m → m ≤ top → c m = 0 := by
  rw [smallest, List.find?_range'_eq_none]
  refine forall_congr' fun m => forall_congr' fun hle => ?_
  rw [Bool.not_eq_true', decide_eq_false_iff_not, not_not]
  constructor
  · exact fun h hm => h (by omega)
  · exact fun h hm => h (by omega)

theorem smallest_eq_some_iff : c.smallest top order = some m ↔
    (order ≤ m ∧ m ≤ top) ∧ c m ≠ 0 ∧ ∀ k, order ≤ k → k < m → c k = 0 := by
  rw [smallest, List.find?_range'_eq_some, decide_eq_true_eq, List.mem_range'_1]
  have hbefore : (∀ k, order ≤ k → k < m → (!decide (c k ≠ 0)) = true) ↔
      ∀ k, order ≤ k → k < m → c k = 0 := by
    refine forall_congr' fun k => forall_congr' fun _ => forall_congr' fun _ => ?_
    rw [Bool.not_eq_true', decide_eq_false_iff_not, not_not]
  rw [hbefore]
  constructor
  · rintro ⟨hne, ⟨hle, hlt⟩, hzero⟩
    exact ⟨⟨hle, by omega⟩, hne, hzero⟩
  · rintro ⟨⟨hle, hlt⟩, hne, hzero⟩
    exact ⟨hne, ⟨hle, by omega⟩, hzero⟩

theorem answers_of_none {orders : List Nat} (h : c.smallest top order = none) :
    answers top c (order :: orders) = false :: answers top c orders := by
  rw [answers, h]

theorem answers_of_some {orders : List Nat} (h : c.smallest top order = some m) :
    answers top c (order :: orders) = true :: answers top (c.carve order m) orders := by
  rw [answers, h]

/-! ## One more level -/

/-- The blocks above `top` of the second are in halves in the first. -/
structure Halved (top : Nat) (c c' : Counts) : Prop where
  below : ∀ l < top, c l = c' l
  at_top : c top = c' top + 2 * c' (top + 1)

/-- A request that both may grant is granted by both or by none, and afterwards the blocks are
again the same up to halves. -/
theorem Halved.allocate (h : Halved top c c') (horder : order ≤ top) :
    (c.smallest top order = none ∧ c'.smallest (top + 1) order = none) ∨
      ∃ m m', c.smallest top order = some m ∧ c'.smallest (top + 1) order = some m' ∧
        Halved top (c.carve order m) (c'.carve order m') := by
  obtain ⟨hbelow, htop⟩ := h
  cases hsmallest : c'.smallest (top + 1) order with
  | none =>
      rw [smallest_eq_none_iff] at hsmallest
      have hlast := hsmallest (top + 1) (by omega) (by omega)
      refine Or.inl ⟨smallest_eq_none_iff.mpr fun m hle hm => ?_, rfl⟩
      have hzero := hsmallest m hle (by omega)
      by_cases heq : m = top
      · rw [heq] at hzero ⊢
        omega
      · rw [hbelow m (by omega), hzero]
  | some m' =>
      obtain ⟨⟨hle, hm'⟩, hne, hzero⟩ := smallest_eq_some_iff.mp hsmallest
      have hbefore : ∀ k, order ≤ k → k < m' → k < top → c k = 0 := fun k hk hlt htop' =>
        (hbelow k htop').trans (hzero k hk hlt)
      right
      by_cases hlast : m' = top + 1
      · -- a block above the other's levels is taken, and the other takes one of its halves
        have htop' := hzero top horder (by omega)
        rw [hlast] at hne
        refine ⟨top, m', smallest_eq_some_iff.mpr ⟨⟨horder, Nat.le_refl top⟩, by omega, ?_⟩, rfl,
          ?_⟩
        · exact fun k hk hlt => hbefore k hk (by omega) hlt
        · refine ⟨fun l hl => ?_, ?_⟩
          · rw [carve, carve, if_neg hl.ne, if_neg (show l ≠ m' by omega), hbelow l hl]
            exact if_congr (by omega) rfl rfl
          · rw [carve, carve, carve, if_pos rfl, if_neg (show top ≠ m' by omega),
              if_pos (show order ≤ top ∧ top < m' by omega), if_pos hlast.symm]
            omega
      · have hm : m' ≤ top := by omega
        refine ⟨m', m', smallest_eq_some_iff.mpr ⟨⟨hle, hm⟩, ?_, ?_⟩, rfl, ?_⟩
        · by_cases heq : m' = top
          · rw [heq] at hne ⊢
            omega
          · rw [hbelow m' (by omega)]
            exact hne
        · exact fun k hk hlt => hbefore k hk hlt (by omega)
        · refine ⟨fun l hl => ?_, ?_⟩
          · rw [carve, carve, hbelow l hl]
          · rw [carve, carve, carve, if_neg (show top + 1 ≠ m' by omega),
              if_neg (show ¬ (order ≤ top + 1 ∧ top + 1 < m') by omega)]
            by_cases heq : top = m'
            · rw [if_pos heq, if_pos heq]
              rw [← heq] at hne
              omega
            · rw [if_neg heq, if_neg heq, if_neg (by omega), if_neg (by omega), htop]

/-- The same requests are granted, if none is for the level that only one has. -/
theorem Halved.answers_eq (h : Halved top c c') (orders : List Nat)
    (hne : ∀ order ∈ orders, order ≠ top + 1) :
    answers top c orders = answers (top + 1) c' orders := by
  induction orders generalizing c c' with
  | nil => rfl
  | cons order orders ih =>
      obtain ⟨hhead, htail⟩ := List.forall_mem_cons.mp hne
      by_cases horder : order ≤ top
      · obtain ⟨hnone, hnone'⟩ | ⟨m, m', hsome, hsome', hhalved⟩ := h.allocate horder
        · rw [answers_of_none hnone, answers_of_none hnone', ih h htail]
        · rw [answers_of_some hsome, answers_of_some hsome', ih hhalved htail]
      · have hnone : c.smallest top order = none :=
          smallest_eq_none_iff.mpr fun m hle hm => by omega
        have hnone' : c'.smallest (top + 1) order = none :=
          smallest_eq_none_iff.mpr fun m hle hm => by omega
        rw [answers_of_none hnone, answers_of_none hnone', ih h htail]

end Counts

/-! ## Sequences of allocations -/

section

variable {σ : Type} {allocate : σ → Nat → Option (Option Nat × σ)}

/-- Which of a sequence of allocations return a block. -/
def grants (allocate : σ → Nat → Option (Option Nat × σ)) : σ → List Nat → Option (List Bool)
  | _, [] => some []
  | s, order :: orders => do
      let (index, s) ← allocate s order
      let granted ← grants allocate s orders
      return index.isSome :: granted

/-- Each allocation cuts a block of the smallest level that has one, and changes nothing if
none has. -/
def Counted (allocate : σ → Nat → Option (Option Nat × σ)) (top : Nat) (counts : σ → Counts)
    (Valid : σ → Prop) : Prop :=
  ∀ s order, Valid s →
    ((counts s).smallest top order = none ∧ allocate s order = some (none, s)) ∨
      ∃ m index t, (counts s).smallest top order = some m ∧
        allocate s order = some (some index, t) ∧ Valid t ∧ counts t = (counts s).carve order m

theorem grants_cons {s t : σ} {order : Nat} {orders : List Nat} {result : Option Nat}
    {granted : List Bool} (hcall : allocate s order = some (result, t))
    (hrest : grants allocate t orders = some granted) :
    grants allocate s (order :: orders) = some (result.isSome :: granted) := by
  rw [grants, hcall, Option.bind_eq_bind, Option.bind_some]
  change grants allocate t orders >>= _ = _
  rw [hrest]
  rfl

theorem Counted.grants_eq {top : Nat} {counts : σ → Counts} {Valid : σ → Prop}
    (h : Counted allocate top counts Valid) {s : σ} (hs : Valid s) (orders : List Nat) :
    grants allocate s orders = some (Counts.answers top (counts s) orders) := by
  induction orders generalizing s with
  | nil => rfl
  | cons order orders ih =>
      obtain ⟨hnone, hcall⟩ | ⟨m, index, t, hsome, hcall, ht, hcounts⟩ := h s order hs
      · rw [grants_cons hcall (ih hs), Counts.answers_of_none hnone]
        rfl
      · rw [grants_cons hcall (ih ht), Counts.answers_of_some hsome, hcounts]
        rfl

end

/-! ## The free lists -/

namespace View

def counts (v : View) : Counts := fun l => (v.free l).length

theorem smallest_eq_none {v : View} {top order : Nat}
    (h : ∀ m, order ≤ m → m ≤ top → v.free m = []) : v.counts.smallest top order = none :=
  Counts.smallest_eq_none_iff.mpr fun m hle hm => congrArg List.length (h m hle hm)

theorem smallest_eq_some {v : View} {top order m i : Nat} (hle : order ≤ m) (hm : m ≤ top)
    (hfree : v.IsFree ⟨i, m⟩) (h : ∀ k, order ≤ k → k < m → v.free k = []) :
    v.counts.smallest top order = some m :=
  Counts.smallest_eq_some_iff.mpr ⟨⟨hle, hm⟩,
    fun hzero => List.ne_nil_of_mem hfree (List.eq_nil_of_length_eq_zero hzero),
    fun k hk hkm => congrArg List.length (h k hk hkm)⟩

@[simp] theorem counts_insert (v : View) (b : Block) (l : Nat) :
    (v.insert b).counts l = if l = b.level then v.counts l + 1 else v.counts l := by
  obtain ⟨i, m⟩ := b
  change (Function.update v.free m (i :: v.free m) l).length = _
  by_cases h : l = m
  · subst h
    rw [Function.update_self, if_pos rfl]
    rfl
  · rw [Function.update_of_ne h, if_neg h]
    rfl

theorem counts_remove {v : View} {b : Block} (hb : v.IsFree b) (l : Nat) :
    (v.remove b).counts l = if l = b.level then v.counts l - 1 else v.counts l := by
  obtain ⟨i, m⟩ := b
  change (Function.update v.free m ((v.free m).erase i) l).length = _
  by_cases h : l = m
  · subst h
    rw [Function.update_self, if_pos rfl]
    exact List.length_erase_of_mem hb
  · rw [Function.update_of_ne h, if_neg h]
    rfl

end View

namespace Inv

variable {top : Nat} {range range' : Set Nat} {v v' : View} {pending live : List Block}
variable {released exempt exempt' : Set Nat} {i order m : Nat}

/-- Lists with the same blocks of a level are equally long. -/
theorem counts_eq (h : Inv top range v pending live released exempt) {l : Nat} (xs : List Nat)
    (hnodup : xs.Nodup) (hmem : ∀ i, v.IsFree ⟨i, l⟩ ↔ i ∈ xs) : v.counts l = xs.length :=
  ((List.perm_ext_iff_of_nodup (h.nodup l) hnodup).mpr hmem).length_eq

/-- Splitting a pending block leaves one free block of each level that is passed. -/
theorem exists_carved (n : Nat) : ∀ v, Inv top range v [⟨i, order + n⟩] live released {i} →
    ∃ w, Inv top range w [⟨i, order⟩] live released {i} ∧
      ∀ l, w.counts l = if order ≤ l ∧ l < order + n then v.counts l + 1 else v.counts l := by
  induction n with
  | zero =>
      intro v h
      exact ⟨v, h, fun l => (if_neg (by omega)).symm⟩
  | succ n ih =>
      intro v h
      obtain ⟨w, hw, hcounts⟩ := ih (v.insert ⟨i ^^^ 2 ^ (order + n), order + n⟩) h.split
      refine ⟨w, hw, fun l => ?_⟩
      rw [hcounts l, View.counts_insert]
      change (if order ≤ l ∧ l < order + n then (if l = order + n then v.counts l + 1
        else v.counts l) + 1 else if l = order + n then v.counts l + 1 else v.counts l) = _
      by_cases heq : l = order + n
      · rw [if_neg (show ¬ (order ≤ l ∧ l < order + n) by omega), if_pos heq, if_pos (by omega)]
      · rw [if_neg heq]
        exact if_congr (by omega) rfl rfl

/-- What an allocation leaves behind depends on the level of the block that it takes only. -/
theorem counts_allocated (h : Inv top range v [] live released ∅) (hb : v.IsFree ⟨i, m⟩)
    (hle : order ≤ m) (h' : Inv top range' v' [] (⟨i, order⟩ :: live) released exempt') :
    v'.counts = v.counts.carve order m := by
  obtain ⟨n, rfl⟩ := Nat.exists_eq_add_of_le hle
  obtain ⟨w, hw, hcounts⟩ := exists_carved n _ (h.take hb)
  rw [← insert_empty_eq] at hw
  have hretag : Inv top range (w.retag i ⟨false, order⟩) [⟨i, order⟩] live released ∅ :=
    hw.retag order
  have hout := hretag.handOut (congrArg Tag.level (View.retag_tag_self w i ⟨false, order⟩))
  have heq : v'.freeSet = (w.retag i ⟨false, order⟩).freeSet :=
    (h.freeSet_handedOut h').trans (h.freeSet_handedOut hout).symm
  funext l
  have hsame : v'.counts l = (w.retag i ⟨false, order⟩).counts l :=
    h'.counts_eq _ (hout.nodup l) fun j => h'.isFree_congr hout heq
  change _ = w.counts l at hsame
  rw [hsame, hcounts l, View.counts_remove hb, Counts.carve]
  by_cases hl : l = order + n
  · rw [if_neg (show ¬ (order ≤ l ∧ l < order + n) by omega), if_pos hl, if_pos hl]
  · rw [if_neg hl, if_neg hl]

end Inv

/-! ## The same pages with one more level -/

/-- With one more level the maximal blocks are the same, but for pairs of buddies of the level
that was the largest. -/
theorem isMaximal_succ_iff {top : Nat} {pages : Set Nat} {b : Block} : IsMaximal top pages b ↔
    (b.level ≤ top ∧ IsMaximal (top + 1) pages b) ∨
      (b.level = top ∧ b.Aligned ∧ IsMaximal (top + 1) pages b.parent) := by
  constructor
  · rintro ⟨haligned, hle, hsub, hmax⟩
    by_cases hbigger : ∃ c : Block, c.Aligned ∧ c.level = top + 1 ∧ c.pages ⊆ pages ∧
        b.pages ⊆ c.pages
    · obtain ⟨c, hc, hlevel, hcsub, hbc⟩ := hbigger
      have hparent : b.parent.pages ⊆ c.pages :=
        Block.parent_subset haligned hc (by omega) b.index_mem (hbc b.index_mem)
      -- the half of the larger block around `b` cannot be larger than `b`
      have htop : b.level = top := by
        by_contra hne
        have heq := hmax b.parent (Block.parent_aligned haligned)
          (by rw [Block.parent_level]; omega) (hparent.trans hcsub) (Block.subset_parent haligned)
        have hlevel := congrArg Block.level heq
        rw [Block.parent_level] at hlevel
        omega
      have heq : b.parent = c := (Block.parent_aligned haligned).eq_of_subset hc
        (by rw [Block.parent_level]; omega) hparent
      refine Or.inr ⟨htop, haligned, ?_⟩
      rw [heq]
      refine ⟨hc, hlevel.le, hcsub, fun d hd hdle _ hcd => ?_⟩
      exact (hc.eq_of_subset hd (by omega) hcd).symm
    · refine Or.inl ⟨hle, haligned, by omega, hsub, fun c hc hcle hcsub hbc => ?_⟩
      by_cases hlevel : c.level = top + 1
      · exact absurd ⟨c, hc, hlevel, hcsub, hbc⟩ hbigger
      · exact hmax c hc (by omega) hcsub hbc
  · rintro (⟨hle, haligned, -, hsub, hmax⟩ | ⟨hlevel, haligned, -, -, hsub, -⟩)
    · exact ⟨haligned, hle, hsub, fun c hc hcle => hmax c hc (by omega)⟩
    · refine ⟨haligned, hlevel.le, (Block.subset_parent haligned).trans hsub, ?_⟩
      exact fun c hc hcle _ hbc => (haligned.eq_of_subset hc (by omega) hbc).symm

namespace Inv

variable {top : Nat} {range range' : Set Nat} {v v' : View} {pending pending' : List Block}
variable {live live' : List Block} {released released' exempt exempt' : Set Nat} {b : Block}

/-- The free blocks of two allocators with the same free pages, one of them with one more level:
where that one has a block of this level, the other has its two halves. -/
theorem isFree_succ_iff (h : Inv top range v pending live released exempt)
    (h' : Inv (top + 1) range' v' pending' live' released' exempt')
    (heq : v.freeSet = v'.freeSet) : v.IsFree b ↔
      (b.level ≤ top ∧ v'.IsFree b) ∨ (b.level = top ∧ b.Aligned ∧ v'.IsFree b.parent) := by
  rw [h.isFree_iff_isMaximal, heq, isMaximal_succ_iff, h'.isFree_iff_isMaximal,
    h'.isFree_iff_isMaximal]

/-- The halves of the blocks of the largest level. -/
theorem parent_free_iff (h' : Inv (top + 1) range' v' pending' live' released' exempt') {i : Nat} :
    (Block.Aligned ⟨i, top⟩ ∧ v'.IsFree (Block.parent ⟨i, top⟩)) ↔
      i ∈ v'.free (top + 1) ∨ i ∈ (v'.free (top + 1)).map (· ^^^ 2 ^ top) := by
  have hhalf {j : Nat} (hj : j ∈ v'.free (top + 1)) :
      Block.Aligned ⟨j, top⟩ ∧ Block.parent ⟨j, top⟩ = ⟨j, top + 1⟩ := by
    have haligned : Block.Aligned ⟨j, top + 1⟩ := h'.aligned (.inl hj)
    exact ⟨Block.aligned_lower haligned (Nat.le_succ top), Block.parent_of_aligned_succ haligned⟩
  rw [List.mem_map]
  constructor
  · rintro ⟨-, hfree⟩
    have hmem : min i (i ^^^ 2 ^ top) ∈ v'.free (top + 1) := hfree
    cases Nat.le_total i (i ^^^ 2 ^ top) with
    | inl hle => exact Or.inl (Nat.min_eq_left hle ▸ hmem)
    | inr hle =>
        refine Or.inr ⟨i ^^^ 2 ^ top, Nat.min_eq_right hle ▸ hmem, ?_⟩
        exact congrArg Block.index (Block.buddy_buddy ⟨i, top⟩)
  · rintro (hi | ⟨j, hj, rfl⟩)
    · obtain ⟨haligned, hparent⟩ := hhalf hi
      exact ⟨haligned, hparent ▸ hi⟩
    · obtain ⟨haligned, hparent⟩ := hhalf hj
      have hbuddy : Block.parent ⟨j ^^^ 2 ^ top, top⟩ = ⟨j, top + 1⟩ :=
        (Block.parent_buddy ⟨j, top⟩).trans hparent
      exact ⟨Block.buddy_aligned haligned, hbuddy ▸ hj⟩

theorem halved (h : Inv top range v pending live released exempt)
    (h' : Inv (top + 1) range' v' pending' live' released' exempt')
    (heq : v.freeSet = v'.freeSet) : Counts.Halved top v.counts v'.counts := by
  refine ⟨fun l hl => ?_, ?_⟩
  · refine h.counts_eq (v'.free l) (h'.nodup l) fun i => ?_
    rw [h.isFree_succ_iff h' heq]
    constructor
    · rintro (⟨-, hfree⟩ | ⟨hlevel, -⟩)
      · exact hfree
      · exact absurd hlevel hl.ne
    · exact fun hfree => Or.inl ⟨hl.le, hfree⟩
  · -- a page of a block of the largest level is in no other free block
    have hinside {i j l : Nat} (hi : i ∈ v'.free l) (hj : j ∈ v'.free (top + 1))
        (hmem : i ∈ Block.pages ⟨j, top + 1⟩) : (⟨i, l⟩ : Block) = ⟨j, top + 1⟩ :=
      h'.eq_of_mem (.inl hi) (.inl hj) (Block.index_mem ⟨i, l⟩) hmem
    have hright {j : Nat} (hj : j ∈ v'.free (top + 1)) :
        j ^^^ 2 ^ top ∈ Block.pages ⟨j, top + 1⟩ := by
      have haligned : Block.Aligned ⟨j, top + 1⟩ := h'.aligned (.inl hj)
      rw [← Block.parent_of_aligned_succ haligned]
      exact Block.buddy_subset_parent (Block.aligned_lower haligned (Nat.le_succ top))
        (Block.index_mem _)
    have hinjective : Function.Injective (· ^^^ 2 ^ top : Nat → Nat) := fun i j hij =>
      congrArg Block.index (Block.buddy_buddy ⟨i, top⟩ ▸ Block.buddy_buddy ⟨j, top⟩ ▸
        congrArg (fun k => Block.buddy ⟨k, top⟩) hij)
    have hhalves : (v'.free (top + 1) ++ (v'.free (top + 1)).map (· ^^^ 2 ^ top)).Nodup := by
      refine List.nodup_append.mpr ⟨h'.nodup _, (h'.nodup _).map hinjective, ?_⟩
      rintro i hi k hk rfl
      obtain ⟨j, hj, heq⟩ := List.mem_map.mp hk
      have hsame := hinside hi hj (heq ▸ hright hj)
      have hij : i = j := congrArg Block.index hsame
      exact Block.buddy_ne ⟨j, top⟩ (congrArg (Block.mk · top) (heq.trans hij))
    have hnodup : (v'.free top ++
        (v'.free (top + 1) ++ (v'.free (top + 1)).map (· ^^^ 2 ^ top))).Nodup := by
      refine List.nodup_append.mpr ⟨h'.nodup _, hhalves, ?_⟩
      rintro i hi k hk rfl
      have hlevel (j : Nat) (hj : j ∈ v'.free (top + 1)) (hmem : i ∈ Block.pages ⟨j, top + 1⟩) :
          False := Nat.succ_ne_self top (congrArg Block.level (hinside hi hj hmem)).symm
      cases List.mem_append.mp hk with
      | inl hk => exact hlevel i hk (Block.index_mem ⟨i, top + 1⟩)
      | inr hk =>
          obtain ⟨j, hj, heq⟩ := List.mem_map.mp hk
          exact hlevel j hj (heq ▸ hright hj)
    rw [h.counts_eq _ hnodup fun i => ?_]
    · rw [List.length_append, List.length_append, List.length_map, View.counts, View.counts]
      omega
    · rw [h.isFree_succ_iff h' heq, List.mem_append, List.mem_append, ← h'.parent_free_iff]
      constructor
      · rintro (⟨-, hfree⟩ | ⟨-, hparent⟩)
        · exact Or.inl hfree
        · exact Or.inr hparent
      · rintro (hfree | hparent)
        · exact Or.inl ⟨Nat.le_refl top, hfree⟩
        · exact Or.inr ⟨rfl, hparent⟩

end Inv

end Buddy
