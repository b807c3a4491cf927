import Mathlib.Data.List.Basic
import Mathlib.Data.Nat.Basic
import Mathlib.Order.Lattice
import Mathlib.Order.MinMax

/-!
# Labelled half-open segments

A list of labelled half-open segments denotes a partial function from positions
to labels. Over a linear order, a list of nonempty, sorted and maximally merged
segments is the only one of its kind with its denotation, so comparing two lists
compares the functions they denote.

Two operations keep that form. `merge` joins touching neighbours of equal label
in one pass from left to right. `Cut` describes what an overwrite of one segment
does: the list falls into a part before it, a part that overlaps it and a part
after it, and of the middle only the piece on the left of the segment and the
piece on its right remain.
-/

namespace Segments

@[ext] structure Segment (α L : Type*) where
  lo : α
  hi : α
  label : L
  deriving DecidableEq, Repr

variable {α L : Type*}

namespace Segment

/-- The segment from the start of `s` to the end of `t`, with the label of `s`. -/
def join (s t : Segment α L) : Segment α L := { s with hi := t.hi }

/-- `t` continues `s` without a gap and with the same label. -/
def CanJoin (s t : Segment α L) : Prop := s.hi = t.lo ∧ s.label = t.label

instance [DecidableEq α] [DecidableEq L] (s t : Segment α L) : Decidable (s.CanJoin t) :=
  inferInstanceAs (Decidable (_ ∧ _))

@[simp] theorem join_lo (s t : Segment α L) : (s.join t).lo = s.lo := rfl
@[simp] theorem join_hi (s t : Segment α L) : (s.join t).hi = t.hi := rfl
@[simp] theorem join_label (s t : Segment α L) : (s.join t).label = s.label := rfl

@[simp] theorem join_join (s t u : Segment α L) : (s.join t).join u = s.join u := rfl

@[simp] theorem join_canJoin {s t u : Segment α L} (h : s.label = t.label) :
    (s.join t).CanJoin u ↔ t.CanJoin u := by
  simp [CanJoin, h]

@[simp] theorem canJoin_join {s t u : Segment α L} : s.CanJoin (t.join u) ↔ s.CanJoin t := Iff.rfl

end Segment

variable [LinearOrder α]

/-- The label of the segment that holds `x`. -/
def labelAt : List (Segment α L) → α → Option L
  | [], _ => none
  | s :: ss, x => if s.lo ≤ x ∧ x < s.hi then some s.label else labelAt ss x

/-- Sorted and disjoint, possibly with empty segments. -/
structure Ordered (ss : List (Segment α L)) : Prop where
  le : ∀ s ∈ ss, s.lo ≤ s.hi
  pairwise : ss.Pairwise fun s t => s.hi ≤ t.lo

/-- Sorted, disjoint and without empty segments. -/
structure Proper (ss : List (Segment α L)) : Prop where
  lt : ∀ s ∈ ss, s.lo < s.hi
  pairwise : ss.Pairwise fun s t => s.hi ≤ t.lo

structure Canonical (ss : List (Segment α L)) : Prop extends Proper ss where
  merged : ss.IsChain fun s t => ¬ s.CanJoin t

theorem Proper.ordered {ss : List (Segment α L)} (h : Proper ss) : Ordered ss where
  le s hs := (h.lt s hs).le
  pairwise := h.pairwise

theorem Canonical.nil : Canonical ([] : List (Segment α L)) where
  lt _ h := absurd h List.not_mem_nil
  pairwise := List.Pairwise.nil
  merged := List.IsChain.nil

/-! ## Denotation -/

section Denotation

variable {s t : Segment α L} {ss ts : List (Segment α L)} {x : α}

@[simp] theorem labelAt_nil : labelAt ([] : List (Segment α L)) x = none := rfl

theorem labelAt_cons_of_mem (hlo : s.lo ≤ x) (hhi : x < s.hi) :
    labelAt (s :: ss) x = some s.label := if_pos ⟨hlo, hhi⟩

theorem labelAt_cons_of_lt (h : x < s.lo) : labelAt (s :: ss) x = labelAt ss x :=
  if_neg fun hmem => absurd h hmem.1.not_gt

theorem labelAt_cons_of_ge (h : s.hi ≤ x) : labelAt (s :: ss) x = labelAt ss x :=
  if_neg fun hmem => absurd hmem.2 h.not_gt

theorem labelAt_cons_of_empty (h : s.lo = s.hi) : labelAt (s :: ss) x = labelAt ss x :=
  if_neg fun hmem => absurd (h ▸ hmem.2) hmem.1.not_gt

@[simp] theorem labelAt_append : labelAt (ss ++ ts) x = (labelAt ss x).or (labelAt ts x) := by
  induction ss with
  | nil => rfl
  | cons s ss ih =>
      simp only [List.cons_append, labelAt]
      split
      · rfl
      · exact ih

theorem labelAt_eq_none_iff :
    labelAt ss x = none ↔ ∀ s ∈ ss, ¬ (s.lo ≤ x ∧ x < s.hi) := by
  induction ss with
  | nil => simp
  | cons s ss ih =>
      simp only [labelAt, List.forall_mem_cons]
      split
      next h => simp [h]
      next h => rw [ih, and_iff_right h]

theorem exists_mem_of_labelAt {l : L} (h : labelAt ss x = some l) :
    ∃ s ∈ ss, s.lo ≤ x ∧ x < s.hi ∧ s.label = l := by
  induction ss with
  | nil => simp at h
  | cons s ss ih =>
      simp only [labelAt] at h
      split at h
      next hmem => exact ⟨s, List.mem_cons_self, hmem.1, hmem.2, Option.some.inj h⟩
      next =>
        obtain ⟨t, ht, hlabel⟩ := ih h
        exact ⟨t, List.mem_cons_of_mem _ ht, hlabel⟩

theorem labelAt_eq_none_of_lt (h : ∀ s ∈ ss, x < s.lo) : labelAt ss x = none :=
  labelAt_eq_none_iff.mpr fun s hs hmem => absurd (h s hs) hmem.1.not_gt

theorem labelAt_eq_none_of_ge (h : ∀ s ∈ ss, s.hi ≤ x) : labelAt ss x = none :=
  labelAt_eq_none_iff.mpr fun s hs hmem => absurd hmem.2 (h s hs).not_gt

namespace Ordered

theorem tail (h : Ordered (s :: ss)) : Ordered ss where
  le t ht := h.le t (List.mem_cons_of_mem _ ht)
  pairwise := (List.pairwise_cons.mp h.pairwise).2

theorem head_le (h : Ordered (s :: ss)) : s.lo ≤ s.hi := h.le s List.mem_cons_self

theorem hi_le (h : Ordered (s :: ss)) (ht : t ∈ ss) : s.hi ≤ t.lo :=
  (List.pairwise_cons.mp h.pairwise).1 t ht

theorem lo_le (h : Ordered (s :: ss)) (ht : t ∈ s :: ss) : s.lo ≤ t.lo := by
  rcases List.mem_cons.mp ht with rfl | ht
  · exact le_refl _
  · exact h.head_le.trans (h.hi_le ht)

theorem hi_le_hi (h : Ordered (s :: ss)) (ht : t ∈ s :: ss) : s.hi ≤ t.hi := by
  rcases List.mem_cons.mp ht with rfl | ht'
  · exact le_refl _
  · exact (h.hi_le ht').trans (h.le t ht)

theorem sublist (h : Ordered ts) (hsub : ss.Sublist ts) : Ordered ss where
  le t ht := h.le t (hsub.subset ht)
  pairwise := h.pairwise.sublist hsub

/-- Disjoint segments do not hide each other. -/
theorem labelAt_of_mem (h : Ordered ss) (hs : s ∈ ss) (hlo : s.lo ≤ x) (hhi : x < s.hi) :
    labelAt ss x = some s.label := by
  induction ss with
  | nil => exact absurd hs List.not_mem_nil
  | cons t ss ih =>
      rcases List.mem_cons.mp hs with rfl | hs
      · exact labelAt_cons_of_mem hlo hhi
      · rw [labelAt_cons_of_ge ((h.hi_le hs).trans hlo)]
        exact ih h.tail hs

/-- A position lies in one segment only. -/
theorem eq_of_mem (h : Ordered ss) (hs : s ∈ ss) (ht : t ∈ ss) (hslo : s.lo ≤ x)
    (hshi : x < s.hi) (htlo : t.lo ≤ x) (hthi : x < t.hi) : s = t := by
  induction ss with
  | nil => exact absurd hs List.not_mem_nil
  | cons u ss ih =>
      rcases List.mem_cons.mp hs with rfl | hs'
      · rcases List.mem_cons.mp ht with rfl | ht'
        · rfl
        · exact absurd (hshi.trans_le ((h.hi_le ht').trans htlo)) (lt_irrefl x)
      · rcases List.mem_cons.mp ht with rfl | ht'
        · exact absurd (hthi.trans_le ((h.hi_le hs').trans hslo)) (lt_irrefl x)
        · exact ih h.tail hs' ht'

end Ordered

/-! ## Replacing one segment -/

section Replace

variable {s : Segment α L} {pre mid post : List (Segment α L)} {x y : α}

/-- Only `s` holds the positions of `s`, so what replaces it decides about them. -/
theorem Ordered.labelAt_replace (h : Ordered (pre ++ s :: post)) (hlo : s.lo ≤ x) (hhi : x < s.hi)
    (mid : List (Segment α L)) : labelAt (pre ++ (mid ++ post)) x = labelAt mid x := by
  obtain ⟨_, hrest, hcross⟩ := List.pairwise_append.mp h.pairwise
  have hpre : labelAt pre x = none :=
    labelAt_eq_none_of_ge fun t ht => (hcross t ht s List.mem_cons_self).trans hlo
  have hpost : labelAt post x = none :=
    labelAt_eq_none_of_lt fun t ht => hhi.trans_le ((List.pairwise_cons.mp hrest).1 t ht)
  rw [labelAt_append, labelAt_append, hpre, hpost, Option.none_or, Option.or_none]

/-- Positions outside of `s` and of what replaces it keep their labels. -/
theorem labelAt_replace_of_none (hs : ¬ (s.lo ≤ x ∧ x < s.hi)) (hmid : labelAt mid x = none) :
    labelAt (pre ++ (mid ++ post)) x = labelAt (pre ++ s :: post) x := by
  rw [labelAt_append, labelAt_append, labelAt_append, hmid, Option.none_or, labelAt, if_neg hs]

/-- Cutting a segment in two keeps the form of the list and all labels. -/
theorem Proper.cut (h : Proper (pre ++ s :: post)) (hlo : s.lo < y) (hhi : y < s.hi) :
    Proper (pre ++ { s with hi := y } :: { s with lo := y } :: post) ∧
      ∀ x, labelAt (pre ++ { s with hi := y } :: { s with lo := y } :: post) x =
        labelAt (pre ++ s :: post) x := by
  obtain ⟨hpre, hrest, hcross⟩ := List.pairwise_append.mp h.pairwise
  obtain ⟨hs, hpost⟩ := List.pairwise_cons.mp hrest
  refine ⟨⟨fun t ht => ?_, ?_⟩, fun x => ?_⟩
  · simp only [List.mem_append, List.mem_cons] at ht
    rcases ht with ht | rfl | rfl | ht
    · exact h.lt t (List.mem_append_left _ ht)
    · exact hlo
    · exact hhi
    · exact h.lt t (List.mem_append_right _ (List.mem_cons_of_mem s ht))
  · refine List.pairwise_append.mpr ⟨hpre, List.pairwise_cons.mpr ⟨fun t ht => ?_,
      List.pairwise_cons.mpr ⟨hs, hpost⟩⟩, fun t ht u hu => ?_⟩
    · rcases List.mem_cons.mp ht with rfl | ht
      · exact le_refl y
      · exact hhi.le.trans (hs t ht)
    · have hts := hcross t ht s List.mem_cons_self
      simp only [List.mem_cons] at hu
      rcases hu with rfl | rfl | hu
      · exact hts
      · exact hts.trans hlo.le
      · exact hcross t ht u (List.mem_cons_of_mem s hu)
  · by_cases hx : s.lo ≤ x ∧ x < s.hi
    · have hleft := h.ordered.labelAt_replace hx.1 hx.2 [{ s with hi := y }, { s with lo := y }]
      have hright := h.ordered.labelAt_replace hx.1 hx.2 [s]
      refine hleft.trans (Eq.trans ?_ hright.symm)
      rw [labelAt_cons_of_mem hx.1 hx.2]
      rcases lt_or_ge x y with hlt | hge
      · exact labelAt_cons_of_mem hx.1 hlt
      · rw [labelAt_cons_of_ge hge]
        exact labelAt_cons_of_mem hge hx.2
    · have hnone : labelAt [{ s with hi := y }, { s with lo := y }] x = none := by
        refine labelAt_eq_none_iff.mpr fun t ht hin => hx ?_
        simp only [List.mem_cons, List.not_mem_nil, or_false] at ht
        rcases ht with rfl | rfl
        · exact ⟨hin.1, hin.2.trans hhi⟩
        · exact ⟨hlo.le.trans hin.1, hin.2⟩
      exact labelAt_replace_of_none hx hnone

end Replace

/-! ## Changing the labels -/

section Relabel

variable {M : Type*} (f : L → M)

/-- The same positions under a coarser or a finer label. -/
def relabel (ss : List (Segment α L)) : List (Segment α M) :=
  ss.map fun s => ⟨s.lo, s.hi, f s.label⟩

@[simp] theorem labelAt_relabel (ss : List (Segment α L)) (x : α) :
    labelAt (relabel f ss) x = (labelAt ss x).map f := by
  induction ss with
  | nil => rfl
  | cons s ss ih =>
      change (if s.lo ≤ x ∧ x < s.hi then some (f s.label) else labelAt (relabel f ss) x) = _
      rw [labelAt, ih, apply_ite (Option.map f)]
      rfl

theorem Proper.relabel (h : Proper ss) : Proper (relabel f ss) where
  lt t ht := by
    obtain ⟨s, hs, rfl⟩ := List.mem_map.mp ht
    exact h.lt s hs
  pairwise := List.pairwise_map.mpr h.pairwise

end Relabel

end Denotation

/-! ## Uniqueness of the canonical form -/

namespace Canonical

variable {s t : Segment α L} {ss ts : List (Segment α L)}

theorem tail (h : Canonical (s :: ss)) : Canonical ss where
  lt u hu := h.lt u (List.mem_cons_of_mem _ hu)
  pairwise := (List.pairwise_cons.mp h.pairwise).2
  merged := List.isChain_of_isChain_cons h.merged

theorem labelAt_lo (h : Canonical (s :: ss)) : labelAt (s :: ss) s.lo = some s.label :=
  labelAt_cons_of_mem (le_refl _) (h.lt s List.mem_cons_self)

/-- The label of the first segment does not continue at its end. -/
theorem labelAt_hi (h : Canonical (s :: ss)) : labelAt ss s.hi ≠ some s.label := by
  intro hlabel
  obtain ⟨u, hu, hlo, _, heq⟩ := exists_mem_of_labelAt hlabel
  cases ss with
  | nil => exact absurd hu List.not_mem_nil
  | cons t ss =>
      have hst : s.hi ≤ t.lo := h.ordered.hi_le List.mem_cons_self
      have hnot : ¬ s.CanJoin t := (List.isChain_cons_cons.mp h.merged).1
      rcases List.mem_cons.mp hu with rfl | hu
      · exact hnot ⟨le_antisymm hst hlo, heq.symm⟩
      · have htu := h.tail.ordered.hi_le hu
        have ht := h.tail.lt t List.mem_cons_self
        exact absurd (htu.trans (hlo.trans hst)) ht.not_ge

/-- Each segment is a maximal run: its label does not continue at its end. -/
theorem labelAt_hi_of_mem (h : Canonical ss) (hs : s ∈ ss) : labelAt ss s.hi ≠ some s.label := by
  induction ss with
  | nil => exact absurd hs List.not_mem_nil
  | cons t ss ih =>
      rcases List.mem_cons.mp hs with rfl | hs
      · rw [labelAt_cons_of_ge (le_refl _)]
        exact h.labelAt_hi
      · have hhi : t.hi ≤ s.hi := (h.ordered.hi_le hs).trans (h.tail.lt s hs).le
        rw [labelAt_cons_of_ge hhi]
        exact ih h.tail hs

/-- A run of equal labels lies inside one segment. -/
theorem exists_segment {a b : α} {l : L} (h : Canonical ss) (hab : a < b)
    (hlabel : ∀ x, a ≤ x → x < b → labelAt ss x = some l) :
    ∃ s ∈ ss, s.lo ≤ a ∧ b ≤ s.hi ∧ s.label = l := by
  obtain ⟨s, hs, hlo, hhi, heq⟩ := exists_mem_of_labelAt (hlabel a (le_refl a) hab)
  refine ⟨s, hs, hlo, not_lt.mp fun hlt => ?_, heq⟩
  exact h.labelAt_hi_of_mem hs (heq ▸ hlabel s.hi hhi.le hlt)

/-- There are at most as many segments as positions. -/
theorem length_le (lo hi : Nat) {ss : List (Segment Nat L)} (h : Canonical ss)
    (hlo : ∀ s ∈ ss, lo ≤ s.lo) (hhi : ∀ s ∈ ss, s.hi ≤ hi) : ss.length ≤ hi - lo := by
  induction ss generalizing lo with
  | nil => exact Nat.zero_le _
  | cons s ss ih =>
      have hs := h.lt s List.mem_cons_self
      have hrest := ih s.hi h.tail (fun t ht => h.ordered.hi_le ht)
        (fun t ht => hhi t (List.mem_cons_of_mem _ ht))
      have hfirst := hlo s List.mem_cons_self
      have hlast := hhi s List.mem_cons_self
      rw [List.length_cons]
      omega

/-- The first segment starts at the least labelled position. -/
private theorem lo_le_of_labelAt (h : Canonical (t :: ts)) {x : α}
    (hlabel : labelAt (t :: ts) x ≠ none) : t.lo ≤ x := by
  obtain ⟨l, hl⟩ := Option.ne_none_iff_exists'.mp hlabel
  obtain ⟨u, hu, hlo, _⟩ := exists_mem_of_labelAt hl
  exact (h.ordered.lo_le hu).trans hlo

private theorem hi_le_of_labelAt_eq (hs : Canonical (s :: ss))
    (heq : ∀ x, labelAt (s :: ss) x = labelAt (t :: ts) x) (hlo : s.lo = t.lo)
    (hlabel : s.label = t.label) : t.hi ≤ s.hi := by
  by_contra hlt
  have hs' := hs.lt s List.mem_cons_self
  refine hs.labelAt_hi ?_
  rw [← labelAt_cons_of_ge (le_refl s.hi), heq,
    labelAt_cons_of_mem (hlo ▸ hs'.le) (not_le.mp hlt), hlabel]

/-- Two canonical lists that label every position the same way are equal. -/
theorem eq_of_labelAt_eq (hs : Canonical ss) (ht : Canonical ts)
    (heq : ∀ x, labelAt ss x = labelAt ts x) : ss = ts := by
  induction ss generalizing ts with
  | nil =>
      cases ts with
      | nil => rfl
      | cons t ts => simpa [ht.labelAt_lo] using heq t.lo
  | cons s ss ih =>
      cases ts with
      | nil => simpa [hs.labelAt_lo] using heq s.lo
      | cons t ts =>
          have hlo : s.lo = t.lo := by
            refine le_antisymm (hs.lo_le_of_labelAt ?_) (ht.lo_le_of_labelAt ?_)
            · rw [heq, ht.labelAt_lo]
              exact Option.some_ne_none _
            · rw [← heq, hs.labelAt_lo]
              exact Option.some_ne_none _
          have hlabel : s.label = t.label := by
            have hfirst := heq s.lo
            rw [hs.labelAt_lo, hlo, ht.labelAt_lo] at hfirst
            exact Option.some.inj hfirst
          have hhi : s.hi = t.hi :=
            le_antisymm (hi_le_of_labelAt_eq ht (fun x => (heq x).symm) hlo.symm hlabel.symm)
              (hi_le_of_labelAt_eq hs heq hlo hlabel)
          obtain rfl : s = t := Segment.ext hlo hhi hlabel
          refine congrArg (s :: ·) (ih hs.tail ht.tail fun x => ?_)
          rcases lt_or_ge x s.hi with hlt | hge
          · -- both tails start after the common head
            rw [labelAt_eq_none_of_lt fun u hu => hlt.trans_le (hs.ordered.hi_le hu),
              labelAt_eq_none_of_lt fun u hu => hlt.trans_le (ht.ordered.hi_le hu)]
          · rw [← labelAt_cons_of_ge hge, heq, labelAt_cons_of_ge hge]

end Canonical

/-! ## The merge pass -/

section Merge

variable {s t : Segment α L} {ss ts : List (Segment α L)}

/-- Joining a segment with its neighbour keeps the list ordered. -/
theorem Ordered.join (h : Ordered (s :: t :: ts)) : Ordered (s.join t :: ts) where
  le u hu := by
    rcases List.mem_cons.mp hu with rfl | hu
    · exact h.head_le.trans (h.hi_le_hi (t := t) (by simp))
    · exact h.tail.tail.le u hu
  pairwise := List.pairwise_cons.mpr ⟨fun _ hu => h.tail.hi_le hu, h.tail.tail.pairwise⟩

theorem labelAt_join (h : Ordered (s :: t :: ts)) (hjoin : s.CanJoin t) (x : α) :
    labelAt (s.join t :: ts) x = labelAt (s :: t :: ts) x := by
  have hs := h.head_le
  have ht := h.tail.head_le
  simp only [labelAt, Segment.join_lo, Segment.join_hi, Segment.join_label, ← hjoin.1,
    ← hjoin.2]
  rcases lt_or_ge x s.hi with hlt | hge
  · have hlt' : x < t.hi := hlt.trans_le (hjoin.1.le.trans ht)
    simp [hlt, hlt', hlt.not_ge]
  · simp [hge, hge.not_gt, hs.trans hge]

variable [DecidableEq L]

/-- Extend the pending segment `s` as far as its neighbours continue it. -/
def mergeFrom (s : Segment α L) : List (Segment α L) → List (Segment α L)
  | [] => [s]
  | t :: ts => if s.CanJoin t then mergeFrom (s.join t) ts else s :: mergeFrom t ts

def merge : List (Segment α L) → List (Segment α L)
  | [] => []
  | s :: ss => mergeFrom s ss

theorem labelAt_mergeFrom (h : Ordered (s :: ss)) (x : α) :
    labelAt (mergeFrom s ss) x = labelAt (s :: ss) x := by
  induction ss generalizing s with
  | nil => rfl
  | cons t ts ih =>
      simp only [mergeFrom]
      split
      next hjoin => rw [ih h.join, labelAt_join h hjoin]
      next => simp only [labelAt, ih h.tail]

/-- The pending segment is extended, so the first result starts where it did. -/
theorem mergeFrom_head (s : Segment α L) (ss : List (Segment α L)) :
    ∃ u us, mergeFrom s ss = u :: us ∧ u.lo = s.lo ∧ u.label = s.label := by
  induction ss generalizing s with
  | nil => exact ⟨s, [], rfl, rfl, rfl⟩
  | cons t ts ih =>
      simp only [mergeFrom]
      split
      next => exact ih (s.join t)
      next => exact ⟨s, _, rfl, rfl, rfl⟩

theorem Ordered.mergeFrom (h : Ordered (s :: ss)) : Ordered (mergeFrom s ss) := by
  induction ss generalizing s with
  | nil => exact h
  | cons t ts ih =>
      simp only [Segments.mergeFrom]
      split
      next => exact ih h.join
      next =>
        have hrest := ih h.tail
        obtain ⟨u, us, heq, hlo, _⟩ := mergeFrom_head t ts
        refine ⟨?_, List.pairwise_cons.mpr ⟨?_, hrest.pairwise⟩⟩
        · exact List.forall_mem_cons.mpr ⟨h.head_le, hrest.le⟩
        · intro v hv
          rw [heq] at hv hrest
          exact (h.hi_le List.mem_cons_self).trans (hlo ▸ hrest.lo_le hv)

theorem mergeFrom_isChain (s : Segment α L) (ss : List (Segment α L)) :
    (mergeFrom s ss).IsChain fun u v => ¬ u.CanJoin v := by
  induction ss generalizing s with
  | nil => exact List.IsChain.singleton _
  | cons t ts ih =>
      simp only [mergeFrom]
      split
      next => exact ih (s.join t)
      next hnot =>
        have hrest := ih t
        obtain ⟨u, us, heq, hlo, hlabel⟩ := mergeFrom_head t ts
        rw [heq] at hrest ⊢
        refine List.isChain_cons_cons.mpr ⟨fun hjoin => hnot ?_, hrest⟩
        exact ⟨hjoin.1.trans hlo, hjoin.2.trans hlabel⟩

theorem mergeFrom_lt (hs : s.lo < s.hi) (hss : ∀ t ∈ ss, t.lo < t.hi) :
    ∀ u ∈ mergeFrom s ss, u.lo < u.hi := by
  induction ss generalizing s with
  | nil => simpa [mergeFrom] using hs
  | cons t ts ih =>
      obtain ⟨ht, hts⟩ := List.forall_mem_cons.mp hss
      simp only [mergeFrom]
      split
      next hjoin => exact ih (hs.trans_le (hjoin.1.le.trans ht.le)) hts
      next => exact List.forall_mem_cons.mpr ⟨hs, ih ht hts⟩

/-- Joining two neighbours beforehand does not change the result of the pass. -/
theorem merge_join (ss ts : List (Segment α L)) (hjoin : s.CanJoin t) :
    merge (ss ++ s :: t :: ts) = merge (ss ++ s.join t :: ts) := by
  have step : ∀ u us, mergeFrom u (us ++ s :: t :: ts) = mergeFrom u (us ++ s.join t :: ts) := by
    intro u us
    induction us generalizing u with
    | nil =>
        simp only [List.nil_append, mergeFrom, Segment.canJoin_join]
        split
        next hus =>
          rw [if_pos ((Segment.join_canJoin hus.2).mpr hjoin), Segment.join_join]
          rfl
        next => rfl
    | cons v us ih =>
        simp only [List.cons_append, mergeFrom, ih]
  cases ss with
  | nil => simp only [List.nil_append, merge, mergeFrom, if_pos hjoin]
  | cons u us => exact step u us

theorem labelAt_merge (h : Ordered ss) (x : α) : labelAt (merge ss) x = labelAt ss x := by
  cases ss with
  | nil => rfl
  | cons s ss => exact labelAt_mergeFrom h x

/-- Of nonempty segments in order the pass makes a canonical list. -/
theorem canonical_merge (h : Ordered ss) (hlt : ∀ s ∈ ss, s.lo < s.hi) :
    Canonical (merge ss) := by
  cases ss with
  | nil => exact Canonical.nil
  | cons s ss =>
      obtain ⟨hs, hss⟩ := List.forall_mem_cons.mp hlt
      exact ⟨⟨mergeFrom_lt hs hss, h.mergeFrom.pairwise⟩, mergeFrom_isChain s ss⟩

/-! A pass that also drops empty segments. -/

/-- Extend the pending segment as `mergeFrom` does, but leave it out if it is empty. -/
def packFrom (s : Segment α L) : List (Segment α L) → List (Segment α L)
  | [] => if s.lo = s.hi then [] else [s]
  | t :: ts =>
      if s.CanJoin t then packFrom (s.join t) ts
      else if s.lo = s.hi then packFrom t ts
      else s :: packFrom t ts

theorem labelAt_packFrom (h : Ordered (s :: ss)) (x : α) :
    labelAt (packFrom s ss) x = labelAt (s :: ss) x := by
  induction ss generalizing s with
  | nil =>
      rw [packFrom]
      split
      next hempty => rw [labelAt_cons_of_empty hempty]
      next => rfl
  | cons t ts ih =>
      rw [packFrom]
      split
      next hjoin => rw [ih h.join, labelAt_join h hjoin]
      next =>
        split
        next hempty => rw [ih h.tail, labelAt_cons_of_empty hempty]
        next => rw [labelAt, labelAt, ih h.tail]

/-- Nothing in the result starts before the pending segment. -/
theorem lo_le_of_mem_packFrom (h : Ordered (s :: ss)) : ∀ u ∈ packFrom s ss, s.lo ≤ u.lo := by
  induction ss generalizing s with
  | nil =>
      intro u hu
      rw [packFrom] at hu
      split at hu
      next => exact absurd hu List.not_mem_nil
      next => exact (List.mem_singleton.mp hu) ▸ le_refl _
  | cons t ts ih =>
      have hle : s.lo ≤ t.lo := h.lo_le (List.mem_cons_of_mem _ List.mem_cons_self)
      intro u hu
      rw [packFrom] at hu
      split at hu
      next => exact ih h.join u hu
      next =>
        split at hu
        next => exact hle.trans (ih h.tail u hu)
        next =>
          rcases List.mem_cons.mp hu with rfl | hu
          · exact le_refl _
          · exact hle.trans (ih h.tail u hu)

theorem Ordered.packFrom (h : Ordered (s :: ss)) : Proper (packFrom s ss) := by
  have hnil : Proper ([] : List (Segment α L)) := Canonical.nil.toProper
  induction ss generalizing s with
  | nil =>
      rw [Segments.packFrom]
      split
      next => exact hnil
      next hne =>
        exact ⟨List.forall_mem_singleton.mpr (lt_of_le_of_ne h.head_le hne),
          List.pairwise_singleton _ _⟩
  | cons t ts ih =>
      rw [Segments.packFrom]
      split
      next => exact ih h.join
      next =>
        split
        next => exact ih h.tail
        next hne =>
          have hrest := ih h.tail
          refine ⟨List.forall_mem_cons.mpr ⟨lt_of_le_of_ne h.head_le hne, hrest.lt⟩,
            List.pairwise_cons.mpr ⟨fun u hu => ?_, hrest.pairwise⟩⟩
          exact (h.hi_le List.mem_cons_self).trans (lo_le_of_mem_packFrom h.tail u hu)

end Merge

/-! ## Overwriting one segment -/

section Cut

variable {m s : Segment α L} {ss pre mid post : List (Segment α L)}

/-- The segments of `ss` before `m`, those that overlap it, and those after it. -/
structure Cut (m : Segment α L) (ss pre mid post : List (Segment α L)) : Prop where
  eq : ss = pre ++ (mid ++ post)
  before : ∀ s ∈ pre, s.hi ≤ m.lo
  overlap : ∀ s ∈ mid, m.lo < s.hi ∧ s.lo < m.hi
  after : ∀ s ∈ post, m.hi ≤ s.lo

/-- What remains of the overlapping segments on the left of `m`. -/
def lowPiece (m : Segment α L) (mid : List (Segment α L)) : Segment α L :=
  mid.foldl (fun b s => if s.lo < m.lo then ⟨s.lo, m.lo, s.label⟩ else b) ⟨m.lo, m.lo, m.label⟩

/-- What remains of the overlapping segments on the right of `m`. -/
def highPiece (m : Segment α L) (mid : List (Segment α L)) : Segment α L :=
  mid.foldl (fun a s => if m.hi < s.hi then ⟨m.hi, s.hi, s.label⟩ else a) ⟨m.hi, m.hi, m.label⟩

/-- A fold that replaces its value on some elements ends with its start or with
the replacement of an element. -/
private theorem foldl_ite_cases {β γ : Type*} (p : γ → Prop) [DecidablePred p] (f : γ → β)
    (b : β) (l : List γ) : l.foldl (fun b c => if p c then f c else b) b = b ∨
      ∃ c ∈ l, p c ∧ l.foldl (fun b c => if p c then f c else b) b = f c := by
  induction l generalizing b with
  | nil => exact Or.inl rfl
  | cons c l ih =>
      simp only [List.foldl_cons]
      rcases ih (if p c then f c else b) with heq | ⟨d, hd, hpd, heq⟩
      · rw [heq]
        split
        next hc => exact Or.inr ⟨c, List.mem_cons_self, hc, rfl⟩
        next => exact Or.inl rfl
      · exact Or.inr ⟨d, List.mem_cons_of_mem _ hd, hpd, heq⟩

private theorem foldl_ite_of_forall_not {β γ : Type*} {p : γ → Prop} [DecidablePred p]
    (f : γ → β) (b : β) {l : List γ} (h : ∀ c ∈ l, ¬ p c) :
    l.foldl (fun b c => if p c then f c else b) b = b := by
  rcases foldl_ite_cases p f b l with heq | ⟨c, hc, hpc, _⟩
  · exact heq
  · exact absurd hpc (h c hc)

theorem lowPiece_cases (m : Segment α L) (mid : List (Segment α L)) :
    lowPiece m mid = ⟨m.lo, m.lo, m.label⟩ ∨
      ∃ s ∈ mid, s.lo < m.lo ∧ lowPiece m mid = ⟨s.lo, m.lo, s.label⟩ :=
  foldl_ite_cases _ _ _ _

theorem highPiece_cases (m : Segment α L) (mid : List (Segment α L)) :
    highPiece m mid = ⟨m.hi, m.hi, m.label⟩ ∨
      ∃ s ∈ mid, m.hi < s.hi ∧ highPiece m mid = ⟨m.hi, s.hi, s.label⟩ :=
  foldl_ite_cases _ _ _ _

@[simp] theorem lowPiece_hi (m : Segment α L) (mid : List (Segment α L)) :
    (lowPiece m mid).hi = m.lo := by
  rcases lowPiece_cases m mid with heq | ⟨s, _, _, heq⟩ <;> rw [heq]

@[simp] theorem highPiece_lo (m : Segment α L) (mid : List (Segment α L)) :
    (highPiece m mid).lo = m.hi := by
  rcases highPiece_cases m mid with heq | ⟨s, _, _, heq⟩ <;> rw [heq]

/-- Only the first overlapping segment can start before `m`. -/
theorem labelAt_lowPiece (hmid : Ordered mid) (hover : ∀ s ∈ mid, m.lo < s.hi) {x : α}
    (hx : x < m.lo) : labelAt [lowPiece m mid] x = labelAt mid x := by
  cases mid with
  | nil => exact labelAt_cons_of_lt hx
  | cons s rest =>
      have hlate : ∀ t ∈ rest, m.lo < t.lo := fun t ht =>
        (hover s List.mem_cons_self).trans_le (hmid.hi_le ht)
      have hrest : labelAt rest x = none :=
        labelAt_eq_none_of_lt fun t ht => hx.trans (hlate t ht)
      rw [lowPiece, List.foldl_cons,
        foldl_ite_of_forall_not _ _ fun t ht => (hlate t ht).not_gt]
      have hs := hover s List.mem_cons_self
      split
      next => simp only [labelAt, hx, hx.trans hs, and_true, hrest]
      next hge =>
        rw [labelAt_cons_of_lt (s := s) (hx.trans_le (not_lt.mp hge)), hrest]
        exact labelAt_cons_of_lt hx

/-- Only the last overlapping segment can end after `m`. -/
theorem labelAt_highPiece (hmid : Ordered mid) (hover : ∀ s ∈ mid, s.lo < m.hi) {x : α}
    (hx : m.hi ≤ x) : labelAt [highPiece m mid] x = labelAt mid x := by
  induction mid with
  | nil => exact labelAt_cons_of_ge hx
  | cons s rest ih =>
      obtain ⟨hs, hrest⟩ := List.forall_mem_cons.mp hover
      cases rest with
      | nil =>
          simp only [highPiece, List.foldl_cons, List.foldl_nil]
          split
          next => simp only [labelAt, hx, hs.le.trans hx, true_and]
          next hle =>
            rw [labelAt_cons_of_ge (s := s) ((not_lt.mp hle).trans hx)]
            exact labelAt_cons_of_ge hx
      | cons t rest =>
          have hhi : s.hi ≤ m.hi :=
            (hmid.hi_le List.mem_cons_self).trans (hrest t List.mem_cons_self).le
          have hskip : highPiece m (s :: t :: rest) = highPiece m (t :: rest) := by
            rw [highPiece, List.foldl_cons, if_neg hhi.not_gt]
            rfl
          rw [hskip, ih hmid.tail hrest, labelAt_cons_of_ge (hhi.trans hx)]

namespace Cut

theorem ordered_pieces (h : Cut m ss pre mid post) (hss : Ordered ss) (hm : m.lo < m.hi) :
    Ordered (pre ++ lowPiece m mid :: m :: highPiece m mid :: post) := by
  obtain ⟨hpre, hrest, hcross⟩ := List.pairwise_append.mp (h.eq ▸ hss.pairwise)
  obtain ⟨-, hpost, hcross'⟩ := List.pairwise_append.mp hrest
  have hle : ∀ s ∈ pre ++ (mid ++ post), s.lo ≤ s.hi := h.eq ▸ hss.le
  have hlow : (lowPiece m mid).lo ≤ m.lo ∧ ∀ s ∈ pre, s.hi ≤ (lowPiece m mid).lo := by
    rcases lowPiece_cases m mid with heq | ⟨t, ht, hlt, heq⟩ <;> rw [heq]
    · exact ⟨le_refl _, h.before⟩
    · exact ⟨hlt.le, fun s hs => hcross s hs t (List.mem_append_left _ ht)⟩
  have hhigh : m.hi ≤ (highPiece m mid).hi ∧ ∀ s ∈ post, (highPiece m mid).hi ≤ s.lo := by
    rcases highPiece_cases m mid with heq | ⟨t, ht, hlt, heq⟩ <;> rw [heq]
    · exact ⟨le_refl _, h.after⟩
    · exact ⟨hlt.le, fun s hs => hcross' t ht s hs⟩
  constructor
  · intro s hs
    simp only [List.mem_append, List.mem_cons] at hs
    rcases hs with hs | rfl | rfl | rfl | hs
    · exact hle s (List.mem_append_left _ hs)
    · simpa using hlow.1
    · exact hm.le
    · simpa using hhigh.1
    · exact hle s (List.mem_append_right _ (List.mem_append_right _ hs))
  · simp only [List.pairwise_append, List.pairwise_cons, List.forall_mem_cons, lowPiece_hi,
      highPiece_lo]
    refine ⟨hpre, ⟨⟨le_refl _, hm.le, fun s hs => hm.le.trans (h.after s hs)⟩,
      ⟨le_refl _, h.after⟩, hhigh.2, hpost⟩, fun s hs => ⟨hlow.2 s hs, h.before s hs,
      (h.before s hs).trans hm.le, fun t ht => hcross s hs t (List.mem_append_right _ ht)⟩⟩

theorem labelAt_pieces (h : Cut m ss pre mid post) (hss : Ordered ss) (hm : m.lo < m.hi)
    (x : α) : labelAt (pre ++ lowPiece m mid :: m :: highPiece m mid :: post) x =
      if m.lo ≤ x ∧ x < m.hi then some m.label else labelAt ss x := by
  have hmid : Ordered mid := hss.sublist (by
    rw [h.eq]
    exact (List.sublist_append_left mid post).trans (List.sublist_append_right pre _))
  have hcons : ∀ (s : Segment α L) ts, labelAt (s :: ts) x = (labelAt [s] x).or (labelAt ts x) :=
    fun s ts => (labelAt_append : labelAt ([s] ++ ts) x = _)
  rw [h.eq, labelAt_append, labelAt_append, labelAt_append, hcons, hcons m, hcons (highPiece _ _)]
  rcases lt_or_ge x m.lo with hlt | hge
  · have hhi : x < (highPiece m mid).lo := by simpa using hlt.trans hm
    have hpost : labelAt post x = none :=
      labelAt_eq_none_of_lt fun s hs => (hlt.trans hm).trans_le (h.after s hs)
    rw [labelAt_lowPiece hmid (fun s hs => (h.overlap s hs).1) hlt, labelAt_cons_of_lt hlt,
      labelAt_cons_of_lt hhi, hpost]
    simp [hlt.not_ge]
  · have hpre : labelAt pre x = none :=
      labelAt_eq_none_of_ge fun s hs => (h.before s hs).trans hge
    have hlow : (lowPiece m mid).hi ≤ x := by simpa using hge
    rw [hpre, labelAt_cons_of_ge hlow]
    rcases lt_or_ge x m.hi with hlt | hge'
    · simp [labelAt, hge, hlt]
    · rw [labelAt_cons_of_ge hge', labelAt_highPiece hmid (fun s hs => (h.overlap s hs).2) hge']
      simp [hge'.not_gt]

variable [DecidableEq L]

/-- The empty pieces disappear in the merge pass, since they continue `m`. -/
theorem canonical_merge_pieces (h : Cut m ss pre mid post) (hss : Canonical ss)
    (hm : m.lo < m.hi) :
    Canonical (merge (pre ++ lowPiece m mid :: m :: highPiece m mid :: post)) := by
  have hord := h.ordered_pieces hss.ordered hm
  have hlt : ∀ s ∈ pre ++ (mid ++ post), s.lo < s.hi := h.eq ▸ hss.lt
  have hpre : ∀ s ∈ pre, s.lo < s.hi := fun s hs => hlt s (List.mem_append_left _ hs)
  have hpost : ∀ s ∈ post, s.lo < s.hi := fun s hs =>
    hlt s (List.mem_append_right _ (List.mem_append_right _ hs))
  -- the right piece first: it is dropped, or it is nonempty
  obtain ⟨ts, hsub, hts, hmerge⟩ : ∃ ts, List.Sublist ts (highPiece m mid :: post) ∧
      (∀ s ∈ ts, s.lo < s.hi) ∧
      merge (pre ++ lowPiece m mid :: m :: highPiece m mid :: post) =
        merge (pre ++ lowPiece m mid :: m :: ts) := by
    rcases highPiece_cases m mid with heq | ⟨t, -, hlt', heq⟩
    · refine ⟨post, List.sublist_cons_self _ _, hpost, ?_⟩
      have hjoin : m.CanJoin (highPiece m mid) := by simp [Segment.CanJoin, heq]
      have happend := merge_join (pre ++ [lowPiece m mid]) post hjoin
      simpa [heq, Segment.join] using happend
    · refine ⟨highPiece m mid :: post, List.Sublist.refl _, ?_, rfl⟩
      exact List.forall_mem_cons.mpr ⟨by rw [heq]; exact hlt', hpost⟩
  rw [hmerge]
  have hord' := hord.sublist ((List.Sublist.refl pre).append ((hsub.cons_cons m).cons_cons _))
  rcases lowPiece_cases m mid with heq | ⟨t, -, hlt', heq⟩
  · have hjoin : (lowPiece m mid).CanJoin m := by simp [Segment.CanJoin, heq]
    rw [merge_join pre ts hjoin]
    have hjoined : (lowPiece m mid).join m = m := by simp [Segment.join, heq]
    rw [hjoined]
    refine canonical_merge (hord'.sublist ((List.Sublist.refl pre).append
      (List.sublist_cons_self _ _))) ?_
    exact List.forall_mem_append.mpr ⟨hpre, List.forall_mem_cons.mpr ⟨hm, hts⟩⟩
  · refine canonical_merge hord' (List.forall_mem_append.mpr ⟨hpre,
      List.forall_mem_cons.mpr ⟨?_, List.forall_mem_cons.mpr ⟨hm, hts⟩⟩⟩)
    rw [heq]
    exact hlt'

end Cut

/-! ## Finding the cut -/

private theorem forall_take_findIdx {β : Type*} (p : β → Bool) (l : List β) :
    ∀ b ∈ l.take (l.findIdx p), p b = false := by
  induction l with
  | nil => simp
  | cons b l ih =>
      rw [List.findIdx_cons]
      cases hb : p b with
      | true => simp
      | false =>
          simp only [cond_false, List.take_succ_cons]
          exact List.forall_mem_cons.mpr ⟨hb, ih⟩

private theorem forall_drop_findIdx {β : Type*} {p : β → Bool} {l : List β}
    (h : l.Pairwise fun a b => p a = true → p b = true) :
    ∀ b ∈ l.drop (l.findIdx p), p b = true := by
  induction l with
  | nil => simp
  | cons b l ih =>
      obtain ⟨hb, hl⟩ := List.pairwise_cons.mp h
      rw [List.findIdx_cons]
      cases hpb : p b with
      | true =>
          simp only [cond_true, List.drop_zero]
          exact List.forall_mem_cons.mpr ⟨hpb, fun c hc => hb c hc hpb⟩
      | false =>
          simp only [cond_false, List.drop_succ_cons]
          exact ih hl

/-- A scan for a property that stays true ends where it becomes true. -/
theorem findIdx_le_iff {β : Type*} {p : β → Bool} {l : List β}
    (h : l.Pairwise fun a b => p a = true → p b = true) {i : Nat} (hi : i < l.length) :
    l.findIdx p ≤ i ↔ p l[i] = true := by
  constructor
  · intro hle
    refine forall_drop_findIdx h _ (List.mem_drop_iff_getElem.mpr ⟨i - l.findIdx p, by omega, ?_⟩)
    congr 1
    omega
  · intro hp
    by_contra hgt
    have hmem : l[i] ∈ l.take (l.findIdx p) :=
      List.mem_take_iff_getElem.mpr ⟨i, by omega, rfl⟩
    rw [forall_take_findIdx p l _ hmem] at hp
    cases hp

/-- In order, the segments that end after a position come last. -/
theorem Ordered.pairwise_lt_hi (h : Ordered ss) (x : α) :
    ss.Pairwise fun a b => x < a.hi → x < b.hi :=
  h.pairwise.imp_of_mem fun {_ b} _ hb hab hx => (hx.trans_le hab).trans_le (h.le b hb)

theorem Ordered.pairwise_le_lo (h : Ordered ss) (x : α) :
    ss.Pairwise fun a b => x ≤ a.lo → x ≤ b.lo :=
  h.pairwise.imp_of_mem fun {a _} ha _ hab hx => (hx.trans (h.le a ha)).trans hab

/-- Two linear scans find the cut if the first does not end behind the second. -/
theorem cut_of_findIdx_le (hss : Ordered ss) {p q : Segment α L → Bool}
    (hp : ∀ s ∈ ss, p s = true ↔ m.lo < s.hi) (hq : ∀ s ∈ ss, q s = true ↔ m.hi ≤ s.lo)
    (hle : ss.findIdx p ≤ ss.findIdx q) :
    Cut m ss (ss.take (ss.findIdx p))
      ((ss.drop (ss.findIdx p)).take (ss.findIdx q - ss.findIdx p))
      (ss.drop (ss.findIdx q)) := by
  have hpmono : ss.Pairwise fun a b => p a = true → p b = true := by
    refine (hss.pairwise_lt_hi m.lo).imp_of_mem fun {a b} ha hb hab hpa => ?_
    exact (hp b hb).mpr (hab ((hp a ha).mp hpa))
  have hqmono : ss.Pairwise fun a b => q a = true → q b = true := by
    refine (hss.pairwise_le_lo m.hi).imp_of_mem fun {a b} ha hb hab hqa => ?_
    exact (hq b hb).mpr (hab ((hq a ha).mp hqa))
  refine ⟨?_, ?_, ?_, ?_⟩
  · have hdrop : (ss.drop (ss.findIdx p)).drop (ss.findIdx q - ss.findIdx p) =
        ss.drop (ss.findIdx q) := by
      rw [List.drop_drop, Nat.add_sub_cancel' hle]
    rw [← hdrop, List.take_append_drop, List.take_append_drop]
  · intro s hs
    have hfalse := forall_take_findIdx p ss s hs
    exact not_lt.mp ((hp s (List.mem_of_mem_take hs)).not.mp (by simp [hfalse]))
  · intro s hs
    constructor
    · have hdrop := List.mem_of_mem_take hs
      exact (hp s (List.mem_of_mem_drop hdrop)).mp (forall_drop_findIdx hpmono s hdrop)
    · rw [← List.drop_take] at hs
      have htake := List.mem_of_mem_drop hs
      have hfalse := forall_take_findIdx q ss s htake
      exact not_le.mp ((hq s (List.mem_of_mem_take htake)).not.mp (by simp [hfalse]))
  · intro s hs
    exact (hq s (List.mem_of_mem_drop hs)).mp (forall_drop_findIdx hqmono s hs)

/-- Two linear scans find the cut: for the first segment that ends after the start
of `m`, and for the first that starts at or after its end. -/
theorem cut_of_findIdx (hss : Ordered ss) (hm : m.lo < m.hi) {p q : Segment α L → Bool}
    (hp : ∀ s ∈ ss, p s = true ↔ m.lo < s.hi) (hq : ∀ s ∈ ss, q s = true ↔ m.hi ≤ s.lo) :
    ss.findIdx p ≤ ss.findIdx q ∧
      Cut m ss (ss.take (ss.findIdx p))
        ((ss.drop (ss.findIdx p)).take (ss.findIdx q - ss.findIdx p))
        (ss.drop (ss.findIdx q)) := by
  have hle : ss.findIdx p ≤ ss.findIdx q := by
    by_contra hnot
    have hgt : ss.findIdx q < ss.findIdx p := Nat.lt_of_not_le hnot
    have hlen : ss.findIdx q < ss.length := Nat.lt_of_lt_of_le hgt List.findIdx_le_length
    have hmem := List.getElem_mem hlen
    have hge := (hq _ hmem).mp (List.findIdx_getElem (w := hlen))
    have hlt := (hp _ hmem).not.mp (by simpa using List.not_of_lt_findIdx hgt)
    exact absurd ((hm.trans_le hge).trans_le (hss.le _ hmem)) hlt
  exact ⟨hle, cut_of_findIdx_le hss hp hq hle⟩

end Cut

/-! ## Extending a segment over those that overlap it -/

section Hull

variable {m s : Segment α L} {ss pre mid post : List (Segment α L)}

/-- The segment from the start of `m` or of the first of the others to the end of `m` or
of the last of them. -/
def hull (m : Segment α L) (mid : List (Segment α L)) : Segment α L where
  lo := mid.head?.elim m.lo fun s => min m.lo s.lo
  hi := mid.getLast?.elim m.hi fun s => max m.hi s.hi
  label := m.label

theorem hull_lo_le (m : Segment α L) (mid : List (Segment α L)) : (hull m mid).lo ≤ m.lo := by
  rw [hull]
  cases mid.head? with
  | none => exact le_refl _
  | some s => exact min_le_left _ _

theorem le_hull_hi (m : Segment α L) (mid : List (Segment α L)) : m.hi ≤ (hull m mid).hi := by
  rw [hull]
  cases mid.getLast? with
  | none => exact le_refl _
  | some s => exact le_max_left _ _

/-- The hull covers the segments that it extends over. -/
theorem hull_of_mem (hmid : Ordered mid) (hs : s ∈ mid) :
    (hull m mid).lo ≤ s.lo ∧ s.hi ≤ (hull m mid).hi := by
  constructor
  · cases mid with
    | nil => exact absurd hs List.not_mem_nil
    | cons t rest => exact (min_le_right _ _).trans (hmid.lo_le hs)
  · rcases List.eq_nil_or_concat mid with rfl | ⟨init, t, rfl⟩
    · exact absurd hs List.not_mem_nil
    · rw [List.concat_eq_append] at hs hmid ⊢
      have hhi : (hull m (init ++ [t])).hi = max m.hi t.hi := by
        rw [hull, List.getLast?_append]
        rfl
      have hle : s.hi ≤ t.hi := by
        rcases List.mem_append.mp hs with hs | hs
        · have hbefore := (List.pairwise_append.mp hmid.pairwise).2.2 s hs t List.mem_cons_self
          exact hbefore.trans (hmid.le t (List.mem_append_right _ List.mem_cons_self))
        · exact (List.mem_singleton.mp hs) ▸ le_refl _
      exact hhi ▸ hle.trans (le_max_right _ _)

/-- What the hull adds to `m` belongs to the segments that overlap it. -/
theorem exists_mem_of_hull {x : α} (hover : ∀ s ∈ mid, m.lo < s.hi ∧ s.lo < m.hi)
    (hlo : (hull m mid).lo ≤ x) (hhi : x < (hull m mid).hi) (hout : ¬ (m.lo ≤ x ∧ x < m.hi)) :
    ∃ s ∈ mid, s.lo ≤ x ∧ x < s.hi := by
  rcases lt_or_ge x m.lo with hlt | hge
  · cases mid with
    | nil => exact absurd (hlo : m.lo ≤ x) hlt.not_ge
    | cons s rest =>
        refine ⟨s, List.mem_cons_self, ?_, hlt.trans (hover s List.mem_cons_self).1⟩
        exact (min_le_iff.mp (hlo : min m.lo s.lo ≤ x)).resolve_left hlt.not_ge
  · have hge' : m.hi ≤ x := not_lt.mp fun h => hout ⟨hge, h⟩
    rcases List.eq_nil_or_concat mid with rfl | ⟨init, s, rfl⟩
    · exact absurd (hhi : x < m.hi) hge'.not_gt
    · rw [List.concat_eq_append] at hover hhi ⊢
      have hs : s ∈ init ++ [s] := List.mem_append_right _ List.mem_cons_self
      rw [hull, List.getLast?_append] at hhi
      refine ⟨s, hs, (hover s hs).2.le.trans hge', ?_⟩
      exact (lt_max_iff.mp (hhi : x < max m.hi s.hi)).resolve_left hge'.not_gt

theorem Cut.ordered_hull (h : Cut m ss pre mid post) (hss : Ordered ss) (hm : m.lo ≤ m.hi) :
    Ordered (pre ++ hull m mid :: post) := by
  obtain ⟨hpre, hrest, hcross⟩ := List.pairwise_append.mp (h.eq ▸ hss.pairwise)
  obtain ⟨-, hpost, hcross'⟩ := List.pairwise_append.mp hrest
  have hle : ∀ s ∈ pre ++ (mid ++ post), s.lo ≤ s.hi := h.eq ▸ hss.le
  have hbefore : ∀ s ∈ pre, s.hi ≤ (hull m mid).lo := by
    intro s hs
    cases mid with
    | nil => exact h.before s hs
    | cons t rest =>
        exact le_min (h.before s hs)
          (hcross s hs t (List.mem_append_left _ List.mem_cons_self))
  have hafter : ∀ s ∈ post, (hull m mid).hi ≤ s.lo := by
    intro s hs
    rcases List.eq_nil_or_concat mid with rfl | ⟨init, t, rfl⟩
    · exact h.after s hs
    · rw [List.concat_eq_append] at hcross' ⊢
      rw [hull, List.getLast?_append]
      exact max_le (h.after s hs)
        (hcross' t (List.mem_append_right _ List.mem_cons_self) s hs)
  have hmid : (hull m mid).lo ≤ (hull m mid).hi :=
    (hull_lo_le m mid).trans (hm.trans (le_hull_hi m mid))
  refine ⟨?_, List.pairwise_append.mpr ⟨hpre, List.pairwise_cons.mpr ⟨hafter, hpost⟩, ?_⟩⟩
  · intro s hs
    rcases List.mem_append.mp hs with hs | hs
    · exact hle s (List.mem_append_left _ hs)
    · rcases List.mem_cons.mp hs with rfl | hs
      · exact hmid
      · exact hle s (List.mem_append_right _ (List.mem_append_right _ hs))
  · intro s hs t ht
    rcases List.mem_cons.mp ht with rfl | ht
    · exact hbefore s hs
    · exact hcross s hs t (List.mem_append_right _ ht)

/-- Replacing segments of its own label by its hull, `m` is added. -/
theorem Cut.labelAt_hull (h : Cut m ss pre mid post) (hss : Ordered ss) (hm : m.lo ≤ m.hi)
    (hlabel : ∀ s ∈ mid, s.label = m.label) (x : α) :
    labelAt (pre ++ hull m mid :: post) x =
      if m.lo ≤ x ∧ x < m.hi then some m.label else labelAt ss x := by
  have hmid : Ordered mid := hss.sublist (by
    rw [h.eq]
    exact (List.sublist_append_left mid post).trans (List.sublist_append_right pre _))
  by_cases hx : (hull m mid).lo ≤ x ∧ x < (hull m mid).hi
  · have hnew := (h.ordered_hull hss hm).labelAt_of_mem
      (List.mem_append_right pre List.mem_cons_self) hx.1 hx.2
    rw [hnew]
    split
    next => rfl
    next hout =>
      obtain ⟨s, hs, hlo, hhi⟩ := exists_mem_of_hull h.overlap hx.1 hx.2 hout
      have hmem : s ∈ ss := h.eq ▸ List.mem_append_right _ (List.mem_append_left _ hs)
      rw [hss.labelAt_of_mem hmem hlo hhi, hlabel s hs]
      rfl
  · have hout : ¬ (m.lo ≤ x ∧ x < m.hi) := fun hin =>
      hx ⟨(hull_lo_le m mid).trans hin.1, hin.2.trans_le (le_hull_hi m mid)⟩
    have hnone : labelAt mid x = none := labelAt_eq_none_iff.mpr fun s hs hin =>
      have hcover := hull_of_mem (m := m) hmid hs
      hx ⟨hcover.1.trans hin.1, hin.2.trans_le hcover.2⟩
    rw [if_neg hout, h.eq, labelAt_append, labelAt_append, labelAt_append, hnone, Option.none_or]
    congr 1
    exact if_neg hx

end Hull

end Segments
