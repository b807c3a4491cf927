import Aarch64.Lib.Segments
import Aarch64.Rust.MemoryMap.Basic
import Mathlib.Logic.Relation

/-!
# Range lists as partial functions

A range list denotes the partial function from addresses to types and statuses of
its segments. `compact` is the merge pass of the segment library done in place,
and `addMemory` on a canonical list cuts at the new range, so the library gives
both the new denotation and the canonical form.
-/

namespace Aarch64.Rust

open Segments (Segment labelAt Canonical Cut lowPiece highPiece)

namespace MemoryRange

def segment (r : MemoryRange) : Segment Nat (MemoryType × MemoryStatus) :=
  ⟨r.range.start, r.range.stop, (r.memtype, r.status)⟩

@[simp] theorem segment_lo (r : MemoryRange) : r.segment.lo = r.range.start := rfl
@[simp] theorem segment_hi (r : MemoryRange) : r.segment.hi = r.range.stop := rfl
@[simp] theorem segment_label (r : MemoryRange) : r.segment.label = (r.memtype, r.status) := rfl

theorem segment_injective : Function.Injective segment := by
  rintro ⟨⟨_, _⟩, _, _⟩ ⟨⟨_, _⟩, _, _⟩ h
  simpa [segment, and_assoc] using h

end MemoryRange

theorem canConcat_iff {l r : MemoryRange} : canConcat l r ↔ l.segment.CanJoin r.segment := by
  simp [canConcat, Segment.CanJoin]

/-- The segments of a range list. -/
def segments (seq : List MemoryRange) : List (Segment Nat (MemoryType × MemoryStatus)) :=
  seq.map MemoryRange.segment

/-- The type and the status under which an address is registered. -/
def lookup (seq : List MemoryRange) (x : Nat) : Option (MemoryType × MemoryStatus) :=
  labelAt (segments seq) x

@[simp] theorem segments_nil : segments [] = [] := rfl

@[simp] theorem segments_cons (r : MemoryRange) (seq : List MemoryRange) :
    segments (r :: seq) = r.segment :: segments seq := rfl

@[simp] theorem segments_append (s t : List MemoryRange) :
    segments (s ++ t) = segments s ++ segments t := List.map_append

theorem segments_injective : Function.Injective segments :=
  List.map_injective_iff.mpr MemoryRange.segment_injective

/-! ## `compact` is the merge pass -/

/-- Between the ranges written and the ranges unread stands what the pass has
moved away from. -/
private theorem compactLoop_spec (unread : List MemoryRange) :
    ∀ (written : List MemoryRange) (cur : MemoryRange) (moved : List MemoryRange),
    ∃ seq last, compactLoop (written ++ cur :: moved ++ unread) written.length
        (written.length + 1 + moved.length) = some (seq, last) ∧
      segments (seq.take (last + 1)) =
        segments written ++ Segments.mergeFrom cur.segment (segments unread) := by
  induction unread with
  | nil =>
      intro written cur moved
      refine ⟨written ++ cur :: moved ++ [], written.length, ?_, ?_⟩
      · rw [compactLoop, if_neg (by simp; omega)]
      · simp [List.take_append, Segments.mergeFrom, List.take_of_length_le]
  | cons r unread ih =>
      intro written cur moved
      have hto : (written ++ cur :: moved ++ r :: unread)[written.length]? = some cur := by simp
      have hfrom : (written ++ cur :: moved ++ r :: unread)[written.length + 1 + moved.length]? =
          some r := by
        rw [List.getElem?_append_right (by simp; omega)]
        simp [Nat.add_assoc, Nat.add_comm 1]
      rw [compactLoop, if_pos (by simp; omega), hto, hfrom]
      simp only [Option.bind_eq_bind, Option.bind_some, segments_cons, Segments.mergeFrom,
        ← canConcat_iff]
      obtain ⟨next, moved', hnext⟩ : ∃ next moved', moved ++ [r] = next :: moved' :=
        List.exists_cons_of_ne_nil (by simp)
      have hlen : moved'.length = moved.length := by
        simpa using (congrArg List.length hnext).symm
      split
      next hjoin =>
        obtain ⟨seq, last, hrun, htake⟩ :=
          ih written { cur with range.stop := r.range.stop } (moved ++ [r])
        refine ⟨seq, last, ?_, htake⟩
        rw [← hrun]
        congr 1
        · simp [List.set_append_right]
        · simp
          omega
      next =>
        obtain ⟨seq, last, hrun, htake⟩ := ih (written ++ [cur]) r moved'
        refine ⟨seq, last, ?_, by rw [htake]; simp⟩
        rw [if_pos (by simp), ← hrun]
        have hlist : written ++ cur :: moved ++ r :: unread =
            (written ++ [cur]) ++ next :: (moved' ++ unread) := by
          have := congrArg (fun l => written ++ cur :: (l ++ unread)) hnext
          simpa using this
        rw [hlist]
        congr 1
        · rw [List.set_append_right _ _ (by simp)]
          simp
        · simp
        · simp
          omega

theorem compact_spec (seq : List MemoryRange) :
    ∃ out, compact seq = some out ∧ segments out = Segments.merge (segments seq) := by
  cases seq with
  | nil => exact ⟨[], by simp [compact, compactLoop], rfl⟩
  | cons r seq =>
      obtain ⟨out, last, hrun, htake⟩ := compactLoop_spec seq [] r []
      refine ⟨out.take (last + 1), ?_, by simpa [Segments.merge] using htake⟩
      simp only [List.nil_append, List.cons_append, List.length_nil, Nat.add_zero,
        Nat.zero_add] at hrun
      rw [compact, hrun]
      rfl

/-! ## `addMemory` overwrites a segment -/

theorem replace_spec {α : Type} {seq items : List α} {range : Range}
    (hle : range.start ≤ range.stop) (hlen : range.stop ≤ seq.length) :
    replace seq range items = some (seq.take range.start ++ (items ++ seq.drop range.stop)) := by
  have hlarger : (seq.drop range.stop).length = seq.length - range.stop := List.length_drop
  have htake : (seq.drop range.stop ++ seq.take range.stop).take
      (range.start + (seq.length - range.stop)) = seq.drop range.stop ++ seq.take range.start := by
    rw [List.take_append, List.take_of_length_le (by omega), hlarger, Nat.add_sub_cancel,
      List.take_take, Nat.min_eq_left hle]
  simp only [replace, rotateLeft, if_pos hlen, Option.bind_eq_bind, Option.bind_some, htake]
  rw [if_pos (by simp), List.append_assoc, ← hlarger, List.drop_left, List.take_left,
    List.append_assoc]

/-- The reasons to refuse `mem` because of a range that it overlaps. -/
def Conflicts (mem : MemoryRange) (memtype : MemoryType) (status : MemoryStatus) : Prop :=
  memtype ≠ mem.memtype ∨ status = .reserved ∧ mem.status = .free

/-- The loop refuses exactly the conflicts, and otherwise ends with the two pieces
that stick out. -/
theorem addMemoryLoop_spec (mem : MemoryRange) (mid : List MemoryRange) :
    ∀ before after : MemoryRange,
    ((∃ e, addMemoryLoop mem mid before after = .error e) ∧
      ∃ r ∈ mid, Conflicts mem r.memtype r.status) ∨
    ((∀ r ∈ mid, ¬ Conflicts mem r.memtype r.status) ∧
      ∃ low high, addMemoryLoop mem mid before after = .ok (low, high) ∧
        low.segment = (segments mid).foldl (fun b s => if s.lo < mem.range.start then
          ⟨s.lo, mem.range.start, s.label⟩ else b) before.segment ∧
        high.segment = (segments mid).foldl (fun a s => if mem.range.stop < s.hi then
          ⟨mem.range.stop, s.hi, s.label⟩ else a) after.segment) := by
  induction mid with
  | nil => exact fun before after => Or.inr ⟨by simp, before, after, rfl, rfl, rfl⟩
  | cons r rest ih =>
      intro before after
      rw [addMemoryLoop]
      by_cases htype : r.memtype ≠ mem.memtype
      · rw [if_pos htype]
        exact Or.inl ⟨⟨_, rfl⟩, r, List.mem_cons_self, Or.inl htype⟩
      rw [if_neg htype]
      by_cases hstatus : (r.status, mem.status) = (.reserved, .free)
      · rw [if_pos hstatus]
        exact Or.inl ⟨⟨_, rfl⟩, r, List.mem_cons_self, Or.inr (by simpa using hstatus)⟩
      rw [if_neg hstatus]
      have hr : ¬ Conflicts mem r.memtype r.status := by
        simpa [Conflicts, htype] using hstatus
      rcases ih (if r.range.start < mem.range.start then
            ⟨⟨r.range.start, mem.range.start⟩, r.memtype, r.status⟩ else before)
          (if r.range.stop > mem.range.stop then
            ⟨⟨mem.range.stop, r.range.stop⟩, r.memtype, r.status⟩ else after) with
        ⟨herr, t, ht, hconf⟩ | ⟨hnone, low, high, hrun, hlow, hhigh⟩
      · exact Or.inl ⟨herr, t, List.mem_cons_of_mem _ ht, hconf⟩
      · refine Or.inr ⟨List.forall_mem_cons.mpr ⟨hr, hnone⟩, low, high, hrun, ?_, ?_⟩
        · rw [hlow, segments_cons, List.foldl_cons]
          congr 1
          exact apply_ite MemoryRange.segment _ _ _
        · rw [hhigh, segments_cons, List.foldl_cons]
          congr 1
          exact apply_ite MemoryRange.segment _ _ _

/-- The call with a nonempty range on a canonical list. -/
structure Overwrites (seq : List MemoryRange) (mem : MemoryRange)
    (result : Except String Unit) (seq' : List MemoryRange) : Prop where
  error_iff : (∃ e, result = .error e) ↔ ∃ x memtype status, mem.range.contains x = true ∧
    lookup seq x = some (memtype, status) ∧ Conflicts mem memtype status
  unchanged : (∃ e, result = .error e) → seq' = seq
  lookup_eq : result = .ok () → ∀ x, lookup seq' x =
    if mem.range.contains x then some (mem.memtype, mem.status) else lookup seq x

variable {seq : List MemoryRange} {mem : MemoryRange}

theorem cmpRange_ne_lt (mem r : MemoryRange) :
    (cmpRange mem r != .lt) = decide (mem.range.start < r.range.stop) := by
  unfold cmpRange
  split
  next h => simp [h]
  next h =>
    rw [decide_eq_true (Nat.lt_of_not_le h)]
    split <;> rfl

theorem cmpRange_eq_gt (mem r : MemoryRange) : (cmpRange mem r == .gt) =
    decide (mem.range.start < r.range.stop ∧ mem.range.stop ≤ r.range.start) := by
  unfold cmpRange
  split
  next h => simp [h]
  next h =>
    have hlt := Nat.lt_of_not_le h
    split
    next h' => simp [hlt, h']
    next h' => simp [h']

/-- The two scans of `equal_range` find the cut at `mem`. -/
theorem cut_equalRange (hseq : Segments.Ordered (segments seq))
    (hmem : mem.range.start < mem.range.stop) {pos : Range}
    (hpos : pos = equalRange seq (cmpRange mem)) :
    pos.start ≤ pos.stop ∧ pos.stop ≤ seq.length ∧
      Cut mem.segment (segments seq) (segments (seq.take pos.start))
        (segments ((seq.drop pos.start).take (pos.stop - pos.start)))
        (segments (seq.drop pos.stop)) := by
  let p : Segment Nat (MemoryType × MemoryStatus) → Bool := fun s =>
    decide (mem.range.start < s.hi)
  let q : Segment Nat (MemoryType × MemoryStatus) → Bool := fun s =>
    decide (mem.range.start < s.hi ∧ mem.range.stop ≤ s.lo)
  have hlower : pos.start = (segments seq).findIdx p := by
    rw [hpos, segments, List.findIdx_map]
    exact congrArg (fun f => List.findIdx f seq) (funext (cmpRange_ne_lt mem))
  have hupper : pos.stop = (segments seq).findIdx q := by
    rw [hpos, segments, List.findIdx_map]
    exact congrArg (fun f => List.findIdx f seq) (funext (cmpRange_eq_gt mem))
  have hq : ∀ s ∈ segments seq, q s = true ↔ mem.segment.hi ≤ s.lo := by
    intro s hs
    have hle := hseq.le s hs
    simp only [q, decide_eq_true_eq, MemoryRange.segment_hi]
    omega
  obtain ⟨hle, hcut⟩ := Segments.cut_of_findIdx (m := mem.segment) hseq hmem
    (p := p) (q := q) (fun s _ => by simp [p]) hq
  rw [← hlower, ← hupper] at hle hcut
  refine ⟨hle, ?_, ?_⟩
  · have hlen : (segments seq).findIdx q ≤ (segments seq).length := List.findIdx_le_length
    rwa [← hupper, segments, List.length_map] at hlen
  · simpa only [segments, List.map_take, List.map_drop] using hcut

/-- An overlapped range shares an address with `mem`, and every address of `mem`
that is registered lies in an overlapped range. -/
private theorem exists_conflict_iff {pre mid post : List MemoryRange}
    (hseq : Canonical (segments seq)) (hmem : mem.range.start < mem.range.stop)
    (hcut : Cut mem.segment (segments seq) (segments pre) (segments mid) (segments post)) :
    (∃ r ∈ mid, Conflicts mem r.memtype r.status) ↔ ∃ x memtype status,
      mem.range.contains x = true ∧ lookup seq x = some (memtype, status) ∧
        Conflicts mem memtype status := by
  constructor
  · rintro ⟨r, hr, hconf⟩
    have hr' : r.segment ∈ segments mid := List.mem_map_of_mem hr
    obtain ⟨hlo, hhi⟩ := hcut.overlap _ hr'
    have hin : r.segment ∈ segments seq := by
      rw [hcut.eq]
      exact List.mem_append_right _ (List.mem_append_left _ hr')
    have hlt := hseq.lt _ hin
    simp only [MemoryRange.segment_lo, MemoryRange.segment_hi] at hlo hhi hlt
    have hx : r.range.start ≤ max mem.range.start r.range.start ∧
        max mem.range.start r.range.start < r.range.stop := by omega
    refine ⟨_, r.memtype, r.status, ?_, hseq.ordered.labelAt_of_mem hin hx.1 hx.2, hconf⟩
    rw [Range.contains_iff]
    omega
  · rintro ⟨x, memtype, status, hx, hlabel, hconf⟩
    obtain ⟨s, hs, hlo, hhi, heq⟩ := Segments.exists_mem_of_labelAt hlabel
    rw [Range.contains_iff] at hx
    rw [hcut.eq, List.mem_append, List.mem_append] at hs
    rcases hs with hs | hs | hs
    · have := hcut.before s hs
      simp only [MemoryRange.segment_lo] at this
      omega
    · obtain ⟨r, hr, rfl⟩ := List.mem_map.mp hs
      refine ⟨r, hr, ?_⟩
      obtain ⟨htype, hstatus⟩ := Prod.mk.inj heq
      rwa [htype, hstatus]
    · have := hcut.after s hs
      simp only [MemoryRange.segment_hi] at this
      omega

theorem addMemory_of_isEmpty (h : mem.range.isEmpty = true) :
    addMemory seq mem = some (.ok (), seq) := if_pos h

theorem addMemory_spec (mem : MemoryRange) (hseq : Canonical (segments seq))
    (hmem : mem.range.start < mem.range.stop) :
    ∃ result seq', addMemory seq mem = some (result, seq') ∧ Overwrites seq mem result seq' ∧
      Canonical (segments seq') := by
  obtain ⟨pos, hpos⟩ : ∃ pos, pos = equalRange seq (cmpRange mem) := ⟨_, rfl⟩
  obtain ⟨hle, hlen, hcut⟩ := cut_equalRange hseq.ordered hmem hpos
  have hconf := exists_conflict_iff hseq hmem hcut
  have hempty : ¬ mem.range.isEmpty = true := by simpa using hmem
  rw [addMemory, if_neg hempty, ← hpos]
  rcases addMemoryLoop_spec mem ((seq.drop pos.start).take (pos.stop - pos.start))
      ⟨⟨mem.range.start, mem.range.start⟩, mem.memtype, mem.status⟩
      ⟨⟨mem.range.stop, mem.range.stop⟩, mem.memtype, mem.status⟩ with
    ⟨⟨e, hrun⟩, hbad⟩ | ⟨hgood, low, high, hrun, hlow, hhigh⟩
  · refine ⟨.error e, seq, by simp only [hrun], ⟨?_, fun _ => rfl, ?_⟩, hseq⟩
    · exact iff_of_true ⟨e, rfl⟩ (hconf.mp hbad)
    · intro h
      cases h
  · obtain ⟨out, hout, hsegs⟩ := compact_spec
      (seq.take pos.start ++ ([low, mem, high] ++ seq.drop pos.stop))
    simp only [segments_append, segments_cons, hlow, hhigh, List.cons_append,
      List.nil_append] at hsegs
    have hord := hcut.ordered_pieces hseq.ordered hmem
    refine ⟨.ok (), out, ?_, ⟨?_, ?_, ?_⟩, ?_⟩
    · simp only [hrun, replace_spec hle hlen, Option.bind_eq_bind, Option.bind_some, hout]
      rfl
    · refine iff_of_false (by rintro ⟨e, he⟩; cases he) fun h => ?_
      obtain ⟨r, hr, hrconf⟩ := hconf.mpr h
      exact hgood r hr hrconf
    · rintro ⟨e, he⟩
      cases he
    · intro _ x
      have hpieces := hcut.labelAt_pieces hseq.ordered hmem x
      simp only [MemoryRange.segment_lo, MemoryRange.segment_hi, ← Range.contains_iff] at hpieces
      rw [lookup, hsegs]
      exact (Segments.labelAt_merge hord x).trans hpieces
    · rw [hsegs]
      exact hcut.canonical_merge_pieces hseq hmem

end Aarch64.Rust
