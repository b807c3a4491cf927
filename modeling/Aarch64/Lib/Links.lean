import Mathlib.Data.List.Chain
import Mathlib.Data.List.Nodup
import Mathlib.Logic.Function.Basic

/-!
# Doubly linked rings

Every node has a link forward and a link back. What edits a doubly linked list joins two
nodes: the first leads forward to the second, and the second back to the first. A list is
a ring through a node of its own, its sentinel. A list that ends in a null pointer is the
ring through the null pointer: its head and its tail are the links of that.
-/

structure Links (P : Type) where
  next : P → P
  prev : P → P

namespace Links

variable {P : Type} {m m' : Links P} {a b p s : P} {l r xs ys zs : List P}

/-- `b` stands right behind `a`. -/
def Adjacent (m : Links P) (a b : P) : Prop := m.next a = b ∧ m.prev b = a

/-- Each node stands right behind the one before it. -/
def Path (m : Links P) (l : List P) : Prop := l.IsChain m.Adjacent

/-- From the sentinel `s` through the nodes of the list and back. -/
structure IsRing (m : Links P) (s : P) (xs : List P) : Prop where
  nodup : (s :: xs).Nodup
  path : m.Path (s :: (xs ++ [s]))

/-- What lies ahead of `p` on the way to `s`, at most `n` nodes of it. -/
def follow [DecidableEq P] (next : P → P) (s : P) : Nat → P → List P
  | 0, _ => []
  | n + 1, p => if p = s then [] else p :: follow next s n (next p)

/-! ## Paths -/

namespace Path

theorem singleton (m : Links P) (p : P) : m.Path [p] := List.isChain_singleton p

theorem append_cons_cons :
    m.Path (l ++ a :: b :: r) ↔ m.Path (l ++ [a]) ∧ m.Adjacent a b ∧ m.Path (b :: r) :=
  List.isChain_append_cons_cons

/-- A path reads the links forward of all nodes but the last, and the links back of all
but the first. -/
theorem congr (h : m.Path l) (hnext : ∀ p ∈ l.dropLast, m'.next p = m.next p)
    (hprev : ∀ p ∈ l.tail, m'.prev p = m.prev p) : m'.Path l := by
  induction l with
  | nil => exact .nil
  | cons a l ih =>
      cases l with
      | nil => exact singleton m' a
      | cons b l =>
          obtain ⟨⟨hab, hba⟩, hl⟩ := List.isChain_cons_cons.mp h
          have ha : m'.next a = b := (hnext a List.mem_cons_self).trans hab
          have hb : m'.prev b = a := (hprev b List.mem_cons_self).trans hba
          refine List.isChain_cons_cons.mpr ⟨⟨ha, hb⟩, ih hl ?_ ?_⟩
          · exact fun p hp => hnext p (List.mem_cons_of_mem a hp)
          · exact fun p hp => hprev p (List.mem_cons_of_mem b hp)

end Path

/-! ## Ends of a list with a sentinel -/

theorem exists_eq_concat (s : P) (xs : List P) : ∃ l, s :: xs = l ++ [xs.getLastD s] := by
  refine ⟨(s :: xs).dropLast, ?_⟩
  rw [← List.getLast_eq_getLastD (List.cons_ne_nil s xs), List.dropLast_append_getLast]

theorem exists_eq_cons (s : P) (ys : List P) : ∃ r, ys ++ [s] = ys.headD s :: r := by
  cases ys with
  | nil => exact ⟨[], rfl⟩
  | cons y ys => exact ⟨ys ++ [s], rfl⟩

theorem headD_mem_concat (s : P) (ys : List P) : ys.headD s ∈ ys ++ [s] := by
  obtain ⟨r, hr⟩ := exists_eq_cons s ys
  rw [hr]
  exact List.mem_cons_self

theorem headD_mem_cons (s : P) (ys : List P) : ys.headD s ∈ s :: ys := by
  have h := headD_mem_concat s ys
  rwa [List.mem_append, List.mem_singleton, or_comm, ← List.mem_cons] at h

theorem headD_mem_append (s : P) (xs ys : List P) : ys.headD s ∈ s :: (xs ++ ys) :=
  List.cons_subset_cons s (List.subset_append_right xs ys) (headD_mem_cons s ys)

theorem getLastD_mem_append (s : P) (xs ys : List P) : xs.getLastD s ∈ s :: (xs ++ ys) := by
  rw [← List.cons_append]
  exact List.mem_append_left ys List.getLastD_mem_cons

theorem headD_concat (s p : P) (l : List P) : (l ++ [p]).headD s = l.headD p := by
  cases l with
  | nil => rfl
  | cons a l => rfl

theorem Path.follow [DecidableEq P] (h : m.Path (xs ++ [s])) (hs : s ∉ xs) (n : Nat) :
    follow m.next s (xs.length + n) (xs.headD s) = xs := by
  induction xs with
  | nil =>
      cases n with
      | zero => rfl
      | succ n => exact if_pos rfl
  | cons x xs ih =>
      obtain ⟨hx, hxs⟩ := not_or.mp (List.mem_cons.not.mp hs)
      obtain ⟨r, hr⟩ := exists_eq_cons s xs
      have hrest := ih h.tail hxs
      rw [List.cons_append, hr] at h
      have hnext : m.next x = xs.headD s := (List.isChain_cons_cons.mp h).1.1
      rw [List.length_cons, Nat.add_right_comm, Links.follow, List.headD_cons, if_neg (Ne.symm hx),
        hnext, hrest]

theorem follow_congr [DecidableEq P] {next next' : P → P} (h : ∀ p ≠ s, next' p = next p) (n : Nat)
    (p : P) : follow next' s n p = follow next s n p := by
  induction n generalizing p with
  | zero => rfl
  | succ n ih =>
      rw [follow, follow]
      split
      next => rfl
      next hp => rw [h p hp, ih]

namespace IsRing

theorem congr (h : m.IsRing s xs) (hnext : ∀ p ∈ s :: xs, m'.next p = m.next p)
    (hprev : ∀ p ∈ s :: xs, m'.prev p = m.prev p) : m'.IsRing s xs := by
  refine ⟨h.nodup, h.path.congr (fun p hp => hnext p ?_) (fun p hp => hprev p ?_)⟩
  · rwa [← List.cons_append, List.dropLast_concat] at hp
  · rcases List.mem_append.mp hp with hp | hp
    · exact List.mem_cons_of_mem s hp
    · exact List.mem_singleton.mp hp ▸ List.mem_cons_self

theorem path_append (h : m.IsRing s (xs ++ ys)) :
    m.Path (s :: xs) ∧ m.Adjacent (xs.getLastD s) (ys.headD s) ∧ m.Path (ys ++ [s]) := by
  obtain ⟨l, hl⟩ := exists_eq_concat s xs
  obtain ⟨r, hr⟩ := exists_eq_cons s ys
  have hpath : m.Path (s :: (xs ++ ys ++ [s])) := h.path
  rw [List.append_assoc, ← List.cons_append, hl, hr, List.append_assoc] at hpath
  rw [hl, hr]
  exact Path.append_cons_cons.mp hpath

theorem nil_append (h : m.IsRing s xs) : m.IsRing s ([] ++ xs) := h

theorem append_nil (h : m.IsRing s xs) : m.IsRing s (xs ++ []) := by rwa [List.append_nil]

theorem path_nodes (h : m.IsRing s xs) : m.Path xs := h.append_nil.path_append.1.tail

theorem adjacent_first (h : m.IsRing s xs) : m.Adjacent s (xs.headD s) :=
  h.nil_append.path_append.2.1

theorem adjacent_last (h : m.IsRing s xs) : m.Adjacent (xs.getLastD s) s :=
  h.append_nil.path_append.2.1

theorem follow [DecidableEq P] (h : m.IsRing s xs) (n : Nat) :
    follow m.next s (xs.length + n) (m.next s) = xs := by
  rw [h.adjacent_first.1]
  exact h.nil_append.path_append.2.2.follow (List.nodup_cons.mp h.nodup).1 n

theorem prev_next (h : m.IsRing s xs) : m.prev (m.next s) = s := by
  rw [h.adjacent_first.1]
  exact h.adjacent_first.2

theorem next_prev (h : m.IsRing s xs) : m.next (m.prev s) = s := by
  rw [h.adjacent_last.2]
  exact h.adjacent_last.1

/-- The sentinel and the nodes in front of a place have nothing of what stands behind. -/
theorem getLastD_notMem (h : m.IsRing s (xs ++ ys)) : xs.getLastD s ∉ ys := by
  have hnodup : ((s :: xs) ++ ys).Nodup := h.nodup
  exact (List.nodup_append'.mp hnodup).2.2 List.getLastD_mem_cons

theorem headD_notMem (h : m.IsRing s (xs ++ ys)) : ys.headD s ∉ xs := by
  obtain ⟨hs, hnodup⟩ := List.nodup_cons.mp h.nodup
  rcases List.mem_append.mp (headD_mem_concat s ys) with hy | hy
  · exact fun hx => (List.nodup_append'.mp hnodup).2.2 hx hy
  · rw [List.mem_singleton.mp hy]
    exact fun hx => hs (List.mem_append_left ys hx)

theorem nodup_left (h : m.IsRing s (xs ++ ys)) : (s :: xs).Nodup :=
  h.nodup.sublist ((List.sublist_append_left xs ys).cons_cons s)

theorem nodup_right (h : m.IsRing s (xs ++ ys)) : (ys ++ [s]).Nodup := by
  rw [List.nodup_middle, List.append_nil]
  exact h.nodup.sublist ((List.sublist_append_right xs ys).cons_cons s)

end IsRing

/-! ## Joining two nodes -/

variable [DecidableEq P]

def join (m : Links P) (a b : P) : Links P :=
  ⟨Function.update m.next a b, Function.update m.prev b a⟩

@[simp] theorem next_join_self : (m.join a b).next a = b := Function.update_self _ _ _

@[simp] theorem prev_join_self : (m.join a b).prev b = a := Function.update_self _ _ _

theorem next_join_of_ne (h : p ≠ a) : (m.join a b).next p = m.next p :=
  Function.update_of_ne h _ _

theorem prev_join_of_ne (h : p ≠ b) : (m.join a b).prev p = m.prev p :=
  Function.update_of_ne h _ _

theorem Adjacent.join (m : Links P) (a b : P) : (m.join a b).Adjacent a b :=
  ⟨next_join_self, prev_join_self⟩

theorem Path.frame (h : m.Path l) (ha : a ∉ l.dropLast) (hb : b ∉ l.tail) :
    (m.join a b).Path l :=
  h.congr (fun _ hp => next_join_of_ne (ne_of_mem_of_not_mem hp ha))
    (fun _ hp => prev_join_of_ne (ne_of_mem_of_not_mem hp hb))

/-- Two paths become one when the last node of the first is joined with the first node of
the second, and neither link is one that the paths use. -/
theorem Path.join {t : P} (hl : m.Path (s :: xs)) (hr : m.Path (ys ++ [t]))
    (hxs : (s :: xs).Nodup) (hys : (ys ++ [t]).Nodup) (hlast : xs.getLastD s ∉ ys)
    (hhead : ys.headD t ∉ xs) :
    (m.join (xs.getLastD s) (ys.headD t)).Path (s :: (xs ++ (ys ++ [t]))) := by
  have hdrop : (ys ++ [t]).dropLast = ys := List.dropLast_concat
  obtain ⟨l, hl'⟩ := exists_eq_concat s xs
  obtain ⟨r, hr'⟩ := exists_eq_cons t ys
  have hlast' : xs.getLastD s ∉ (s :: xs).dropLast := by
    rw [hl', List.nodup_middle, List.append_nil] at hxs
    rw [hl', List.dropLast_concat]
    exact (List.nodup_cons.mp hxs).1
  have hhead' : ys.headD t ∉ (ys ++ [t]).tail := by
    rw [hr'] at hys ⊢
    exact (List.nodup_cons.mp hys).1
  have hleft := hl.frame hlast' hhead
  have hright := hr.frame (hdrop.symm ▸ hlast) hhead'
  rw [hl'] at hleft
  rw [hr'] at hright
  rw [← List.cons_append, hl', hr', List.append_assoc]
  exact append_cons_cons.mpr ⟨hleft, .join m _ _, hright⟩

namespace IsRing

/-- A list without nodes. -/
theorem clear (m : Links P) (s : P) : (m.join s s).IsRing s [] :=
  ⟨List.nodup_singleton s, List.isChain_pair.mpr (.join m s s)⟩

/-- What stands between two nodes leaves the list. -/
theorem remove (h : m.IsRing s (xs ++ (zs ++ ys))) :
    (m.join (xs.getLastD s) (ys.headD s)).IsRing s (xs ++ ys) := by
  have h' : m.IsRing s (xs ++ zs ++ ys) := by rwa [List.append_assoc]
  have hlast : xs.getLastD s ∉ ys := fun hy => h.getLastD_notMem (List.mem_append_right zs hy)
  have hhead : ys.headD s ∉ xs := fun hx => h'.headD_notMem (List.mem_append_left zs hx)
  have hsub : (xs ++ ys).Sublist (xs ++ (zs ++ ys)) :=
    (List.Sublist.refl xs).append (List.sublist_append_right zs ys)
  refine ⟨h.nodup.sublist (hsub.cons_cons s), ?_⟩
  rw [List.append_assoc]
  exact h.path_append.1.join h'.path_append.2.2 h.nodup_left h'.nodup_right hlast hhead

/-- What stands outside of the list comes between two of its nodes. -/
theorem splice (h : m.IsRing s (xs ++ ys)) (hne : zs ≠ []) (hz : m.Path zs) (hnodup : zs.Nodup)
    (hdisj : ∀ p ∈ zs, p ∉ s :: (xs ++ ys)) :
    ((m.join (xs.getLastD s) (zs.headD s)).join (zs.getLastD s) (ys.headD s)).IsRing s
      (xs ++ (zs ++ ys)) := by
  have hnotMem : ∀ p ∈ s :: (xs ++ ys), p ∉ zs := fun p hp hz => hdisj p hz hp
  have hring : (s :: (xs ++ (zs ++ ys))).Nodup :=
    (List.perm_append_comm_assoc (s :: xs) zs ys).nodup_iff.mpr
      (List.nodup_append'.mpr ⟨hnodup, h.nodup, hdisj⟩)
  obtain ⟨l, z, rfl⟩ : ∃ l z, zs = l ++ [z] :=
    ⟨zs.dropLast, zs.getLast hne, (List.dropLast_append_getLast hne).symm⟩
  rw [headD_concat, List.getLastD_concat]
  have hfirst := headD_mem_concat z l
  have hlast : xs.getLastD s ∉ l ++ [z] :=
    hnotMem _ (getLastD_mem_append s xs ys)
  have hback : ys.headD s ∉ l ++ [z] :=
    hnotMem _ (headD_mem_append s xs ys)
  -- the part in front and the new nodes, then these and the part behind
  have hfront : (m.join (xs.getLastD s) (l.headD z)).Path (s :: (xs ++ (l ++ [z]))) :=
    h.path_append.1.join hz h.nodup_left hnodup (fun hl => hlast (List.mem_append_left [z] hl))
      fun hx => hnotMem _ (List.mem_cons_of_mem s (List.mem_append_left ys hx)) hfirst
  have hbehind : (m.join (xs.getLastD s) (l.headD z)).Path (ys ++ [s]) := by
    refine h.path_append.2.2.frame ?_ fun hy => ?_
    · rw [List.dropLast_concat]
      exact h.getLastD_notMem
    · rcases List.mem_append.mp (List.mem_of_mem_tail hy) with hy | hy
      · exact hnotMem _ (List.mem_cons_of_mem s (List.mem_append_right xs hy)) hfirst
      · exact hnotMem s List.mem_cons_self (List.mem_singleton.mp hy ▸ hfirst)
  have hnodup' : (s :: (xs ++ (l ++ [z]))).Nodup := by
    refine hring.sublist (List.Sublist.cons_cons s ?_)
    exact (List.Sublist.refl xs).append (List.sublist_append_left (l ++ [z]) ys)
  have hz' : (xs ++ (l ++ [z])).getLastD s = z := by
    rw [← List.append_assoc, List.getLastD_concat]
  have hlast' : (xs ++ (l ++ [z])).getLastD s ∉ ys := by
    rw [hz']
    exact fun hy => hnotMem z (List.mem_cons_of_mem s (List.mem_append_right xs hy))
      (List.mem_append_right l List.mem_cons_self)
  have hhead' : ys.headD s ∉ xs ++ (l ++ [z]) := fun hx =>
    (List.mem_append.mp hx).elim h.headD_notMem hback
  have hwhole := hfront.join hbehind hnodup' h.nodup_right hlast' hhead'
  rw [hz'] at hwhole
  refine ⟨hring, ?_⟩
  simpa only [List.append_assoc] using hwhole

/-- One node comes between two others. -/
theorem link (h : m.IsRing s (xs ++ ys)) (hp : p ∉ s :: (xs ++ ys)) :
    ((m.join (xs.getLastD s) p).join p (ys.headD s)).IsRing s (xs ++ p :: ys) := by
  refine h.splice (List.cons_ne_nil p []) (.singleton m p) (List.nodup_singleton p) ?_
  rintro q hq
  rwa [List.mem_singleton.mp hq]

end IsRing

end Links
