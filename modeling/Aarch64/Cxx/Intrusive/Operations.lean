import Aarch64.Cxx.Intrusive.Invariant

/-!
# What the operations of a list do

One lemma for each operation: on lists with known nodes it returns, the nodes are those of
the same operation on lists of nodes, and the other lists keep their links.
-/

namespace Aarch64.Cxx.IntrusiveList

variable {m : LinkMemory} {c : ListContents} {this other pos node : Nat}
variable {as bs xs zs : List Nat}

/-! ## What is read off a list -/

namespace Inv

theorem next_this (h : Inv m c) (hthis : c this = some xs) : (m this).next = xs.headD this :=
  (h.ring this xs hthis).adjacent_first.1

theorem prev_this (h : Inv m c) (hthis : c this = some xs) : (m this).prev = xs.getLastD this :=
  (h.ring this xs hthis).adjacent_last.2

theorem prev_headD (h : Inv m c) (hthis : c this = some (as ++ bs)) :
    (m (bs.headD this)).prev = as.getLastD this :=
  (h.ring this _ hthis).path_append.2.1.2

theorem next_getLastD (h : Inv m c) (hthis : c this = some (as ++ bs)) :
    (m (as.getLastD this)).next = bs.headD this :=
  (h.ring this _ hthis).path_append.2.1.1

theorem headD_ne_zero (h : Inv m c) (hthis : c this = some (as ++ bs)) : bs.headD this ≠ 0 := by
  intro hzero
  exact h.ne_zero this _ hthis (hzero ▸ Links.headD_mem_append this as bs)

theorem getLastD_ne_zero (h : Inv m c) (hthis : c this = some (as ++ bs)) :
    as.getLastD this ≠ 0 := by
  intro hzero
  exact h.ne_zero this _ hthis (hzero ▸ Links.getLastD_mem_append this as bs)

theorem next_this_eq_iff (h : Inv m c) (hthis : c this = some xs) :
    (m this).next = this ↔ xs = [] := by
  rw [h.next_this hthis]
  cases xs with
  | nil => exact iff_of_true rfl rfl
  | cons x xs =>
      refine iff_of_false ?_ (List.cons_ne_nil x xs)
      intro heq
      rw [List.headD_cons] at heq
      exact (List.nodup_cons.mp (h.ring this _ hthis).nodup).1 (heq ▸ List.mem_cons_self)

theorem empty_eq (h : Inv m c) (hthis : c this = some xs) :
    empty m this = some (xs = [] : Bool) := by
  rw [IntrusiveList.empty_eq (h.ne hthis), decide_eq_decide.mpr (h.next_this_eq_iff hthis)]

end Inv

/-! ## Links in and out of a list -/

theorem linkAt_spec (h : Inv m c) (hthis : c this = some (as ++ bs)) (hnode : Fresh c node) :
    ∃ m', linkAt m (bs.headD this) node = some (node, m') ∧
      Inv m' (Function.update c this (some (as ++ node :: bs))) ∧ Keeps c [this] m m' := by
  have hprev := h.prev_headD hthis
  have hne : node ≠ as.getLastD this := by
    rintro rfl
    exact hnode.2 this _ hthis (Links.getLastD_mem_append this as bs)
  refine ⟨_, ?_, h.insert hthis (List.cons_ne_nil node []) (.singleton m.links node)
    (List.nodup_singleton node) fun p hp => List.mem_singleton.mp hp ▸ hnode⟩
  rw [linkAt_eq (h.headD_ne_zero hthis) hnode.1 (hprev ▸ h.getLastD_ne_zero hthis) (hprev ▸ hne),
    hprev]
  rfl

theorem unlink_spec (h : Inv m c) (hthis : c this = some (as ++ pos :: bs)) :
    ∃ m', unlink m pos = some (bs.headD this, m') ∧
      Inv m' (Function.update c this (some (as ++ bs))) ∧ Keeps c [this] m m' ∧
      m' pos = ⟨0, 0⟩ := by
  have hthis' : c this = some (as ++ [pos] ++ bs) := by rwa [List.append_assoc]
  have hpos : pos ≠ 0 := h.headD_ne_zero hthis
  have hprev : (m pos).prev = as.getLastD this := h.prev_headD hthis
  have hnext : (m pos).next = bs.headD this := by
    have hread := h.next_getLastD hthis'
    rwa [List.getLastD_concat] at hread
  obtain ⟨hinv, hkeeps⟩ := h.remove hthis
  refine ⟨_, ?_, hinv, hkeeps, Function.update_self _ _ _⟩
  rw [unlink_eq hpos (hprev ▸ h.getLastD_ne_zero hthis) (hnext ▸ h.headD_ne_zero hthis'), hprev,
    hnext]

theorem pushFront_spec (h : Inv m c) (hthis : c this = some xs) (hnode : Fresh c node) :
    ∃ m', pushFront m this node = some m' ∧
      Inv m' (Function.update c this (some (node :: xs))) ∧ Keeps c [this] m m' := by
  have hthis' : c this = some ([] ++ xs) := hthis
  obtain ⟨m', hcall, hinv, hkeeps⟩ := linkAt_spec h hthis' hnode
  refine ⟨m', ?_, hinv, hkeeps⟩
  rw [pushFront, begin_eq (h.ne hthis), h.next_this hthis, Option.bind_eq_bind, Option.bind_some,
    hcall]
  rfl

theorem pushBack_spec (h : Inv m c) (hthis : c this = some xs) (hnode : Fresh c node) :
    ∃ m', pushBack m this node = some m' ∧
      Inv m' (Function.update c this (some (xs ++ [node]))) ∧ Keeps c [this] m m' := by
  have hthis' : c this = some (xs ++ []) := by rwa [List.append_nil]
  obtain ⟨m', hcall, hinv, hkeeps⟩ := linkAt_spec h hthis' hnode
  refine ⟨m', ?_, hinv, hkeeps⟩
  rw [pushBack, «end»]
  exact Option.bind_eq_some_iff.mpr ⟨_, hcall, rfl⟩

theorem popFront_spec (h : Inv m c) (hthis : c this = some xs) :
    ∃ m', popFront m this = some (xs.headD 0, m') ∧
      Inv m' (Function.update c this (some xs.tail)) ∧ Keeps c [this] m m' ∧
      ∀ node ∈ xs.head?, m' node = ⟨0, 0⟩ := by
  cases xs with
  | nil =>
      refine ⟨m, ?_, ?_, .refl c _ m, fun node hnode => by cases hnode⟩
      · rw [popFront, h.empty_eq hthis]
        rfl
      · rw [List.tail_nil, ← hthis, Function.update_eq_self]
        exact h
  | cons x xs =>
      have hthis' : c this = some ([] ++ x :: xs) := hthis
      obtain ⟨m', hcall, hinv, hkeeps, hnull⟩ := unlink_spec h hthis'
      refine ⟨m', ?_, hinv, hkeeps, fun node hnode => ?_⟩
      · rw [popFront, h.empty_eq hthis, begin_eq (h.ne hthis), h.next_this hthis]
        simp only [Option.bind_eq_bind, Option.bind_some, List.headD_cons, hcall]
        rfl
      · cases hnode
        exact hnull

theorem popBack_spec (h : Inv m c) (hthis : c this = some xs) :
    ∃ m', popBack m this = some (xs.getLastD 0, m') ∧
      Inv m' (Function.update c this (some xs.dropLast)) ∧ Keeps c [this] m m' ∧
      ∀ node ∈ xs.getLast?, m' node = ⟨0, 0⟩ := by
  rcases List.eq_nil_or_concat xs with rfl | ⟨xs, x, rfl⟩
  · refine ⟨m, ?_, ?_, .refl c _ m, fun node hnode => by cases hnode⟩
    · rw [popBack, h.empty_eq hthis]
      rfl
    · rw [List.dropLast_nil, ← hthis, Function.update_eq_self]
      exact h
  · rw [List.concat_eq_append] at hthis ⊢
    obtain ⟨m', hcall, hinv, hkeeps, hnull⟩ := unlink_spec h hthis
    rw [List.append_nil] at hinv
    rw [List.getLastD_concat, List.dropLast_concat, List.getLast?_concat]
    refine ⟨m', ?_, hinv, hkeeps, fun node hnode => ?_⟩
    · rw [popBack, h.empty_eq hthis, «end», LinkMemory.get_of_ne (h.ne hthis)]
      simp only [Option.bind_eq_bind, Option.bind_some, h.prev_this hthis, List.getLastD_concat,
        hcall]
      simp
    · cases hnode
      exact hnull

/-! ## Whole lists -/

theorem splice_spec (h : Inv m c) (hthis : c this = some xs) (hother : c other = some zs)
    (hne : this ≠ other) (hpos : pos ∈ this :: xs) :
    ∃ m', splice m pos other = some m' ∧
      Inv m' (Function.update (Function.update c this (some (insertBefore pos zs xs))) other
        (some [])) ∧
      Keeps c [this, other] m m' := by
  obtain ⟨as, bs, rfl, rfl, hinsert⟩ := exists_eq_insertBefore hpos
  have hnext := h.next_this hother
  have hprev := h.prev_this hother
  rw [hinsert]
  cases zs with
  | nil =>
      refine ⟨m, splice_of_empty (h.ne hother) hnext, ?_, .refl c _ m⟩
      rw [List.nil_append, ← hthis, Function.update_eq_self, ← hother, Function.update_eq_self]
      exact h
  | cons z zs =>
      have hdisj := h.disjoint this other _ _ hne hthis hother
      rw [List.headD_cons] at hnext
      rw [List.getLastD_cons] at hprev
      obtain ⟨hdetach, hkeeps, hpath, hnodup, hfresh⟩ := h.detach hother
      have hthis' : Function.update c other (some []) this = some (as ++ bs) := by
        rwa [Function.update_of_ne hne]
      obtain ⟨hinv, hkeeps'⟩ := hdetach.insert hthis' (List.cons_ne_nil z zs) hpath hnodup hfresh
      rw [Function.update_comm hne.symm] at hinv
      refine ⟨_, ?_, hinv, ?_⟩
      · have hlast : zs.getLastD z ∈ z :: zs := List.getLastD_mem_cons
        have hmem : ∀ p ∈ z :: zs, p ≠ 0 ∧ p ≠ other ∧ p ∉ this :: (as ++ bs) := fun p hp =>
          ⟨fun hzero => h.ne_zero other _ hother (hzero ▸ List.mem_cons_of_mem other hp),
            fun heq => (List.nodup_cons.mp (h.ring other _ hother).nodup).1 (heq ▸ hp),
            fun hthis' => hdisj hthis' (List.mem_cons_of_mem other hp)⟩
        have hpos' : bs.headD this ≠ other := fun heq => hdisj hpos (heq ▸ List.mem_cons_self)
        have hbefore : as.getLastD this ∈ this :: (as ++ bs) :=
          Links.getLastD_mem_append this as bs
        have hread := h.prev_headD hthis
        have hcall := splice_eq (m := m) (h.ne hother) (hnext ▸ (hmem z List.mem_cons_self).2.1)
          (h.headD_ne_zero hthis) hpos' (hnext ▸ (hmem z List.mem_cons_self).1)
          (hprev ▸ (hmem _ hlast).1) (hread ▸ h.getLastD_ne_zero hthis)
          (hprev ▸ hread ▸ (ne_of_mem_of_not_mem hbefore (hmem _ hlast).2.2).symm)
        rw [hcall, hread, hnext, hprev, List.headD_cons, List.getLastD_cons]
      · refine (hkeeps.mono ?_).trans (hkeeps'.mono ?_) fun l hl => ?_
        · exact List.subset_cons_self this [other]
        · exact List.cons_subset_cons this (List.nil_subset [other])
        · exact Function.update_of_ne (ne_of_mem_of_not_mem (by simp) hl).symm _ _

/-- `this` is made empty, and the nodes of `other` go there. -/
theorem clear_splice_spec (h : Inv m c) (hzero : this ≠ 0) (hne : this ≠ other)
    (hnew : ∀ l ys, l ≠ this → c l = some ys → this ∉ l :: ys) (hother : c other = some zs) :
    ∃ m', (do let m ← clear m this; splice m (← «begin» m this) other) = some m' ∧
      Inv m' (Function.update (Function.update c this (some zs)) other (some [])) ∧
      Keeps c [this, other] m m' := by
  obtain ⟨hclear, hkeeps⟩ := h.clear hzero hnew
  have hthis : Function.update c this (some []) this = some [] := Function.update_self _ _ _
  have hother' : Function.update c this (some []) other = some zs := by
    rwa [Function.update_of_ne hne.symm]
  obtain ⟨m', hcall, hinv, hkeeps'⟩ :=
    splice_spec hclear hthis hother' hne List.mem_cons_self
  rw [insertBefore, Function.update_idem] at hinv
  refine ⟨m', ?_, hinv, (hkeeps.mono ?_).trans hkeeps' fun l hl => ?_⟩
  · rw [clear_eq hzero, Option.bind_eq_bind, Option.bind_some, begin_eq hzero,
      hclear.next_this hthis]
    exact hcall
  · exact List.cons_subset_cons this (List.nil_subset [other])
  · exact Function.update_of_ne (ne_of_mem_of_not_mem List.mem_cons_self hl).symm _ _

theorem moveConstruct_spec (h : Inv m c) (hthis : Fresh c this) (hother : c other = some zs) :
    ∃ m', moveConstruct m this other = some m' ∧
      Inv m' (Function.update (Function.update c this (some zs)) other (some [])) ∧
      Keeps c [this, other] m m' := by
  have hne : this ≠ other := by
    rintro rfl
    exact hthis.2 this zs hother List.mem_cons_self
  exact clear_splice_spec h hthis.1 hne (fun l ys _ hl => hthis.2 l ys hl) hother

theorem moveAssign_spec (h : Inv m c) (hthis : c this = some xs) (hother : c other = some zs) :
    ∃ m', moveAssign m this other = some m' ∧
      Inv m' (if this = other then c else
        Function.update (Function.update c this (some zs)) other (some [])) ∧
      Keeps c [this, other] m m' := by
  by_cases hne : this = other
  · rw [moveAssign, if_pos hne, if_pos hne]
    exact ⟨m, rfl, h, .refl c _ m⟩
  · rw [moveAssign, if_neg hne, if_neg hne]
    exact clear_splice_spec h (h.ne hthis) hne
      (fun l ys hl hys hmem => h.disjoint l this ys _ hl hys hthis hmem List.mem_cons_self) hother

/-- The nodes of `other` wait in the local list until `this` has given its own away. Nothing
is given away when the two are one list. -/
theorem swap_spec {tmp : Nat} (h : Inv m c) (hthis : c this = some xs) (hother : c other = some zs)
    (htmp : Fresh c tmp) :
    ∃ m', swap m this other tmp = some m' ∧
      Inv m' (Function.update (Function.update c this (some zs)) other (some xs)) ∧
      Keeps c [this, other] m m' := by
  have hnone := htmp.eq_none
  have htmp_this : tmp ≠ this := by
    rintro rfl
    exact absurd (hnone.symm.trans hthis) nofun
  have htmp_other : tmp ≠ other := by
    rintro rfl
    exact absurd (hnone.symm.trans hother) nofun
  have hkeeps_of : ∀ {m'}, Keeps c [tmp, this, other] m m' → Keeps c [this, other] m m' := by
    intro m' hkeeps l ys hl hys
    refine hkeeps l ys (List.mem_cons.not.mpr (not_or.mpr ⟨?_, hl⟩)) hys
    rintro rfl
    exact absurd (hnone.symm.trans hys) nofun
  obtain ⟨m₁, hcall₁, hinv₁, hkeeps₁⟩ := moveConstruct_spec h htmp hother
  have hkeeps₁ : Keeps c [tmp, this, other] m m₁ := hkeeps₁.mono (by simp)
  by_cases hne : this = other
  · subst hne
    have hthis₁ : Function.update (Function.update c tmp (some zs)) this (some []) this = some [] :=
      Function.update_self _ _ _
    have htmp₁ : Function.update (Function.update c tmp (some zs)) this (some []) tmp = some zs := by
      rw [Function.update_of_ne htmp_this, Function.update_self]
    obtain ⟨m₂, hcall₂, hinv₂, hkeeps₂⟩ := moveAssign_spec hinv₁ hthis₁ htmp₁
    refine ⟨m₂, ?_, ?_, hkeeps_of (hkeeps₁.trans (hkeeps₂.mono (by simp)) fun l hl => ?_)⟩
    · rw [swap, hcall₁, Option.bind_eq_bind, Option.bind_some, moveAssign, if_pos rfl]
      exact hcall₂
    · have hforget := hinv₂.forget tmp
      rw [if_neg htmp_this.symm] at hforget
      convert hforget using 1
      grind
    · grind
  · have hother₁ : Function.update (Function.update c tmp (some zs)) other (some []) other =
        some [] := Function.update_self _ _ _
    have hthis₁ : Function.update (Function.update c tmp (some zs)) other (some []) this =
        some xs := by
      rw [Function.update_of_ne hne, Function.update_of_ne htmp_this.symm, hthis]
    obtain ⟨m₂, hcall₂, hinv₂, hkeeps₂⟩ := moveAssign_spec hinv₁ hother₁ hthis₁
    rw [if_neg (Ne.symm hne), Function.update_idem] at hinv₂
    have hthis₂ : Function.update (Function.update (Function.update c tmp (some zs)) other (some xs))
        this (some []) this = some [] := Function.update_self _ _ _
    have htmp₂ : Function.update (Function.update (Function.update c tmp (some zs)) other (some xs))
        this (some []) tmp = some zs := by
      rw [Function.update_of_ne htmp_this, Function.update_of_ne htmp_other, Function.update_self]
    obtain ⟨m₃, hcall₃, hinv₃, hkeeps₃⟩ := moveAssign_spec hinv₂ hthis₂ htmp₂
    rw [if_neg htmp_this.symm, Function.update_idem] at hinv₃
    have hkeeps₂ : Keeps _ [tmp, this, other] m₁ m₂ := hkeeps₂.mono (by simp)
    have hkeeps₂₃ := hkeeps₂.trans (hkeeps₃.mono (by simp)) fun l hl => by grind
    refine ⟨m₃, ?_, ?_, hkeeps_of (hkeeps₁.trans hkeeps₂₃ fun l hl => by grind)⟩
    · rw [swap, hcall₁, Option.bind_eq_bind, Option.bind_some, hcall₂, Option.bind_some]
      exact hcall₃
    · have hforget := hinv₃.forget tmp
      convert hforget using 1
      grind

end Aarch64.Cxx.IntrusiveList
