import Aarch64.Cxx.Intrusive.List

/-!
# Lists over shared links

Each list is the ring through its own address, and no link belongs to two lists. What
puts links in and takes links out keeps this, and it keeps the links of the other lists.
-/

namespace Aarch64.Cxx

/-- The nodes of the list at each address, where there is one. -/
abbrev ListContents := Nat → Option (List Nat)

/-- The nodes `zs` in front of the first `pos`, behind all others when there is none. -/
def insertBefore (pos : Nat) (zs : List Nat) : List Nat → List Nat
  | [] => zs
  | x :: xs => if x = pos then zs ++ x :: xs else x :: insertBefore pos zs xs

theorem exists_eq_insertBefore {pos s : Nat} {xs : List Nat} (h : pos ∈ s :: xs) :
    ∃ as bs, xs = as ++ bs ∧ bs.headD s = pos ∧
      ∀ zs, insertBefore pos zs xs = as ++ (zs ++ bs) := by
  induction xs with
  | nil => exact ⟨[], [], rfl, (List.mem_singleton.mp h).symm, fun zs => (List.append_nil zs).symm⟩
  | cons x xs ih =>
      by_cases hx : x = pos
      · exact ⟨[], x :: xs, rfl, hx, fun zs => if_pos hx⟩
      · have hmem : pos ∈ s :: xs := by
          rcases List.mem_cons.mp h with rfl | h
          · exact List.mem_cons_self
          · exact List.mem_cons_of_mem s ((List.mem_cons.mp h).resolve_left (Ne.symm hx))
        obtain ⟨as, bs, rfl, hpos, hinsert⟩ := ih hmem
        refine ⟨x :: as, bs, rfl, hpos, fun zs => ?_⟩
        rw [insertBefore, if_neg hx, hinsert, List.cons_append]

namespace IntrusiveList

variable {m m' m₁ : LinkMemory} {c c₁ : ListContents} {this other pos node p : Nat}
variable {as bs xs zs : List Nat} {touched touched₁ : List Nat}

structure Inv (m : LinkMemory) (c : ListContents) : Prop where
  ring : ∀ h xs, c h = some xs → m.links.IsRing h xs
  ne_zero : ∀ h xs, c h = some xs → 0 ∉ h :: xs
  disjoint : ∀ h h' xs ys, h ≠ h' → c h = some xs → c h' = some ys →
    (h :: xs).Disjoint (h' :: ys)

/-- A link that belongs to no list. -/
def Fresh (c : ListContents) (p : Nat) : Prop := p ≠ 0 ∧ ∀ h xs, c h = some xs → p ∉ h :: xs

/-- The links of all lists but those that are touched stay as they are. -/
def Keeps (c : ListContents) (touched : List Nat) (m m' : LinkMemory) : Prop :=
  ∀ h xs, h ∉ touched → c h = some xs → ∀ p ∈ h :: xs, m' p = m p

theorem Keeps.refl (c : ListContents) (touched : List Nat) (m : LinkMemory) :
    Keeps c touched m m := fun _ _ _ _ _ _ => rfl

theorem Keeps.mono (h : Keeps c touched₁ m m') (hsub : touched₁ ⊆ touched) :
    Keeps c touched m m' := fun l xs hl => h l xs fun hmem => hl (hsub hmem)

theorem Keeps.trans (h : Keeps c touched m m₁) (h₁ : Keeps c₁ touched m₁ m')
    (hc : ∀ l ∉ touched, c₁ l = c l) : Keeps c touched m m' := by
  intro l xs hl hxs p hp
  rw [h₁ l xs hl ((hc l hl).trans hxs) p hp, h l xs hl hxs p hp]

theorem Fresh.eq_none (h : Fresh c p) : c p = none := by
  cases hc : c p with
  | none => rfl
  | some xs => exact absurd List.mem_cons_self (h.2 p xs hc)

namespace Inv

theorem ne (h : Inv m c) (hc : c this = some xs) : this ≠ 0 := by
  rintro rfl
  exact h.ne_zero 0 xs hc List.mem_cons_self

/-- A new list in place of the one at `this`. -/
theorem update (h : Inv m c) (hring : m'.links.IsRing this xs) (hzero : 0 ∉ this :: xs)
    (hkeeps : Keeps c [this] m m')
    (hnew : ∀ l ys, l ≠ this → c l = some ys → (this :: xs).Disjoint (l :: ys)) :
    Inv m' (Function.update c this (some xs)) := by
  have hlist : ∀ l ys, Function.update c this (some xs) l = some ys →
      l = this ∧ ys = xs ∨ l ≠ this ∧ c l = some ys := by
    intro l ys hl
    by_cases hne : l = this
    · subst hne
      rw [Function.update_self, Option.some.injEq] at hl
      exact .inl ⟨rfl, hl.symm⟩
    · rw [Function.update_of_ne hne] at hl
      exact .inr ⟨hne, hl⟩
  constructor
  · intro l ys hl
    rcases hlist l ys hl with ⟨rfl, rfl⟩ | ⟨hne, hl⟩
    · exact hring
    · have hsame := hkeeps l ys (List.mem_singleton.not.mpr hne) hl
      exact (h.ring l ys hl).congr (fun p hp => congrArg Link.next (hsame p hp))
        (fun p hp => congrArg Link.prev (hsame p hp))
  · intro l ys hl
    rcases hlist l ys hl with ⟨rfl, rfl⟩ | ⟨hne, hl⟩
    · exact hzero
    · exact h.ne_zero l ys hl
  · intro l l' ys ys' hne hl hl'
    rcases hlist l ys hl with ⟨rfl, rfl⟩ | ⟨hl₁, hl₂⟩
    · rcases hlist l' ys' hl' with ⟨rfl, rfl⟩ | ⟨hl₁', hl₂'⟩
      · exact absurd rfl hne
      · exact hnew l' ys' hl₁' hl₂'
    · rcases hlist l' ys' hl' with ⟨rfl, rfl⟩ | ⟨hl₁', hl₂'⟩
      · exact fun p hp hp' => hnew l ys hl₁ hl₂ hp' hp
      · exact h.disjoint l l' ys ys' hne hl₂ hl₂'

/-- A list that goes out of scope. -/
theorem forget (h : Inv m c) (this : Nat) : Inv m (Function.update c this none) := by
  have hlist : ∀ l ys, Function.update c this none l = some ys → c l = some ys := by
    intro l ys hl
    by_cases hne : l = this
    · rw [hne, Function.update_self] at hl
      cases hl
    · rwa [Function.update_of_ne hne] at hl
  exact ⟨fun l ys hl => h.ring l ys (hlist l ys hl), fun l ys hl => h.ne_zero l ys (hlist l ys hl),
    fun l l' ys ys' hne hl hl' => h.disjoint l l' ys ys' hne (hlist l ys hl) (hlist l' ys' hl')⟩

theorem clear (h : Inv m c) (hthis : this ≠ 0)
    (hnew : ∀ l ys, l ≠ this → c l = some ys → this ∉ l :: ys) :
    Inv (m.join this this) (Function.update c this (some [])) ∧
      Keeps c [this] m (m.join this this) := by
  have hkeeps : Keeps c [this] m (m.join this this) := by
    intro l ys hl hys p hp
    have hne : p ≠ this := ne_of_mem_of_not_mem hp (hnew l ys (List.mem_singleton.not.mp hl) hys)
    exact LinkMemory.join_of_ne hne hne
  refine ⟨h.update ?_ ?_ hkeeps ?_, hkeeps⟩
  · rw [LinkMemory.links_join]
    exact .clear m.links this
  · exact List.mem_singleton.not.mpr hthis.symm
  · intro l ys hl hys
    exact List.disjoint_cons_left.mpr ⟨hnew l ys hl hys, List.disjoint_nil_left _⟩

/-- Fresh links that are a path come between two links of a list. -/
theorem insert (h : Inv m c) (hthis : c this = some (as ++ bs)) (hne : zs ≠ [])
    (hpath : m.links.Path zs) (hnodup : zs.Nodup) (hfresh : ∀ p ∈ zs, Fresh c p) :
    Inv ((m.join (as.getLastD this) (zs.headD this)).join (zs.getLastD this) (bs.headD this))
        (Function.update c this (some (as ++ (zs ++ bs)))) ∧
      Keeps c [this] m
        ((m.join (as.getLastD this) (zs.headD this)).join (zs.getLastD this) (bs.headD this)) := by
  have hmem : ∀ p ∈ this :: (as ++ (zs ++ bs)), p ∈ zs ∨ p ∈ this :: (as ++ bs) := by grind
  have hbefore : as.getLastD this ∈ this :: (as ++ bs) :=
    Links.getLastD_mem_append this as bs
  have hbehind : bs.headD this ∈ this :: (as ++ bs) :=
    Links.headD_mem_append this as bs
  have hfirst : zs.headD this ∈ zs := by
    obtain ⟨z, zs, rfl⟩ := List.exists_cons_of_ne_nil hne
    exact List.mem_cons_self
  have hlast : zs.getLastD this ∈ zs := by
    obtain ⟨z, zs, rfl⟩ := List.exists_cons_of_ne_nil hne
    rw [List.getLastD_cons]
    exact List.getLastD_mem_cons
  have hkeeps : Keeps c [this] m
      ((m.join (as.getLastD this) (zs.headD this)).join (zs.getLastD this) (bs.headD this)) := by
    intro l ys hl hys p hp
    have hold : p ∉ this :: (as ++ bs) :=
      h.disjoint l this ys _ (List.mem_singleton.not.mp hl) hys hthis hp
    have hnew : p ∉ zs := fun hz => (hfresh p hz).2 l ys hys hp
    rw [LinkMemory.join_of_ne (ne_of_mem_of_not_mem hlast hnew).symm
        (ne_of_mem_of_not_mem hbehind hold).symm,
      LinkMemory.join_of_ne (ne_of_mem_of_not_mem hbefore hold).symm
        (ne_of_mem_of_not_mem hfirst hnew).symm]
  refine ⟨h.update ?_ (fun hzero => ?_) hkeeps (fun l ys hl hys p hp hpl => ?_), hkeeps⟩
  · rw [LinkMemory.links_join, LinkMemory.links_join]
    exact (h.ring this _ hthis).splice hne hpath hnodup fun p hp => (hfresh p hp).2 this _ hthis
  · rcases hmem 0 hzero with hzero | hzero
    · exact (hfresh 0 hzero).1 rfl
    · exact h.ne_zero this _ hthis hzero
  · rcases hmem p hp with hp | hp
    · exact (hfresh p hp).2 l ys hys hpl
    · exact h.disjoint this l _ ys hl.symm hthis hys hp hpl

/-- A list is emptied, and its nodes are a path that belongs to no list. -/
theorem detach (h : Inv m c) (hother : c other = some zs) :
    Inv (m.join other other) (Function.update c other (some [])) ∧
      Keeps c [other] m (m.join other other) ∧ (m.join other other).links.Path zs ∧ zs.Nodup ∧
      ∀ p ∈ zs, Fresh (Function.update c other (some [])) p := by
  have hring := h.ring other _ hother
  obtain ⟨hnotMem, hnodup⟩ := List.nodup_cons.mp hring.nodup
  obtain ⟨hinv, hkeeps⟩ := h.clear (h.ne hother) fun l ys hl hys hmem =>
    h.disjoint l other ys _ hl hys hother hmem List.mem_cons_self
  refine ⟨hinv, hkeeps, ?_, hnodup, fun p hp => ⟨?_, fun l ys hl hmem => ?_⟩⟩
  · rw [LinkMemory.links_join]
    exact hring.path_nodes.frame (fun hmem => hnotMem (List.dropLast_subset _ hmem))
      fun hmem => hnotMem (List.mem_of_mem_tail hmem)
  · exact fun hzero => h.ne_zero other _ hother (hzero ▸ List.mem_cons_of_mem other hp)
  · by_cases hlo : l = other
    · rw [hlo, Function.update_self] at hl
      cases hl
      rw [List.mem_singleton.mp hmem, hlo] at hp
      exact hnotMem hp
    · rw [Function.update_of_ne hlo] at hl
      exact h.disjoint l other ys _ hlo hl hother hmem (List.mem_cons_of_mem other hp)

/-- A link leaves its list. -/
theorem remove (h : Inv m c) (hthis : c this = some (as ++ pos :: bs)) :
    Inv (Function.update (m.join (as.getLastD this) (bs.headD this)) pos ⟨0, 0⟩)
        (Function.update c this (some (as ++ bs))) ∧
      Keeps c [this] m
        (Function.update (m.join (as.getLastD this) (bs.headD this)) pos ⟨0, 0⟩) := by
  have hring := h.ring this _ hthis
  have hsub : this :: (as ++ bs) ⊆ this :: (as ++ pos :: bs) := by grind
  have hbefore : as.getLastD this ∈ this :: (as ++ pos :: bs) :=
    Links.getLastD_mem_append this as (pos :: bs)
  have hbehind : bs.headD this ∈ this :: (as ++ pos :: bs) :=
    hsub (Links.headD_mem_append this as bs)
  have hpos : pos ∈ this :: (as ++ pos :: bs) := by grind
  have hpos' : pos ∉ this :: (as ++ bs) := by
    have hnodup := hring.nodup
    grind
  have hkeeps : Keeps c [this] m
      (Function.update (m.join (as.getLastD this) (bs.headD this)) pos ⟨0, 0⟩) := by
    intro l ys hl hys p hp
    have hold : p ∉ this :: (as ++ pos :: bs) :=
      h.disjoint l this ys _ (List.mem_singleton.not.mp hl) hys hthis hp
    rw [Function.update_of_ne (ne_of_mem_of_not_mem hpos hold).symm,
      LinkMemory.join_of_ne (ne_of_mem_of_not_mem hbefore hold).symm
        (ne_of_mem_of_not_mem hbehind hold).symm]
  refine ⟨h.update ?_ (fun hzero => h.ne_zero this _ hthis (hsub hzero)) hkeeps
    (fun l ys hl hys p hp => h.disjoint this l _ ys hl.symm hthis hys (hsub hp)), hkeeps⟩
  have hmiddle : m.links.IsRing this (as ++ ([pos] ++ bs)) := hring
  have hremove := hmiddle.remove
  rw [← LinkMemory.links_join] at hremove
  refine hremove.congr (fun p hp => ?_) (fun p hp => ?_)
  · exact congrArg Link.next (Function.update_of_ne (ne_of_mem_of_not_mem hp hpos') _ _)
  · exact congrArg Link.prev (Function.update_of_ne (ne_of_mem_of_not_mem hp hpos') _ _)

end Inv

end IntrusiveList

end Aarch64.Cxx
