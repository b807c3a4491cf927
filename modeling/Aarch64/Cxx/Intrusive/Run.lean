import Aarch64.Cxx.Intrusive.Operations

/-!
# Runs of list operations

Lists are made, and links go in, out and from one list to another, in any order. In every
state each list is the ring of the nodes that a list of nodes would have.
-/

namespace Aarch64.Cxx

/-- `this` is the list that an operation is called on, and `tmp` the local list of `Swap`. -/
inductive ListOp where
  | construct (this : Nat)
  | moveConstruct (this other : Nat)
  | moveAssign (this other : Nat)
  | clear (this : Nat)
  | swap (this other tmp : Nat)
  | splice (this pos other : Nat)
  | linkAt (this pos node : Nat)
  | unlink (this pos : Nat)
  | pushFront (this node : Nat)
  | pushBack (this node : Nat)
  | popFront (this : Nat)
  | popBack (this : Nat)
  deriving DecidableEq, Repr

namespace ListOp

open IntrusiveList (Fresh)

/-- The lists that an operation changes. -/
def lists : ListOp → List Nat
  | construct this | clear this | linkAt this _ _ | unlink this _ | pushFront this _
  | pushBack this _ | popFront this | popBack this => [this]
  | moveConstruct this other | moveAssign this other | swap this other _ | splice this _ other =>
      [this, other]

/-- New lists and new nodes are fresh, positions are in the list, and no list is spliced
into itself. -/
def Allowed (c : ListContents) : ListOp → Prop
  | construct this => Fresh c this
  | moveConstruct this other => Fresh c this ∧ (c other).isSome
  | moveAssign this other => (c this).isSome ∧ (c other).isSome
  | clear this | popFront this | popBack this => (c this).isSome
  | swap this other tmp => (c this).isSome ∧ (c other).isSome ∧ Fresh c tmp
  | splice this pos other =>
      (∃ xs, c this = some xs ∧ pos ∈ this :: xs) ∧ (c other).isSome ∧ this ≠ other
  | linkAt this pos node => (∃ xs, c this = some xs ∧ pos ∈ this :: xs) ∧ Fresh c node
  | unlink this pos => ∃ xs, c this = some xs ∧ pos ∈ xs
  | pushFront this node | pushBack this node => (c this).isSome ∧ Fresh c node

def apply (c : ListContents) : ListOp → ListContents
  | construct this | clear this => Function.update c this (some [])
  | moveConstruct this other => Function.update (Function.update c this (c other)) other (some [])
  | moveAssign this other =>
      if this = other then c
      else Function.update (Function.update c this (c other)) other (some [])
  | swap this other _ => Function.update (Function.update c this (c other)) other (c this)
  | splice this pos other =>
      Function.update (Function.update c this
        ((c this).map (insertBefore pos ((c other).getD [])))) other (some [])
  | linkAt this pos node => Function.update c this ((c this).map (insertBefore pos [node]))
  | unlink this pos => Function.update c this ((c this).map (List.erase · pos))
  | pushFront this node => Function.update c this ((c this).map (node :: ·))
  | pushBack this node => Function.update c this ((c this).map (· ++ [node]))
  | popFront this => Function.update c this ((c this).map List.tail)
  | popBack this => Function.update c this ((c this).map List.dropLast)

/-- The pointer that an operation returns. -/
def result (c : ListContents) : ListOp → Option Nat
  | construct _ | moveConstruct _ _ | moveAssign _ _ | clear _ | swap _ _ _ | splice _ _ _
  | pushFront _ _ | pushBack _ _ => none
  | linkAt _ _ node => some node
  | unlink this pos => some ((((c this).getD []).dropWhile (· ≠ pos)).tail.headD this)
  | popFront this => some (((c this).getD []).headD 0)
  | popBack this => some (((c this).getD []).getLastD 0)

/-- The node that is in no list any more. -/
def detached (c : ListContents) : ListOp → Option Nat
  | construct _ | moveConstruct _ _ | moveAssign _ _ | clear _ | swap _ _ _ | splice _ _ _
  | pushFront _ _ | pushBack _ _ | linkAt _ _ _ => none
  | unlink _ pos => some pos
  | popFront this => ((c this).getD []).head?
  | popBack this => ((c this).getD []).getLast?

end ListOp

namespace IntrusiveList

variable {m m' : LinkMemory} {c : ListContents} {op : ListOp}

def step (m : LinkMemory) : ListOp → Option (Option Nat × LinkMemory)
  | .construct this | .clear this => (clear m this).map (none, ·)
  | .moveConstruct this other => (moveConstruct m this other).map (none, ·)
  | .moveAssign this other => (moveAssign m this other).map (none, ·)
  | .swap this other tmp => (swap m this other tmp).map (none, ·)
  | .splice _ pos other => (splice m pos other).map (none, ·)
  | .linkAt _ pos node => (linkAt m pos node).map (Prod.map some id)
  | .unlink _ pos => (unlink m pos).map (Prod.map some id)
  | .pushFront this node => (pushFront m this node).map (none, ·)
  | .pushBack this node => (pushBack m this node).map (none, ·)
  | .popFront this => (popFront m this).map (Prod.map some id)
  | .popBack this => (popBack m this).map (Prod.map some id)

/-- What is reached when lists of nodes undergo the same operations. -/
inductive Reaches : LinkMemory → ListContents → Prop
  | start (m : LinkMemory) : Reaches m fun _ => none
  | step {m m' : LinkMemory} {c : ListContents} {op : ListOp} {r : Option Nat}
      (h : Reaches m c) (hop : op.Allowed c) (hstep : step m op = some (r, m')) :
      Reaches m' (op.apply c)

theorem Inv.start (m : LinkMemory) : Inv m fun _ => none := by
  constructor
  · intro h xs hc
    cases hc
  · intro h xs hc
    cases hc
  · intro h h' xs ys _ hc
    cases hc

/-- Every operation that is allowed returns what it returns on lists of nodes. -/
theorem step_spec (h : Inv m c) (hop : op.Allowed c) :
    ∃ m', step m op = some (op.result c, m') ∧ Inv m' (op.apply c) ∧
      Keeps c op.lists m m' ∧ ∀ node ∈ op.detached c, m' node = ⟨0, 0⟩ := by
  have hnone : ∀ m' : LinkMemory, ∀ node ∈ (none : Option Nat), m' node = ⟨0, 0⟩ := by
    intro m' node hnode
    cases hnode
  cases op with
  | construct this =>
      obtain ⟨hinv, hkeeps⟩ := h.clear hop.1 fun l ys _ hl => hop.2 l ys hl
      exact ⟨_, congrArg (Option.map (none, ·)) (clear_eq hop.1), hinv, hkeeps, hnone _⟩
  | moveConstruct this other =>
      obtain ⟨hthis, hother⟩ := hop
      obtain ⟨zs, hother⟩ := Option.isSome_iff_exists.mp hother
      obtain ⟨m', hcall, hinv, hkeeps⟩ := moveConstruct_spec h hthis hother
      rw [ListOp.apply, hother]
      exact ⟨m', congrArg (Option.map (none, ·)) hcall, hinv, hkeeps, hnone m'⟩
  | moveAssign this other =>
      obtain ⟨hthis, hother⟩ := hop
      obtain ⟨xs, hthis⟩ := Option.isSome_iff_exists.mp hthis
      obtain ⟨zs, hother⟩ := Option.isSome_iff_exists.mp hother
      obtain ⟨m', hcall, hinv, hkeeps⟩ := moveAssign_spec h hthis hother
      rw [ListOp.apply, hother]
      exact ⟨m', congrArg (Option.map (none, ·)) hcall, hinv, hkeeps, hnone m'⟩
  | clear this =>
      obtain ⟨xs, hthis⟩ := Option.isSome_iff_exists.mp hop
      obtain ⟨hinv, hkeeps⟩ := h.clear (h.ne hthis) fun l ys hl hys hmem =>
        h.disjoint l this ys xs hl hys hthis hmem List.mem_cons_self
      exact ⟨_, congrArg (Option.map (none, ·)) (clear_eq (h.ne hthis)), hinv, hkeeps, hnone _⟩
  | swap this other tmp =>
      obtain ⟨hthis, hother, htmp⟩ := hop
      obtain ⟨xs, hthis⟩ := Option.isSome_iff_exists.mp hthis
      obtain ⟨zs, hother⟩ := Option.isSome_iff_exists.mp hother
      obtain ⟨m', hcall, hinv, hkeeps⟩ := swap_spec h hthis hother htmp
      rw [ListOp.apply, hother, hthis]
      exact ⟨m', congrArg (Option.map (none, ·)) hcall, hinv, hkeeps, hnone m'⟩
  | splice this pos other =>
      obtain ⟨⟨xs, hthis, hpos⟩, hother, hne⟩ := hop
      obtain ⟨zs, hother⟩ := Option.isSome_iff_exists.mp hother
      obtain ⟨m', hcall, hinv, hkeeps⟩ := splice_spec h hthis hother hne hpos
      rw [ListOp.apply, hother, hthis]
      exact ⟨m', congrArg (Option.map (none, ·)) hcall, hinv, hkeeps, hnone m'⟩
  | linkAt this pos node =>
      obtain ⟨⟨xs, hthis, hpos⟩, hnode⟩ := hop
      obtain ⟨as, bs, rfl, rfl, hinsert⟩ := exists_eq_insertBefore hpos
      obtain ⟨m', hcall, hinv, hkeeps⟩ := linkAt_spec h hthis hnode
      rw [ListOp.apply, hthis, Option.map_some, hinsert]
      exact ⟨m', congrArg (Option.map (Prod.map some id)) hcall, hinv, hkeeps, hnone m'⟩
  | unlink this pos =>
      obtain ⟨xs, hthis, hpos⟩ := hop
      obtain ⟨as, bs, hnotMem, rfl, herase⟩ := List.exists_erase_eq hpos
      obtain ⟨m', hcall, hinv, hkeeps, hnull⟩ := unlink_spec h hthis
      have hnext : ((as ++ pos :: bs).dropWhile (· ≠ pos)).tail.headD this = bs.headD this := by
        rw [List.dropWhile_append_of_pos fun p hp => by
          simpa using ne_of_mem_of_not_mem hp hnotMem]
        simp
      rw [ListOp.apply, ListOp.result, hthis, Option.map_some, Option.getD_some, hnext, herase]
      refine ⟨m', congrArg (Option.map (Prod.map some id)) hcall, hinv, hkeeps, fun node hnode => ?_⟩
      cases hnode
      exact hnull
  | pushFront this node =>
      obtain ⟨hthis, hnode⟩ := hop
      obtain ⟨xs, hthis⟩ := Option.isSome_iff_exists.mp hthis
      obtain ⟨m', hcall, hinv, hkeeps⟩ := pushFront_spec h hthis hnode
      rw [ListOp.apply, hthis]
      exact ⟨m', congrArg (Option.map (none, ·)) hcall, hinv, hkeeps, hnone m'⟩
  | pushBack this node =>
      obtain ⟨hthis, hnode⟩ := hop
      obtain ⟨xs, hthis⟩ := Option.isSome_iff_exists.mp hthis
      obtain ⟨m', hcall, hinv, hkeeps⟩ := pushBack_spec h hthis hnode
      rw [ListOp.apply, hthis]
      exact ⟨m', congrArg (Option.map (none, ·)) hcall, hinv, hkeeps, hnone m'⟩
  | popFront this =>
      obtain ⟨xs, hthis⟩ := Option.isSome_iff_exists.mp hop
      obtain ⟨m', hcall, hinv, hkeeps, hnull⟩ := popFront_spec h hthis
      rw [ListOp.apply, ListOp.result, ListOp.detached, hthis]
      exact ⟨m', congrArg (Option.map (Prod.map some id)) hcall, hinv, hkeeps, hnull⟩
  | popBack this =>
      obtain ⟨xs, hthis⟩ := Option.isSome_iff_exists.mp hop
      obtain ⟨m', hcall, hinv, hkeeps, hnull⟩ := popBack_spec h hthis
      rw [ListOp.apply, ListOp.result, ListOp.detached, hthis]
      exact ⟨m', congrArg (Option.map (Prod.map some id)) hcall, hinv, hkeeps, hnull⟩

theorem inv_of_reaches (h : Reaches m c) : Inv m c := by
  induction h with
  | start m => exact Inv.start m
  | step h hop hstep ih =>
      obtain ⟨m', hstep', hinv, -⟩ := step_spec ih hop
      cases hstep.symm.trans hstep'
      exact hinv

/-- In every state that is reached, each list is the ring of its nodes, and following `next` from
its head visits them in order. An operation that is allowed returns what it returns on lists of
nodes and leaves what it leaves there, `Splice`, `Swap` and the moves included; what is taken out of
a list has null links, and the lists that the operation does not name stay as they are. -/
theorem lists_refine (h : Reaches m c) :
    (∀ this xs, c this = some xs → m.links.IsRing this xs ∧
        ∀ n, Links.follow (fun p => (m p).next) this (xs.length + n) (m this).next = xs) ∧
      ∀ op : ListOp, op.Allowed c → ∃ m', step m op = some (op.result c, m') ∧
        Reaches m' (op.apply c) ∧ (∀ node ∈ op.detached c, m' node = ⟨0, 0⟩) ∧
        ∀ l xs, l ∉ op.lists → c l = some xs → ∀ p ∈ l :: xs, m' p = m p := by
  have hinv := inv_of_reaches h
  refine ⟨fun this xs hthis => ⟨hinv.ring this xs hthis, (hinv.ring this xs hthis).follow⟩,
    fun op hop => ?_⟩
  obtain ⟨m', hstep, -, hkeeps, hnull⟩ := step_spec hinv hop
  exact ⟨m', hstep, h.step hop hstep, hnull, hkeeps⟩

/-- The contents that a table of lists gives. Of two entries for a list the first counts. -/
private def contentsOf (table : List (Nat × List Nat)) : ListContents := (table.lookup ·)

private theorem update_contentsOf (table : List (Nat × List Nat)) (l : Nat) (xs : List Nat) :
    Function.update (contentsOf table) l (some xs) = contentsOf ((l, xs) :: table) := by
  funext p
  change _ = ((l, xs) :: table).lookup p
  rw [List.lookup_cons]
  by_cases hp : p = l
  · rw [hp, Function.update_self, beq_self_eq_true]
  · rw [Function.update_of_ne hp, beq_false_of_ne hp]
    rfl

private theorem update_update_contentsOf (table : List (Nat × List Nat)) (l : Nat) (xs : List Nat)
    (l' : Nat) (xs' : List Nat) :
    Function.update (Function.update (contentsOf table) l (some xs)) l' (some xs') =
      contentsOf ((l', xs') :: (l, xs) :: table) := by
  rw [update_contentsOf, update_contentsOf]

private theorem fresh_contentsOf {table : List (Nat × List Nat)} {p : Nat} (hne : p ≠ 0)
    (h : ∀ e ∈ table, p ∉ e.1 :: e.2) : Fresh (contentsOf table) p := by
  refine ⟨hne, fun l xs hl => h (l, xs) ?_⟩
  obtain ⟨table₁, table₂, rfl, -⟩ := List.lookup_eq_some_iff.mp hl
  exact List.mem_append_right _ List.mem_cons_self

private theorem Reaches.next {table table' : List (Nat × List Nat)}
    (h : Reaches m (contentsOf table)) (op : ListOp) (hop : op.Allowed (contentsOf table))
    (happly : op.apply (contentsOf table) = contentsOf table') :
    ∃ m', Reaches m' (contentsOf table') := by
  obtain ⟨m', hstep, -⟩ := step_spec (inv_of_reaches h) hop
  exact ⟨m', happly ▸ h.step hop hstep⟩

/-- Two lists get nodes, the second is spliced into the first before its node, the lists change
places, a third takes the nodes over and the first takes them back. -/
theorem lists_refine_moves : ∃ m m', step m (.moveAssign 8 56) = some (none, m') ∧
    m.links.IsRing 56 [48, 40, 32] ∧ m.links.IsRing 8 [] ∧
    m'.links.IsRing 8 [48, 40, 32] ∧ m'.links.IsRing 56 [] ∧ ∀ p ∈ [16], m' p = m p := by
  have h₀ : Reaches (fun _ => ⟨0, 0⟩) (contentsOf []) := .start _
  obtain ⟨m₁, h₁⟩ := h₀.next (.construct 8) (fresh_contentsOf (by decide) (by decide))
    (update_contentsOf _ 8 [])
  obtain ⟨m₂, h₂⟩ := h₁.next (.construct 16) (fresh_contentsOf (by decide) (by decide))
    (update_contentsOf _ 16 [])
  obtain ⟨m₃, h₃⟩ := h₂.next (.pushBack 8 32) ⟨rfl, fresh_contentsOf (by decide) (by decide)⟩
    (update_contentsOf _ 8 [32])
  obtain ⟨m₄, h₄⟩ := h₃.next (.pushBack 16 40) ⟨rfl, fresh_contentsOf (by decide) (by decide)⟩
    (update_contentsOf _ 16 [40])
  obtain ⟨m₅, h₅⟩ := h₄.next (.pushFront 16 48) ⟨rfl, fresh_contentsOf (by decide) (by decide)⟩
    (update_contentsOf _ 16 [48, 40])
  obtain ⟨m₆, h₆⟩ := h₅.next (.splice 8 32 16) ⟨⟨[32], rfl, by decide⟩, rfl, by decide⟩
    (update_update_contentsOf _ 8 [48, 40, 32] 16 [])
  obtain ⟨m₇, h₇⟩ := h₆.next (.swap 8 16 24)
    ⟨rfl, rfl, fresh_contentsOf (by decide) (by decide)⟩
    (update_update_contentsOf _ 8 [] 16 [48, 40, 32])
  obtain ⟨m₈, h₈⟩ := h₇.next (.moveConstruct 56 16)
    ⟨fresh_contentsOf (by decide) (by decide), rfl⟩
    (update_update_contentsOf _ 56 [48, 40, 32] 16 [])
  obtain ⟨hrings, hops⟩ := lists_refine h₈
  obtain ⟨m', hstep, hreaches, -, hkeeps⟩ := hops (.moveAssign 8 56) ⟨rfl, rfl⟩
  have hrings' := (lists_refine hreaches).1
  exact ⟨m₈, m', hstep, (hrings 56 _ rfl).1, (hrings 8 _ rfl).1, (hrings' 8 _ rfl).1,
    (hrings' 56 _ rfl).1, hkeeps 16 [] (by decide) rfl⟩

/-! ## Looking at the ends -/

/-- `Front` returns what `PopFront` would. Neither it nor `Back` writes to memory. -/
def FrontAgrees (m : LinkMemory) (this : Nat) : Prop :=
  ∃ link m', front m this = some link ∧ popFront m this = some (link, m')

/-- `Back` returns, with what `PopBack` would return. -/
def BackAgrees (m : LinkMemory) (this : Nat) : Prop :=
  ∃ fuel link m', back m this fuel = some link ∧ popBack m this = some (link, m')

variable {this : Nat} {xs : List Nat}

theorem front_agrees (h : Inv m c) (hthis : c this = some xs) : FrontAgrees m this := by
  obtain ⟨m', hpop, -⟩ := popFront_spec h hthis
  refine ⟨xs.headD 0, m', ?_, hpop⟩
  rw [front, h.empty_eq hthis, begin_eq (h.ne hthis), h.next_this hthis]
  cases xs with
  | nil => rfl
  | cons x xs => rfl

/-- On a list with nodes, `Back` calls itself before it does anything else. -/
theorem back_eq_none (h : Inv m c) (hthis : c this = some xs) (hxs : xs ≠ []) (fuel : Nat) :
    back m this fuel = none := by
  induction fuel with
  | zero => rfl
  | succ fuel ih =>
      rw [back, h.empty_eq hthis, ih]
      simp [hxs]

theorem back_agrees_iff (h : Inv m c) (hthis : c this = some xs) :
    BackAgrees m this ↔ xs = [] := by
  constructor
  · rintro ⟨fuel, link, m', hback, -⟩
    by_contra hxs
    rw [back_eq_none h hthis hxs fuel] at hback
    cases hback
  · rintro rfl
    obtain ⟨m', hpop, -⟩ := popBack_spec h hthis
    refine ⟨1, 0, m', ?_, hpop⟩
    rw [back, h.empty_eq hthis]
    rfl

/-- In every state that is reached, the ends of a list agree with what is popped from there iff the
list is empty. `Front` always does; `Back` calls itself for ever on a list with nodes. -/
theorem peeks_agree_iff (h : Reaches m c) (hthis : c this = some xs) :
    (FrontAgrees m this ∧ BackAgrees m this) ↔ xs = [] := by
  have hinv := inv_of_reaches h
  rw [back_agrees_iff hinv hthis]
  exact and_iff_right (front_agrees hinv hthis)

/-- The ends of a new list. -/
theorem peeks_agree_construct : ∃ m', step (fun _ => ⟨0, 0⟩) (.construct 8) = some (none, m') ∧
    FrontAgrees m' 8 ∧ BackAgrees m' 8 := by
  have hop : (ListOp.construct 8).Allowed fun _ => none :=
    ⟨by decide, fun _ _ hc => by cases hc⟩
  obtain ⟨m', hstep, -⟩ := step_spec (Inv.start fun _ => ⟨0, 0⟩) hop
  have hlist : (ListOp.construct 8).apply (fun _ => none) 8 = some [] := rfl
  exact ⟨m', hstep, (peeks_agree_iff ((Reaches.start _).step hop hstep) hlist).mpr rfl⟩

/-- `Back` does not return on a list of one node. -/
theorem peeks_agree_fails : ¬ ∀ (m : LinkMemory) (c : ListContents) (this : Nat) (xs : List Nat),
    Reaches m c → c this = some xs → FrontAgrees m this ∧ BackAgrees m this := by
  intro h
  have hop : (ListOp.construct 8).Allowed fun _ => none :=
    ⟨by decide, fun _ _ hc => by cases hc⟩
  obtain ⟨m₁, hstep₁, hinv₁, -⟩ := step_spec (Inv.start fun _ => ⟨0, 0⟩) hop
  have hpush : (ListOp.pushBack 8 16).Allowed ((ListOp.construct 8).apply fun _ => none) := by
    refine ⟨rfl, by decide, fun l xs hl hmem => ?_⟩
    by_cases hl' : l = 8
    · rw [hl', ListOp.apply, Function.update_self, Option.some.injEq] at hl
      rw [← hl, hl'] at hmem
      exact absurd hmem (by decide)
    · rw [ListOp.apply, Function.update_of_ne hl'] at hl
      cases hl
  obtain ⟨m₂, hstep₂, hinv₂, -⟩ := step_spec hinv₁ hpush
  have hreaches := ((Reaches.start fun _ => ⟨0, 0⟩).step hop hstep₁).step hpush hstep₂
  have hlist : (ListOp.pushBack 8 16).apply ((ListOp.construct 8).apply fun _ => none) 8 =
      some [16] := rfl
  have hagrees := (h _ _ _ _ hreaches hlist).2
  exact absurd ((back_agrees_iff hinv₂ hlist).mp hagrees) (List.cons_ne_nil 16 [])

end IntrusiveList

end Aarch64.Cxx
