import Aarch64.Cxx.FixedVector.Storage

/-!
# The bounded vector refines a bounded list

What a vector is for: a list of at most `N` elements. A call that would exceed the bound
is refused. Every sequence of calls on the storage does to the slots what it does to the
list, for every bound, so no call touches a slot without an object.
-/

namespace Aarch64.Cxx.FixedVector

variable {α : Type} {N : Nat}

/-- A call. The positions are those of iterators, and the items are no elements of the
vector. -/
inductive Op (α : Type)
  | pushBack (item : α)
  | emplaceBack (item : α)
  | insert (pos : Nat) (item : α)
  | erase (begin stop : Nat)
  | popBack
  | resize (size : Nat) (value : α)
  | assign (count : Nat) (item : α)
  | clear

inductive Reply
  | none
  | flag (ok : Bool)
  | position (pos : Nat)
  deriving DecidableEq, Repr

namespace Op

/-- The call on the storage. -/
def run (v : Storage α N) : Op α → Option (Reply × Storage α N)
  | pushBack item => (v.pushBack item).map fun r => (.flag r.1, r.2)
  | emplaceBack item => (v.emplaceBack id item).map fun r => (.flag r.1, r.2)
  | insert pos item => (v.insert pos item).map fun r => (.flag r.1, r.2)
  | erase begin stop => (v.erase begin stop).map fun r => (.position r.1, r.2)
  | popBack => v.popBack.map fun r => (.flag r.1, r.2)
  | resize size value => (v.resize size value).map fun r => (.flag r.1, r.2)
  | assign count item => (v.assign count item).map fun r => (.flag r.1, r.2)
  | clear => v.clear.map fun v => (.none, v)

/-- The call asks for more than `N` elements. -/
def Exceeds (N : Nat) (xs : List α) : Op α → Prop
  | pushBack _ | emplaceBack _ | insert _ _ => N < xs.length + 1
  | resize size _ => N < size
  | assign count _ => N < count
  | erase _ _ | popBack | clear => False

instance (xs : List α) : (op : Op α) → Decidable (op.Exceeds N xs)
  | pushBack _ | emplaceBack _ | insert _ _ => inferInstanceAs (Decidable (N < xs.length + 1))
  | resize size _ => inferInstanceAs (Decidable (N < size))
  | assign count _ => inferInstanceAs (Decidable (N < count))
  | erase _ _ | popBack | clear => inferInstanceAs (Decidable False)

/-- Its positions are positions of the list. -/
def Allowed (xs : List α) : Op α → Prop
  | insert pos _ => pos ≤ xs.length
  | erase begin stop => begin ≤ stop ∧ stop ≤ xs.length
  | _ => True

/-- What the call does to a list. -/
def edit (xs : List α) : Op α → Reply × List α
  | pushBack item | emplaceBack item => (.flag true, xs ++ [item])
  | insert pos item => (.flag true, xs.take pos ++ item :: xs.drop pos)
  | erase begin stop => (.position begin, xs.take begin ++ xs.drop stop)
  | popBack => (.flag !xs.isEmpty, xs.dropLast)
  | resize size value => (.flag true, xs.take size ++ List.replicate (size - xs.length) value)
  | assign count item => (.flag true, List.replicate count item)
  | clear => (.none, [])

/-- The call on the bounded list. -/
def apply (N : Nat) (xs : List α) (op : Op α) : Reply × List α :=
  if op.Exceeds N xs then (.flag false, xs) else op.edit xs

end Op

/-- The calls one after the other, with what they return. -/
def runAll : List (Op α) → Storage α N → Option (List Reply × Storage α N)
  | [], v => some ([], v)
  | op :: ops, v => (op.run v).bind fun r => (runAll ops r.2).map fun s => (r.1 :: s.1, s.2)

def applyAll (N : Nat) : List (Op α) → List α → List Reply × List α
  | [], xs => ([], xs)
  | op :: ops, xs =>
      let r := op.apply N xs
      let s := applyAll N ops r.2
      (r.1 :: s.1, s.2)

def AllowedAll (N : Nat) : List (Op α) → List α → Prop
  | [], _ => True
  | op :: ops, xs => op.Allowed xs ∧ AllowedAll N ops (op.apply N xs).2

/-- The elements of the list are in the first slots, and the other slots are raw. -/
structure Storage.Holds (v : Storage α N) (xs : List α) : Prop where
  items_eq : ∀ i, v.items i = xs[i]?
  size_eq : v.size = xs.length
  fits : xs.length ≤ N

/-! ## One call -/

variable {xs : List α} {op : Op α}

theorem Storage.holds_ofList (h : xs.length ≤ N) : (Storage.ofList N xs).Holds xs :=
  ⟨fun _ => rfl, rfl, h⟩

/-- A call that would exceed the bound returns false and changes nothing. -/
theorem Op.run_exceeds (hfits : xs.length ≤ N) (h : op.Exceeds N xs) :
    op.run (Storage.ofList N xs) = some (.flag false, Storage.ofList N xs) := by
  cases op with
  | pushBack item =>
      have hfull := (Storage.full_ofList (Nat.le_antisymm hfits (Nat.le_of_lt_succ h)) item 0).1
      rw [run, hfull]
      rfl
  | emplaceBack item =>
      have hfull := (Storage.full_ofList (Nat.le_antisymm hfits (Nat.le_of_lt_succ h)) item 0).1
      rw [run, Storage.emplaceBack_eq_pushBack, id, hfull]
      rfl
  | insert pos item =>
      have hfull := (Storage.full_ofList (Nat.le_antisymm hfits (Nat.le_of_lt_succ h)) item pos).2
      rw [run, hfull]
      rfl
  | resize size value =>
      have hrefused : (Storage.ofList N xs).resize size value = _ := if_pos h
      rw [run, hrefused]
      rfl
  | assign count item =>
      have hrefused : (Storage.ofList N xs).assign count item = _ := if_pos h
      rw [run, hrefused]
      rfl
  | erase | popBack | clear => exact h.elim

/-- Every other call edits the list in the slots. -/
theorem Op.run_edit (h : ¬ op.Exceeds N xs) (hallowed : op.Allowed xs) :
    op.run (Storage.ofList N xs) = some ((op.edit xs).1, Storage.ofList N (op.edit xs).2) := by
  cases op with
  | pushBack item =>
      rw [run, Storage.pushBack_ofList (Nat.le_of_not_lt h)]
      rfl
  | emplaceBack item =>
      rw [run, Storage.emplaceBack_eq_pushBack, Storage.pushBack_ofList (Nat.le_of_not_lt h)]
      rfl
  | insert pos item =>
      rw [run, Storage.insert_ofList hallowed (Nat.le_of_not_lt h)]
      rfl
  | erase begin stop =>
      rw [run, Storage.erase_ofList hallowed.1 hallowed.2]
      rfl
  | popBack =>
      cases xs with
      | nil => rfl
      | cons x xs =>
          rw [run, Storage.popBack_ofList (List.cons_ne_nil x xs)]
          rfl
  | resize size value =>
      rw [run, Storage.resize_ofList (Nat.le_of_not_lt h)]
      rfl
  | assign count item =>
      rw [run, Storage.assign_ofList (Nat.le_of_not_lt h)]
      rfl
  | clear =>
      rw [run, Storage.clear_ofList]
      rfl

theorem Op.length_edit_le (hfits : xs.length ≤ N) (h : ¬ op.Exceeds N xs)
    (hallowed : op.Allowed xs) : (op.edit xs).2.length ≤ N := by
  cases op with
  | pushBack | emplaceBack =>
      rw [edit, List.length_append]
      exact Nat.le_of_not_lt h
  | insert pos item =>
      have hpos : pos ≤ xs.length := hallowed
      have hroom : xs.length + 1 ≤ N := Nat.le_of_not_lt h
      rw [edit, List.length_append, List.length_cons, List.length_take, List.length_drop]
      omega
  | erase begin stop =>
      obtain ⟨hle, hstop⟩ := hallowed
      rw [edit, List.length_append, List.length_take, List.length_drop]
      omega
  | popBack =>
      rw [edit, List.length_dropLast]
      omega
  | resize size value =>
      have hroom : size ≤ N := Nat.le_of_not_lt h
      rw [edit, List.length_append, List.length_take, List.length_replicate]
      omega
  | assign count item =>
      rw [edit, List.length_replicate]
      exact Nat.le_of_not_lt h
  | clear => exact Nat.zero_le N

/-- One call does to the slots what it does to the bounded list. -/
theorem Op.run_ofList (hfits : xs.length ≤ N) (hallowed : op.Allowed xs) :
    op.run (Storage.ofList N xs) = some ((op.apply N xs).1, Storage.ofList N (op.apply N xs).2) ∧
      (op.apply N xs).2.length ≤ N := by
  rw [apply]
  by_cases h : op.Exceeds N xs
  · rw [if_pos h]
    exact ⟨run_exceeds hfits h, hfits⟩
  · rw [if_neg h]
    exact ⟨run_edit h hallowed, length_edit_le hfits h hallowed⟩

/-! ## Whole runs -/

theorem runAll_ofList : ∀ (ops : List (Op α)) (xs : List α), xs.length ≤ N → AllowedAll N ops xs →
    runAll ops (Storage.ofList N xs) =
        some ((applyAll N ops xs).1, Storage.ofList N (applyAll N ops xs).2) ∧
      (applyAll N ops xs).2.length ≤ N := by
  intro ops
  induction ops with
  | nil =>
      intro xs hfits _
      exact ⟨rfl, hfits⟩
  | cons op ops ih =>
      intro xs hfits hallowed
      obtain ⟨hrun, hnext⟩ := Op.run_ofList hfits hallowed.1
      obtain ⟨hrest, hlast⟩ := ih _ hnext hallowed.2
      refine ⟨?_, hlast⟩
      rw [runAll, hrun, Option.bind_some, hrest]
      rfl

/-- A vector of any bound, under any sequence of calls, holds the list that the same calls make, in
slots that are constructed exactly where the list has elements. A call that would exceed the bound
is refused, and changes nothing, in any state that is reached. -/
theorem runAll_refines (ops : List (Op α)) (hallowed : AllowedAll N ops []) :
    ∃ v : Storage α N, runAll ops Storage.new = some ((applyAll N ops []).1, v) ∧
      v.Holds (applyAll N ops []).2 ∧
      ∀ op : Op α, op.Exceeds N (applyAll N ops []).2 → op.run v = some (.flag false, v) := by
  obtain ⟨hrun, hfits⟩ := runAll_ofList ops [] (Nat.zero_le N) hallowed
  rw [Storage.ofList_nil] at hrun
  exact ⟨_, hrun, Storage.holds_ofList hfits, fun op h => Op.run_exceeds hfits h⟩

theorem runAll_refines_three : ∃ v : Storage Nat 3,
    runAll [.pushBack 1, .pushBack 2, .insert 0 3, .pushBack 4, .erase 0 2, .erase 1 1]
        Storage.new =
        some ([.flag true, .flag true, .flag true, .flag false, .position 0, .position 1], v) ∧
      v.Holds [2] ∧ ∀ op : Op Nat, op.Exceeds 3 [2] → op.run v = some (.flag false, v) :=
  runAll_refines _
    ⟨trivial, trivial, Nat.zero_le _, trivial, ⟨by decide, by decide⟩, ⟨by decide, by decide⟩,
      trivial⟩

end Aarch64.Cxx.FixedVector
