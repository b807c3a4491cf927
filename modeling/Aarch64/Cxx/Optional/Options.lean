import Aarch64.Cxx.Optional.Basic

/-!
# Optionals as mathematical options

What optionals are for: each of them is an option. An optional holds an option when flag
and storage agree on it: both say that there is a value, and which, or neither has one.
-/

namespace Aarch64.Cxx

variable {ι α : Type}

/-! ## The options -/

/-- The mathematical options that have been constructed. -/
abbrev Options (ι α : Type) := ι → Option (Option α)

/-! ## What represents them -/

/-- An optional holds what the option has. -/
def Optional.Holds (o : Optional α) : Option α → Prop
  | some v => o = ⟨true, .live v⟩
  | none => o.initialized = false ∧ ∀ v, o.storage ≠ .live v

/-- Each optional holds what its option has. -/
def Optionals.Represents (s : Optionals ι α) (m : Options ι α) : Prop :=
  ∀ i, Option.Rel Optional.Holds (s i) (m i)

/-- Optionals whose options differ are two. -/
theorem index_ne {m : Options ι α} {i j : ι} {c d : Option α} (hi : m i = some c)
    (hj : m j = some d) (hne : c ≠ d) : i ≠ j := by
  rintro rfl
  exact hne (Option.some.inj (hi.symm.trans hj))

/-- To write what an option is already changes nothing. -/
theorem update_same [DecidableEq ι] {m : Options ι α} {i : ι} {c : Option α}
    (hi : m i = some c) : Function.update m i (some c) = m := by
  rw [← hi, Function.update_eq_self]

namespace Optional.Holds

variable {T : ValueType α} {o : Optional α} {c : Option α} {v : α}

theorem new : (Optional.new : Optional α).Holds none := ⟨rfl, nofun⟩

theorem hasValue (h : o.Holds c) : o.hasValue = c.isSome := by
  cases c with
  | none => exact h.1
  | some v =>
      cases h
      rfl

theorem value (h : o.Holds (some v)) : o.value T = some v := by
  cases h
  rfl

theorem reset (h : o.Holds c) : ∃ o', o.reset = some o' ∧ o'.Holds none := by
  cases c with
  | none => exact ⟨o, by rw [Optional.reset, h.1]; rfl, h⟩
  | some v =>
      cases h
      exact ⟨_, rfl, rfl, nofun⟩

theorem construct (h : o.Holds none) (x : α) : o.construct x = some ⟨true, .live x⟩ := by
  obtain ⟨_, hraw⟩ := h
  rw [Optional.construct]
  cases hs : o.storage with
  | live v => exact absurd hs (hraw v)
  | empty => rfl
  | dead v => rfl

theorem setValue (h : o.Holds (some v)) (x : α) : o.setValue x = some ⟨true, .live x⟩ := by
  cases h
  rfl

theorem moveOut (h : o.Holds (some v)) : (o.moveOut T).Holds (some (T.moved v)) := by
  cases h
  rfl

theorem unique {d : Option α} (h : o.Holds c) (h' : o.Holds d) : c = d := by
  cases c with
  | none =>
      cases d with
      | none => rfl
      | some w =>
          obtain rfl : o = ⟨true, .live w⟩ := h'
          cases h.1
  | some v =>
      obtain rfl : o = ⟨true, .live v⟩ := h
      cases d with
      | none => cases h'.1
      | some w =>
          cases h'
          rfl

end Optional.Holds

namespace Optionals.Represents

variable {s : Optionals ι α} {m : Options ι α} {i : ι} {c : Option α}

theorem get (h : s.Represents m) (hi : m i = some c) : ∃ o, s i = some o ∧ o.Holds c := by
  have hrel := h i
  rw [hi] at hrel
  cases hs : s i with
  | none =>
      rw [hs] at hrel
      cases hrel
  | some o =>
      rw [hs] at hrel
      exact ⟨o, rfl, Option.rel_some_some.mp hrel⟩

theorem get_none (h : s.Represents m) (hi : m i = none) : s i = none := by
  have hrel := h i
  rw [hi] at hrel
  cases hs : s i with
  | none => rfl
  | some o =>
      rw [hs] at hrel
      cases hrel

theorem unique {n : Options ι α} (h : s.Represents m) (h' : s.Represents n) : m = n := by
  funext i
  cases hi : m i with
  | none =>
      cases hi' : n i with
      | none => rfl
      | some d =>
          obtain ⟨o, ho, _⟩ := h'.get hi'
          rw [h.get_none hi] at ho
          cases ho
  | some c =>
      obtain ⟨o, ho, hholds⟩ := h.get hi
      cases hi' : n i with
      | none =>
          rw [h'.get_none hi'] at ho
          cases ho
      | some d =>
          obtain ⟨o', ho', hholds'⟩ := h'.get hi'
          obtain rfl : o = o' := Option.some.inj (ho.symm.trans ho')
          rw [hholds.unique hholds']

end Optionals.Represents

/-! ## The operations -/

namespace Operand

def value? (m : Options ι α) : Operand ι α → Option α
  | value x => some x
  | constRef j | lvalue j | rvalue j => (m j).join

/-- The optional whose value the operand is. -/
def owner : Operand ι α → Option ι
  | value _ => none
  | constRef j | lvalue j | rvalue j => some j

/-- An lvalue does not notice that it is moved from. -/
def Unmoved (T : ValueType α) (m : Options ι α) : Operand ι α → Prop
  | lvalue j => ∀ v, m j = some (some v) → T.moved v = v
  | _ => True

variable {T : ValueType α} {m : Options ι α} {a : Operand ι α} {i : ι}

/-- An optional that has not been constructed has no value to refer to. -/
theorem owner_ne {x : α} (hi : m i = none) (hx : a.value? m = some x) : a.owner ≠ some i := by
  intro howner
  cases a with
  | value x => cases howner
  | constRef j | lvalue j | rvalue j =>
      have hj : j = i := Option.some.inj howner
      rw [value?, hj, hi] at hx
      cases hx

theorem value?_of_owner {j : ι} {x : α} (howner : a.owner = some j)
    (hj : m j = some (some x)) : a.value? m = some x := by
  cases a with
  | value y => cases howner
  | constRef k | lvalue k | rvalue k =>
      obtain rfl : k = j := Option.some.inj howner
      exact Option.join_eq_some_iff.mpr hj

variable [DecidableEq ι]

/-- What a use of the operand leaves. Only what is moved from changes. -/
def leave (T : ValueType α) (m : Options ι α) : Operand ι α → Options ι α
  | rvalue j => Function.update m j ((m j).map (Option.map T.moved))
  | _ => m

theorem leave_rvalue {j : ι} {c : Option α} (hj : m j = some c) :
    (rvalue j).leave T m = Function.update m j (some (c.map T.moved)) := by
  rw [leave, hj]
  rfl

theorem value?_update (h : a.owner ≠ some i) (c : Option (Option α)) :
    a.value? (Function.update m i c) = a.value? m := by
  cases a with
  | value x => rfl
  | constRef j | lvalue j | rvalue j =>
      have hj : j ≠ i := fun heq => h (congrArg some heq)
      rw [value?, value?, Function.update_of_ne hj]

theorem leave_update (h : a.owner ≠ some i) (c : Option (Option α)) :
    a.leave T (Function.update m i c) = Function.update (a.leave T m) i c := by
  cases a with
  | value x | constRef j | lvalue j => rfl
  | rvalue j =>
      have hj : j ≠ i := fun heq => h (congrArg some heq)
      rw [leave, leave, Function.update_of_ne hj, Function.update_comm hj]

theorem Unmoved.update (hunmoved : a.Unmoved T m) (h : a.owner ≠ some i)
    (c : Option (Option α)) : a.Unmoved T (Function.update m i c) := by
  cases a with
  | value x | constRef j | rvalue j => trivial
  | lvalue j =>
      have hj : j ≠ i := fun heq => h (congrArg some heq)
      intro v hv
      rw [Function.update_of_ne hj] at hv
      exact hunmoved v hv

end Operand

namespace Optionals.Represents

variable [DecidableEq ι] {s : Optionals ι α} {m : Options ι α} {c : Option α}

theorem update {o : Optional α} (h : s.Represents m) (i : ι) (ho : o.Holds c) :
    Represents (Function.update s i (some o)) (Function.update m i (some c)) := by
  intro k
  by_cases hk : k = i
  · subst hk
    rw [Function.update_self, Function.update_self]
    exact .some ho
  · rw [Function.update_of_ne hk, Function.update_of_ne hk]
    exact h k

theorem erase (h : s.Represents m) (i : ι) :
    Represents (Function.update s i none) (Function.update m i none) := by
  intro k
  by_cases hk : k = i
  · subst hk
    rw [Function.update_self, Function.update_self]
    exact .none
  · rw [Function.update_of_ne hk, Function.update_of_ne hk]
    exact h k

end Optionals.Represents

end Aarch64.Cxx
