import Aarch64.Cxx.Optional.Options

/-!
# The operations of optionals

What each operation does to the option behind each optional. The operand of `emplace` must
not be the value that it destroys, and an lvalue must not notice that it is moved from. The
swap of a value with nothing loses the value.
-/

namespace Aarch64.Cxx

variable {ι α : Type} [DecidableEq ι]

namespace Optionals

variable {T : ValueType α} {s : Optionals ι α} {m : Options ι α} {i j : ι} {c d : Option α}
variable {a : Operand ι α} {x v w : α}

namespace Represents

theorem reset (h : s.Represents m) (hi : m i = some c) :
    ∃ t, s.reset i = some t ∧ t.Represents (Function.update m i (some none)) := by
  obtain ⟨o, ho, hholds⟩ := h.get hi
  obtain ⟨o', hreset, hholds'⟩ := hholds.reset
  exact ⟨_, by rw [Optionals.reset, ho]; simp [hreset], h.update i hholds'⟩

theorem fresh (h : s.Represents m) (hi : m i = none) :
    ∃ t, s.fresh i = some t ∧ t.Represents (Function.update m i (some none)) := by
  have hnone := h.get_none hi
  exact ⟨_, by rw [Optionals.fresh, hnone]; rfl, h.update i .new⟩

theorem setValue (h : s.Represents m) (hi : m i = some (some v)) (x : α) :
    ∃ o o', s i = some o ∧ o.setValue x = some o' ∧
      Represents (Function.update s i (some o')) (Function.update m i (some (some x))) := by
  obtain ⟨o, ho, hholds⟩ := h.get hi
  exact ⟨o, _, ho, hholds.setValue x, h.update i rfl⟩

/-- The new value is that of the operand. -/
theorem build (h : s.Represents m) (hx : a.value? m = some x) (hunmoved : a.Unmoved T m) :
    ∃ t, s.build T a = some (x, t) ∧ t.Represents (a.leave T m) := by
  cases a with
  | value y =>
      cases hx
      exact ⟨s, rfl, h⟩
  | constRef j =>
      obtain ⟨o, ho, hholds⟩ := h.get (Option.join_eq_some_iff.mp hx)
      exact ⟨s, by rw [Optionals.build, ho]; simp [hholds.value], h⟩
  | lvalue j =>
      have hj : m j = some (some x) := Option.join_eq_some_iff.mp hx
      obtain ⟨o, ho, hholds⟩ := h.get hj
      refine ⟨_, by rw [Optionals.build, ho]; simp [hholds.value]; rfl, ?_⟩
      have hmoved := h.update j (hholds.moveOut (T := T))
      rw [hunmoved x hj, update_same hj] at hmoved
      exact hmoved
  | rvalue j =>
      have hj : m j = some (some x) := Option.join_eq_some_iff.mp hx
      obtain ⟨o, ho, hholds⟩ := h.get hj
      refine ⟨_, by rw [Optionals.build, ho]; simp [hholds.value]; rfl, ?_⟩
      rw [Operand.leave_rvalue hj]
      exact h.update j hholds.moveOut

/-- The old value is gone before the operand is read, which must be another. -/
theorem emplace (h : s.Represents m) (hi : m i = some c) (hx : a.value? m = some x)
    (howner : a.owner ≠ some i) (hunmoved : a.Unmoved T m) :
    ∃ t, s.emplace T i a = some t ∧
      t.Represents (Function.update (a.leave T m) i (some (some x))) := by
  obtain ⟨s₁, hreset, h₁⟩ := h.reset hi
  obtain ⟨s₂, hbuild, h₂⟩ := h₁.build (by rwa [Operand.value?_update howner])
    (hunmoved.update howner (some none))
  rw [Operand.leave_update howner] at h₂
  obtain ⟨o, ho, hholds⟩ := h₂.get (Function.update_self ..)
  have hdone := h₂.update i (o := ⟨true, .live x⟩) (c := some x) rfl
  rw [Function.update_idem] at hdone
  exact ⟨_, by rw [Optionals.emplace, hreset]; simp [hbuild, ho, hholds.construct], hdone⟩

/-- An optional without a value takes that of another. -/
theorem emplaceOther (h : s.Represents m) (hi : m i = some none) (hj : m j = some (some w))
    (howner : a.owner = some j) (hunmoved : a.Unmoved T m) :
    ∃ t, s.emplace T i a = some t ∧
      t.Represents (Function.update (a.leave T m) i (some (some w))) := by
  have hij := index_ne hi hj (Option.some_ne_none w).symm
  have hother : a.owner ≠ some i := by
    rw [howner]
    exact fun heq => hij (Option.some.inj heq).symm
  exact h.emplace hi (a.value?_of_owner howner hj) hother hunmoved

/-- Construction from an operand, which is no value of the new optional. -/
theorem convert (h : s.Represents m) (hi : m i = none) (hx : a.value? m = some x)
    (hunmoved : a.Unmoved T m) :
    ∃ t, s.convert T i a = some t ∧
      t.Represents (Function.update (a.leave T m) i (some (some x))) := by
  have howner : a.owner ≠ some i := a.owner_ne hi hx
  obtain ⟨s₁, hfresh, h₁⟩ := h.fresh hi
  obtain ⟨t, hemplace, ht⟩ := h₁.emplace (Function.update_self ..)
    (by rwa [Operand.value?_update howner]) howner (hunmoved.update howner (some none))
  rw [Operand.leave_update howner, Function.update_idem] at ht
  exact ⟨t, by rw [Optionals.convert, hfresh]; exact hemplace, ht⟩

theorem copyConstruct (h : s.Represents m) (hi : m i = none) (hj : m j = some c) :
    ∃ t, s.copyConstruct T i j = some t ∧ t.Represents (Function.update m i (some c)) := by
  obtain ⟨other, hother, hholds⟩ := h.get hj
  cases c with
  | none =>
      obtain ⟨t, hfresh, ht⟩ := h.fresh hi
      exact ⟨t, by rw [Optionals.copyConstruct, hother]; simp [hfresh, hholds.hasValue], ht⟩
  | some v =>
      obtain ⟨t, hconvert, ht⟩ := h.convert (T := T) (a := .constRef j) hi
        (Option.join_eq_some_iff.mpr hj) trivial
      refine ⟨t, ?_, ht⟩
      rw [Optionals.copyConstruct, hother, ← hconvert]
      simp [Optionals.convert, hholds.hasValue]

/-- The template copies an optional only where its value type makes the same value of it. -/
theorem convertOptional (h : s.Represents m) (hi : m i = none) (hj : m j = some (some v))
    (hsame : T.ofOptional ⟨true, .live v⟩ = some (v, ⟨true, .live v⟩)) :
    ∃ t, s.convertOptional T i j = some t ∧
      t.Represents (Function.update m i (some (some v))) := by
  obtain ⟨other, hother, hholds⟩ := h.get hj
  obtain rfl : other = ⟨true, .live v⟩ := hholds
  have hij : i ≠ j := by
    rintro rfl
    rw [hi] at hj
    cases hj
  obtain ⟨s₁, hfresh, h₁⟩ := h.fresh hi
  have hj₁ : Function.update m i (some none) j = some (some v) := by
    rw [Function.update_of_ne hij.symm, hj]
  have h₂ := h₁.update j (o := ⟨true, .live v⟩) (c := some v) rfl
  rw [update_same hj₁] at h₂
  obtain ⟨o, ho, hholds⟩ := h₂.get (Function.update_self ..)
  have hdone := h₂.update i (o := ⟨true, .live v⟩) (c := some v) rfl
  rw [Function.update_idem] at hdone
  refine ⟨_, ?_, hdone⟩
  rw [Optionals.convertOptional, hother]
  simp [hfresh, hsame, ho, hholds.construct]

theorem moveConstruct (h : s.Represents m) (hi : m i = none) (hj : m j = some c) :
    ∃ t, s.moveConstruct T i j = some t ∧
      t.Represents (Function.update (Function.update m j (some (c.map T.moved))) i (some c)) := by
  obtain ⟨other, hother, hholds⟩ := h.get hj
  cases c with
  | none =>
      obtain ⟨t, hfresh, ht⟩ := h.fresh hi
      refine ⟨t, by rw [Optionals.moveConstruct, hother]; simp [hfresh, hholds.hasValue], ?_⟩
      rwa [Option.map_none, update_same hj]
  | some v =>
      obtain ⟨t, hconvert, ht⟩ := h.convert (T := T) (a := .rvalue j) hi
        (Option.join_eq_some_iff.mpr hj) trivial
      rw [Operand.leave_rvalue hj] at ht
      refine ⟨t, ?_, ht⟩
      rw [Optionals.moveConstruct, hother, ← hconvert]
      simp [Optionals.convert, hholds.hasValue]

theorem destroy (h : s.Represents m) (hi : m i = some c) :
    ∃ t, s.destroy i = some t ∧ t.Represents (Function.update m i none) := by
  obtain ⟨s₁, hreset, h₁⟩ := h.reset hi
  have hdone := h₁.erase i
  rw [Function.update_idem] at hdone
  exact ⟨_, by rw [Optionals.destroy, hreset]; rfl, hdone⟩

theorem copyAssign (h : s.Represents m) (hi : m i = some c) (hj : m j = some d) :
    ∃ t, s.copyAssign T i j = some t ∧ t.Represents (Function.update m i (some d)) := by
  obtain ⟨this, hthis, hholds⟩ := h.get hi
  obtain ⟨other, hother, hholds'⟩ := h.get hj
  rw [Optionals.copyAssign, hthis, hother]
  simp only [Option.bind_eq_bind, Option.bind_some, hholds.hasValue, hholds'.hasValue]
  cases d with
  | none => exact h.reset hi
  | some w =>
      cases c with
      | none => exact h.emplaceOther (a := .constRef j) hi hj rfl trivial
      | some v =>
          refine ⟨Function.update s i (some ⟨true, .live w⟩), ?_, h.update i rfl⟩
          simp [hholds'.value, hholds.setValue]

/-- A value is moved into another, or into itself. -/
theorem moveAssignValue (h : s.Represents m) (hi : m i = some (some v)) (hj : m j = some (some w)) :
    ∃ t, s.moveAssignValue T i j = some t ∧
      t.Represents (if i = j then Function.update m i (some (some (T.selfMoved w)))
        else Function.update (Function.update m i (some (some w))) j
          (some (some (T.moved w)))) := by
  obtain ⟨this, hthis, hholds⟩ := h.get hi
  obtain ⟨other, hother, hholds'⟩ := h.get hj
  rw [Optionals.moveAssignValue, hthis, hother]
  simp only [Option.bind_eq_bind, Option.bind_some, hholds'.value, hholds.setValue]
  by_cases hij : i = j
  · rw [if_pos hij, if_pos hij]
    exact ⟨_, rfl, h.update i rfl⟩
  · rw [if_neg hij, if_neg hij]
    exact ⟨_, rfl, (h.update i (o := ⟨true, .live w⟩) (c := some w) rfl).update j hholds'.moveOut⟩

theorem moveAssign (h : s.Represents m) (hi : m i = some c) (hj : m j = some d) :
    ∃ t, s.moveAssign T i j = some t ∧
      t.Represents (if i = j then Function.update m i (some (d.map T.selfMoved))
        else Function.update (Function.update m j (some (d.map T.moved))) i (some d)) := by
  obtain ⟨this, hthis, hholds⟩ := h.get hi
  obtain ⟨other, hother, hholds'⟩ := h.get hj
  rw [Optionals.moveAssign, hthis, hother]
  simp only [Option.bind_eq_bind, Option.bind_some, hholds.hasValue, hholds'.hasValue]
  cases d with
  | none =>
      rw [Option.map_none, Option.map_none, update_same hj, ite_self]
      exact h.reset hi
  | some w =>
      cases c with
      | none =>
          have hij := index_ne hi hj (Option.some_ne_none w).symm
          rw [if_neg hij, ← Operand.leave_rvalue hj]
          exact h.emplaceOther (a := .rvalue j) hi hj rfl trivial
      | some v =>
          have hmoved := h.moveAssignValue (T := T) hi hj
          by_cases hij : i = j
          · rw [if_pos hij] at hmoved ⊢
            exact hmoved
          · rw [if_neg hij, Function.update_comm hij] at hmoved
            rw [if_neg hij]
            exact hmoved

/-- Both values are exchanged, also when they are one. -/
theorem swapValues (h : s.Represents m) (hi : m i = some (some v)) (hj : m j = some (some w)) :
    ∃ t, s.swapValues T i j = some t ∧
      t.Represents (Function.update (Function.update m i (some (some w))) j (some (some v))) := by
  obtain ⟨this, hthis, hholds⟩ := h.get hi
  have h₁ := h.update i (hholds.moveOut (T := T))
  have hstart : s.swapValues T i j =
      (Optionals.moveAssignValue T (Function.update s i (some (this.moveOut T))) i j).bind fun s =>
        (s j).bind fun other =>
          (other.setValue v).bind fun o => some (Function.update s j (some o)) := by
    rw [Optionals.swapValues, hthis]
    simp only [Option.bind_eq_bind, Option.bind_some, hholds.value]
    rfl
  by_cases hij : i = j
  · subst hij
    obtain ⟨s₂, hmove, h₂⟩ := h₁.moveAssignValue (T := T) (Function.update_self ..)
      (Function.update_self ..)
    rw [if_pos rfl, Function.update_idem] at h₂
    obtain ⟨o, o', ho, hset, hdone⟩ := h₂.setValue (Function.update_self ..) v
    rw [Function.update_idem] at hdone
    refine ⟨Function.update s₂ i (some o'), by rw [hstart, hmove]; simp [ho, hset], ?_⟩
    rwa [Function.update_idem]
  · have hj' : Function.update m i (some (some (T.moved v))) j = some (some w) := by
      rw [Function.update_of_ne (Ne.symm hij), hj]
    obtain ⟨s₂, hmove, h₂⟩ := h₁.moveAssignValue (T := T) (Function.update_self ..) hj'
    rw [if_neg hij, Function.update_idem] at h₂
    obtain ⟨o, o', ho, hset, hdone⟩ := h₂.setValue (Function.update_self ..) v
    rw [Function.update_idem] at hdone
    exact ⟨Function.update s₂ j (some o'), by rw [hstart, hmove]; simp [ho, hset], hdone⟩

/-- A swap exchanges the options, unless it drops the only value there is. -/
theorem swap (h : s.Represents m) (hi : m i = some c) (hj : m j = some d)
    (hclear : d = none → c = none) :
    ∃ t, s.swap T i j = some t ∧
      t.Represents (Function.update (Function.update m i (some d)) j (some c)) := by
  obtain ⟨this, hthis, hholds⟩ := h.get hi
  obtain ⟨other, hother, hholds'⟩ := h.get hj
  rw [Optionals.swap, hthis, hother]
  simp only [Option.bind_eq_bind, Option.bind_some, hholds.hasValue, hholds'.hasValue]
  cases d with
  | none =>
      obtain rfl := hclear rfl
      exact ⟨s, rfl, by rwa [update_same hi, update_same hj]⟩
  | some w =>
      cases c with
      | none =>
          have hij := index_ne hi hj (Option.some_ne_none w).symm
          obtain ⟨s₁, hemplace, h₁⟩ := h.emplaceOther (T := T) (a := .rvalue j) hi hj rfl trivial
          rw [Operand.leave_rvalue hj, Function.update_comm (Ne.symm hij)] at h₁
          obtain ⟨t, hreset, ht⟩ := h₁.reset (Function.update_self ..)
          rw [Function.update_idem] at ht
          exact ⟨t, by simp [hemplace, hreset], ht⟩
      | some v => exact h.swapValues hi hj

end Represents

end Optionals

end Aarch64.Cxx
