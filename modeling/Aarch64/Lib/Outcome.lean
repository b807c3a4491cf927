/-!
# Calls that return, refuse or go wrong

A call gives a value, it reports an error of its own, or it does what no caller can
recover from: a panic, or an access that the language leaves undefined. In a sequence
of calls the first that does not give a value decides the outcome of the whole.
-/

inductive Outcome (ε α : Type) where
  | ok (a : α)
  | err (e : ε)
  | fault
  deriving DecidableEq, Repr

namespace Outcome

variable {ε α β : Type}

instance : Monad (Outcome ε) where
  pure := ok
  bind x f :=
    match x with
    | ok a => f a
    | err e => err e
    | fault => fault

@[simp] theorem pure_def (a : α) : (pure a : Outcome ε α) = ok a := rfl

@[simp] theorem ok_bind (a : α) (f : α → Outcome ε β) : (ok a >>= f) = f a := rfl

@[simp] theorem err_bind (e : ε) (f : α → Outcome ε β) : (err e >>= f) = err e := rfl

@[simp] theorem fault_bind (f : α → Outcome ε β) : (fault >>= f) = fault := rfl

theorem bind_eq_ok_iff {x : Outcome ε α} {f : α → Outcome ε β} {b : β} :
    (x >>= f) = ok b ↔ ∃ a, x = ok a ∧ f a = ok b := by
  cases x with
  | ok a => simp
  | err e => simp
  | fault => simp

/-- An error in front of a call that reports none. -/
theorem eq_err_of_bind {x : Outcome ε α} {f : α → Outcome ε β} {e : ε} (h : (x >>= f) = err e)
    (hf : ∀ a, f a ≠ err e) : x = err e := by
  cases x with
  | ok a => exact absurd h (hf a)
  | err e' =>
      cases h
      rfl
  | fault => cases h

/-- A call that is known to give a value. -/
theorem bind_of_eq_ok {x : Outcome ε α} {a : α} (h : x = ok a) (f : α → Outcome ε β) :
    (x >>= f) = f a := by
  rw [h]
  rfl

/-- An unwrapped call: an error becomes a fault. -/
def unwrap : Outcome ε α → Option α
  | ok a => some a
  | err _ | fault => none

@[simp] theorem unwrap_ok (a : α) : (ok a : Outcome ε α).unwrap = some a := rfl

/-- The same call with another error in place of its own. -/
def replaceErr {ε' : Type} (e : ε') : Outcome ε α → Outcome ε' α
  | ok a => ok a
  | err _ => err e
  | fault => fault

@[simp] theorem replaceErr_ok {ε' : Type} (e : ε') (a : α) :
    (ok a : Outcome ε α).replaceErr e = ok a := rfl

@[simp] theorem replaceErr_err {ε' : Type} (e : ε') (e' : ε) :
    (err e' : Outcome ε α).replaceErr e = err e := rfl

@[simp] theorem replaceErr_replaceErr {ε' ε'' : Type} (e : ε') (e' : ε'') (x : Outcome ε α) :
    (x.replaceErr e).replaceErr e' = x.replaceErr e' := by
  cases x with
  | ok a => rfl
  | err e => rfl
  | fault => rfl

theorem eq_of_replaceErr_eq_err {ε' : Type} {e e' : ε'} {x : Outcome ε α}
    (h : x.replaceErr e = err e') : e' = e := by
  cases x with
  | ok a => cases h
  | err e =>
      cases h
      rfl
  | fault => cases h

@[simp] theorem replaceErr_eq_ok_iff {ε' : Type} {e : ε'} {x : Outcome ε α} {a : α} :
    x.replaceErr e = ok a ↔ x = ok a := by
  cases x with
  | ok b => simp
  | err e' => simp
  | fault => simp [replaceErr]

/-! ## What a call guarantees -/

/-- The call does not go wrong, its values satisfy `Q` and its errors `E`. -/
def Post (x : Outcome ε α) (Q : α → Prop) (E : ε → Prop) : Prop :=
  match x with
  | ok a => Q a
  | err e => E e
  | fault => False

variable {x : Outcome ε α} {Q : α → Prop} {E : ε → Prop}

theorem Post.ne_fault (h : x.Post Q E) : x ≠ fault := by
  rintro rfl
  exact h

theorem Post.bind {R : β → Prop} {f : α → Outcome ε β} (h : x.Post Q E)
    (hf : ∀ a, Q a → (f a).Post R E) : (x >>= f).Post R E := by
  cases x with
  | ok a => exact hf a h
  | err e => exact h
  | fault => exact h

theorem Post.mono {R : α → Prop} {F : ε → Prop} (h : x.Post Q E) (hQ : ∀ a, Q a → R a)
    (hE : ∀ e, E e → F e) : x.Post R F := by
  cases x with
  | ok a => exact hQ a h
  | err e => exact hE e h
  | fault => exact h

theorem Post.replaceErr {ε' : Type} {F : ε' → Prop} {e : ε'} (h : x.Post Q E) (he : F e) :
    (x.replaceErr e).Post Q F := by
  cases x with
  | ok a => exact h
  | err e' => exact he
  | fault => exact h

end Outcome
