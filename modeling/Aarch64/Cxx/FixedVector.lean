import Aarch64.Cxx.Algorithm

/-!
# Vectors of bounded size

`common/fixed_vector.h`, as far as the memory map uses it. The elements are
`items_[0], ..., items_[size_ - 1]`, and the bound on their number is part of the
type. `Insert` appends and rotates the new element into place, `Erase` rotates the
erased elements to the end and drops them.
-/

namespace Aarch64.Cxx

variable {α : Type}

theorem length_iterSwap {xs ys : List α} {a b : Nat} (h : iterSwap xs a b = some ys) :
    ys.length = xs.length := by
  simp only [iterSwap, Option.bind_eq_bind, Option.bind_eq_some_iff] at h
  obtain ⟨x, _, y, _, h⟩ := h
  cases h
  simp

theorem length_reverse (xs : List α) (first last : Nat) {ys : List α}
    (h : reverse xs first last = some ys) : ys.length = xs.length := by
  induction xs, first, last using reverse.induct generalizing ys with
  | case1 xs first =>
      rw [reverse, if_pos rfl] at h
      cases h
      rfl
  | case2 xs first last hne hlt =>
      rw [reverse, if_neg hne, if_pos hlt] at h
      cases h
  | case3 xs last hne hnlt =>
      rw [reverse, if_neg hne, if_neg hnlt, if_pos rfl] at h
      cases h
      rfl
  | case4 xs first last hne hnlt hne' ih =>
      rw [reverse, if_neg hne, if_neg hnlt, if_neg hne', Option.bind_eq_bind,
        Option.bind_eq_some_iff] at h
      obtain ⟨zs, hswap, hrest⟩ := h
      exact (ih zs hrest).trans (length_iterSwap hswap)

theorem length_rotate {xs ys : List α} {first middle last pos : Nat}
    (h : rotate xs first middle last = some (ys, pos)) : ys.length = xs.length := by
  simp only [rotate, Option.bind_eq_bind, Option.bind_eq_some_iff] at h
  obtain ⟨_, h₁, _, h₂, _, h₃, h⟩ := h
  cases h
  rw [length_reverse _ _ _ h₃, length_reverse _ _ _ h₂, length_reverse _ _ _ h₁]

structure FixedVector (α : Type) (N : Nat) where
  items : List α
  fits : items.length ≤ N
  deriving DecidableEq

namespace FixedVector

variable {N : Nat}

def size (v : FixedVector α N) : Nat := v.items.length

/-- `*pos = item` for an element of the vector. -/
def set (v : FixedVector α N) (pos : Nat) (item : α) : FixedVector α N :=
  ⟨v.items.set pos item, by rw [List.length_set]; exact v.fits⟩

@[simp] theorem items_set (v : FixedVector α N) (pos : Nat) (item : α) :
    (v.set pos item).items = v.items.set pos item := rfl

/-- Writing the element behind a prefix. -/
theorem items_set_of_append {v : FixedVector α N} {pre post : List α} {x : α}
    (h : v.items = pre ++ x :: post) (y : α) : (v.set pre.length y).items = pre ++ y :: post := by
  rw [items_set, h, List.set_append_right _ _ (Nat.le_refl _), Nat.sub_self, List.set_cons_zero]

@[simp] theorem size_set (v : FixedVector α N) (pos : Nat) (item : α) :
    (v.set pos item).size = v.size := List.length_set

/-- `Insert`: it fails, and changes nothing, when the vector is full. -/
def insert (v : FixedVector α N) (pos : Nat) (item : α) : Option (Bool × FixedVector α N) :=
  if hsize : v.size = N then some (false, v)
  else
    match hrot : rotate (v.items ++ [item]) pos v.size (v.size + 1) with
    | none => none
    | some (items, _) => some (true, ⟨items, by
        rw [length_rotate hrot, List.length_append]
        exact Nat.lt_of_le_of_ne v.fits hsize⟩)

/-- `EmplaceBack` of an element: it fails, and changes nothing, when the vector is full. -/
def emplaceBack (v : FixedVector α N) (item : α) : Bool × FixedVector α N :=
  if hsize : v.size = N then (false, v)
  else (true, ⟨v.items ++ [item], by
    rw [List.length_append]
    exact Nat.lt_of_le_of_ne v.fits hsize⟩)

/-- `Erase` of a range: the position of the first element after it. -/
def erase (v : FixedVector α N) (begin stop : Nat) : Option (Nat × FixedVector α N) :=
  let count := stop - begin
  match hrot : rotate v.items begin (begin + count) v.size with
  | none => none
  | some (items, _) => some (begin, ⟨items.take (v.size - count), by
      rw [List.length_take, length_rotate hrot]
      exact Nat.le_trans (Nat.min_le_right _ _) v.fits⟩)

theorem insert_full {v : FixedVector α N} {pos : Nat} {item : α} (h : v.size = N) :
    v.insert pos item = some (false, v) := dif_pos h

/-- A vector that is not full accepts an element. -/
theorem insert_of_lt {v w : FixedVector α N} {pos : Nat} {item : α} {ok : Bool}
    (hsize : v.size < N) (h : v.insert pos item = some (ok, w)) :
    ok = true ∧ w.size = v.size + 1 := by
  rw [insert, dif_neg (Nat.ne_of_lt hsize)] at h
  split at h
  next => cases h
  next items pos heq =>
    cases h
    exact ⟨rfl, by simpa [size] using length_rotate heq⟩

theorem insert_spec {v : FixedVector α N} {pre post : List α} (hv : v.items = pre ++ post)
    (hsize : v.size < N) (item : α) :
    ∃ w, v.insert pre.length item = some (true, w) ∧ w.items = pre ++ item :: post := by
  have hrot := rotate_spec pre post [item] []
  have hlen : v.size = pre.length + post.length := by rw [size, hv, List.length_append]
  rw [insert, dif_neg (Nat.ne_of_lt hsize)]
  split
  next heq =>
    rw [hv, hlen, List.append_assoc] at heq
    simp [heq] at hrot
  next items pos heq =>
    rw [hv, hlen, List.append_assoc] at heq
    simp only [List.append_nil, List.length_singleton, heq, Option.some.injEq,
      Prod.mk.injEq] at hrot
    exact ⟨_, rfl, hrot.1⟩

theorem erase_spec {v : FixedVector α N} {pre mid post : List α}
    (hv : v.items = pre ++ (mid ++ post)) :
    ∃ w, v.erase pre.length (pre.length + mid.length) = some (pre.length, w) ∧
      w.items = pre ++ post := by
  have hrot := rotate_spec pre mid post []
  have hlen : v.size = pre.length + mid.length + post.length := by
    rw [size, hv, List.length_append, List.length_append, Nat.add_assoc]
  have hcount : pre.length + mid.length - pre.length = mid.length := Nat.add_sub_cancel_left _ _
  simp only [List.append_nil, ← hlen] at hrot
  rw [← hv] at hrot
  rw [erase]
  split
  next heq =>
    rw [hcount, hrot] at heq
    cases heq
  next items pos heq =>
    rw [hcount, hrot] at heq
    cases heq
    refine ⟨_, rfl, ?_⟩
    change List.take _ (pre ++ (post ++ mid)) = _
    rw [← List.append_assoc, List.take_left']
    simp
    omega

theorem items_of_emplaceBack {v w : FixedVector α N} {item : α}
    (h : v.emplaceBack item = (true, w)) : w.items = v.items ++ [item] := by
  rw [emplaceBack] at h
  split at h <;> cases h
  rfl

/-- Any part of the vector can be erased. -/
theorem exists_erase {v : FixedVector α N} {begin stop : Nat} (hle : begin ≤ stop)
    (hstop : stop ≤ v.size) :
    ∃ w, v.erase begin stop = some (begin, w) ∧
      w.items = v.items.take begin ++ v.items.drop stop := by
  have hdrop : (v.items.drop begin).drop (stop - begin) = v.items.drop stop := by
    rw [List.drop_drop, Nat.add_sub_cancel' hle]
  have hsplit : v.items =
      v.items.take begin ++ ((v.items.drop begin).take (stop - begin) ++ v.items.drop stop) := by
    rw [← hdrop, List.take_append_drop, List.take_append_drop]
  have hlen : ((v.items.drop begin).take (stop - begin)).length = stop - begin := by
    have : stop ≤ v.items.length := hstop
    rw [List.length_take, List.length_drop]
    omega
  obtain ⟨w, hcall, hitems⟩ := erase_spec hsplit
  rw [hlen, List.length_take_of_le (Nat.le_trans hle hstop), Nat.add_sub_cancel' hle] at hcall
  exact ⟨w, hcall, hitems⟩

end FixedVector

end Aarch64.Cxx
