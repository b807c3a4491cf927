import Aarch64.Cxx.FixedVector
import Mathlib.Logic.Function.Basic

/-!
# The storage of a bounded vector

`common/fixed_vector.h` on raw storage. A slot of `items_` holds an object or is raw
memory, and only placement and destruction change which. To build over a living object,
to touch a slot without one, and to leave the storage are undefined, and are `none`. The
templates of `cc/algorithm` work on the slots in place.
-/

namespace Aarch64.Cxx.FixedVector

variable {α : Type} {N : Nat}

/-- The objects in the slots. -/
abbrev Slots (α : Type) := Nat → Option α

namespace Slots

/-- Placement new. -/
def placeAt (N pos : Nat) (item : α) (s : Slots α) : Option (Slots α) :=
  if pos < N ∧ (s pos).isNone then some (Function.update s pos (some item)) else none

def destroyAt (pos : Nat) (s : Slots α) : Option (Slots α) :=
  if (s pos).isSome then some (Function.update s pos none) else none

/-- `*pos = item`, which needs an object to assign to. -/
def assignAt (pos : Nat) (item : α) (s : Slots α) : Option (Slots α) :=
  if (s pos).isSome then some (Function.update s pos (some item)) else none

/-- `iter_swap`. What `swap` moves out of the first element, it moves in at last. -/
def iterSwap (s : Slots α) (a b : Nat) : Option (Slots α) := do
  let tmp ← s a
  let y ← s b
  let s ← s.assignAt a y
  s.assignAt b tmp

/-- The loop of `reverse`, which decrements `last` in its condition. -/
def reverse (s : Slots α) (first last : Nat) : Option (Slots α) :=
  if first = last then some s
  else if last < first then none
  else if first = last - 1 then some s
  else do
    let s ← s.iterSwap first (last - 1)
    reverse s (first + 1) (last - 1)
termination_by last - first

def rotate (s : Slots α) (first middle last : Nat) : Option (Slots α × Nat) := do
  let s ← s.reverse first middle
  let s ← s.reverse middle last
  let s ← s.reverse first last
  return (s, last - (middle - first))

/-- A loop that places `count` copies, from `pos` on. -/
def placeRange (N : Nat) (item : α) : Nat → Nat → Slots α → Option (Slots α)
  | 0, _, s => some s
  | count + 1, pos, s => do
      let s ← s.placeAt N pos item
      placeRange N item count (pos + 1) s

/-- A loop that destroys `count` objects, from `pos` on. -/
def destroyRange : Nat → Nat → Slots α → Option (Slots α)
  | 0, _, s => some s
  | count + 1, pos, s => do
      let s ← s.destroyAt pos
      destroyRange count (pos + 1) s

/-- The slots that hold the elements of a list, in its order and from the first slot on. -/
def ofList (xs : List α) : Slots α := fun i => xs[i]?

/-! ## Slots with a list -/

variable {xs : List α}

theorem placeAt_ofList (h : xs.length < N) (item : α) :
    (ofList xs).placeAt N xs.length item = some (ofList (xs ++ [item])) := by
  have hnone : (ofList xs xs.length).isNone = true := by
    simp [ofList]
  rw [placeAt, if_pos ⟨h, hnone⟩]
  congr 1
  funext i
  by_cases hi : i = xs.length
  · subst hi
    rw [Function.update_self]
    simp [ofList]
  · rw [Function.update_of_ne hi]
    by_cases hlt : i < xs.length
    · simp [ofList, List.getElem?_append_left hlt]
    · have hout : xs.length ≤ i := Nat.le_of_not_lt hlt
      have hout' : (xs ++ [item]).length ≤ i := by
        rw [List.length_append, List.length_singleton]
        omega
      show xs[i]? = (xs ++ [item])[i]?
      rw [List.getElem?_eq_none hout, List.getElem?_eq_none hout']

theorem assignAt_ofList {i : Nat} (h : i < xs.length) (item : α) :
    (ofList xs).assignAt i item = some (ofList (xs.set i item)) := by
  have hsome : (ofList xs i).isSome = true := by
    simp [ofList, h]
  rw [assignAt, if_pos hsome]
  congr 1
  funext j
  by_cases hj : j = i
  · subst hj
    rw [Function.update_self]
    simp [ofList, h]
  · rw [Function.update_of_ne hj]
    simp [ofList, List.getElem?_set_ne (Ne.symm hj)]

@[simp] theorem iterSwap_ofList (xs : List α) (a b : Nat) :
    (ofList xs).iterSwap a b = (Cxx.iterSwap xs a b).map ofList := by
  rw [iterSwap, Cxx.iterSwap]
  change (xs[a]?.bind fun tmp => xs[b]?.bind fun y => _) = _
  cases hx : xs[a]? with
  | none => rfl
  | some x =>
      cases hy : xs[b]? with
      | none => rfl
      | some y =>
          have ha : a < xs.length := (List.getElem?_eq_some_iff.mp hx).1
          have hb : b < (xs.set a y).length := by
            rw [List.length_set]
            exact (List.getElem?_eq_some_iff.mp hy).1
          simp [assignAt_ofList ha, assignAt_ofList hb]

@[simp] theorem reverse_ofList (xs : List α) (first last : Nat) :
    (ofList xs).reverse first last = (Cxx.reverse xs first last).map ofList := by
  induction xs, first, last using Cxx.reverse.induct with
  | case1 xs first =>
      rw [reverse, Cxx.reverse, if_pos rfl, if_pos rfl]
      rfl
  | case2 xs first last hne hlt =>
      rw [reverse, Cxx.reverse, if_neg hne, if_neg hne, if_pos hlt, if_pos hlt]
      rfl
  | case3 xs last hne hnlt =>
      rw [reverse, Cxx.reverse, if_neg hne, if_neg hne, if_neg hnlt, if_neg hnlt, if_pos rfl,
        if_pos rfl]
      rfl
  | case4 xs first last hne hnlt hne' ih =>
      rw [reverse, Cxx.reverse, if_neg hne, if_neg hne, if_neg hnlt, if_neg hnlt, if_neg hne',
        if_neg hne', iterSwap_ofList]
      cases Cxx.iterSwap xs first (last - 1) with
      | none => rfl
      | some ys => exact ih ys

/-- The slots are rotated as the list is. -/
theorem rotate_ofList (xs : List α) (first middle last : Nat) :
    (ofList xs).rotate first middle last =
      (Cxx.rotate xs first middle last).map fun r => (ofList r.1, r.2) := by
  rw [rotate, Cxx.rotate, reverse_ofList]
  cases Cxx.reverse xs first middle with
  | none => rfl
  | some ys =>
      simp only [Option.map_some, Option.bind_eq_bind, Option.bind_some, reverse_ofList]
      cases Cxx.reverse ys middle last with
      | none => rfl
      | some zs =>
          simp only [Option.map_some, Option.bind_some, reverse_ofList]
          cases Cxx.reverse zs first last with
          | none => rfl
          | some ws => rfl

theorem placeRange_ofList (item : α) : ∀ (count : Nat) (xs : List α), xs.length + count ≤ N →
    placeRange N item count xs.length (ofList xs) =
      some (ofList (xs ++ List.replicate count item)) := by
  intro count
  induction count with
  | zero =>
      intro xs _
      rw [placeRange, List.replicate_zero, List.append_nil]
  | succ count ih =>
      intro xs hle
      have hlen : (xs ++ [item]).length = xs.length + 1 := List.length_append
      have hrest := ih (xs ++ [item]) (by omega)
      rw [hlen, List.append_assoc, List.singleton_append, ← List.replicate_succ] at hrest
      rw [placeRange, placeAt_ofList (by omega)]
      exact hrest

theorem destroyRange_eq : ∀ (count pos : Nat) (s : Slots α),
    (∀ i, pos ≤ i → i < pos + count → (s i).isSome = true) →
    destroyRange count pos s = some fun i => if pos ≤ i ∧ i < pos + count then none else s i := by
  intro count
  induction count with
  | zero =>
      intro pos s _
      rw [destroyRange]
      congr 1
      funext i
      rw [if_neg (by omega)]
  | succ count ih =>
      intro pos s hlive
      have hrest : ∀ i, pos + 1 ≤ i → i < pos + 1 + count →
          (Function.update s pos none i).isSome = true := by
        intro i hge hlt
        rw [Function.update_of_ne (by omega)]
        exact hlive i (by omega) (by omega)
      rw [destroyRange, destroyAt, if_pos (hlive pos (Nat.le_refl _) (by omega))]
      refine (ih (pos + 1) _ hrest).trans ?_
      congr 1
      funext i
      by_cases hi : i = pos
      · subst hi
        rw [Function.update_self, ite_self, if_pos (by omega)]
      · rw [Function.update_of_ne hi]
        congr 1
        exact propext (by omega)

/-- To destroy the last elements leaves the first. -/
theorem destroyRange_ofList {count pos : Nat} (h : pos + count = xs.length) :
    destroyRange count pos (ofList xs) = some (ofList (xs.take pos)) := by
  have hlive : ∀ i, pos ≤ i → i < pos + count → (ofList xs i).isSome = true := by
    intro i _ hlt
    have hi : i < xs.length := by omega
    simp [ofList, hi]
  rw [destroyRange_eq count pos _ hlive]
  congr 1
  funext i
  simp only [ofList, List.getElem?_take]
  by_cases hlt : i < pos
  · rw [if_neg (by omega), if_pos hlt]
  · rw [if_neg hlt]
    split
    next => rfl
    next hout => exact List.getElem?_eq_none (by omega)

end Slots

/-! ## The vector -/

/-- `FixedVector`: the slots and the number of elements. -/
structure Storage (α : Type) (N : Nat) where
  items : Slots α
  size : Nat

namespace Storage

/-- The constructor leaves the slots raw. -/
def new : Storage α N := ⟨fun _ => none, 0⟩

def clear (v : Storage α N) : Option (Storage α N) := do
  let items ← v.items.destroyRange v.size 0
  return ⟨items, 0⟩

def assign (v : Storage α N) (count : Nat) (item : α) : Option (Bool × Storage α N) :=
  if count > N then some (false, v)
  else do
    let v ← v.clear
    let items ← v.items.placeRange N item count 0
    return (true, ⟨items, count⟩)

/-- `PlaceAt(&items_[size_++], item)` -/
def placeBack (v : Storage α N) (item : α) : Option (Storage α N) := do
  let items ← v.items.placeAt N v.size item
  return ⟨items, v.size + 1⟩

def pushBack (v : Storage α N) (item : α) : Option (Bool × Storage α N) :=
  if v.size = N then some (false, v)
  else do
    let v ← v.placeBack item
    return (true, v)

/-- `EmplaceBack`: the element is what the arguments construct. -/
def emplaceBack {β : Type} (v : Storage α N) (construct : β → α) (args : β) :
    Option (Bool × Storage α N) :=
  if v.size = N then some (false, v)
  else do
    let v ← v.placeBack (construct args)
    return (true, v)

def insert (v : Storage α N) (pos : Nat) (item : α) : Option (Bool × Storage α N) :=
  if v.size = N then some (false, v)
  else do
    let v ← v.placeBack item
    let r ← v.items.rotate pos (v.size - 1) v.size
    return (true, ⟨r.1, v.size⟩)

/-- `Erase` of a range: the position of the first element after it. -/
def erase (v : Storage α N) (begin stop : Nat) : Option (Nat × Storage α N) := do
  let count := stop - begin
  let r ← v.items.rotate begin (begin + count) v.size
  let items ← r.1.destroyRange count (v.size - count)
  return (begin, ⟨items, v.size - count⟩)

def popBack (v : Storage α N) : Option (Bool × Storage α N) :=
  if v.size = 0 then some (false, v)
  else do
    let items ← v.items.destroyAt (v.size - 1)
    return (true, ⟨items, v.size - 1⟩)

def resize (v : Storage α N) (size : Nat) (value : α) : Option (Bool × Storage α N) :=
  if size > N then some (false, v)
  else if size > v.size then do
    let items ← v.items.placeRange N value (size - v.size) v.size
    return (true, ⟨items, size⟩)
  else do
    let items ← v.items.destroyRange (v.size - size) size
    return (true, ⟨items, size⟩)

/-! ## Storage with a list -/

/-- The storage of the elements of a list. -/
def ofList (N : Nat) (xs : List α) : Storage α N := ⟨Slots.ofList xs, xs.length⟩

@[simp] theorem items_ofList (xs : List α) : (ofList N xs).items = Slots.ofList xs := rfl
@[simp] theorem size_ofList (xs : List α) : (ofList N xs).size = xs.length := rfl

@[simp] theorem ofList_nil : ofList N ([] : List α) = new := rfl

variable {xs : List α}

theorem ofList_append (xs ys : List α) :
    ofList N (xs ++ ys) = ⟨Slots.ofList (xs ++ ys), xs.length + ys.length⟩ := by
  rw [ofList, List.length_append]

@[simp] theorem clear_ofList (xs : List α) : (ofList N xs).clear = some (ofList N []) := by
  have hdestroy := Slots.destroyRange_ofList (Nat.zero_add xs.length)
  rw [clear, items_ofList, size_ofList, hdestroy, List.take_zero]
  rfl

theorem assign_ofList {count : Nat} (h : count ≤ N) (item : α) :
    (ofList N xs).assign count item = some (true, ofList N (List.replicate count item)) := by
  have hplace := Slots.placeRange_ofList (N := N) item count []
    (by rwa [List.length_nil, Nat.zero_add])
  rw [assign, if_neg (Nat.not_lt_of_le h), clear_ofList]
  simp only [Option.bind_eq_bind, Option.bind_some, items_ofList]
  rw [List.length_nil, List.nil_append] at hplace
  rw [hplace, ofList, List.length_replicate]
  rfl

theorem placeBack_ofList (h : xs.length < N) (item : α) :
    (ofList N xs).placeBack item = some (ofList N (xs ++ [item])) := by
  rw [placeBack, items_ofList, size_ofList, Slots.placeAt_ofList h, ofList_append]
  rfl

theorem pushBack_ofList (h : xs.length < N) (item : α) :
    (ofList N xs).pushBack item = some (true, ofList N (xs ++ [item])) := by
  rw [pushBack, size_ofList, if_neg (Nat.ne_of_lt h), placeBack_ofList h]
  rfl

@[simp] theorem emplaceBack_eq_pushBack {β : Type} (v : Storage α N) (construct : β → α) (args : β) :
    v.emplaceBack construct args = v.pushBack (construct args) := rfl

/-- The new element is placed last and rotated to its place. -/
theorem insert_append (pre post : List α) (h : (pre ++ post).length < N) (item : α) :
    (ofList N (pre ++ post)).insert pre.length item =
      some (true, ofList N (pre ++ item :: post)) := by
  have hrot := rotate_spec pre post [item] []
  have hend : (pre ++ post ++ [item]).length = pre.length + post.length + 1 := by
    rw [List.length_append, List.length_append, List.length_singleton]
  have hlen : (pre ++ item :: post).length = pre.length + post.length + 1 := by
    rw [List.length_append, List.length_cons, Nat.add_assoc]
  rw [List.append_nil, List.append_nil, List.length_singleton, ← List.append_assoc] at hrot
  rw [insert, size_ofList, if_neg (Nat.ne_of_lt h), placeBack_ofList h]
  simp only [Option.bind_eq_bind, Option.bind_some, items_ofList, size_ofList, hend,
    Nat.add_sub_cancel, Slots.rotate_ofList, hrot, Option.map_some]
  rw [ofList, hlen]
  rfl

/-- The erased elements are rotated to the end and destroyed there. -/
theorem erase_append (pre mid post : List α) :
    (ofList N (pre ++ (mid ++ post))).erase pre.length (pre.length + mid.length) =
      some (pre.length, ofList N (pre ++ post)) := by
  have hrot := rotate_spec pre mid post []
  have hcount : pre.length + mid.length - pre.length = mid.length := Nat.add_sub_cancel_left _ _
  have hend : (pre ++ (mid ++ post)).length = pre.length + mid.length + post.length := by
    rw [List.length_append, List.length_append, Nat.add_assoc]
  have hleft : pre.length + mid.length + post.length - mid.length = (pre ++ post).length := by
    rw [List.length_append]
    omega
  have hsum : (pre ++ post).length + mid.length = (pre ++ (post ++ mid)).length := by
    simp only [List.length_append, Nat.add_assoc]
  have hdestroy := Slots.destroyRange_ofList hsum
  rw [← List.append_assoc, List.take_left] at hdestroy
  rw [List.append_nil, List.append_nil] at hrot
  rw [erase, items_ofList, size_ofList, hcount, hend, Slots.rotate_ofList, hrot]
  simp only [Option.bind_eq_bind, Option.bind_some, Option.map_some, hleft]
  rw [← List.append_assoc, hdestroy]
  rfl

theorem insert_ofList {pos : Nat} (hpos : pos ≤ xs.length) (h : xs.length < N) (item : α) :
    (ofList N xs).insert pos item = some (true, ofList N (xs.take pos ++ item :: xs.drop pos)) := by
  have hsplit : xs.take pos ++ xs.drop pos = xs := List.take_append_drop pos xs
  have hinsert := insert_append (N := N) (xs.take pos) (xs.drop pos) (by rwa [hsplit]) item
  rwa [hsplit, List.length_take_of_le hpos] at hinsert

theorem erase_ofList {begin stop : Nat} (hle : begin ≤ stop) (hstop : stop ≤ xs.length) :
    (ofList N xs).erase begin stop = some (begin, ofList N (xs.take begin ++ xs.drop stop)) := by
  have herase := erase_append (N := N) (xs.take begin) ((xs.drop begin).take (stop - begin))
    (xs.drop stop)
  have hdrop : (xs.drop begin).drop (stop - begin) = xs.drop stop := by
    rw [List.drop_drop, Nat.add_sub_cancel' hle]
  have hlen : ((xs.drop begin).take (stop - begin)).length = stop - begin := by
    rw [List.length_take, List.length_drop]
    omega
  rwa [← hdrop, List.take_append_drop, List.take_append_drop, hdrop, hlen,
    List.length_take_of_le (Nat.le_trans hle hstop), Nat.add_sub_cancel' hle] at herase

theorem popBack_ofList (h : xs ≠ []) :
    (ofList N xs).popBack = some (true, ofList N xs.dropLast) := by
  have hpos : 0 < xs.length := List.length_pos_iff.mpr h
  have hdestroy : (Slots.ofList xs).destroyAt (xs.length - 1) =
      some (Slots.ofList (xs.take (xs.length - 1))) := by
    have hrange := Slots.destroyRange_ofList (Nat.sub_add_cancel hpos)
    simpa [Slots.destroyRange] using hrange
  rw [popBack, size_ofList, if_neg (Nat.ne_of_gt hpos), items_ofList, hdestroy,
    List.dropLast_eq_take, ofList, List.length_take_of_le (Nat.sub_le _ _)]
  rfl

theorem resize_ofList {size : Nat} (h : size ≤ N) (value : α) :
    (ofList N xs).resize size value =
      some (true, ofList N (xs.take size ++ List.replicate (size - xs.length) value)) := by
  rw [resize, size_ofList, items_ofList, if_neg (Nat.not_lt_of_le h)]
  by_cases hgrow : size > xs.length
  · have hsum : xs.length + (size - xs.length) = size := Nat.add_sub_cancel' (Nat.le_of_lt hgrow)
    rw [if_pos hgrow, Slots.placeRange_ofList value _ xs (by rwa [hsum]),
      List.take_of_length_le (Nat.le_of_lt hgrow), ofList_append, List.length_replicate, hsum]
    rfl
  · have hle : size ≤ xs.length := Nat.le_of_not_lt hgrow
    rw [if_neg hgrow, Slots.destroyRange_ofList (Nat.add_sub_cancel' hle),
      Nat.sub_eq_zero_of_le hle, List.replicate_zero, List.append_nil, ofList, List.length_take_of_le hle]
    rfl

/-- A call that finds the vector full changes nothing. -/
theorem full_ofList (h : xs.length = N) (item : α) (pos : Nat) :
    (ofList N xs).pushBack item = some (false, ofList N xs) ∧
      (ofList N xs).insert pos item = some (false, ofList N xs) :=
  ⟨if_pos h, if_pos h⟩

/-! ## The vector of the memory map

The model of the vector as a list stands for this storage. -/

theorem ofList_insert (v : FixedVector α N) (pos : Nat) (item : α) :
    (ofList N v.items).insert pos item =
      (v.insert pos item).map fun r => (r.1, ofList N r.2.items) := by
  by_cases hfull : v.size = N
  · rw [insert_full hfull]
    exact if_pos hfull
  · have hlt : v.items.length < N := Nat.lt_of_le_of_ne v.fits hfull
    have hlen : (v.items ++ [item]).length = v.size + 1 := List.length_append
    rw [Storage.insert, size_ofList, if_neg (Nat.ne_of_lt hlt), placeBack_ofList hlt]
    simp only [Option.bind_eq_bind, Option.bind_some, items_ofList, size_ofList, hlen,
      Nat.add_sub_cancel, Slots.rotate_ofList]
    rw [FixedVector.insert, dif_neg hfull]
    split
    next hrot =>
      rw [hrot]
      rfl
    next items pos' hrot =>
      have hitems : items.length = v.size + 1 := (length_rotate hrot).trans hlen
      simp [hrot, ofList, hitems]

theorem ofList_erase (v : FixedVector α N) {begin stop : Nat} (hle : begin ≤ stop)
    (hstop : stop ≤ v.size) :
    (ofList N v.items).erase begin stop =
      (v.erase begin stop).map fun r => (r.1, ofList N r.2.items) := by
  obtain ⟨w, hw, hitems⟩ := exists_erase hle hstop
  rw [erase_ofList hle hstop, hw, Option.map_some, hitems]

end Storage

end Aarch64.Cxx.FixedVector
