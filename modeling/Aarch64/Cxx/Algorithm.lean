import Mathlib.Data.List.Basic

/-!
# `<algorithm>` of the C++ library

The templates of `cc/algorithm` on an array. Iterators are indices into the list
of elements; an access out of range, or a `last` that runs below `first`, is
undefined and is `none`. `reverse` swaps the two ends and moves inwards, `rotate`
is three reversals.
-/

namespace Aarch64.Cxx

variable {α : Type}

def iterSwap (xs : List α) (a b : Nat) : Option (List α) := do
  let x ← xs[a]?
  let y ← xs[b]?
  return (xs.set a y).set b x

/-- The loop of `reverse`, which decrements `last` in its condition. -/
def reverse (xs : List α) (first last : Nat) : Option (List α) :=
  if first = last then some xs
  else if last < first then none
  else if first = last - 1 then some xs
  else do
    let xs ← iterSwap xs first (last - 1)
    reverse xs (first + 1) (last - 1)
termination_by last - first

/-- The first index whose element is not `less`, or `last` when there is none. -/
def lowerBound (xs : List α) (less : α → Bool) : Nat := xs.findIdx fun x => !less x

/-- The first index for whose element `greater` holds, or `last`. -/
def upperBound (xs : List α) (greater : α → Bool) : Nat := xs.findIdx greater

def rotate (xs : List α) (first middle last : Nat) : Option (List α × Nat) := do
  let xs ← reverse xs first middle
  let xs ← reverse xs middle last
  let xs ← reverse xs first last
  return (xs, last - (middle - first))

/-! ## Reversing and rotating a part of a list -/

theorem iterSwap_spec (pre mid post : List α) (a b : α) :
    iterSwap (pre ++ a :: (mid ++ b :: post)) pre.length (pre.length + 1 + mid.length) =
      some (pre ++ b :: (mid ++ a :: post)) := by
  have hb : (pre ++ a :: (mid ++ b :: post))[pre.length + 1 + mid.length]? = some b := by
    rw [List.getElem?_append_right (by omega)]
    have hsub : pre.length + 1 + mid.length - pre.length = mid.length + 1 := by omega
    simp [hsub]
  have hset : (pre ++ b :: (mid ++ b :: post)).set (pre.length + 1 + mid.length) a =
      pre ++ b :: (mid ++ a :: post) := by
    have hsub : pre.length + 1 + mid.length - pre.length = mid.length + 1 := by omega
    rw [List.set_append_right _ _ (by omega), hsub, List.set_cons_succ,
      List.set_append_right _ _ (Nat.le_refl _), Nat.sub_self, List.set_cons_zero]
  simp [iterSwap, hb, hset]

/-- The two ends are swapped, so the induction takes two elements off the part
that is reversed. -/
theorem reverse_spec (n : Nat) : ∀ (pre mid post : List α), mid.length ≤ n →
    reverse (pre ++ (mid ++ post)) pre.length (pre.length + mid.length) =
      some (pre ++ (mid.reverse ++ post)) := by
  induction n using Nat.strongRecOn with
  | _ n ih =>
      intro pre mid post hn
      rw [reverse]
      cases mid with
      | nil => simp
      | cons a rest =>
          rcases List.eq_nil_or_concat rest with rfl | ⟨inner, b, rfl⟩
          · simp
          · rw [List.concat_eq_append] at hn ⊢
            have hlen : (a :: (inner ++ [b])).length = inner.length + 2 := by simp
            have hlast : pre.length + (a :: (inner ++ [b])).length - 1 =
                pre.length + 1 + inner.length := by omega
            have hswap := iterSwap_spec pre inner post a b
            have hinner := ih (n - 1) (by omega) (pre ++ [b]) inner (a :: post) (by omega)
            simp only [List.length_append, List.length_singleton, List.append_assoc,
              List.singleton_append] at hinner
            rw [if_neg (by omega), if_neg (by omega), if_neg (by omega), hlast]
            simp [hswap, hinner]

/-- The elements from `middle` on come before those from `first` to `middle`. -/
theorem rotate_spec (pre left right post : List α) :
    rotate (pre ++ (left ++ (right ++ post))) pre.length (pre.length + left.length)
        (pre.length + left.length + right.length) =
      some (pre ++ (right ++ (left ++ post)), pre.length + right.length) := by
  have hleft := reverse_spec _ pre left (right ++ post) (Nat.le_refl _)
  have hright := reverse_spec _ (pre ++ left.reverse) right post (Nat.le_refl _)
  have hboth := reverse_spec _ pre (left.reverse ++ right.reverse) post (Nat.le_refl _)
  simp only [List.length_append, List.length_reverse, List.append_assoc, List.reverse_append,
    List.reverse_reverse, ← Nat.add_assoc] at hright hboth
  simp only [rotate, hleft, hright, hboth, Option.bind_eq_bind, Option.bind_some]
  congr 2
  omega

end Aarch64.Cxx
