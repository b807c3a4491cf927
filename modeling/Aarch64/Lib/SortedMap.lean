import Mathlib.Data.List.Basic
import Mathlib.Data.List.Perm.Basic

/-!
# Maps as sorted association lists

An ordered map is the list of its entries by ascending key, which is also the order in
which it is iterated. Keys are found with `List.lookup`.
-/

namespace SortedMap

variable {K V : Type}

theorem lookup_cons [BEq K] [LawfulBEq K] [DecidableEq K] (e : K × V) (m : List (K × V)) (k : K) :
    (e :: m).lookup k = if k = e.1 then some e.2 else m.lookup k := by
  rw [List.lookup_cons]
  by_cases h : k = e.1
  · rw [if_pos h, beq_iff_eq.mpr h]
  · rw [if_neg h, beq_eq_false_iff_ne.mpr h]

theorem lookup_eq_none_of_fresh [BEq K] [LawfulBEq K] {k : K} {m : List (K × V)}
    (h : ∀ v, (k, v) ∉ m) : m.lookup k = none := by
  rw [List.lookup_eq_none_iff]
  intro e he
  rw [bne_iff_ne]
  rintro rfl
  exact h e.2 he

variable [Ord K]

/-- The keys ascend. -/
def Sorted (m : List (K × V)) : Prop := m.Pairwise fun e f => compare e.1 f.1 = .lt

/-- Bind `k` to `v`, in place of what it was bound to. -/
def insert (k : K) (v : V) : List (K × V) → List (K × V)
  | [] => [(k, v)]
  | e :: m =>
      match compare k e.1 with
      | .lt => (k, v) :: e :: m
      | .eq => (k, v) :: m
      | .gt => e :: insert k v m

theorem Sorted.nil : Sorted ([] : List (K × V)) := List.Pairwise.nil

theorem mem_insert {k : K} {v : V} {e : K × V} {m : List (K × V)} (h : e ∈ insert k v m) :
    e = (k, v) ∨ e ∈ m := by
  induction m with
  | nil => exact Or.inl (List.mem_singleton.mp h)
  | cons f m ih =>
      rw [insert] at h
      split at h
      next => exact List.mem_cons.mp h
      next =>
        rcases List.mem_cons.mp h with h | h
        · exact Or.inl h
        · exact Or.inr (List.mem_cons_of_mem f h)
      next =>
        rcases List.mem_cons.mp h with rfl | h
        · exact Or.inr List.mem_cons_self
        · exact (ih h).imp_right (List.mem_cons_of_mem f)

variable [Std.TransOrd K]

theorem Sorted.insert {m : List (K × V)} (hm : Sorted m) (k : K) (v : V) :
    Sorted (insert k v m) := by
  induction m with
  | nil => exact List.pairwise_singleton _ _
  | cons e m ih =>
      obtain ⟨he, hm⟩ := List.pairwise_cons.mp hm
      rw [SortedMap.insert]
      split
      next hlt =>
        refine List.pairwise_cons.mpr ⟨?_, List.pairwise_cons.mpr ⟨he, hm⟩⟩
        intro f hf
        rcases List.mem_cons.mp hf with rfl | hf
        · exact hlt
        · exact Std.TransCmp.lt_trans hlt (he f hf)
      next heq =>
        exact List.pairwise_cons.mpr ⟨fun f hf => Std.TransCmp.lt_of_eq_of_lt heq (he f hf), hm⟩
      next hgt =>
        refine List.pairwise_cons.mpr ⟨fun f hf => ?_, ih hm⟩
        rcases mem_insert hf with rfl | hf
        · exact Std.OrientedCmp.lt_of_gt hgt
        · exact he f hf

theorem compare_ne_lt (k : K) : compare k k ≠ .lt := by
  rw [Std.compare_self]
  exact fun h => by cases h

theorem Sorted.nodup {m : List (K × V)} (hm : Sorted m) : m.Nodup := by
  refine hm.imp fun {e f} hlt heq => ?_
  rw [heq] at hlt
  exact compare_ne_lt _ hlt

section Lookup

variable [BEq K] [LawfulBEq K] [DecidableEq K]

theorem lookup_eq_none_of_lt {k : K} {m : List (K × V)} (h : ∀ e ∈ m, compare k e.1 = .lt) :
    m.lookup k = none := by
  induction m with
  | nil => rfl
  | cons e m ih =>
      have hne : k ≠ e.1 := by
        rintro rfl
        exact compare_ne_lt _ (h e List.mem_cons_self)
      rw [lookup_cons, if_neg hne]
      exact ih fun f hf => h f (List.mem_cons_of_mem e hf)

/-- What is found is what is stored. -/
theorem mem_iff_lookup {m : List (K × V)} (hm : Sorted m) {k : K} {v : V} :
    (k, v) ∈ m ↔ m.lookup k = some v := by
  induction m with
  | nil => simp
  | cons e m ih =>
      obtain ⟨he, hm⟩ := List.pairwise_cons.mp hm
      rw [List.mem_cons, lookup_cons]
      by_cases h : k = e.1
      · subst h
        have hnone := lookup_eq_none_of_lt he
        have hout : (e.1, v) ∉ m := fun hmem => by
          rw [(ih hm).mp hmem] at hnone
          cases hnone
        rw [if_pos rfl, Option.some.injEq]
        refine ⟨fun h => (h.resolve_right hout) ▸ rfl, ?_⟩
        rintro rfl
        exact Or.inl rfl
      · have hne : (k, v) ≠ e := fun heq => h (congrArg Prod.fst heq)
        simp only [hne, false_or, ih hm, if_neg h]

/-- Maps that agree on every key are the same. -/
theorem Sorted.ext {m m' : List (K × V)} (hm : Sorted m) (hm' : Sorted m')
    (h : ∀ k, m.lookup k = m'.lookup k) : m = m' := by
  have hmem : ∀ e, e ∈ m ↔ e ∈ m' := by
    rintro ⟨k, v⟩
    rw [mem_iff_lookup hm, mem_iff_lookup hm', h]
  have hperm : m.Perm m' := (List.perm_ext_iff_of_nodup hm.nodup hm'.nodup).mpr hmem
  refine hperm.eq_of_pairwise (fun e f _ _ hlt hgt => ?_) hm hm'
  exact absurd (Std.TransCmp.lt_trans hlt hgt) (compare_ne_lt _)

variable [Std.LawfulEqOrd K]

omit [Std.TransOrd K] in
theorem lookup_insert (m : List (K × V)) (k : K) (v : V) (k' : K) :
    (insert k v m).lookup k' = if k' = k then some v else m.lookup k' := by
  induction m with
  | nil => exact lookup_cons ..
  | cons e m ih =>
      rw [insert]
      split
      next hlt => exact lookup_cons ..
      next heq =>
        obtain rfl : k = e.1 := Std.LawfulEqCmp.eq_of_compare heq
        rw [lookup_cons, lookup_cons]
        by_cases h : k' = e.1
        · rw [if_pos h, if_pos h]
        · rw [if_neg h, if_neg h, if_neg h]
      next hgt =>
        have hne : e.1 ≠ k := by
          rintro rfl
          rw [Std.compare_self] at hgt
          cases hgt
        rw [lookup_cons, lookup_cons, ih]
        by_cases h : k' = e.1
        · rw [if_pos h, if_pos h, if_neg (h ▸ hne)]
        · rw [if_neg h, if_neg h]

end Lookup

end SortedMap
