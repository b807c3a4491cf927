import Mathlib.Data.List.Pairwise
import Mathlib.Data.Set.Card
import Mathlib.Data.Set.Lattice
import Mathlib.Order.CompletePartialOrder
import Mathlib.Order.Interval.Finset.Nat

/-!
# Disjoint intervals of natural numbers

An interval is given by its start and its size. Disjoint intervals have as many
elements together as their sizes say, so intervals below a bound have no more room
than the bound.
-/

namespace Packing

/-- The elements of an interval. -/
def cells (i : Nat × Nat) : Set Nat := Set.Ico i.1 (i.1 + i.2)

theorem finite_cells (i : Nat × Nat) : (cells i).Finite := Set.finite_Ico ..

theorem ncard_cells (i : Nat × Nat) : (cells i).ncard = i.2 := by
  rw [cells, ← Finset.coe_Ico, Set.ncard_coe_finset, Nat.card_Ico, Nat.add_sub_cancel_left]

/-- Two intervals of positive size are disjoint when one ends before the other. -/
theorem disjoint_of_apart {i j : Nat × Nat} (h : i.1 + i.2 ≤ j.1 ∨ j.1 + j.2 ≤ i.1) :
    Disjoint (cells i) (cells j) := by
  rw [Set.disjoint_left]
  rintro p ⟨hi, hi'⟩ ⟨hj, hj'⟩
  omega

theorem apart_of_disjoint {i j : Nat × Nat} (hi : 0 < i.2) (hj : 0 < j.2)
    (h : Disjoint (cells i) (cells j)) : i.1 + i.2 ≤ j.1 ∨ j.1 + j.2 ≤ i.1 := by
  by_contra hover
  have hboth : ¬ (max i.1 j.1 ∈ cells i ∧ max i.1 j.1 ∈ cells j) :=
    fun hmem => Set.disjoint_left.mp h hmem.1 hmem.2
  exact hboth ⟨⟨by omega, by omega⟩, ⟨by omega, by omega⟩⟩

/-- The elements of disjoint intervals, counted. -/
theorem ncard_of_pairwise_disjoint : ∀ intervals : List (Nat × Nat),
    (intervals.Pairwise fun i j => Disjoint (cells i) (cells j)) →
    {p | ∃ i ∈ intervals, p ∈ cells i}.Finite ∧
      {p | ∃ i ∈ intervals, p ∈ cells i}.ncard = (intervals.map Prod.snd).sum := by
  intro intervals
  induction intervals with
  | nil =>
      intro _
      have hempty : {p | ∃ i ∈ ([] : List (Nat × Nat)), p ∈ cells i} = ∅ := by
        ext p
        simp
      rw [hempty]
      exact ⟨Set.finite_empty, Set.ncard_empty _⟩
  | cons i rest ih =>
      intro h
      obtain ⟨hhead, htail⟩ := List.pairwise_cons.mp h
      obtain ⟨hfinite, hcard⟩ := ih htail
      have hunion : {p | ∃ j ∈ i :: rest, p ∈ cells j} =
          cells i ∪ {p | ∃ j ∈ rest, p ∈ cells j} := by
        ext p
        simp
      have hdisjoint : Disjoint (cells i) {p | ∃ j ∈ rest, p ∈ cells j} := by
        rw [Set.disjoint_left]
        rintro p hp ⟨j, hj, hpj⟩
        exact Set.disjoint_left.mp (hhead j hj) hp hpj
      rw [hunion]
      refine ⟨(finite_cells i).union hfinite, ?_⟩
      rw [Set.ncard_union_eq hdisjoint (finite_cells i) hfinite, ncard_cells, hcard,
        List.map_cons, List.sum_cons]

/-- Disjoint intervals of one size below a bound. -/
theorem length_mul_le {size bound : Nat} {starts : List Nat}
    (hapart : starts.Pairwise fun p q => p + size ≤ q ∨ q + size ≤ p)
    (hbound : ∀ p ∈ starts, p + size ≤ bound) : size * starts.length ≤ bound := by
  have hdisjoint : (starts.map fun p => (p, size)).Pairwise
      fun i j => Disjoint (cells i) (cells j) := by
    rw [List.pairwise_map]
    exact hapart.imp disjoint_of_apart
  obtain ⟨_, hcard⟩ := ncard_of_pairwise_disjoint _ hdisjoint
  have hsum : ((starts.map fun p => (p, size)).map Prod.snd).sum = size * starts.length := by
    rw [List.map_map, Function.comp_def, List.map_const', List.sum_replicate, Nat.mul_comm]
    rfl
  rw [← hsum, ← hcard]
  calc _ ≤ (cells (0, bound)).ncard := Set.ncard_le_ncard ?_ (finite_cells _)
    _ = bound := ncard_cells _
  rintro p ⟨i, hi, hp⟩
  obtain ⟨q, hq, rfl⟩ := List.mem_map.mp hi
  have hend := hbound q hq
  have hlt : p < q + size := hp.2
  refine ⟨Nat.zero_le _, ?_⟩
  change p < 0 + bound
  omega

end Packing
