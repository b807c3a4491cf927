import Mathlib.Data.Nat.Bitwise
import Mathlib.Order.Interval.Set.Basic
import Mathlib.Data.Set.Lattice
import Mathlib.Data.Set.Pairwise.Basic
import Mathlib.Order.Bounds.Basic
import Mathlib.Order.BourbakiWitt
import Mathlib.Order.CompletePartialOrder
import Mathlib.Tactic.Ring

/-!
# Dyadic blocks of natural numbers

A block of level `l` is a run of `2 ^ l` consecutive numbers. It is aligned when
it starts at a multiple of its size. Two aligned blocks are either nested or
disjoint, and an aligned block of level `l + 1` splits into exactly two aligned
blocks of level `l`, which are each other's buddies. The start of the buddy is
the exclusive or of the start with the size, so no case split on the parity is
left to the users of this module.
-/

namespace Dyadic

/-- The numbers `index, ..., index + 2 ^ level - 1`. -/
structure Block where
  index : Nat
  level : Nat
  deriving DecidableEq, Repr

namespace Block

def size (b : Block) : Nat := 2 ^ b.level

def pages (b : Block) : Set Nat := Set.Ico b.index (b.index + 2 ^ b.level)

def Aligned (b : Block) : Prop := 2 ^ b.level ∣ b.index

instance (b : Block) : Decidable b.Aligned := inferInstanceAs (Decidable (_ ∣ _))

/-- The other half of the aligned block of the next level. -/
def buddy (b : Block) : Block := ⟨b.index ^^^ 2 ^ b.level, b.level⟩

/-- The aligned block of the next level that contains this one. -/
def parent (b : Block) : Block := ⟨min b.index (b.index ^^^ 2 ^ b.level), b.level + 1⟩

@[simp] theorem buddy_level (b : Block) : b.buddy.level = b.level := rfl
@[simp] theorem parent_level (b : Block) : b.parent.level = b.level + 1 := rfl

theorem size_pos (b : Block) : 0 < b.size := Nat.two_pow_pos _

@[simp] theorem mem_pages {b : Block} {p : Nat} :
    p ∈ b.pages ↔ b.index ≤ p ∧ p < b.index + 2 ^ b.level := Iff.rfl

theorem index_mem (b : Block) : b.index ∈ b.pages :=
  ⟨Nat.le_refl _, Nat.lt_add_of_pos_right (Nat.two_pow_pos _)⟩

/-- A block that covers another is at least as large. -/
theorem level_le_of_subset {a b : Block} (h : a.pages ⊆ b.pages) : a.level ≤ b.level := by
  have hpos := Nat.two_pow_pos a.level
  have hfirst := h a.index_mem
  have hlast : a.index + 2 ^ a.level - 1 ∈ b.pages := h ⟨by omega, by omega⟩
  rw [mem_pages] at hfirst hlast
  exact (Nat.pow_le_pow_iff_right (by decide : 1 < 2)).mp (by omega)

namespace Aligned

variable {a b : Block}

theorem div_mul (h : b.Aligned) : b.index / 2 ^ b.level * 2 ^ b.level = b.index :=
  Nat.div_mul_cancel h

/-- Membership in an aligned block is one equation between quotients. -/
theorem mem_iff_div {p : Nat} (h : b.Aligned) :
    p ∈ b.pages ↔ p / 2 ^ b.level = b.index / 2 ^ b.level := by
  have hpos : 0 < 2 ^ b.level := Nat.two_pow_pos _
  rw [mem_pages, Nat.div_eq_iff hpos, h.div_mul]
  omega

/-- Two overlapping aligned blocks are nested, the lower level inside. -/
theorem nested {p : Nat} (ha : a.Aligned) (hb : b.Aligned) (hle : a.level ≤ b.level)
    (hpa : p ∈ a.pages) (hpb : p ∈ b.pages) : a.pages ⊆ b.pages := by
  intro q hq
  rw [hb.mem_iff_div] at hpb ⊢
  rw [ha.mem_iff_div] at hpa hq
  obtain ⟨d, hd⟩ := Nat.exists_eq_add_of_le hle
  rw [hd, Nat.pow_add, ← Nat.div_div_eq_div_mul] at hpb ⊢
  rw [hq, ← hpa, hpb]

theorem eq_of_level_eq {p : Nat} (ha : a.Aligned) (hb : b.Aligned)
    (hlevel : a.level = b.level) (hpa : p ∈ a.pages) (hpb : p ∈ b.pages) : a = b := by
  rw [ha.mem_iff_div] at hpa
  rw [hb.mem_iff_div, ← hlevel] at hpb
  have hindex : a.index = b.index := by
    rw [← ha.div_mul, ← hb.div_mul, ← hlevel, ← hpa, ← hpb]
  cases a
  cases b
  simp_all

theorem eq_of_subset (ha : a.Aligned) (hb : b.Aligned) (hle : b.level ≤ a.level)
    (hsub : a.pages ⊆ b.pages) : a = b :=
  ha.eq_of_level_eq hb (Nat.le_antisymm (level_le_of_subset hsub) hle) a.index_mem
    (hsub a.index_mem)

theorem disjoint_of_level_eq (ha : a.Aligned) (hb : b.Aligned)
    (hlevel : a.level = b.level) (hne : a ≠ b) : Disjoint a.pages b.pages := by
  rw [Set.disjoint_left]
  intro p hpa hpb
  exact hne (ha.eq_of_level_eq hb hlevel hpa hpb)

/-- Aligned starts below a block's end leave room for the whole block. -/
theorem dvd_end (h : b.Aligned) : 2 ^ b.level ∣ b.index + 2 ^ b.level :=
  (Nat.dvd_add_right h).mpr (Nat.dvd_refl _)

end Aligned

/-! ## Buddies -/

private theorem mul_pow_xor (q l : Nat) : q * 2 ^ l ^^^ 2 ^ l = (q ^^^ 1) * 2 ^ l := by
  rw [← Nat.shiftLeft_eq, ← Nat.shiftLeft_eq, Nat.shiftLeft_xor_distrib, Nat.one_shiftLeft]

/-- The buddy of a left half starts right after it, the buddy of a right half
right before it. -/
theorem buddy_index_cases {b : Block} (h : b.Aligned) :
    (2 ^ (b.level + 1) ∣ b.index ∧ b.buddy.index = b.index + 2 ^ b.level) ∨
      (2 ^ (b.level + 1) ∣ b.buddy.index ∧ b.index = b.buddy.index + 2 ^ b.level) := by
  obtain ⟨q, hq⟩ := h
  have hxor : b.buddy.index = (q ^^^ 1) * 2 ^ b.level := by
    rw [← mul_pow_xor, Nat.mul_comm, ← hq]
    rfl
  rcases Nat.even_or_odd q with heven | hodd
  · left
    obtain ⟨k, rfl⟩ := heven
    refine ⟨⟨k, by rw [hq, Nat.pow_succ]; ring⟩, ?_⟩
    rw [hxor, Nat.xor_one_of_even (Nat.even_add.mpr Iff.rfl), hq]
    ring
  · right
    have hsub := Nat.xor_one_of_odd hodd
    obtain ⟨k, rfl⟩ := hodd
    rw [hsub] at hxor
    refine ⟨⟨k, by rw [hxor, Nat.pow_succ, Nat.add_sub_cancel]; ring⟩, ?_⟩
    rw [hxor, hq, Nat.add_sub_cancel]
    ring

theorem buddy_aligned {b : Block} (h : b.Aligned) : b.buddy.Aligned := by
  have hdvd : 2 ^ b.level ∣ 2 ^ (b.level + 1) := Nat.pow_dvd_pow 2 (Nat.le_succ _)
  rcases buddy_index_cases h with ⟨_, heq⟩ | ⟨hd, _⟩
  · unfold Aligned
    rw [heq]
    exact h.dvd_end
  · exact hdvd.trans hd

@[simp] theorem buddy_buddy (b : Block) : b.buddy.buddy = b := by
  simp [buddy]

theorem buddy_ne (b : Block) : b.buddy ≠ b := by
  intro h
  have hindex : b.index ^^^ 2 ^ b.level = b.index := congrArg Block.index h
  have hzero : (2 : Nat) ^ b.level = 0 := by
    simpa using congrArg (b.index ^^^ ·) hindex
  exact (Nat.two_pow_pos b.level).ne' hzero

theorem buddy_disjoint {b : Block} (h : b.Aligned) : Disjoint b.pages b.buddy.pages :=
  h.disjoint_of_level_eq (buddy_aligned h) rfl b.buddy_ne.symm

/-! ## Parents -/

theorem parent_aligned {b : Block} (h : b.Aligned) : b.parent.Aligned := by
  unfold Aligned parent
  rcases buddy_index_cases h with ⟨hd, heq⟩ | ⟨hd, heq⟩
  · simp only [buddy] at heq
    rw [Nat.min_eq_left (by omega)]
    exact hd
  · simp only [buddy] at heq hd
    rw [Nat.min_eq_right (by omega)]
    exact hd

@[simp] theorem parent_buddy (b : Block) : b.buddy.parent = b.parent := by
  simp [parent, buddy, Nat.min_comm]

/-- A parent is its two halves and nothing else. -/
theorem parent_pages {b : Block} (h : b.Aligned) :
    b.parent.pages = b.pages ∪ b.buddy.pages := by
  ext p
  rw [Set.mem_union]
  rcases buddy_index_cases h with ⟨_, heq⟩ | ⟨_, heq⟩ <;>
    simp only [buddy, parent, mem_pages, Nat.pow_succ] at heq ⊢ <;>
    omega

theorem subset_parent {b : Block} (h : b.Aligned) : b.pages ⊆ b.parent.pages := by
  rw [parent_pages h]
  exact Set.subset_union_left

theorem buddy_subset_parent {b : Block} (h : b.Aligned) : b.buddy.pages ⊆ b.parent.pages := by
  rw [parent_pages h]
  exact Set.subset_union_right

/-- Anything aligned that is larger than a block and meets it swallows the
block's buddy as well. -/
theorem parent_subset {b c : Block} {p : Nat} (hb : b.Aligned) (hc : c.Aligned)
    (hlt : b.level < c.level) (hpb : p ∈ b.pages) (hpc : p ∈ c.pages) :
    b.parent.pages ⊆ c.pages :=
  (parent_aligned hb).nested hc hlt (subset_parent hb hpb) hpc

/-- An aligned block that avoids both halves avoids the parent. -/
theorem parent_disjoint {b : Block} {s : Set Nat} (hb : b.Aligned)
    (hleft : Disjoint b.pages s) (hright : Disjoint b.buddy.pages s) :
    Disjoint b.parent.pages s := by
  rw [parent_pages hb]
  exact Set.disjoint_union_left.mpr ⟨hleft, hright⟩

/-- Splitting: an aligned block of level `l + 1` starting at `i` is the parent of
the block of level `l` starting at `i`. -/
theorem parent_of_aligned_succ {i l : Nat} (h : Aligned ⟨i, l + 1⟩) :
    parent ⟨i, l⟩ = ⟨i, l + 1⟩ := by
  have hlow : Aligned ⟨i, l⟩ := (Nat.pow_dvd_pow 2 (Nat.le_succ l)).trans h
  rcases buddy_index_cases hlow with ⟨_, heq⟩ | ⟨hd, heq⟩
  · have hright : i ^^^ 2 ^ l = i + 2 ^ l := heq
    simp only [parent, hright, mk.injEq, and_true]
    exact Nat.min_eq_left (Nat.le_add_right i _)
  · -- the right half of a parent never starts at a multiple of the parent's size
    exfalso
    have hdvd : 2 ^ (l + 1) ∣ 2 ^ l := by
      have hsum : 2 ^ (l + 1) ∣ (buddy ⟨i, l⟩).index + 2 ^ l := by
        rw [← heq]
        exact h
      exact (Nat.dvd_add_right hd).mp hsum
    have hle := Nat.le_of_dvd (Nat.two_pow_pos l) hdvd
    have hpos := Nat.two_pow_pos l
    rw [Nat.pow_succ] at hle
    omega

theorem aligned_lower {i l m : Nat} (h : Aligned ⟨i, l⟩) (hm : m ≤ l) : Aligned ⟨i, m⟩ :=
  (Nat.pow_dvd_pow 2 hm).trans h

end Block

/-! ## The largest aligned block -/

/-- The level of the largest aligned block that starts at `index` and has no more than
`length` numbers. -/
def Largest (index length level : Nat) : Prop :=
  IsGreatest {k | 2 ^ k ∣ index ∧ 2 ^ k ≤ length} level

theorem pow_dvd_iff_le {x e : Nat} (hdvd : 2 ^ e ∣ x) (hndvd : ¬ 2 ^ (e + 1) ∣ x) (k : Nat) :
    2 ^ k ∣ x ↔ k ≤ e := by
  constructor
  · intro hk
    by_contra hlt
    exact hndvd ((Nat.pow_dvd_pow 2 (Nat.lt_of_not_le hlt)).trans hk)
  · intro hle
    exact (Nat.pow_dvd_pow 2 hle).trans hdvd

theorem pow_le_iff_le {x l : Nat} (hle : 2 ^ l ≤ x) (hlt : x < 2 ^ (l + 1)) (k : Nat) :
    2 ^ k ≤ x ↔ k ≤ l := by
  constructor
  · intro hk
    exact Nat.lt_succ_iff.mp ((Nat.pow_lt_pow_iff_right (by decide)).mp (hk.trans_lt hlt))
  · intro hkl
    exact (Nat.pow_le_pow_right (by decide) hkl).trans hle

/-- The smaller of the two exponents decides. That of the start need only be exact up to
the other one, so that zero has room for any exponent. -/
theorem largest_min {index length e l : Nat} (hdvd : ∀ k ≤ l, 2 ^ k ∣ index ↔ k ≤ e)
    (hle : ∀ k, 2 ^ k ≤ length ↔ k ≤ l) : Largest index length (min e l) := by
  have hmin := Nat.min_le_right e l
  refine ⟨⟨(hdvd _ hmin).mpr (Nat.min_le_left e l), (hle _).mpr hmin⟩, ?_⟩
  rintro k ⟨hkdvd, hkle⟩
  have hkl : k ≤ l := (hle k).mp hkle
  exact Nat.le_min.mpr ⟨(hdvd k hkl).mp hkdvd, hkl⟩

end Dyadic
