import Mathlib.Logic.Function.Basic

/-!
# Byte memory with words

Memory maps 64-bit addresses to bytes. A word lies in eight bytes, the least significant
first, at any address. Addresses wrap, so how far `b` lies behind `a` is `b - a`.
-/

namespace Arm

abbrev Word := BitVec 64

abbrev Memory := Word → BitVec 8

namespace Memory

def store (m : Memory) (a v : Word) : Memory := fun p =>
  if (p - a).toNat < 8 then v.extractLsb' (8 * (p - a).toNat) 8 else m p

def load (m : Memory) (a : Word) : Word :=
  m (a + 7) ++ (m (a + 6) ++ (m (a + 5) ++ (m (a + 4) ++ (m (a + 3) ++ (m (a + 2) ++
    (m (a + 1) ++ m a))))))

/-- Two words one after the other. -/
def storePair (m : Memory) (a v v' : Word) : Memory := (m.store a v).store (a + 8) v'

def loadPair (m : Memory) (a : Word) : Word × Word := (m.load a, m.load (a + 8))

variable {m m' : Memory} {a b p v v' : Word}

theorem store_of_le (h : 8 ≤ (p - a).toNat) : m.store a v p = m p := if_neg (Nat.not_lt.mpr h)

theorem storePair_of_le (h : 16 ≤ (p - a).toNat) : m.storePair a v v' p = m p := by
  have hsecond : 8 ≤ (p - (a + 8)).toNat := by bv_omega
  rw [storePair, store_of_le hsecond, store_of_le (by omega)]

theorem load_congr (h : ∀ p : Word, (p - a).toNat < 8 → m' p = m p) : m'.load a = m.load a := by
  have hbyte : ∀ k : Word, k.toNat < 8 → m' (a + k) = m (a + k) := by
    intro k hk
    refine h _ ?_
    rwa [BitVec.add_comm a k, BitVec.add_sub_cancel]
  have hzero : m' a = m a := by
    have hadd : a + 0#64 = a := BitVec.add_zero a
    rw [← hadd]
    exact hbyte 0 (by decide)
  rw [load, load, hbyte 7 (by decide), hbyte 6 (by decide), hbyte 5 (by decide),
    hbyte 4 (by decide), hbyte 3 (by decide), hbyte 2 (by decide), hbyte 1 (by decide), hzero]

theorem loadPair_congr (h : ∀ p : Word, (p - a).toNat < 16 → m' p = m p) :
    m'.loadPair a = m.loadPair a := by
  have hfirst : m'.load a = m.load a := load_congr fun p hp => h p (by omega)
  have hsecond : m'.load (a + 8) = m.load (a + 8) := load_congr fun p hp => h p (by bv_omega)
  rw [loadPair, loadPair, hfirst, hsecond]

theorem append_extractLsb' (v : Word) : v.extractLsb' 56 8 ++ (v.extractLsb' 48 8 ++
    (v.extractLsb' 40 8 ++ (v.extractLsb' 32 8 ++ (v.extractLsb' 24 8 ++ (v.extractLsb' 16 8 ++
      (v.extractLsb' 8 8 ++ v.extractLsb' 0 8)))))) = v := by
  have hbit : ∀ i j k : Nat, j < 8 → k + j = i →
      (decide (j < 8) && v.getLsbD (k + j)) = v.getLsbD i := by
    rintro i j k hj rfl
    rw [decide_eq_true hj, Bool.true_and]
  refine BitVec.eq_of_getLsbD_eq fun i hi => ?_
  simp only [BitVec.getLsbD_append, BitVec.getLsbD_extractLsb']
  repeat' split
  all_goals exact hbit _ _ _ (by omega) (by omega)

@[simp] theorem load_store_self (m : Memory) (a v : Word) : (m.store a v).load a = v := by
  have hbyte : ∀ k : Word, k.toNat < 8 → m.store a v (a + k) = v.extractLsb' (8 * k.toNat) 8 := by
    intro k hk
    have hsub : a + k - a = k := by rw [BitVec.add_comm a k, BitVec.add_sub_cancel]
    rw [store, hsub, if_pos hk]
  have hzero : m.store a v a = v.extractLsb' 0 8 := by
    rw [store, BitVec.sub_self]
    rfl
  rw [load, hbyte 7 (by decide), hbyte 6 (by decide), hbyte 5 (by decide), hbyte 4 (by decide),
    hbyte 3 (by decide), hbyte 2 (by decide), hbyte 1 (by decide), hzero]
  exact append_extractLsb' v

theorem load_store_of_apart (hab : 8 ≤ (b - a).toNat) (hba : 8 ≤ (a - b).toNat) :
    (m.store a v).load b = m.load b :=
  load_congr fun p hp => store_of_le (by bv_omega)

@[simp] theorem loadPair_storePair_self (m : Memory) (a v v' : Word) :
    (m.storePair a v v').loadPair a = (v, v') := by
  have hfirst : ((m.store a v).store (a + 8) v').load a = v := by
    rw [load_store_of_apart (by bv_omega) (by bv_omega), load_store_self]
  rw [loadPair, storePair, hfirst, load_store_self]

theorem loadPair_storePair_of_apart (hab : 16 ≤ (b - a).toNat) (hba : 16 ≤ (a - b).toNat) :
    (m.storePair a v v').loadPair b = m.loadPair b :=
  loadPair_congr fun p hp => storePair_of_le (by bv_omega)

end Memory

end Arm
