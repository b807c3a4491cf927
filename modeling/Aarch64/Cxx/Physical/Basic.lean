import Aarch64.Cxx.Math
import Aarch64.Cxx.Zone.Basic
import Mathlib.Data.List.Perm.Basic
import Mathlib.Data.Set.Lattice
import Mathlib.Order.BourbakiWitt
import Mathlib.Order.CompletePartialOrder
import Mathlib.Order.Interval.Set.Basic

/-!
# Blocks of physical memory

`Contigous` of `memory/memory.cc`, and what its clients rely on. A block knows its
zone, its page and its order. The zone never moves, so the address of the page is
stored with the block. `PhysicalMemory` is the interface of `AllocatePhysical` and
`FreePhysical` together with the promise behind it: the ledger of blocks that are
held by somebody.
-/

namespace Aarch64.Cxx

structure Contigous where
  zone : Nat
  pages : Option Nat
  order : Nat
  address : Nat
  deriving DecidableEq, Repr

namespace Contigous

/-- `Contigous(nullptr)`. -/
def null : Contigous := ⟨0, none, 0, 0⟩

def isNull (m : Contigous) : Bool := m.pages.isNone

def fromAddress (m : Contigous) : Nat := if m.isNull then 0 else m.address

def size (m : Contigous) : Nat := if m.isNull then 0 else Word64.shl 1 (m.order + kPageBits)

def toAddress (m : Contigous) : Nat := Word64.add m.fromAddress m.size

/-- The addresses of the block. -/
def bytes (m : Contigous) : Set Nat := Set.Ico m.fromAddress (m.fromAddress + m.size)

/-- A block of memory: aligned to its size, and the address space goes on after it. -/
structure Proper (m : Contigous) : Prop where
  nonnull : m.isNull = false
  order_lt : m.order + kPageBits < 64
  aligned : 2 ^ (m.order + kPageBits) ∣ m.fromAddress
  fits : m.fromAddress + 2 ^ (m.order + kPageBits) < 2 ^ 64

namespace Proper

variable {m : Contigous}

theorem size_eq (h : m.Proper) : m.size = 2 ^ (m.order + kPageBits) := by
  have hlt : 1 * 2 ^ (m.order + kPageBits) < 2 ^ 64 := by
    rw [Nat.one_mul]
    exact Nat.pow_lt_pow_right (by decide) h.order_lt
  rw [size, h.nonnull, if_neg (by decide), Word64.shl_of_lt hlt, Nat.one_mul]

theorem toAddress_eq (h : m.Proper) : m.toAddress = m.fromAddress + m.size := by
  rw [toAddress, h.size_eq]
  exact Word64.add_of_lt h.fits

theorem toAddress_lt (h : m.Proper) : m.fromAddress + m.size < 2 ^ 64 := by
  rw [h.size_eq]
  exact h.fits

/-- `AlignDown` by the size of a block leads from each of its bytes to its start. -/
theorem alignDown_eq {p : Nat} (h : m.Proper) (hp : p ∈ m.bytes) :
    alignDown p m.size = m.fromAddress := by
  obtain ⟨hge, hlt⟩ := hp
  have hend := h.toAddress_lt
  rw [h.size_eq] at hlt hend ⊢
  have hpos := Nat.two_pow_pos (m.order + kPageBits)
  rw [alignDown_two_pow (by omega) h.order_lt]
  obtain ⟨q, hq⟩ := h.aligned
  have hdiv : p / 2 ^ (m.order + kPageBits) = q := by
    rw [Nat.div_eq_iff hpos]
    rw [hq, Nat.mul_comm] at hge hlt
    omega
  rw [hdiv, hq, Nat.mul_comm]

theorem size_pos (h : m.Proper) : 0 < m.size := by
  rw [h.size_eq]
  exact Nat.two_pow_pos _

end Proper

end Contigous

/-- The order of the block that `AllocatePhysical` looks for. -/
def orderFor (size : Nat) : Nat :=
  max (1 + mostSignificantBit (Word64.sub size 1)).toNat kPageBits - kPageBits

/-- A block of that order is large enough. -/
theorem le_orderFor {size : Nat} (hpos : 0 < size) (hlt : size < 2 ^ 64) :
    size ≤ 2 ^ (orderFor size + kPageBits) := by
  rcases Nat.eq_or_lt_of_le hpos with hone | hone
  · rw [← hone]
    exact Nat.one_le_two_pow
  · obtain ⟨k, hk, hle, _⟩ := roundUp_spec hone hlt
    rw [orderFor, Word64.sub_of_le hpos hlt, Int.add_comm, hk, Int.toNat_natCast,
      Nat.sub_add_cancel (Nat.le_max_right ..)]
    exact hle.trans (Nat.pow_le_pow_right (by decide) (Nat.le_max_left ..))

/-- Powers of two from the page size on are not rounded. -/
theorem orderFor_two_pow {k : Nat} (hk : kPageBits ≤ k) (hlt : k < 64) :
    orderFor (2 ^ k) + kPageBits = k := by
  have hword : 2 ^ k < 2 ^ 64 := Nat.pow_lt_pow_right (by decide) hlt
  have hone : 1 < 2 ^ k := Nat.one_lt_two_pow (by change 12 ≤ k at hk; omega)
  obtain ⟨j, hj, hle, hgt⟩ := roundUp_spec hone hword
  have hkj : k ≤ j := (Nat.pow_le_pow_iff_right (by decide)).mp hle
  have hjk : j < k + 1 := by
    rw [Nat.mul_comm, ← Nat.pow_succ] at hgt
    exact (Nat.pow_lt_pow_iff_right (by decide)).mp hgt
  rw [orderFor, Word64.sub_of_le hone.le hword, Int.add_comm, hj, Int.toNat_natCast]
  omega

/-- `AllocatePhysical` and `FreePhysical` over a state `σ`. `Holds` relates a state
to the blocks that have been handed out and not been freed. -/
structure PhysicalMemory (σ : Type) where
  allocate : σ → Nat → Option (Option Contigous × σ)
  free : σ → Contigous → Option σ
  Holds : σ → List Contigous → Prop
  perm {s : σ} {held held' : List Contigous} : Holds s held → held.Perm held' → Holds s held'
  proper {s : σ} {held : List Contigous} : Holds s held → ∀ m ∈ held, m.Proper
  disjoint {s : σ} {held : List Contigous} : Holds s held →
    held.Pairwise fun m n => Disjoint m.bytes n.bytes
  /-- Allocation fails, or hands out one more block, of the order of the request. -/
  allocate_spec {s : σ} {held : List Contigous} {size : Nat} : Holds s held → 0 < size →
    size < 2 ^ 64 →
    (∃ t, allocate s size = some (none, t) ∧ Holds t held) ∨
      ∃ m t, allocate s size = some (some m, t) ∧ m.order = orderFor size ∧ Holds t (m :: held)
  free_spec {s : σ} {m : Contigous} {held : List Contigous} : Holds s (m :: held) →
    ∃ t, free s m = some t ∧ Holds t held

end Aarch64.Cxx
