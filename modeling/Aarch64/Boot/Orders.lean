import Aarch64.Cxx.Physical.Seeding
import Aarch64.Rust.Zone
import Mathlib.Data.Nat.Log

/-!
# The orders of free blocks

Both allocators cut a run of free pages into blocks, and both take the order of the next
block from two bit scans: the lowest bit of its first page and the highest bit of the
number of pages that are left. Up to their caps, both take the largest aligned block.
-/

namespace Aarch64.Boot

open Dyadic (Block Largest)
open Rust (Numeric.lsb Numeric.msb)
open Rust.Zone (rangeOrder rangeBlocks)
open Cxx (leastSignificantBit mostSignificantBit kMaxOrder kPageBits)
open Cxx.Zones (freeOrder freeMemoryLoop)

/-- What the four scans find in a word. -/
structure Scans (x : Nat) : Prop where
  msb_eq : Numeric.msb x = Nat.log 2 x + 1
  lsb_eq : ∃ e, IsGreatest {k | 2 ^ k ∣ x} e ∧ Numeric.lsb x = e + 1
  mostSignificantBit_eq : mostSignificantBit x = (Numeric.msb x : Int) - 1
  leastSignificantBit_eq : (leastSignificantBit x : Int) = (Numeric.lsb x : Int) - 1

/-- The order that `FreeMemory` chooses, from the number of the first page and the number
of pages that are left. -/
def pageOrder (offset pages : Nat) : Nat :=
  let align := leastSignificantBit offset
  let size := (mostSignificantBit pages % 2 ^ 64).toNat
  min (min align size) kMaxOrder

/-! ## The scans -/

variable {x index length stop addr : Nat}

theorem log_of_bounds {k : Nat} (hle : 2 ^ k ≤ x) (hlt : x < 2 ^ (k + 1)) : Nat.log 2 x = k :=
  (Nat.log_eq_iff (Or.inr ⟨by decide, by have := Nat.two_pow_pos k; omega⟩)).mpr ⟨hle, hlt⟩

theorem lsb_exponent (hpos : 0 < x) (hlt : x < 2 ^ 64) (k : Nat) :
    2 ^ k ∣ x ↔ k ≤ Numeric.lsb x - 1 := by
  obtain ⟨e, he, hdvd, hndvd⟩ := Rust.Numeric.lsb_spec hpos hlt
  rw [he, Nat.add_sub_cancel]
  exact Dyadic.pow_dvd_iff_le hdvd hndvd k

theorem leastSignificantBit_exponent (hpos : 0 < x) (hlt : x < 2 ^ 64) (k : Nat) :
    2 ^ k ∣ x ↔ k ≤ leastSignificantBit x := by
  obtain ⟨hdvd, hndvd⟩ := Cxx.leastSignificantBit_spec hpos hlt
  exact Dyadic.pow_dvd_iff_le hdvd hndvd k

theorem scans (hpos : 0 < x) (hlt : x < 2 ^ 64) : Scans x := by
  obtain ⟨k, hk, hle, hlt'⟩ := Rust.Numeric.msb_spec hpos hlt
  obtain ⟨l, hl, hle', hlt''⟩ := Cxx.mostSignificantBit_spec hpos hlt
  obtain ⟨e, he, hdvd, hndvd⟩ := Rust.Numeric.lsb_spec hpos hlt
  have hlog : Nat.log 2 x = k := log_of_bounds hle hlt'
  have hkl : k = l := hlog.symm.trans (log_of_bounds hle' hlt'')
  have hdvd_iff := Dyadic.pow_dvd_iff_le hdvd hndvd
  -- both lowest bits bound the same exponents
  have hlow : leastSignificantBit x = e := by
    apply Nat.le_antisymm
    · exact (hdvd_iff _).mp (Cxx.leastSignificantBit_spec hpos hlt).1
    · exact (leastSignificantBit_exponent hpos hlt e).mp hdvd
  refine ⟨by rw [hk, hlog], ⟨e, ⟨hdvd, fun k hk => (hdvd_iff k).mp hk⟩, he⟩, ?_, ?_⟩
  · rw [hl, hk, hkl, Nat.cast_succ, Int.add_sub_cancel]
  · rw [hlow, he, Nat.cast_succ, Int.add_sub_cancel]

/-! ## The orders -/

/-- The integer logarithm of a word is less than 64. -/
theorem log_lt {k : Nat} (hle : 2 ^ k ≤ length) (hlt : length < 2 ^ 64) : k < 64 :=
  (Nat.pow_lt_pow_iff_right (by decide)).mp (hle.trans_lt hlt)

/-- The order of `free_page_range`, without its cap. A first page of zero is aligned to
everything, and its scan returns more than any logarithm. -/
theorem largest_rangeOrder (hpos : 0 < length) (hend : index + length < 2 ^ 64) :
    ∃ order, Largest index length order ∧
      rangeOrder index (index + length) = some (min (Rust.LEVELS - 1) order) := by
  obtain ⟨l, hl, hle, hlt⟩ := Rust.Numeric.ilog2_spec hpos (by omega)
  have hl64 : l < 64 := log_lt hle (by omega)
  have hsub : Word64.sub (index + length) index = length := by
    rw [Word64.sub_of_le (Nat.le_add_right _ _) hend, Nat.add_sub_cancel_left]
  refine ⟨min (Numeric.lsb index - 1) l, ?_, ?_⟩
  · apply Dyadic.largest_min
    · intro k hk
      rcases Nat.eq_zero_or_pos index with rfl | hindex
      · have hzero : Numeric.lsb 0 = 2 ^ 32 - 1 := rfl
        exact iff_of_true (Nat.dvd_zero _) (by omega)
      · exact lsb_exponent hindex (by omega) k
    · exact Dyadic.pow_le_iff_le hle hlt
  · rw [rangeOrder, hsub, hl, Nat.min_comm _ l]
    rfl

/-- The order of `FreeMemory`, without its cap. -/
theorem largest_pageOrder (hpos : 0 < length) (hend : index + length < 2 ^ 64) :
    ∃ order, Largest index length order ∧ pageOrder index length = min kMaxOrder order := by
  obtain ⟨l, hl, hle, hlt⟩ := Cxx.mostSignificantBit_spec hpos (by omega)
  have hl64 : l < 64 := log_lt hle (by omega)
  have hsize : ((l : Int) % 2 ^ 64).toNat = l := by omega
  refine ⟨min (leastSignificantBit index) l, ?_, ?_⟩
  · apply Dyadic.largest_min
    · intro k hk
      rcases Nat.eq_zero_or_pos index with rfl | hindex
      · have hzero : leastSignificantBit 0 = 64 := rfl
        exact iff_of_true (Nat.dvd_zero _) (by omega)
      · exact leastSignificantBit_exponent hindex (by omega) k
    · exact Dyadic.pow_le_iff_le hle hlt
  · rw [pageOrder, hl, hsize, Nat.min_comm]

/-- `FreeMemory` chooses by the page of the address and by the pages up to the end. -/
theorem freeOrder_eq (hle : addr ≤ stop) (hstop : stop < 2 ^ 64) :
    freeOrder addr stop = pageOrder (addr / 2 ^ kPageBits) ((stop - addr) / 2 ^ kPageBits) := by
  have hsub : Word64.sub stop addr = stop - addr := Word64.sub_of_le hle hstop
  rw [← Nat.shiftRight_eq_div_pow, ← Nat.shiftRight_eq_div_pow, ← hsub]
  rfl

/-- The scans of both kernels find the integer logarithm and the exponent of the lowest bit. In
every round both loops that release pages take the largest aligned block that still fits, up to the
order that each of them is capped at; the loop over addresses and the one over pages of the
bootstrap choose the same. -/
theorem scans_choose_largest (hx : 0 < x) (hxlt : x < 2 ^ 64) (hpos : 0 < length)
    (hend : index + length < 2 ^ 64) (hle : addr ≤ stop) (hstop : stop < 2 ^ 64) :
    Scans x ∧
      (∃ order, Largest index length order ∧
        rangeOrder index (index + length) = some (min (Rust.LEVELS - 1) order) ∧
        pageOrder index length = min kMaxOrder order) ∧
      freeOrder addr stop = pageOrder (addr / 2 ^ kPageBits) ((stop - addr) / 2 ^ kPageBits) := by
  obtain ⟨order, hlargest, hrange⟩ := largest_rangeOrder hpos hend
  obtain ⟨order', hlargest', hpage⟩ := largest_pageOrder hpos hend
  have horder : order' = order := hlargest'.unique hlargest
  subst horder
  exact ⟨scans hx hxlt, ⟨order', hlargest, hrange, hpage⟩, freeOrder_eq hle hstop⟩

theorem scans_choose_largest_twelve :
    Scans 12 ∧
      (∃ order, Largest 12 20 order ∧
        rangeOrder 12 (12 + 20) = some (min (Rust.LEVELS - 1) order) ∧
        pageOrder 12 20 = min kMaxOrder order) ∧
      freeOrder 0xc000 0x20000 =
        pageOrder (0xc000 / 2 ^ kPageBits) ((0x20000 - 0xc000) / 2 ^ kPageBits) :=
  scans_choose_largest (by decide) (by decide) (by decide) (by decide) (by decide) (by decide)

/-! ## Whole runs -/

/-- A block is the largest that is aligned and ends by `stop`, up to the cap. -/
def CappedLargest (cap stop : Nat) (b : Block) : Prop :=
  ∃ order, Largest b.index (stop - b.index) order ∧ b.level = min cap order

/-- Every block that `free_page_range` frees is the largest at its place. -/
theorem rangeBlocks_largest (hstop : stop < 2 ^ 64) : ∀ fuel index,
    ∀ b ∈ rangeBlocks fuel index stop, CappedLargest (Rust.LEVELS - 1) stop b := by
  intro fuel
  induction fuel with
  | zero =>
      intro index b hb
      cases hb
  | succ fuel ih =>
      intro index b hb
      rw [rangeBlocks] at hb
      by_cases hlt : index < stop
      · have hsum : index + (stop - index) = stop := Nat.add_sub_cancel' hlt.le
        have hend : index + (stop - index) < 2 ^ 64 := by rwa [hsum]
        obtain ⟨order, hlargest, horder⟩ := largest_rangeOrder (Nat.sub_pos_of_lt hlt) hend
        rw [hsum] at horder
        simp only [if_pos hlt, horder, List.mem_cons] at hb
        rcases hb with rfl | hb
        · exact ⟨order, hlargest, rfl⟩
        · exact ih _ b hb
      · rw [if_neg hlt] at hb
        cases hb

theorem freeOrder_pages {a b : Nat} (hle : a ≤ b) (hword : b * 2 ^ kPageBits < 2 ^ 64) :
    freeOrder (a * 2 ^ kPageBits) (b * 2 ^ kPageBits) = pageOrder a (b - a) := by
  have hpage : 0 < 2 ^ kPageBits := Nat.two_pow_pos _
  rw [freeOrder_eq (Nat.mul_le_mul_right _ hle) hword, ← Nat.sub_mul,
    Nat.mul_div_cancel _ hpage, Nat.mul_div_cancel _ hpage]

/-- Every block that `FreeMemory` frees between two pages is the largest at its place. -/
theorem freeMemoryLoop_largest {b zone : Nat} (hword : b * 2 ^ kPageBits < 2 ^ 64) :
    ∀ fuel (zones zones' : Cxx.Zones) a calls, a ≤ b →
      freeMemoryLoop fuel zones zone (a * 2 ^ kPageBits) (b * 2 ^ kPageBits) =
        some (zones', calls) →
      ∀ call ∈ calls, CappedLargest kMaxOrder b call.block := by
  have hpage : 0 < 2 ^ kPageBits := Nat.two_pow_pos _
  have hb : b < 2 ^ 64 := (Nat.le_mul_of_pos_right b hpage).trans_lt hword
  intro fuel
  induction fuel with
  | zero =>
      intro zones zones' a calls _ h
      rw [freeMemoryLoop] at h
      split at h
      next =>
        cases h
        exact List.forall_mem_nil _
      next => cases h
  | succ fuel ih =>
      intro zones zones' a calls hle h
      rw [freeMemoryLoop] at h
      split at h
      next =>
        cases h
        exact List.forall_mem_nil _
      next hne =>
        simp only [Option.bind_eq_bind, Option.bind_eq_some_iff] at h
        obtain ⟨z, _, w, _, ⟨zones'', rest⟩, hrest, h⟩ := h
        cases h
        have hlt : a < b := Nat.lt_of_le_of_ne hle fun heq => hne (by rw [heq])
        obtain ⟨_, _, hend⟩ := Cxx.Zones.freeOrder_spec hlt hword rfl
        have hnext := Cxx.Zones.add_shl_page ((Nat.mul_le_mul_right _ hend).trans_lt hword)
        rw [hnext] at hrest
        have hsum : a + (b - a) < 2 ^ 64 := by rwa [Nat.add_sub_cancel' hle]
        obtain ⟨order, hlargest, horder⟩ := largest_pageOrder (Nat.sub_pos_of_lt hlt) hsum
        intro call hcall
        rcases List.mem_cons.mp hcall with rfl | hcall
        · refine ⟨order, ?_, ?_⟩
          · rwa [Cxx.Zones.block_page]
          · rw [Cxx.Zones.block_page, ← horder]
            exact freeOrder_pages hle hword
        · exact ih _ _ _ _ hend hrest call hcall

end Aarch64.Boot
