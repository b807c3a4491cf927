import Aarch64.Cxx.Vector.Operations

/-!
# Vectors that are filled up

`PushBack` on a vector whose capacity is used up. The vector grows by one element, in its block
or in a new one, or it stays as it is because its block is too small and no other is handed
out. The destructor `~Vector` of `common/vector.h` is here as well.
-/

namespace Aarch64.Cxx.Common

variable {σ α : Type} {P : PhysicalMemory σ} {T : ElementType} {others owned : List Contigous}
variable {v w : Vector} {s t : Store σ α} {xs : List α} {n : Nat}

namespace Vector

/-- `~Vector`. -/
def destroy (P : PhysicalMemory σ) (T : ElementType) (v : Vector) (s : Store σ α) :
    Option (Store σ α) := do
  let (v, s) ← v.clear T s
  let (_, s) ← PhysicalAllocator.deallocate P T s v.items
  return s

theorem reallocate_cases {ok : Bool} (h : v.reallocate P T s n = some (ok, w, t)) :
    (ok = true ∧ w.capacity = n) ∨
      (ok = false ∧ w = v ∧ PhysicalAllocator.allocate P T s n = some (0, t)) := by
  simp only [reallocate, Option.bind_eq_bind, Option.bind_eq_some_iff] at h
  obtain ⟨⟨items, s'⟩, hallocate, h⟩ := h
  split at h
  next hzero =>
    cases h
    change items = 0 at hzero
    subst hzero
    exact .inr ⟨rfl, rfl, hallocate⟩
  next =>
    obtain ⟨objects, _, h⟩ := Option.bind_eq_some_iff.mp h
    obtain ⟨⟨_, s''⟩, _, h⟩ := Option.bind_eq_some_iff.mp h
    cases h
    exact .inl ⟨rfl, rfl⟩

/-- A vector that has to grow is given the capacity that is asked for, or is refused it. -/
theorem grow_cases {ok : Bool} (h : v.grow P T s n = some (ok, w, t)) (hlt : v.capacity < n) :
    (ok = true ∧ w.capacity = n) ∨
      (ok = false ∧ w = v ∧ PhysicalAllocator.grow T s v.items n = some false ∧
        PhysicalAllocator.allocate P T s n = some (0, t)) := by
  simp only [grow, if_neg (Nat.not_le.mpr hlt), max_capacity hlt, Option.bind_eq_bind] at h
  obtain ⟨inPlace, hplace, h⟩ := Option.bind_eq_some_iff.mp h
  cases inPlace with
  | true =>
      cases h
      exact .inl ⟨rfl, rfl⟩
  | false =>
      exact (reallocate_cases h).imp_right fun hfail => ⟨hfail.1, hfail.2.1, hplace, hfail.2.2⟩

/-- A block is handed out with an address, so the null pointer means that there was none. -/
theorem allocate_null (hheld : P.Holds s.phys (owned ++ others)) (hn : n < 2 ^ 64) (hpos : 0 < n)
    (hbytes : T.bytes n < 2 ^ 64) (h : PhysicalAllocator.allocate P T s n = some (0, t)) :
    ∃ p, P.allocate s.phys (T.allocationSize n) = some (none, p) ∧ t = { s with phys := p } ∧
      P.Holds p (owned ++ others) := by
  have hsize := ElementType.allocationSize_eq hn hbytes
  have hpositive : 0 < T.allocationSize n := hsize ▸ T.bytes_pos n
  have hlt := T.allocationSize_lt n
  rcases P.allocate_spec hheld hpositive hlt with ⟨p, hphys, hheld'⟩ | ⟨b, p, hphys, horder, hheld'⟩
  · rw [PhysicalAllocator.allocate, hphys] at h
    cases h
    exact ⟨p, hphys, rfl, hheld'⟩
  · have hproper := P.proper hheld' b List.mem_cons_self
    have hle : T.allocationSize n ≤ b.size := by
      rw [hproper.size_eq, horder]
      exact le_orderFor hpositive hlt
    have hend := hproper.toAddress_lt
    have hroom := T.offset_add_mul_le hpos
    have hoffset := T.offset_pos
    rw [PhysicalAllocator.allocate, hphys] at h
    have hnull : Word64.add b.fromAddress T.offset = 0 := congrArg Prod.fst (Option.some.inj h)
    rw [Word64.add_of_lt (by omega)] at hnull
    omega

end Vector

open Aarch64.Cxx.Common.Vector

/-- `PushBack` on a vector without spare capacity. -/
theorem Valid.pushBack_cases (hv : Valid P T others v s owned xs) (item : α)
    (hcapacity : v.capacity = v.size) (hbytes : T.bytes (xs.length + 1) < 2 ^ 64)
    (hnonzero : v.items ≠ T.offset) :
    (∃ w t owned', v.pushBack P T s item = some (true, w, t) ∧
        Valid P T others w t owned' (xs ++ [item]) ∧ w.capacity = w.size) ∨
      PhysicalAllocator.grow T s v.items (xs.length + 1) = some false ∧
        ∃ p, P.allocate s.phys (T.allocationSize (xs.length + 1)) = some (none, p) ∧
          v.pushBack P T s item = some (false, v, { s with phys := p }) ∧
          Valid P T others v { s with phys := p } owned xs := by
  have hword := hv.capacity_lt
  have hsize := hv.size
  have hnext : Word64.add v.size 1 = xs.length + 1 := by
    rw [Word64.add_of_lt (by omega), hsize]
  have hlt : v.capacity < xs.length + 1 := by
    rw [hcapacity, hsize]
    exact Nat.lt_succ_self _
  have hgrows : v.Grows P T s (Word64.add v.size 1) := by
    rw [hnext]
    exact .inr (.inl ⟨hbytes, hnonzero⟩)
  obtain ⟨ok, w, t, hcall, ⟨owned', hvalid⟩, _⟩ := pushBack_spec hv item hgrows
  have hpush := hcall
  simp only [pushBack, hnext, Option.bind_eq_bind] at hpush
  obtain ⟨⟨ok', w', t'⟩, hgrow, hpush⟩ := Option.bind_eq_some_iff.mp hpush
  rcases grow_cases hgrow hlt with ⟨rfl, hexact⟩ | ⟨rfl, hw, hplace, hnull⟩
  · cases hpush
    refine .inl ⟨_, _, owned', hcall, hvalid, hexact.trans ?_⟩
    rw [hvalid.size, if_pos rfl, List.length_append]
    rfl
  · cases hw
    cases Option.some.inj hpush
    obtain ⟨p, hphys, rfl, hheld⟩ := allocate_null hv.held (by omega) (Nat.succ_pos _) hbytes hnull
    exact .inr ⟨hplace, p, hphys, hcall, hv.size, hv.stored, hv.fits, hv.owns.congr rfl rfl rfl,
      hheld⟩

/-- The destructor gives back what the vector owns. -/
theorem Valid.destroy_spec (hv : Valid P T others v s owned xs) (hnonzero : v.items ≠ T.offset) :
    ∃ t, v.destroy P T s = some t ∧ P.Holds t.phys others := by
  obtain ⟨objects, hclear, hcleared⟩ := clear_spec hv
  obtain ⟨ok, t, hcall, hheld, _⟩ :=
    PhysicalAllocator.deallocate_spec hcleared.owns hnonzero hcleared.held
  refine ⟨t, ?_, hheld⟩
  rw [destroy, hclear]
  simp only [Option.bind_eq_bind, Option.bind_some, hcall]
  rfl

end Aarch64.Cxx.Common
