import Aarch64.Cxx.Vector.Invariant

/-!
# What the operations on vectors do

A vector grows in place, or into a new block. Its bytes are computed modulo `2 ^ 64`,
so a growth may be granted a block that is too small, and a block at address 0 is not
freed. `Grows` leaves these out.
-/

namespace Aarch64.Cxx.Common

variable {σ α : Type} {P : PhysicalMemory σ} {T : ElementType}
variable {others owned held : List Contigous} {v : Vector} {s : Store σ α} {b : Contigous}
variable {xs : List α} {n : Nat}

/-! ## The allocator -/

namespace PhysicalAllocator

theorem fromPointer_none (hitems : v.items = 0) : fromPointer T s v.items = some 0 := by
  rw [fromPointer, if_pos hitems]
  rfl

theorem fromPointer_backed (h : Backed T v s b) (hproper : b.Proper) :
    fromPointer T s v.items = some b.fromAddress := by
  have hpos := T.offset_pos
  have hlt := hproper.toAddress_lt
  have hroom := h.room
  have hne : v.items ≠ 0 := by
    rw [h.items]
    omega
  have haddr : Word64.sub v.items T.offset = b.fromAddress := by
    rw [h.items, Word64.sub_of_le (Nat.le_add_left _ _) (by omega), Nat.add_sub_cancel]
  simp only [fromPointer, if_neg hne, haddr, h.header, Option.bind_eq_bind, Option.bind_some,
    ne_eq, not_true_eq_false, if_false]
  rfl

/-- The block in place is large enough for `n` elements, as `Grow` sees it. -/
theorem grow_backed (h : Backed T v s b) (hproper : b.Proper) (n : Nat) :
    grow T s v.items n =
      some (decide (b.fromAddress ≠ 0) && decide (b.size ≥ T.allocationSize n)) := by
  rw [grow, fromPointer_backed h hproper, Option.bind_eq_bind, Option.bind_some]
  by_cases hzero : b.fromAddress = 0
  · rw [if_pos hzero, decide_eq_false (not_not.mpr hzero), Bool.false_and]
    rfl
  · rw [if_neg hzero, h.header, Option.bind_eq_bind, Option.bind_some, decide_eq_true hzero,
      Bool.true_and]
    rfl

theorem grow_none (hitems : v.items = 0) (n : Nat) : grow T s v.items n = some false := by
  rw [grow, fromPointer_none hitems]
  rfl

/-- Allocation hands out a block with a header, or fails. -/
theorem allocate_spec (hheld : P.Holds s.phys held) (hpos : 0 < T.allocationSize n) :
    (∃ t, allocate P T s n = some (0, { s with phys := t }) ∧ P.Holds t held) ∨
      ∃ b t, P.allocate s.phys (T.allocationSize n) = some (some b, t) ∧
        allocate P T s n = some (Word64.add b.fromAddress T.offset,
          { s with phys := t, headers := Function.update s.headers b.fromAddress (some b) }) ∧
        T.allocationSize n ≤ b.size ∧ P.Holds t (b :: held) := by
  have hlt := T.allocationSize_lt n
  rcases P.allocate_spec hheld hpos hlt with ⟨t, hphys, ht⟩ | ⟨b, t, hphys, horder, ht⟩
  · refine .inl ⟨t, ?_, ht⟩
    rw [allocate, hphys]
    rfl
  · refine .inr ⟨b, t, hphys, ?_, ?_, ht⟩
    · rw [allocate, hphys]
      rfl
    · rw [(P.proper ht b List.mem_cons_self).size_eq, horder]
      exact le_orderFor hpos hlt

/-- What a vector owns is given back, unless it is the block at address 0. -/
theorem deallocate_spec (howns : Owns T v s owned) (hne : v.items ≠ T.offset)
    (hheld : P.Holds s.phys (owned ++ held)) :
    ∃ ok t, deallocate P T s v.items = some (ok, t) ∧ P.Holds t.phys held ∧
      t.objects = s.objects ∧
      ∀ a, (∀ b ∈ owned, a ≠ b.fromAddress) → t.headers a = s.headers a := by
  cases howns with
  | none items capacity =>
      refine ⟨false, s, ?_, hheld, rfl, fun _ _ => rfl⟩
      rw [deallocate, fromPointer_none items]
      rfl
  | @block b _ backed =>
      have hproper := P.proper hheld b (List.mem_append_left _ List.mem_cons_self)
      have hzero : b.fromAddress ≠ 0 := by
        intro hzero
        rw [backed.items, hzero, Nat.zero_add] at hne
        exact hne rfl
      obtain ⟨t, hfree, ht⟩ := P.free_spec hheld
      refine ⟨true, { s with
        phys := t
        headers := Function.update s.headers b.fromAddress none }, ?_, ht, rfl, fun a ha => ?_⟩
      · rw [deallocate, fromPointer_backed backed hproper, Option.bind_eq_bind, Option.bind_some,
          if_neg hzero, backed.header, Option.bind_eq_bind, Option.bind_some, hfree]
        rfl
      · exact Function.update_of_ne (ha b List.mem_cons_self) _ _

end PhysicalAllocator

/-! ## Growth -/

namespace Vector

/-- The block that is held does not look large enough for `n` elements, and the physical
allocator refuses the number of bytes that `AllocationSize` returns. -/
def Refused (P : PhysicalMemory σ) (T : ElementType) (v : Vector) (s : Store σ α) (n : Nat) :
    Prop :=
  PhysicalAllocator.grow T s v.items n = some false ∧ 0 < T.allocationSize n ∧
    ∃ t, P.allocate s.phys (T.allocationSize n) = some (none, t)

/-- The vector has room for `n` elements, or their bytes do not wrap and its block is not
the one at address 0, or it is not given more room. -/
def Grows (P : PhysicalMemory σ) (T : ElementType) (v : Vector) (s : Store σ α) (n : Nat) : Prop :=
  n ≤ v.capacity ∨ (T.bytes n < 2 ^ 64 ∧ v.items ≠ T.offset) ∨ v.Refused P T s n

theorem max_capacity (h : v.capacity < n) : max (Word64.mul v.capacity 2 / 3) n = n := by
  have hmul : Word64.mul v.capacity 2 ≤ v.capacity * 2 := Nat.mod_le _ _
  omega

/-- What growth does: the elements stay, and the vector as well when it fails. -/
structure Grown (P : PhysicalMemory σ) (T : ElementType) (others : List Contigous) (xs : List α)
    (v : Vector) (n : Nat) (ok : Bool) (w : Vector) (t : Store σ α) : Prop where
  valid : ∃ owned, Valid P T others w t owned xs
  room : ok = true → n ≤ w.capacity
  same : ok = false → w = v

/-- The elements are moved into a new block. -/
theorem moveLoop_of_valid (hv : Valid P T others v s owned xs) {t : σ}
    (ht : P.Holds t (b :: (owned ++ others))) (hroom : T.offset + n * T.size ≤ b.size)
    (hn : xs.length ≤ n) :
    ∃ objects, moveLoop (v.address T) (T.itemAt (b.fromAddress + T.offset)) 0 v.size s.objects =
        some objects ∧
      ∀ i < xs.length, objects (T.itemAt (b.fromAddress + T.offset) i) = xs[i]? := by
  have hproper := P.proper ht b List.mem_cons_self
  have hlt := hproper.toAddress_lt
  have hsize := hv.size
  have hp : Set.InjOn (v.address T) (Set.Iio xs.length) :=
    hv.injOn.mono (Set.Iio_subset_Iio hv.fits)
  have hq : Set.InjOn (T.itemAt (b.fromAddress + T.offset)) (Set.Iio xs.length) :=
    (ElementType.injOn_itemAt (by omega)).mono (Set.Iio_subset_Iio hn)
  have hpq : ∀ i < xs.length, ∀ j < xs.length,
      v.address T i ≠ T.itemAt (b.fromAddress + T.offset) j := by
    intro i hi j hj heq
    have hnew : v.address T i ∈ b.bytes := by
      rw [heq]
      exact ElementType.itemAt_mem hroom hproper (by omega)
    have hfits := hv.fits
    cases hv.owns with
    | none _ capacity => omega
    | @block b' _ backed =>
        have hproper' := P.proper hv.held b' List.mem_cons_self
        have hold : v.address T i ∈ b'.bytes := by
          rw [Vector.address, backed.items]
          exact ElementType.itemAt_mem backed.room hproper' (by omega)
        have hdisjoint := (List.pairwise_cons.mp (P.disjoint ht)).1 b' List.mem_cons_self
        exact Set.disjoint_left.mp hdisjoint hnew hold
  obtain ⟨objects, hloop, hmoved, -⟩ := moveLoop_spec hp hq hpq (by omega : 0 + v.size ≤ xs.length)
    fun j _ hj => hv.isSome (by omega)
  refine ⟨objects, hloop, fun i hi => ?_⟩
  rw [hmoved i (Nat.zero_le i) (by omega), hv.stored i hi]

theorem reallocate_spec (hv : Valid P T others v s owned xs) (hn : n < 2 ^ 64)
    (hpos : 0 < n) (hsize : xs.length ≤ n)
    (hgrows : T.bytes n < 2 ^ 64 ∧ v.items ≠ T.offset ∨ v.Refused P T s n) :
    ∃ ok w t, v.reallocate P T s n = some (ok, w, t) ∧ Grown P T others xs v n ok w t := by
  have hbytes : 0 < T.allocationSize n := by
    rcases hgrows with ⟨hlt, -⟩ | ⟨-, h, -⟩
    · rw [ElementType.allocationSize_eq hn hlt]
      exact T.bytes_pos n
    · exact h
  rcases PhysicalAllocator.allocate_spec hv.held hbytes with
    ⟨t, hcall, ht⟩ | ⟨b, t, hphys, hcall, hsize', ht⟩
  · refine ⟨false, v, { s with phys := t }, ?_, ⟨⟨owned, ?_⟩, fun h => absurd h (by decide),
      fun _ => rfl⟩⟩
    · rw [reallocate, hcall]
      rfl
    · exact ⟨hv.size, hv.stored, hv.fits, hv.owns.congr rfl rfl rfl, ht⟩
  · -- a request that wraps is not granted here
    obtain ⟨hlt, hne⟩ : T.bytes n < 2 ^ 64 ∧ v.items ≠ T.offset := by
      refine hgrows.resolve_right fun hrefused => ?_
      obtain ⟨-, -, t', ht'⟩ := hrefused
      rw [hphys] at ht'
      cases ht'
    rw [ElementType.allocationSize_eq hn hlt] at hsize'
    have hroom : T.offset + n * T.size ≤ b.size := (T.offset_add_mul_le hpos).trans hsize'
    have hproper := P.proper ht b List.mem_cons_self
    have hend := hproper.toAddress_lt
    have hoffset := T.offset_pos
    have hword : Word64.add b.fromAddress T.offset = b.fromAddress + T.offset :=
      Word64.add_of_lt (by omega)
    obtain ⟨objects, hloop, hstored⟩ := moveLoop_of_valid hv ht hroom hsize
    -- the header of the new block is not the one of the old block
    have hold : ∀ b' ∈ owned, b'.fromAddress ≠ b.fromAddress := by
      intro b' hb' heq
      have hdisjoint := (List.pairwise_cons.mp (P.disjoint ht)).1 b' (List.mem_append_left _ hb')
      have hproper' := P.proper hv.held b' (List.mem_append_left _ hb')
      have hpos' := hproper'.size_pos
      have hpos := hproper.size_pos
      have hmem : b.fromAddress ∈ b.bytes := ⟨Nat.le_refl _, by omega⟩
      have hmem' : b.fromAddress ∈ b'.bytes := ⟨by omega, by omega⟩
      exact Set.disjoint_left.mp hdisjoint hmem hmem'
    have howns : Owns T v { s with
        phys := t
        headers := Function.update s.headers b.fromAddress (some b)
        objects := objects } owned := by
      cases hv.owns with
      | none items capacity => exact .none items capacity
      | @block b' capacity backed =>
          refine .block capacity ⟨?_, backed.items, backed.room⟩
          exact (Function.update_of_ne (hold b' List.mem_cons_self) _ _).trans backed.header
    have hheld : P.Holds t (owned ++ (b :: others)) := P.perm ht List.perm_middle.symm
    obtain ⟨ok, t', hfree, ht', hobjects, hheaders⟩ :=
      PhysicalAllocator.deallocate_spec howns hne hheld
    refine ⟨true, { v with items := b.fromAddress + T.offset, capacity := n }, t', ?_, ⟨⟨[b], ?_⟩,
      fun _ => Nat.le_refl n, fun h => absurd h (by decide)⟩⟩
    · simp only [reallocate, hcall, hword, Option.bind_eq_bind, Option.bind_some]
      rw [if_neg (by omega), hloop, Option.bind_some, hfree]
      rfl
    · refine ⟨hv.size, fun i hi => ?_, hsize, .block hpos ⟨?_, rfl, hroom⟩, ht'⟩
      · rw [hobjects]
        exact hstored i hi
      · rw [hheaders b.fromAddress fun b' hb' => (hold b' hb').symm]
        exact Function.update_self _ _ _

/-- Growth to a number of elements that does not reach the two defects. -/
theorem grow_spec (hv : Valid P T others v s owned xs) (hn : n < 2 ^ 64)
    (hgrows : v.Grows P T s n) :
    ∃ ok w t, v.grow P T s n = some (ok, w, t) ∧ Grown P T others xs v n ok w t := by
  rcases Nat.lt_or_ge v.capacity n with hlt | hge
  · have hgrows := hgrows.resolve_left (Nat.not_le.mpr hlt)
    have hfits := hv.fits
    have hmax := max_capacity hlt
    obtain ⟨inPlace, hcall⟩ : ∃ inPlace, PhysicalAllocator.grow T s v.items n = some inPlace := by
      cases hv.owns with
      | none items _ => exact ⟨_, PhysicalAllocator.grow_none items n⟩
      | block _ backed =>
          exact ⟨_, PhysicalAllocator.grow_backed backed
            (P.proper hv.held _ (List.mem_append_left _ List.mem_cons_self)) n⟩
    have hrun : v.grow P T s n =
        if inPlace then some (true, { v with capacity := n }, s) else v.reallocate P T s n := by
      simp only [grow, if_neg (Nat.not_le.mpr hlt), hmax, hcall, Option.bind_eq_bind,
        Option.bind_some]
      rfl
    cases inPlace with
    | false =>
        rw [hrun]
        exact reallocate_spec hv hn (by omega) (by omega) hgrows
    | true =>
        refine ⟨true, { v with capacity := n }, s, hrun, ⟨⟨owned, ?_⟩, fun _ => Nat.le_refl n,
          fun h => absurd h (by decide)⟩⟩
        refine ⟨hv.size, hv.stored, hfits.trans hlt.le, ?_, hv.held⟩
        obtain ⟨hbytes, -⟩ := hgrows.resolve_right fun hrefused => by
          rw [hrefused.1] at hcall
          cases hcall
        cases hv.owns with
        | none items _ =>
            rw [PhysicalAllocator.grow_none items n] at hcall
            cases hcall
        | @block b _ backed =>
            rw [PhysicalAllocator.grow_backed backed
              (P.proper hv.held b (List.mem_append_left _ List.mem_cons_self)) n] at hcall
            have hsize := of_decide_eq_true (Bool.and_eq_true_iff.mp (Option.some.inj hcall)).2
            rw [ge_iff_le, ElementType.allocationSize_eq hn hbytes] at hsize
            have hpos : 0 < n := by omega
            exact .block hpos
              ⟨backed.header, backed.items, (T.offset_add_mul_le hpos).trans hsize⟩
  · refine ⟨true, v, s, ?_, ⟨⟨owned, hv⟩, fun _ => hge, fun _ => rfl⟩⟩
    rw [grow, if_pos hge]
    rfl

/-! ## Elements -/

theorem place_spec (hv : Valid P T others v s owned xs) (item : α) {k : Nat}
    (hroom : xs.length + k ≤ v.capacity) :
    Valid P T others { v with size := xs.length + k }
      { s with objects := placeLoop (v.address T) item xs.length k s.objects } owned
      (xs ++ List.replicate k item) := by
  have hlength : (xs ++ List.replicate k item).length = xs.length + k := by
    rw [List.length_append, List.length_replicate]
  refine ⟨hlength.symm, fun i hi => ?_, hlength.le.trans hroom, hv.owns.congr rfl rfl rfl, hv.held⟩
  show placeLoop (v.address T) item xs.length k s.objects (v.address T i) = _
  have hinj := hv.injOn
  rcases Nat.lt_or_ge i xs.length with hlt | hge
  · have hne : ∀ j, xs.length ≤ j → j < xs.length + k → v.address T i ≠ v.address T j := by
      intro j hj hj' heq
      have hsame : i = j := hinj (Set.mem_Iio.mpr (by omega)) (Set.mem_Iio.mpr (by omega)) heq
      omega
    rw [placeLoop_of_ne hne, hv.stored i hlt, List.getElem?_append_left hlt]
  · rw [placeLoop_self hinj hroom hge (by omega), List.getElem?_append_right hge,
      List.getElem?_replicate, if_pos (by omega)]

/-- The elements from number `n` on are destroyed. -/
theorem destroy_spec (hv : Valid P T others v s owned xs) (hn : n ≤ xs.length) :
    ∃ objects, destroyLoop (v.address T) n (xs.length - n) s.objects = some objects ∧
      Valid P T others { v with size := n } { s with objects := objects } owned (xs.take n) := by
  have hlength : (xs.take n).length = n := List.length_take_of_le hn
  have hfits := hv.fits
  have hinj := hv.injOn
  obtain ⟨objects, hloop, hkept⟩ := destroyLoop_spec (k := xs.length - n) hinj
    (by omega : n + (xs.length - n) ≤ v.capacity) fun j _ hj => hv.isSome (by omega)
  refine ⟨objects, hloop, hlength.symm, fun i hi => ?_, hlength.le.trans (hn.trans hfits),
    hv.owns.congr rfl rfl rfl, hv.held⟩
  have hne : ∀ j, n ≤ j → j < n + (xs.length - n) → v.address T i ≠ v.address T j := by
    intro j hj hj' heq
    have hsame : i = j := hinj (Set.mem_Iio.mpr (by omega)) (Set.mem_Iio.mpr (by omega)) heq
    omega
  show objects (v.address T i) = _
  rw [hkept _ hne, hv.stored i (by omega), List.getElem?_take_of_lt (by omega)]

theorem clear_spec (hv : Valid P T others v s owned xs) :
    ∃ objects, v.clear T s = some ({ v with size := 0 }, { s with objects := objects }) ∧
      Valid P T others { v with size := 0 } { s with objects := objects } owned [] := by
  obtain ⟨objects, hloop, hvalid⟩ := destroy_spec hv (Nat.zero_le _)
  refine ⟨objects, ?_, hvalid⟩
  rw [Nat.sub_zero, ← hv.size] at hloop
  rw [clear, hloop]
  rfl

/-! ## Operations

`ys` is what the list becomes when the operation returns true. -/

/-- The vector holds `ys`, or it is the same and holds `xs`. -/
structure Becomes (P : PhysicalMemory σ) (T : ElementType) (others : List Contigous)
    (v : Vector) (xs ys : List α) (ok : Bool) (w : Vector) (t : Store σ α) : Prop where
  valid : ∃ owned, Valid P T others w t owned (if ok then ys else xs)
  same : ok = false → w = v

/-- An operation that first makes room, and then does not fail. -/
theorem becomes_of_grow {f : Vector → Store σ α → Option (Bool × Vector × Store σ α)}
    {ys : List α} (hv : Valid P T others v s owned xs) (hn : n < 2 ^ 64)
    (hgrows : v.Grows P T s n)
    (hf : ∀ w t owned, Valid P T others w t owned xs → n ≤ w.capacity →
      ∃ w' t', f w t = some (true, w', t') ∧ Valid P T others w' t' owned ys) :
    ∃ ok w t, (do
        let (ok, w, t) ← v.grow P T s n
        if !ok then return (false, w, t)
        f w t) = some (ok, w, t) ∧ Becomes P T others v xs ys ok w t := by
  obtain ⟨ok, w, t, hgrow, ⟨owned', hw⟩, hroom, hsame⟩ := grow_spec hv hn hgrows
  rw [hgrow]
  cases ok with
  | false => exact ⟨false, w, t, rfl, ⟨owned', hw⟩, hsame⟩
  | true =>
      obtain ⟨w', t', hcall, hvalid⟩ := hf w t owned' hw (hroom rfl)
      exact ⟨true, w', t', hcall, ⟨owned', hvalid⟩, fun h => absurd h (by decide)⟩

theorem pushBack_spec (hv : Valid P T others v s owned xs) (item : α)
    (hgrows : v.Grows P T s (Word64.add v.size 1)) :
    ∃ ok w t, v.pushBack P T s item = some (ok, w, t) ∧
      Becomes P T others v xs (xs ++ [item]) ok w t := by
  have hlt := hv.capacity_lt
  have hfits := hv.fits
  have hnext : Word64.add xs.length 1 = xs.length + 1 := Word64.add_of_lt (by omega)
  refine becomes_of_grow (f := fun w t => some (true, { w with size := Word64.add w.size 1 },
    { t with objects := placeAt t.objects (w.address T w.size) item }))
    hv (Word64.add_lt _ _) hgrows fun w t owned' hw hroom => ?_
  rw [hv.size, hnext] at hroom
  refine ⟨{ w with size := xs.length + 1 },
    { t with objects := placeLoop (w.address T) item xs.length 1 t.objects }, ?_,
    place_spec hw item hroom⟩
  rw [hw.size, hnext]
  rfl

theorem popBack_spec (hv : Valid P T others v s owned xs) :
    ∃ ok w t, v.popBack T s = some (ok, w, t) ∧ Becomes P T others v xs xs.dropLast ok w t ∧
      (ok = true ↔ xs ≠ []) := by
  have hsize := hv.size
  by_cases hzero : v.size = 0
  · have hnil : xs = [] := List.eq_nil_of_length_eq_zero (by omega)
    refine ⟨false, v, s, ?_, ⟨⟨owned, hv⟩, fun _ => rfl⟩, ?_⟩
    · rw [popBack, if_pos hzero]
      rfl
    · exact iff_of_false (by decide) (not_not.mpr hnil)
  · have hne : xs ≠ [] := List.ne_nil_of_length_pos (by omega)
    obtain ⟨objects, hloop, hvalid⟩ := destroy_spec hv (Nat.sub_le xs.length 1)
    have hone : xs.length - (xs.length - 1) = 1 := by omega
    rw [hone, destroyLoop, ← hsize] at hloop
    refine ⟨true, { v with size := xs.length - 1 }, { s with objects := objects }, ?_,
      ⟨⟨owned, ?_⟩, fun h => absurd h (by decide)⟩, iff_of_true rfl hne⟩
    · obtain ⟨objects', hdestroy, hrest⟩ := Option.bind_eq_some_iff.mp hloop
      obtain rfl := Option.some.inj hrest
      simp only [popBack, if_neg hzero, hdestroy, Option.bind_eq_bind, Option.bind_some, ← hsize]
      rfl
    · rw [if_pos rfl, List.dropLast_eq_take]
      exact hvalid

theorem assign_spec (hv : Valid P T others v s owned xs) {count : Nat} (item : α)
    (hcount : count < 2 ^ 64) (hgrows : v.Grows P T s count) :
    ∃ ok w t, v.assign P T s count item = some (ok, w, t) ∧
      Becomes P T others v xs (List.replicate count item) ok w t := by
  refine becomes_of_grow (f := fun w t => (w.clear T t).bind fun r =>
    some (true, { r.1 with size := count },
      { r.2 with objects := placeLoop (r.1.address T) item 0 count r.2.objects }))
    hv hcount hgrows fun w t owned' hw hroom => ?_
  obtain ⟨objects, hclear, hcleared⟩ := clear_spec hw
  have hplaced := place_spec hcleared item
    ((Nat.zero_add count).le.trans hroom : ([] : List α).length + count ≤ w.capacity)
  rw [List.nil_append, List.length_nil, Nat.zero_add] at hplaced
  refine ⟨_, _, ?_, hplaced⟩
  rw [hclear]
  rfl

theorem resize_spec (hv : Valid P T others v s owned xs) {size : Nat} (item : α)
    (hsize : size < 2 ^ 64) (hgrows : v.Grows P T s size) :
    ∃ ok w t, v.resize P T s size item = some (ok, w, t) ∧
      Becomes P T others v xs (xs.take size ++ List.replicate (size - xs.length) item) ok w t := by
  refine becomes_of_grow (f := fun w t =>
    if size > w.size then
      some (true, { w with size },
        { t with objects := placeLoop (w.address T) item w.size (size - w.size) t.objects })
    else do
      let objects ← destroyLoop (w.address T) size (w.size - size) t.objects
      return (true, { w with size }, { t with objects }))
    hv hsize hgrows fun w t owned' hw hroom => ?_
  rw [hw.size]
  rcases Nat.lt_or_ge xs.length size with hlt | hge
  · have hsum : xs.length + (size - xs.length) = size := by omega
    have hplaced := place_spec hw item (hsum.le.trans hroom)
    rw [hsum] at hplaced
    refine ⟨{ w with size },
      { t with objects := placeLoop (w.address T) item xs.length (size - xs.length) t.objects },
      ?_, ?_⟩
    · rw [if_pos hlt]
    · rw [List.take_of_length_le hlt.le]
      exact hplaced
  · obtain ⟨objects, hloop, hvalid⟩ := destroy_spec hw hge
    refine ⟨{ w with size }, { t with objects := objects }, ?_, ?_⟩
    · rw [if_neg (Nat.not_lt.mpr hge), hloop]
      rfl
    · rw [Nat.sub_eq_zero_of_le hge, List.replicate_zero, List.append_nil]
      exact hvalid

end Vector

end Aarch64.Cxx.Common
