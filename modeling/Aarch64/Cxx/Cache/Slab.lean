import Aarch64.Cxx.Cache.Basic
import Mathlib.Data.List.Perm.Lattice
import Mathlib.Data.List.Nodup

/-!
# One slab

`HeldSlab` is the contents of a control structure together with the objects that
have been taken from the slab. As long as clients return what they took, the
freelist and the taken objects are the objects of the layout, each of them once. A slab
at address 0 has one object less, because its first object is the null pointer: a new
slab is asked for an object at once, and that call takes the null pointer off the
freelist for good. The lemmas are one for each operation of `Slab`, and the geometry of
the objects.
-/

namespace Aarch64.Cxx

/-! ## Objects of a slab -/

/-- The objects of a slab that starts at `base`. -/
def Layout.objectsAt (l : Layout) (base : Nat) : List Nat :=
  (List.range l.objects).map fun i => base + i * l.objectSize

/-- Those of them that clients can have. -/
def Layout.usableAt (l : Layout) (base : Nat) : List Nat :=
  (l.objectsAt base).filter fun p => decide (p ≠ 0)

namespace Layout.WellFormed

variable {l : Layout} {base p q : Nat}

theorem objectSize_pos (h : l.WellFormed) : 0 < l.objectSize :=
  Nat.lt_of_lt_of_le (by decide) h.storage_le

theorem objectSize_lt (h : l.WellFormed) : l.objectSize < 2 ^ 64 := by
  have hle : l.objectSize * 1 ≤ l.objectSize * l.objects :=
    Nat.mul_le_mul_left _ (Nat.le_of_succ_le h.two_le)
  have hlt := h.slabSize_lt
  have hcontrol := h.control
  have hfits := h.fits
  omega

/-- A word can count one object more. -/
theorem objects_lt (h : l.WellFormed) : l.objects + 1 < 2 ^ 64 := by
  have hle : 24 * l.objects ≤ l.objectSize * l.objects := Nat.mul_le_mul_right _ h.storage_le
  have hlt := h.slabSize_lt
  have hcontrol := h.control
  have hfits := h.fits
  omega

theorem controlOffset_lt (h : l.WellFormed) : l.controlOffset < l.slabSize := by
  have hcontrol := h.control
  change l.controlOffset + 72 = _ at hcontrol
  omega

@[simp] theorem mem_objectsAt : p ∈ l.objectsAt base ↔ ∃ i < l.objects, p = base + i * l.objectSize := by
  simp only [objectsAt, List.mem_map, List.mem_range]
  constructor
  · rintro ⟨i, hi, rfl⟩
    exact ⟨i, hi, rfl⟩
  · rintro ⟨i, hi, rfl⟩
    exact ⟨i, hi, rfl⟩

theorem nodup_objectsAt (h : l.WellFormed) (base : Nat) : (l.objectsAt base).Nodup := by
  refine List.Nodup.map (fun i j hij => ?_) List.nodup_range
  exact Nat.eq_of_mul_eq_mul_right h.objectSize_pos (Nat.add_left_cancel hij)

@[simp] theorem mem_usableAt : p ∈ l.usableAt base ↔ p ∈ l.objectsAt base ∧ p ≠ 0 := by
  rw [usableAt, List.mem_filter, decide_eq_true_iff]

theorem nodup_usableAt (h : l.WellFormed) (base : Nat) : (l.usableAt base).Nodup :=
  (h.nodup_objectsAt base).filter _

theorem range_objects (h : l.WellFormed) :
    List.range' 0 l.objects = 0 :: List.range' 1 (l.objects - 1) := by
  obtain ⟨n, hn⟩ := Nat.exists_eq_add_of_le' h.two_le
  rw [hn]
  rfl

/-- The first object is the only one that can be the null pointer. -/
theorem usableAt_eq (h : l.WellFormed) (base : Nat) :
    l.usableAt base = (if base = 0 then [] else [base]) ++
      (List.range' 1 (l.objects - 1)).map fun i => base + i * l.objectSize := by
  have hpos := h.objectSize_pos
  have hrest : ((List.range' 1 (l.objects - 1)).map fun i => base + i * l.objectSize).filter
      (fun p => decide (p ≠ 0)) =
        (List.range' 1 (l.objects - 1)).map fun i => base + i * l.objectSize := by
    refine List.filter_eq_self.mpr (List.forall_mem_map.mpr fun i hi => decide_eq_true ?_)
    have hone := (List.mem_range'_1.mp hi).1
    have hmul := Nat.mul_le_mul hone hpos
    omega
  rw [usableAt, objectsAt, List.range_eq_range', h.range_objects, List.map_cons, Nat.zero_mul, Nat.add_zero]
  by_cases hbase : base = 0
  · rw [List.filter_cons_of_neg (by simpa using hbase), hrest, if_pos hbase, List.nil_append]
  · rw [List.filter_cons_of_pos (by simpa using hbase), hrest, if_neg hbase, List.singleton_append]

theorem length_usableAt (h : l.WellFormed) (base : Nat) :
    (l.usableAt base).length + (if base = 0 then 1 else 0) = l.objects := by
  have htwo := h.two_le
  rw [h.usableAt_eq, List.length_append, List.length_map, List.length_range']
  split
  next => rw [List.length_nil]; omega
  next => rw [List.length_singleton]; omega

/-- Objects end before the control structure. -/
theorem object_le (h : l.WellFormed) (hp : p ∈ l.objectsAt base) :
    base ≤ p ∧ p + l.objectSize ≤ base + l.controlOffset := by
  obtain ⟨i, hi, rfl⟩ := mem_objectsAt.mp hp
  have hle : (i + 1) * l.objectSize ≤ l.objects * l.objectSize := Nat.mul_le_mul_right _ hi
  have hfits := h.fits
  rw [Nat.mul_comm] at hfits
  rw [Nat.succ_mul] at hle
  omega

/-- Different objects of one slab do not overlap. -/
theorem object_apart (hp : p ∈ l.objectsAt base) (hq : q ∈ l.objectsAt base) (hne : p ≠ q) :
    p + l.objectSize ≤ q ∨ q + l.objectSize ≤ p := by
  obtain ⟨i, _, rfl⟩ := mem_objectsAt.mp hp
  obtain ⟨j, _, rfl⟩ := mem_objectsAt.mp hq
  rcases Nat.lt_trichotomy i j with hlt | rfl | hlt
  · left
    have hle : (i + 1) * l.objectSize ≤ j * l.objectSize := Nat.mul_le_mul_right _ hlt
    rw [Nat.succ_mul] at hle
    omega
  · exact absurd rfl hne
  · right
    have hle : (j + 1) * l.objectSize ≤ i * l.objectSize := Nat.mul_le_mul_right _ hlt
    rw [Nat.succ_mul] at hle
    omega

end Layout.WellFormed

/-! ## Slabs and the objects taken from them -/

structure HeldSlab where
  slab : Slab
  taken : List Nat

namespace HeldSlab

def base (h : HeldSlab) : Nat := h.slab.memory.fromAddress

/-- The address of the control structure. -/
def addr (l : Layout) (h : HeldSlab) : Nat := h.base + l.controlOffset

/-- The objects that are taken after a call of `Allocate` that returns `p`. -/
def took (p : Nat) (taken : List Nat) : List Nat := if p = 0 then taken else p :: taken

@[simp] theorem took_zero (taken : List Nat) : took 0 taken = taken := if_pos rfl

@[simp] theorem took_of_ne {p : Nat} (hp : p ≠ 0) (taken : List Nat) :
    took p taken = p :: taken :=
  if_neg hp

/-- What is true of a slab between two operations. -/
structure Valid (l : Layout) (this : Nat) (h : HeldSlab) : Prop where
  owner : h.slab.cache = this
  proper : h.slab.memory.Proper
  size : h.slab.memory.size = l.slabSize
  objects : (h.slab.freelist.map Storage.pointer ++ h.taken).Perm (l.usableAt h.base)
  allocated : h.slab.allocated = h.taken.length

variable {l : Layout} {this : Nat} {h : HeldSlab}

theorem Valid.length_eq (hv : h.Valid l this) (hl : l.WellFormed) :
    h.slab.freelist.length + h.taken.length + (if h.base = 0 then 1 else 0) = l.objects := by
  rw [← hl.length_usableAt h.base, ← hv.objects.length_eq, List.length_append, List.length_map]

theorem Valid.mem_objectsAt (hv : h.Valid l this) {p : Nat} (hp : p ∈ h.taken) :
    p ∈ l.objectsAt h.base :=
  (Layout.WellFormed.mem_usableAt.mp (hv.objects.subset (List.mem_append_right _ hp))).1

/-- Nobody has the null pointer. -/
theorem Valid.ne_zero (hv : h.Valid l this) {p : Nat} (hp : p ∈ h.taken) : p ≠ 0 :=
  (Layout.WellFormed.mem_usableAt.mp (hv.objects.subset (List.mem_append_right _ hp))).2

theorem Valid.taken_nodup (hv : h.Valid l this) (hl : l.WellFormed) : h.taken.Nodup :=
  (List.nodup_append.mp (hv.objects.symm.nodup (hl.nodup_usableAt h.base))).2.1

theorem Valid.base_add_lt (hv : h.Valid l this) : h.base + l.slabSize < 2 ^ 64 := by
  have hlt := hv.proper.toAddress_lt
  rwa [hv.size] at hlt

/-- The control structure lies in the block. -/
theorem Valid.addr_mem (hv : h.Valid l this) (hl : l.WellFormed) :
    h.addr l ∈ h.slab.memory.bytes := by
  have hlt := hl.controlOffset_lt
  refine ⟨Nat.le_add_right _ _, ?_⟩
  rw [hv.size]
  exact Nat.add_lt_add_left hlt _

/-- The address does not depend on the objects that are taken. -/
theorem addr_congr {h h' : HeldSlab} (l : Layout) (hmemory : h'.slab.memory = h.slab.memory) :
    h'.addr l = h.addr l := by
  rw [addr, base, hmemory]
  rfl

theorem addr_pos (hl : l.WellFormed) (h : HeldSlab) : 0 < h.addr l := by
  have hfits := hl.fits
  have hle : 24 * 2 ≤ l.objectSize * l.objects := Nat.mul_le_mul hl.storage_le hl.two_le
  change 0 < _ + _
  omega

theorem Valid.taken_mem_bytes (hv : h.Valid l this) (hl : l.WellFormed) {p : Nat}
    (hp : p ∈ h.taken) : p ∈ h.slab.memory.bytes := by
  obtain ⟨hge, hle⟩ := hl.object_le (hv.mem_objectsAt hp)
  have hcontrol := hl.control
  have hpos := hl.objectSize_pos
  refine ⟨hge, ?_⟩
  rw [hv.size]
  change p < h.base + _
  omega

end HeldSlab

/-! ## Operations -/

theorem Slab.freelistLoop_spec {base size n : Nat} (hsize : 0 < size)
    (hfits : base + n * size < 2 ^ 64) : ∀ k i, i + k = n →
    Slab.freelistLoop (base + i * size) (base + n * size) size =
      some ((List.range' i k).map fun j => ⟨base + j * size⟩) := by
  intro k
  induction k with
  | zero =>
      intro i hi
      rw [freelistLoop, if_neg (by rw [← hi]; exact Nat.lt_irrefl _)]
      rfl
  | succ k ih =>
      intro i hi
      have hstep : base + i * size + size = base + (i + 1) * size := by
        rw [Nat.succ_mul, Nat.add_assoc]
      have hle : (i + 1) * size ≤ n * size := Nat.mul_le_mul_right _ (by omega)
      have hnext : Word64.add (base + i * size) size = base + (i + 1) * size := by
        rw [Word64.add_of_lt (by omega), hstep]
      rw [freelistLoop, if_pos (by omega), hnext, if_pos (by omega), ih (i + 1) (by omega)]
      rfl

/-- The constructor puts every object on the freelist. -/
theorem Slab.new_eq {l : Layout} (hl : l.WellFormed) (this : Nat) {m : Contigous}
    (hproper : m.Proper) (hsize : m.size = l.slabSize) :
    Slab.new this m l = some
      ⟨(List.range' 0 l.objects).map fun j => ⟨m.fromAddress + j * l.objectSize⟩, 0, this, m⟩ := by
  have hend := hproper.toAddress_lt
  have hfits := hl.fits
  have hcontrol := hl.control
  rw [Nat.mul_comm] at hfits
  have hroom : m.fromAddress + l.objects * l.objectSize < 2 ^ 64 := by omega
  have hfrom : Word64.add m.fromAddress l.objectOffset = m.fromAddress := by
    rw [hl.objectOffset_eq]
    exact Word64.add_of_lt (by omega)
  have hto : Word64.add m.fromAddress (Word64.mul l.objectSize l.objects) =
      m.fromAddress + l.objects * l.objectSize := by
    rw [Word64.mul_of_lt (by rw [Nat.mul_comm]; omega), Nat.mul_comm, Word64.add_of_lt hroom]
  have hloop := freelistLoop_spec hl.objectSize_pos hroom l.objects 0 (Nat.zero_add _)
  rw [Nat.zero_mul, Nat.add_zero] at hloop
  rw [Slab.new]
  simp only [hfrom, hto, hloop, Option.bind_eq_bind, Option.bind_some]
  rfl

/-- A new slab hands out its first object, which is the null pointer at address 0. -/
theorem Slab.new_spec {l : Layout} (hl : l.WellFormed) (this : Nat) {m : Contigous}
    (hproper : m.Proper) (hsize : m.size = l.slabSize) :
    ∃ s s', Slab.new this m l = some s ∧ s.allocate = (m.fromAddress, s') ∧ s'.memory = m ∧
      HeldSlab.Valid l this ⟨s', HeldSlab.took m.fromAddress []⟩ := by
  rw [new_eq hl this hproper hsize, hl.range_objects, List.map_cons, Nat.zero_mul, Nat.add_zero]
  set rest : List Storage :=
    (List.range' 1 (l.objects - 1)).map fun j => ⟨m.fromAddress + j * l.objectSize⟩ with hdef
  have hrest : rest.map Storage.pointer =
      (List.range' 1 (l.objects - 1)).map fun i => m.fromAddress + i * l.objectSize := by
    rw [hdef, List.map_map]
    rfl
  by_cases hzero : m.fromAddress = 0
  · refine ⟨_, ⟨rest, 0, this, m⟩, rfl, ?_, rfl, rfl, hproper, hsize, ?_, ?_⟩
    · rw [Slab.allocate]
      simp only [hzero, if_true]
    · change (rest.map _ ++ HeldSlab.took m.fromAddress []).Perm (l.usableAt m.fromAddress)
      rw [hrest, hl.usableAt_eq, if_pos hzero, hzero, HeldSlab.took_zero, List.append_nil]
      exact List.Perm.refl _
    · change 0 = (HeldSlab.took m.fromAddress []).length
      rw [hzero, HeldSlab.took_zero]
      rfl
  · refine ⟨_, ⟨rest, 1, this, m⟩, rfl, if_neg hzero, rfl, rfl, hproper, hsize, ?_, ?_⟩
    · change (rest.map _ ++ HeldSlab.took m.fromAddress []).Perm (l.usableAt m.fromAddress)
      rw [hrest, hl.usableAt_eq, if_neg hzero, HeldSlab.took_of_ne hzero]
      exact List.perm_append_comm
    · change 1 = (HeldSlab.took m.fromAddress []).length
      rw [HeldSlab.took_of_ne hzero]
      rfl

/-- Taking an object while there is one. Only the slab at address 0 runs out before all of its
objects have been taken. -/
theorem HeldSlab.Valid.allocate_spec {l : Layout} {this : Nat} {h : HeldSlab} (hl : l.WellFormed)
    (hv : h.Valid l this) (hroom : h.base ≠ 0 → h.taken.length < l.objects) :
    ∃ p s, h.slab.allocate = (p, s) ∧ s.memory = h.slab.memory ∧
      HeldSlab.Valid l this ⟨s, took p h.taken⟩ ∧
      (p = 0 → h.base = 0 ∧ h.taken.length + 1 = l.objects) := by
  have hlen := hv.length_eq hl
  have hlt := hl.objects_lt
  have hperm := hv.objects
  rw [Slab.allocate]
  cases hlist : h.slab.freelist with
  | nil =>
      rw [hlist, List.length_nil, Nat.zero_add] at hlen
      have hbase : h.base = 0 := by
        by_contra hne
        rw [if_neg hne] at hlen
        exact absurd (hroom hne) (by omega)
      rw [if_pos hbase] at hlen
      exact ⟨0, h.slab, rfl, rfl, by rwa [took_zero], fun _ => ⟨hbase, hlen⟩⟩
  | cons storage rest =>
      rw [hlist, List.map_cons, List.cons_append] at hperm
      have hne : storage.pointer ≠ 0 :=
        (Layout.WellFormed.mem_usableAt.mp (hperm.subset List.mem_cons_self)).2
      rw [hlist, List.length_cons] at hlen
      refine ⟨storage.pointer, _, if_neg hne, rfl, ?_, fun hzero => absurd hzero hne⟩
      rw [took_of_ne hne]
      refine ⟨hv.owner, hv.proper, hv.size, List.perm_middle.trans hperm, ?_⟩
      change Word64.add h.slab.allocated 1 = h.taken.length + 1
      rw [hv.allocated, Word64.add_of_lt (by omega)]

/-- Returning an object that has been taken. -/
theorem HeldSlab.Valid.free_spec {l : Layout} {this : Nat} {h : HeldSlab} {p : Nat}
    (hl : l.WellFormed) (hv : h.Valid l this) (hp : p ∈ h.taken) :
    ∃ s, h.slab.free p = (true, s) ∧ s.memory = h.slab.memory ∧
      HeldSlab.Valid l this ⟨s, h.taken.erase p⟩ := by
  have hlen := hv.length_eq hl
  have hlt := hl.objects_lt
  have hpos := List.length_pos_of_mem hp
  obtain ⟨hge, hend⟩ := hv.taken_mem_bytes hl hp
  have hinside : ¬ (p < h.slab.memory.fromAddress ∨ p ≥ h.slab.memory.toAddress) := by
    rw [hv.proper.toAddress_eq]
    omega
  refine ⟨⟨⟨p⟩ :: h.slab.freelist, Word64.sub h.slab.allocated 1, h.slab.cache, h.slab.memory⟩,
    by rw [Slab.free, if_neg hinside], rfl, hv.owner, hv.proper, hv.size, ?_, ?_⟩
  · change (p :: (h.slab.freelist.map Storage.pointer ++ h.taken.erase p)).Perm _
    refine List.Perm.trans ?_ hv.objects
    exact List.perm_middle.symm.trans ((List.perm_cons_erase hp).symm.append_left _)
  · change Word64.sub h.slab.allocated 1 = (h.taken.erase p).length
    rw [hv.allocated, Word64.sub_of_le hpos (by omega), List.length_erase_of_mem hp]

/-- `Find` leads from an object to the control structure of its slab. -/
theorem SlabAllocator.find_spec {l : Layout} {this allocated p : Nat} {h : HeldSlab}
    {slabs : Nat → Option Slab} (hl : l.WellFormed) (hv : h.Valid l this)
    (hstored : slabs (h.addr l) = some h.slab) (hp : p ∈ h.slab.memory.bytes) :
    SlabAllocator.find ⟨allocated, l⟩ slabs p = some (h.addr l) := by
  have hhead : alignDown p l.slabSize = h.base := by
    rw [← hv.size]
    exact hv.proper.alignDown_eq hp
  have hslab : Word64.add h.base l.controlOffset = h.addr l := by
    have hlt := hv.base_add_lt
    have hcontrol := hl.controlOffset_lt
    exact Word64.add_of_lt (by omega)
  obtain ⟨hge, hend⟩ := hp
  have hinside : ¬ (p < h.slab.memory.fromAddress ∨ p ≥ h.slab.memory.toAddress) := by
    rw [hv.proper.toAddress_eq]
    omega
  rw [find]
  simp only [hhead, hslab, hstored, Option.bind_eq_bind, Option.bind_some, if_neg hinside]
  rfl

end Aarch64.Cxx
