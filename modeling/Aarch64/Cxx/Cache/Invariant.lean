import Aarch64.Cxx.Cache.Slab
import Aarch64.Lib.Packing
import Mathlib.Tactic.Tauto

/-!
# The invariant of a cache

`SlabLists` is what the three lists of a cache stand for: the slabs with their
contents and the objects taken from them. `Cache.Inv` ties a cache and the control
structures in memory to it. `Stored`, the part of the invariant about memory, does
not depend on the list a slab is on, so the list moves of `Allocate` and `Free` are
permutations as far as it is concerned.

A slab at address 0 counts one object less than the lists go by, and may be on `partial_`
without an object or on `full_` with room. So what the lists say of the number of objects is
about the other slabs only, and the counter of the cache is kept apart from the invariant.
-/

namespace Aarch64.Cxx

structure SlabLists where
  free : List HeldSlab
  partly : List HeldSlab
  full : List HeldSlab

namespace SlabLists

def all (g : SlabLists) : List HeldSlab := g.free ++ (g.partly ++ g.full)

/-- The physical blocks of the slabs. -/
def blocks (g : SlabLists) : List Contigous := g.all.map fun h => h.slab.memory

/-- The objects that have been taken, each with the address of its slab. -/
def taken (l : Layout) (g : SlabLists) : List (Nat × Nat) :=
  g.all.flatMap fun h => h.taken.map fun p => (p, h.addr l)

/-- The lists without the slab whose control structure is at `a`. -/
def without (l : Layout) (g : SlabLists) (a : Nat) : SlabLists where
  free := g.free.filter fun h => decide (h.addr l ≠ a)
  partly := g.partly.filter fun h => decide (h.addr l ≠ a)
  full := g.full.filter fun h => decide (h.addr l ≠ a)

/-- The lists with `h` in the place of the slab that was at its address. -/
def put (l : Layout) (g : SlabLists) (h : HeldSlab) : SlabLists where
  free := g.free.map fun k => if k.addr l = h.addr l then h else k
  partly := g.partly.map fun k => if k.addr l = h.addr l then h else k
  full := g.full.map fun k => if k.addr l = h.addr l then h else k

variable {l : Layout} {g g' : SlabLists} {h h' : HeldSlab} {rest : List HeldSlab}

@[simp] theorem all_without (a : Nat) :
    (g.without l a).all = g.all.filter fun h => decide (h.addr l ≠ a) := by
  simp only [all, without, List.filter_append]

@[simp] theorem all_put (h : HeldSlab) :
    (g.put l h).all = g.all.map fun k => if k.addr l = h.addr l then h else k := by
  simp only [all, put, List.map_append]

theorem free_without {a : Nat} (hne : ∀ h ∈ g.free, h.addr l ≠ a) :
    (g.without l a).free = g.free :=
  List.filter_eq_self.mpr fun h hh => decide_eq_true (hne h hh)

theorem perm_partly (h : HeldSlab) :
    ({ g with partly := h :: g.partly } : SlabLists).all.Perm (h :: g.all) :=
  List.perm_middle

theorem perm_full (h : HeldSlab) :
    ({ g with full := h :: g.full } : SlabLists).all.Perm (h :: g.all) :=
  (List.perm_middle.append_left g.free).trans List.perm_middle

/-- A slab is at its address alone. -/
theorem exists_split (hnodup : (g.all.map (HeldSlab.addr l)).Nodup) (hh : h ∈ g.all) :
    ∃ xs ys, g.all = xs ++ h :: ys ∧ ∀ k ∈ xs ++ ys, k.addr l ≠ h.addr l := by
  obtain ⟨xs, ys, hsplit⟩ := List.append_of_mem hh
  refine ⟨xs, ys, hsplit, fun k hk heq => ?_⟩
  rw [hsplit, (List.perm_middle.map _).nodup_iff, List.map_cons, List.nodup_cons] at hnodup
  exact hnodup.1 (List.mem_map.mpr ⟨k, hk, heq⟩)

theorem all_without_of_split {xs ys : List HeldSlab} (hsplit : g.all = xs ++ h :: ys)
    (hne : ∀ k ∈ xs ++ ys, k.addr l ≠ h.addr l) : (g.without l (h.addr l)).all = xs ++ ys := by
  have hhead : (h :: ys).filter (fun k => decide (k.addr l ≠ h.addr l)) =
      ys.filter fun k => decide (k.addr l ≠ h.addr l) :=
    List.filter_cons_of_neg (by simp)
  rw [all_without, hsplit, List.filter_append, hhead, ← List.filter_append]
  exact List.filter_eq_self.mpr fun k hk => decide_eq_true (hne k hk)

theorem perm_without (hnodup : (g.all.map (HeldSlab.addr l)).Nodup) (hh : h ∈ g.all) :
    g.all.Perm (h :: (g.without l (h.addr l)).all) := by
  obtain ⟨xs, ys, hsplit, hne⟩ := exists_split hnodup hh
  rw [all_without_of_split hsplit hne, hsplit]
  exact List.perm_middle

theorem perm_put (hnodup : (g.all.map (HeldSlab.addr l)).Nodup) (hh : h ∈ g.all)
    (haddr : h'.addr l = h.addr l) :
    (g.put l h').all.Perm (h' :: (g.without l (h.addr l)).all) := by
  obtain ⟨xs, ys, hsplit, hne⟩ := exists_split hnodup hh
  have hmap : ∀ zs : List HeldSlab, (∀ k ∈ zs, k.addr l ≠ h.addr l) →
      (zs.map fun k => if k.addr l = h'.addr l then h' else k) = zs := by
    intro zs hzs
    refine (List.map_congr_left fun k hk => ?_).trans (List.map_id zs)
    rw [haddr]
    exact if_neg (hzs k hk)
  rw [all_put, all_without_of_split hsplit hne, hsplit, List.map_append, List.map_cons,
    if_pos haddr.symm, hmap xs fun k hk => hne k (List.mem_append_left _ hk),
    hmap ys fun k hk => hne k (List.mem_append_right _ hk)]
  exact List.perm_middle

@[simp] theorem mem_taken {p slab : Nat} :
    (p, slab) ∈ g.taken l ↔ ∃ h ∈ g.all, p ∈ h.taken ∧ h.addr l = slab := by
  simp only [taken, List.mem_flatMap, List.mem_map, Prod.mk.injEq]
  constructor
  · rintro ⟨h, hh, q, hq, rfl, rfl⟩
    exact ⟨h, hh, hq, rfl⟩
  · rintro ⟨h, hh, hp, rfl⟩
    exact ⟨h, hh, p, hp, rfl, rfl⟩

theorem taken_perm (hperm : g.all.Perm (h :: rest)) :
    (g.taken l).Perm (h.taken.map (fun p => (p, h.addr l)) ++
      rest.flatMap fun h => h.taken.map fun p => (p, h.addr l)) := by
  have hmap := hperm.flatMap_right fun h => h.taken.map fun p => (p, h.addr l)
  rwa [List.flatMap_cons] at hmap

theorem blocks_perm (hperm : g.all.Perm (h :: rest)) :
    g.blocks.Perm (h.slab.memory :: rest.map fun h => h.slab.memory) :=
  hperm.map _

/-- Replacing a slab by one in which another object is taken. -/
theorem taken_cons {p : Nat} (hperm : g.all.Perm (h :: rest)) (hperm' : g'.all.Perm (h' :: rest))
    (haddr : h'.addr l = h.addr l) (htaken : h'.taken.Perm (p :: h.taken)) :
    (g'.taken l).Perm ((p, h.addr l) :: g.taken l) := by
  have hmap := htaken.map fun q => (q, h.addr l)
  refine (taken_perm hperm').trans ?_
  rw [haddr]
  exact (hmap.append_right _).trans ((taken_perm hperm).symm.cons _)

/-- Replacing a slab by the one that a call of `Allocate` leaves. -/
theorem taken_took {p : Nat} (hperm : g.all.Perm (h :: rest)) (hperm' : g'.all.Perm (h' :: rest))
    (haddr : h'.addr l = h.addr l) (htaken : h'.taken = HeldSlab.took p h.taken) :
    (g'.taken l).Perm (if p = 0 then g.taken l else (p, h.addr l) :: g.taken l) := by
  split
  next hp =>
    rw [hp, HeldSlab.took_zero] at htaken
    refine (taken_perm hperm').trans ?_
    rw [haddr, htaken]
    exact (taken_perm hperm).symm
  next hp =>
    rw [HeldSlab.took_of_ne hp] at htaken
    exact taken_cons hperm hperm' haddr (List.Perm.of_eq htaken)

theorem blocks_congr (hperm : g.all.Perm (h :: rest)) (hperm' : g'.all.Perm (h' :: rest))
    (hmemory : h'.slab.memory = h.slab.memory) : g'.blocks.Perm g.blocks := by
  refine (blocks_perm hperm').trans ?_
  rw [hmemory]
  exact (blocks_perm hperm).symm

end SlabLists

/-- Each slab is on the list that fits the number of its objects taken, apart from the slab at
address 0. -/
structure SlabLists.Status (objects : Nat) (g : SlabLists) : Prop where
  free : ∀ h ∈ g.free, h.taken = []
  partly : ∀ h ∈ g.partly, h.base ≠ 0 → 0 < h.taken.length ∧ h.taken.length < objects
  full : ∀ h ∈ g.full, h.base ≠ 0 → h.taken.length = objects

namespace SlabLists.Status

variable {l : Layout} {objects : Nat} {g : SlabLists}

theorem without (hg : g.Status objects) (l : Layout) (a : Nat) :
    (g.without l a).Status objects where
  free h hh := hg.free h (List.mem_filter.mp hh).1
  partly h hh := hg.partly h (List.mem_filter.mp hh).1
  full h hh := hg.full h (List.mem_filter.mp hh).1

/-- The slab that is put into a list has to fit it. -/
theorem put {h : HeldSlab} (hg : g.Status objects)
    (hfree : ∀ k ∈ g.free, k.addr l = h.addr l → h.taken = [])
    (hpartly : h.base ≠ 0 → 0 < h.taken.length ∧ h.taken.length < objects)
    (hfull : ∀ k ∈ g.full, k.addr l = h.addr l → h.base ≠ 0 → h.taken.length = objects) :
    (g.put l h).Status objects where
  free := List.forall_mem_map.mpr fun k hk => by
    split
    next heq => exact hfree k hk heq
    next => exact hg.free k hk
  partly := List.forall_mem_map.mpr fun k hk => by
    split
    next => exact hpartly
    next => exact hg.partly k hk
  full := List.forall_mem_map.mpr fun k hk => by
    split
    next heq => exact hfull k hk heq
    next => exact hg.full k hk

end SlabLists.Status

/-! ## Control structures in memory -/

structure Stored (l : Layout) (this : Nat) (slabs : Nat → Option Slab) (all : List HeldSlab) :
    Prop where
  nodup : (all.map (HeldSlab.addr l)).Nodup
  read : ∀ h ∈ all, slabs (h.addr l) = some h.slab
  valid : ∀ h ∈ all, h.Valid l this

namespace Stored

variable {l : Layout} {this : Nat} {slabs : Nat → Option Slab} {all rest : List HeldSlab}
variable {h h' : HeldSlab}

theorem perm (hs : Stored l this slabs all) (hperm : all.Perm rest) : Stored l this slabs rest where
  nodup := (hperm.map _).nodup_iff.mp hs.nodup
  read h hh := hs.read h (hperm.mem_iff.mpr hh)
  valid h hh := hs.valid h (hperm.mem_iff.mpr hh)

/-- A slab is known by the address of its control structure. -/
theorem eq_of_addr (hs : Stored l this slabs all) (hh : h ∈ all) (hh' : h' ∈ all)
    (haddr : h'.addr l = h.addr l) : h' = h :=
  List.inj_on_of_nodup_map hs.nodup hh' hh haddr

/-- Writing the control structure of one more slab. -/
theorem insert (hs : Stored l this slabs rest) (hv : h.Valid l this)
    (hnew : h.addr l ∉ rest.map (HeldSlab.addr l)) :
    Stored l this (Function.update slabs (h.addr l) (some h.slab)) (h :: rest) := by
  refine ⟨List.nodup_cons.mpr ⟨hnew, hs.nodup⟩, fun k hk => ?_, fun k hk => ?_⟩
  · rcases List.mem_cons.mp hk with rfl | hk
    · exact Function.update_self ..
    · have hne : k.addr l ≠ h.addr l := fun heq => hnew (List.mem_map.mpr ⟨k, hk, heq⟩)
      rw [Function.update_of_ne hne]
      exact hs.read k hk
  · rcases List.mem_cons.mp hk with rfl | hk
    · exact hv
    · exact hs.valid k hk

theorem tail (hs : Stored l this slabs (h :: rest)) :
    Stored l this slabs rest ∧ h.addr l ∉ rest.map (HeldSlab.addr l) := by
  obtain ⟨hhead, htail⟩ := List.nodup_cons.mp hs.nodup
  exact ⟨⟨htail, fun k hk => hs.read k (List.mem_cons_of_mem h hk),
    fun k hk => hs.valid k (List.mem_cons_of_mem h hk)⟩, hhead⟩

/-- Rewriting the control structure of one slab. -/
theorem replace {all' : List HeldSlab} (hs : Stored l this slabs all)
    (hperm : all.Perm (h :: rest)) (hperm' : all'.Perm (h' :: rest))
    (haddr : h'.addr l = h.addr l) (hv : h'.Valid l this) :
    Stored l this (Function.update slabs (h.addr l) (some h'.slab)) all' := by
  obtain ⟨htail, hnew⟩ := (hs.perm hperm).tail
  rw [← haddr] at hnew ⊢
  exact (htail.insert hv hnew).perm hperm'.symm

/-- Dropping the control structure of one slab. -/
theorem erase (hs : Stored l this slabs (h :: rest)) (s : Option Slab) :
    Stored l this (Function.update slabs (h.addr l) s) rest := by
  obtain ⟨htail, hnew⟩ := hs.tail
  refine ⟨htail.nodup, fun k hk => ?_, htail.valid⟩
  have hne : k.addr l ≠ h.addr l := fun heq => hnew (List.mem_map.mpr ⟨k, hk, heq⟩)
  rw [Function.update_of_ne hne]
  exact htail.read k hk

end Stored

/-! ## Caches -/

namespace Cache

/-- The lists of a cache hold the control structures of the slabs. -/
structure Lists (c : Cache) (g : SlabLists) : Prop where
  free_eq : c.free_ = g.free.map (HeldSlab.addr c.layout)
  partial_eq : c.partial_ = g.partly.map (HeldSlab.addr c.layout)
  full_eq : c.full_ = g.full.map (HeldSlab.addr c.layout)

/-- The invariant between two calls, for a cache at address `this`. The counters
are words. -/
structure Inv (this : Nat) (c : Cache) (slabs : Nat → Option Slab) (g : SlabLists) : Prop where
  layout : c.layout.WellFormed
  allocator : c.allocator.layout = c.layout
  lists : c.Lists g
  stored : Stored c.layout this slabs g.all
  status : g.Status c.layout.objects
  reclaimable : c.reclaimable = c.layout.slabSize * g.free.length % 2 ^ 64
  occupied : c.occupied = c.layout.slabSize * g.all.length % 2 ^ 64

/-- The counter says how many objects are taken. A call that returns the null pointer at address
0 adds one that is not. -/
def Counted (c : Cache) (g : SlabLists) : Prop :=
  c.allocated = c.layout.objectSize * (g.taken c.layout).length % 2 ^ 64

/-- Control structures that the cache does not hold afterwards are as before, or
gone if it held them before. -/
def Frame (c c' : Cache) (slabs slabs' : Nat → Option Slab) : Prop :=
  ∀ a, a ∉ c'.slabs → slabs' a = if a ∈ c.slabs then none else slabs a

variable {c : Cache} {this : Nat} {slabs : Nat → Option Slab} {g : SlabLists}

theorem Lists.slabs_eq (hlists : c.Lists g) : c.slabs = g.all.map (HeldSlab.addr c.layout) := by
  rw [Cache.slabs, hlists.free_eq, hlists.partial_eq, hlists.full_eq, SlabLists.all,
    List.map_append, List.map_append]

theorem Lists.partial_cons {h : HeldSlab} {rest : List HeldSlab} (hlists : c.Lists g)
    (hpartly : g.partly = h :: rest) :
    c.partial_ = h.addr c.layout :: rest.map (HeldSlab.addr c.layout) := by
  rw [hlists.partial_eq, hpartly, List.map_cons]

theorem Lists.free_cons {h : HeldSlab} {rest : List HeldSlab} (hlists : c.Lists g)
    (hfree : g.free = h :: rest) :
    c.free_ = h.addr c.layout :: rest.map (HeldSlab.addr c.layout) := by
  rw [hlists.free_eq, hfree, List.map_cons]

theorem Lists.partial_nil (hlists : c.Lists g) (hpartly : g.partly = []) : c.partial_ = [] := by
  rw [hlists.partial_eq, hpartly]
  rfl

theorem Lists.free_nil (hlists : c.Lists g) (hfree : g.free = []) : c.free_ = [] := by
  rw [hlists.free_eq, hfree]
  rfl

theorem Inv.mem_slabs {h : HeldSlab} (hinv : c.Inv this slabs g) (hh : h ∈ g.all) :
    h.addr c.layout ∈ c.slabs := by
  rw [hinv.lists.slabs_eq]
  exact List.mem_map_of_mem hh

theorem Inv.nodup (hinv : c.Inv this slabs g) : c.slabs.Nodup := by
  rw [hinv.lists.slabs_eq]
  exact hinv.stored.nodup

/-- A slab of which objects are taken is not on `free_`. -/
theorem Inv.addr_ne_of_free {h k : HeldSlab} (hinv : c.Inv this slabs g) (hh : h ∈ g.all)
    (hsome : h.taken ≠ []) (hk : k ∈ g.free) : k.addr c.layout ≠ h.addr c.layout := by
  intro heq
  have hsame := hinv.stored.eq_of_addr hh (List.mem_append_left _ hk) heq
  exact hsome (hsame ▸ hinv.status.free k hk)

/-- Writing one control structure that the cache holds afterwards. -/
theorem Frame.of_update {c' : Cache} {a : Nat} {s : Option Slab}
    (hsub : ∀ b, b ∈ c'.slabs ↔ b = a ∨ b ∈ c.slabs) :
    Frame c c' slabs (Function.update slabs a s) := by
  intro b hb
  obtain ⟨hne, hout⟩ := not_or.mp fun h => hb ((hsub b).mpr h)
  rw [if_neg hout, Function.update_of_ne hne]

/-- The invariant after the contents of one slab have changed and the slab has
perhaps been moved to another list. -/
theorem Inv.replace {c' : Cache} {g' : SlabLists} {h h' : HeldSlab} {rest : List HeldSlab}
    (hinv : c.Inv this slabs g) (hperm : g.all.Perm (h :: rest))
    (hperm' : g'.all.Perm (h' :: rest)) (hmemory : h'.slab.memory = h.slab.memory)
    (hvalid : h'.Valid c.layout this) (hlayout : c'.layout = c.layout)
    (hallocator : c'.allocator = c.allocator) (hlists : c'.Lists g')
    (hstatus : g'.Status c.layout.objects)
    (hreclaimable : c'.reclaimable = c.layout.slabSize * g'.free.length % 2 ^ 64) :
    c'.Inv this (Function.update slabs (h.addr c.layout) (some h'.slab)) g' ∧
      Frame c c' slabs (Function.update slabs (h.addr c.layout) (some h'.slab)) := by
  have haddr := HeldSlab.addr_congr c.layout hmemory
  have hlength : g'.all.length = g.all.length := by
    rw [hperm.length_eq, hperm'.length_eq, List.length_cons, List.length_cons]
  refine ⟨⟨hlayout ▸ hinv.layout, by rw [hallocator, hlayout]; exact hinv.allocator, hlists, ?_,
    hlayout ▸ hstatus, hlayout ▸ hreclaimable, ?_⟩, ?_⟩
  · rw [hlayout]
    exact hinv.stored.replace hperm hperm' haddr hvalid
  · change c'.allocator.allocated = _
    rw [hallocator, hlayout, hlength]
    exact hinv.occupied
  · apply Frame.of_update
    intro b
    rw [hlists.slabs_eq, hinv.lists.slabs_eq, hlayout, (hperm.map _).mem_iff,
      (hperm'.map _).mem_iff, List.map_cons, List.map_cons, haddr, List.mem_cons]
    tauto

/-- The invariant after a new slab has been put on `partial_`. -/
theorem Inv.insert (c' : Cache) {h : HeldSlab} (hinv : c.Inv this slabs g)
    (hvalid : h.Valid c.layout this) (hnew : h.addr c.layout ∉ g.all.map (HeldSlab.addr c.layout))
    (hsome : h.base ≠ 0 → 0 < h.taken.length ∧ h.taken.length < c.layout.objects)
    (hlayout : c'.layout = c.layout) (hallocator : c'.allocator.layout = c.allocator.layout)
    (hoccupied : c'.allocator.allocated = Word64.add c.allocator.allocated c.layout.slabSize)
    (hlists : c'.Lists { g with partly := h :: g.partly })
    (hreclaimable : c'.reclaimable = c.reclaimable) :
    c'.Inv this (Function.update slabs (h.addr c.layout) (some h.slab))
        { g with partly := h :: g.partly } ∧
      Frame c c' slabs (Function.update slabs (h.addr c.layout) (some h.slab)) := by
  have hperm := SlabLists.perm_partly (g := g) h
  refine ⟨⟨hlayout ▸ hinv.layout, by rw [hallocator, hlayout]; exact hinv.allocator, hlists, ?_,
    ⟨hinv.status.free, ?_, ?_⟩, ?_, ?_⟩, ?_⟩
  · rw [hlayout]
    exact (hinv.stored.insert hvalid hnew).perm hperm.symm
  · rw [hlayout]
    exact List.forall_mem_cons.mpr ⟨hsome, hinv.status.partly⟩
  · rw [hlayout]
    exact hinv.status.full
  · rw [hreclaimable, hlayout]
    exact hinv.reclaimable
  · change c'.allocator.allocated = _
    have hold : c.allocator.allocated = _ := hinv.occupied
    rw [hoccupied, hold, Word64.add_mul_mod, hlayout, hperm.length_eq]
    rfl
  · apply Frame.of_update
    intro b
    rw [hlists.slabs_eq, hinv.lists.slabs_eq, hlayout, (hperm.map _).mem_iff, List.map_cons,
      List.mem_cons]

/-- The invariant only depends on the control structures of the slabs. -/
theorem Inv.congr {slabs' : Nat → Option Slab} (hinv : c.Inv this slabs g)
    (hsame : ∀ h ∈ g.all, slabs' (h.addr c.layout) = slabs (h.addr c.layout)) :
    c.Inv this slabs' g :=
  { hinv with stored := { hinv.stored with
      read := fun h hh => (hsame h hh).trans (hinv.stored.read h hh) } }

/-! ## Where the objects are -/

/-- An object lies in the block of its slab. -/
theorem HeldSlab.Valid.cells_subset {l : Layout} {h : HeldSlab} {p : Nat} (hl : l.WellFormed)
    (hv : h.Valid l this) (hp : p ∈ h.taken) :
    Packing.cells (p, l.objectSize) ⊆ h.slab.memory.bytes := by
  obtain ⟨hge, hle⟩ := hl.object_le (hv.mem_objectsAt hp)
  have hcontrol := hl.controlOffset_lt
  rintro q ⟨hq, hq'⟩
  change p ≤ q at hq
  change q < p + l.objectSize at hq'
  refine ⟨Nat.le_trans hge hq, ?_⟩
  rw [hv.size]
  change q < h.base + _
  omega

theorem Inv.object_block {p slab : Nat} (hinv : c.Inv this slabs g)
    (hp : (p, slab) ∈ g.taken c.layout) :
    ∃ b ∈ g.blocks, Packing.cells (p, c.layout.objectSize) ⊆ b.bytes := by
  obtain ⟨h, hh, hp, _⟩ := SlabLists.mem_taken.mp hp
  exact ⟨h.slab.memory, List.mem_map_of_mem hh,
    HeldSlab.Valid.cells_subset hinv.layout (hinv.stored.valid h hh) hp⟩

/-- No two objects overlap, whether they belong to one slab or to two. -/
theorem Inv.taken_apart {σ : Type} {P : PhysicalMemory σ} {phys : σ} {others : List Contigous}
    (hinv : c.Inv this slabs g) (hheld : P.Holds phys (g.blocks ++ others)) :
    (g.taken c.layout).Pairwise fun x y =>
      x.1 + c.layout.objectSize ≤ y.1 ∨ y.1 + c.layout.objectSize ≤ x.1 := by
  have hl := hinv.layout
  have hvalid := hinv.stored.valid
  have hblocks := (List.pairwise_append.mp (P.disjoint hheld)).1
  rw [SlabLists.blocks, List.pairwise_map] at hblocks
  rw [SlabLists.taken, List.pairwise_flatMap]
  constructor
  · intro h hh
    rw [List.pairwise_map]
    refine ((hvalid h hh).taken_nodup hl).imp_of_mem ?_
    intro p q hp hq hne
    exact Layout.WellFormed.object_apart ((hvalid h hh).mem_objectsAt hp)
      ((hvalid h hh).mem_objectsAt hq) hne
  · refine hblocks.imp_of_mem ?_
    intro h k hh hk hdisjoint x hx y hy
    obtain ⟨p, hp, rfl⟩ := List.mem_map.mp hx
    obtain ⟨q, hq, rfl⟩ := List.mem_map.mp hy
    apply Packing.apart_of_disjoint (i := (p, c.layout.objectSize))
      (j := (q, c.layout.objectSize)) hl.objectSize_pos hl.objectSize_pos
    exact hdisjoint.mono (HeldSlab.Valid.cells_subset hl (hvalid h hh) hp)
      (HeldSlab.Valid.cells_subset hl (hvalid k hk) hq)

/-! ## List moves -/

/-- What `unlink` leaves of a cache. -/
@[simps] def removed (c : Cache) (slab : Nat) : Cache :=
  { c with
    free_ := c.free_.erase slab
    partial_ := c.partial_.erase slab
    full_ := c.full_.erase slab }

section Push

variable {slab : Nat}

@[simp] theorem unlink_of_mem (hslab : slab ∈ c.slabs) :
    c.unlink slab = some (c.removed slab) :=
  if_pos hslab

@[simp] theorem pushFree_of_not_mem (hslab : slab ∉ c.slabs) :
    c.pushFree slab = some { c with free_ := slab :: c.free_ } :=
  if_neg hslab

@[simp] theorem pushPartial_of_not_mem (hslab : slab ∉ c.slabs) :
    c.pushPartial slab = some { c with partial_ := slab :: c.partial_ } :=
  if_neg hslab

@[simp] theorem pushFull_of_not_mem (hslab : slab ∉ c.slabs) :
    c.pushFull slab = some { c with full_ := slab :: c.full_ } :=
  if_neg hslab

end Push

@[simp] theorem not_mem_removed (hnodup : c.slabs.Nodup) (slab : Nat) :
    slab ∉ (c.removed slab).slabs := by
  obtain ⟨hfree, hrest, _⟩ := List.nodup_append.mp hnodup
  obtain ⟨hpart, hfull, _⟩ := List.nodup_append.mp hrest
  simp only [slabs, removed, List.mem_append, not_or]
  exact ⟨hfree.not_mem_erase, hpart.not_mem_erase, hfull.not_mem_erase⟩

theorem Lists.removed (hlists : c.Lists g) (hnodup : c.slabs.Nodup) (slab : Nat) :
    (c.removed slab).Lists (g.without c.layout slab) := by
  obtain ⟨hfree, hrest, _⟩ := List.nodup_append.mp hnodup
  obtain ⟨hpart, hfull, _⟩ := List.nodup_append.mp hrest
  have herase : ∀ (list : List Nat) (held : List HeldSlab), list.Nodup →
      list = held.map (HeldSlab.addr c.layout) →
      list.erase slab = (held.filter fun h => decide (h.addr c.layout ≠ slab)).map
        (HeldSlab.addr c.layout) := by
    rintro list held hlist rfl
    rw [hlist.erase_eq_filter, List.filter_map]
    exact congrArg _ (List.filter_congr fun h _ => Bool.eq_iff_iff.mpr (by simp))
  exact ⟨herase _ _ hfree hlists.free_eq, herase _ _ hpart hlists.partial_eq,
    herase _ _ hfull hlists.full_eq⟩

/-- The control structure of the slab that is put is where the old one was. -/
theorem Lists.put (hlists : c.Lists g) (h : HeldSlab) : c.Lists (g.put c.layout h) := by
  have hmap : ∀ held : List HeldSlab,
      (held.map fun k => if k.addr c.layout = h.addr c.layout then h else k).map
        (HeldSlab.addr c.layout) = held.map (HeldSlab.addr c.layout) := by
    intro held
    rw [List.map_map]
    refine List.map_congr_left fun k _ => ?_
    change HeldSlab.addr _ (if _ then h else k) = _
    split
    next heq => exact heq.symm
    next => rfl
  exact ⟨hlists.free_eq.trans (hmap _).symm, hlists.partial_eq.trans (hmap _).symm,
    hlists.full_eq.trans (hmap _).symm⟩

end Cache

end Aarch64.Cxx
