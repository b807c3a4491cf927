import Aarch64.Cxx.Cache.Run
import Aarch64.Cxx.Heap.Basic
import Mathlib.Data.List.FinRange

/-!
# The invariant of the heap

All caches share the physical memory and the control structures in it. What keeps
them apart is that no two of them hold the same block: a call of one cache only
touches control structures in its own blocks. `Backs` says what a header promises
about the memory behind it.
-/

namespace Aarch64.Cxx.Heap

variable {σ : Type} {P : PhysicalMemory σ} {others raw : List Contigous} {h : Heap σ}
variable {l : Fin 32 → Layout} {g : Fin 32 → SlabLists}

/-! ## Size classes -/

/-- The objects of the caches are large enough for the sizes that `CacheFor` sends
there. -/
def Classes (l : Fin 32 → Layout) : Prop := ∀ i : Fin 32, 128 * i + 128 ≤ (l i).objectSize

theorem Classes.lt {l : Fin 32 → Layout} (hl : Classes l) {size : Nat} {i : Fin 32}
    (hcache : cacheFor size = some i) : size < (l i).objectSize := by
  have hle := hl i
  simp only [cacheFor] at hcache
  split at hcache
  next hlt =>
    obtain rfl := Option.some.inj hcache
    change 128 * (size / 128) + 128 ≤ _ at hle
    omega
  next => cases hcache

theorem makeLayout_some (i : Fin 32) : (makeLayout (cacheSizes.get i) (cacheSizes.get i)).isSome := by
  decide +kernel +revert

/-- The layouts of the caches that the constructors make. -/
def classLayout (i : Fin 32) : Layout :=
  (makeLayout (cacheSizes.get i) (cacheSizes.get i)).get (makeLayout_some i)

theorem makeLayout_class (i : Fin 32) :
    makeLayout (cacheSizes.get i) (cacheSizes.get i) = some (classLayout i) :=
  (Option.some_get (makeLayout_some i)).symm

theorem new_class (i : Fin 32) :
    Cache.new (cacheSizes.get i) (cacheSizes.get i) = some (newCaches i) :=
  (Option.some_get (cacheSizes_some i)).symm

@[simp] theorem newCaches_layout (i : Fin 32) : (newCaches i).layout = classLayout i := by
  have hlayout := (Cache.new_layout (new_class i)).1
  rw [makeLayout_class] at hlayout
  exact (Option.some.inj hlayout).symm

private theorem classLayout_sizes (i : Fin 32) :
    sizeofStorage ≤ (classLayout i).objectSize ∧
      (classLayout i).objectSize * kMinObjects + sizeofSlab < 2 ^ 64 ∧
      128 * i + 128 ≤ (classLayout i).objectSize := by
  decide +kernel +revert

theorem classLayout_wellFormed (i : Fin 32) : (classLayout i).WellFormed :=
  have hsizes := classLayout_sizes i
  makeLayout_wellFormed (makeLayout_class i) hsizes.1 hsizes.2.1

theorem classes_classLayout : Classes classLayout := fun i => (classLayout_sizes i).2.2

/-! ## The blocks of the caches -/

def slabBlocks (g : Fin 32 → SlabLists) (is : List (Fin 32)) : List Contigous :=
  is.flatMap fun i => (g i).blocks

/-- The caches other than `i`. -/
def otherCaches (i : Fin 32) : List (Fin 32) := (List.finRange 32).erase i

@[simp] theorem mem_otherCaches {i j : Fin 32} : j ∈ otherCaches i ↔ j ≠ i := by
  rw [otherCaches, (List.nodup_finRange 32).mem_erase_iff]
  exact and_iff_left (List.mem_finRange j)

theorem slabBlocks_perm (g : Fin 32 → SlabLists) (i : Fin 32) :
    (slabBlocks g (List.finRange 32)).Perm ((g i).blocks ++ slabBlocks g (otherCaches i)) := by
  have hperm := (List.perm_cons_erase (List.mem_finRange i)).flatMap_right fun j => (g j).blocks
  rwa [List.flatMap_cons] at hperm

@[simp] theorem slabBlocks_update (g : Fin 32 → SlabLists) (i : Fin 32) (lists : SlabLists) :
    slabBlocks (Function.update g i lists) (otherCaches i) = slabBlocks g (otherCaches i) := by
  refine List.flatMap_congr fun j hj => ?_
  rw [Function.update_of_ne (mem_otherCaches.mp hj)]

/-! ## The invariant -/

/-- The caches have the layouts `l`, satisfy their invariants and hold the blocks of
their slabs, and `raw` are the blocks of the large allocations. -/
structure Valid (P : PhysicalMemory σ) (others : List Contigous) (l : Fin 32 → Layout)
    (h : Heap σ) (g : Fin 32 → SlabLists) (raw : List Contigous) : Prop where
  classes : Classes l
  layout : ∀ i, (h.caches i).layout = l i
  inv : ∀ i, (h.caches i).Inv i h.world.slabs (g i)
  held : P.Holds h.world.phys (slabBlocks g (List.finRange 32) ++ (raw ++ others))

theorem new_valid {phys : σ} (hheld : P.Holds phys others) :
    Valid P others classLayout (new phys) (fun _ => ⟨[], [], []⟩) [] := by
  have hnone : slabBlocks (fun _ => ⟨[], [], []⟩) (List.finRange 32) = [] :=
    List.flatMap_eq_nil_iff.mpr fun _ _ => rfl
  rw [new]
  refine ⟨classes_classLayout, newCaches_layout, fun i => Cache.new_inv (new_class i) ?_, ?_⟩
  · rw [newCaches_layout]
    exact classLayout_wellFormed i
  · rw [hnone]
    exact hheld

/-- What one of the caches sees. -/
theorem Valid.held_cache (hv : Valid P others l h g raw) (i : Fin 32) :
    P.Holds h.world.phys
      ((g i).blocks ++ (slabBlocks g (otherCaches i) ++ (raw ++ others))) := by
  rw [← List.append_assoc]
  exact P.perm hv.held ((slabBlocks_perm g i).append_right _)

theorem not_mem_slabs {c : Cache} {this : Nat} {slabs : Nat → Option Slab} {lists : SlabLists}
    {phys : σ} {rest : List Contigous} {m : Contigous} {a : Nat} (hinv : c.Inv this slabs lists)
    (hheld : P.Holds phys (lists.blocks ++ rest)) (hm : m ∈ rest) (ha : a ∈ m.bytes) :
    a ∉ c.slabs := by
  intro hmem
  rw [hinv.lists.slabs_eq] at hmem
  obtain ⟨k, hk, rfl⟩ := List.mem_map.mp hmem
  have hdisjoint := (List.pairwise_append.mp (P.disjoint hheld)).2.2 k.slab.memory
    (List.mem_map_of_mem hk) m hm
  exact Set.disjoint_left.mp hdisjoint ((hinv.stored.valid k hk).addr_mem hinv.layout) ha

/-- A call of one cache leaves the control structures of the others alone. -/
theorem Valid.setCache (hv : Valid P others l h g raw) {i : Fin 32} {cache : Cache}
    {world : World σ} {lists : SlabLists} (hlayout : cache.layout = (h.caches i).layout)
    (hinv : cache.Inv i world.slabs lists)
    (hheld : P.Holds world.phys
      (lists.blocks ++ (slabBlocks g (otherCaches i) ++ (raw ++ others))))
    (hframe : Cache.Frame (h.caches i) cache h.world.slabs world.slabs) :
    Valid P others l (h.setCache i cache world) (Function.update g i lists) raw := by
  refine ⟨hv.classes, fun j => ?_, fun j => ?_, ?_⟩
  · change (Function.update h.caches i cache j).layout = _
    by_cases hj : j = i
    · subst hj
      rw [Function.update_self, hlayout]
      exact hv.layout j
    · rw [Function.update_of_ne hj]
      exact hv.layout j
  · change (Function.update h.caches i cache j).Inv j world.slabs (Function.update g i lists j)
    by_cases hj : j = i
    · subst hj
      rw [Function.update_self, Function.update_self]
      exact hinv
    · rw [Function.update_of_ne hj, Function.update_of_ne hj]
      refine (hv.inv j).congr fun k hk => ?_
      have hblock : k.slab.memory ∈ slabBlocks g (otherCaches i) ++ (raw ++ others) :=
        List.mem_append_left _ (List.mem_flatMap.mpr
          ⟨j, mem_otherCaches.mpr hj, List.mem_map_of_mem hk⟩)
      have haddr := ((hv.inv j).stored.valid k hk).addr_mem (hv.inv j).layout
      rw [hframe _ (not_mem_slabs hinv hheld hblock haddr),
        if_neg (not_mem_slabs (hv.inv i) (hv.held_cache i) hblock haddr)]
  · have hperm := slabBlocks_perm (Function.update g i lists) i
    rw [slabBlocks_update, Function.update_self] at hperm
    rw [← List.append_assoc] at hheld
    exact P.perm hheld (hperm.symm.append_right _)

end Aarch64.Cxx.Heap
