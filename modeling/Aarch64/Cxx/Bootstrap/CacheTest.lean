import Aarch64.Cxx.Bootstrap.AllocatorTest
import Aarch64.Cxx.Cache.Exhaust

/-!
# The second self test

`CacheTest` of `bootstrap/main.cc` takes objects from a cache until there is none, frees them,
and gives back the memory of the cache. It fills every block of eight pages that is free. The
list of objects lies in the objects.
-/

namespace Aarch64.Cxx.Bootstrap

open Zones (memoryOf)

/-! ## The code -/

/-- `sizeof(Pointer)`: two links, 512 bytes and a pointer. -/
def sizeofPointer : Nat := 536

def alignofPointer : Nat := 8

/-- The loop that allocates. -/
def fillCacheLoop (this : Nat) : Nat → Cache → World Zones → List Nat → Nat →
    Option (Nat × List Nat × Cache × World Zones)
  | 0, _, _, _, _ => none
  | fuel + 1, cache, w, ptrs, allocated => do
      let (p, cache, w) ← cache.allocate Zones.memory this w
      if p = 0 then return (allocated, ptrs, cache, w)
      else fillCacheLoop this fuel cache w (p :: ptrs) (Word64.add allocated 1)

/-- The loop that frees. What it counts is not logged. -/
def freeCacheLoop (this : Nat) : List Nat → Cache → World Zones → Option (Cache × World Zones)
  | [], cache, w => some (cache, w)
  | p :: ptrs, cache, w => do
      let (_, cache, w) ← cache.free this w p
      freeCacheLoop this ptrs cache w

def itemsLine (verb : String) (items : Nat) : List Insertion :=
  [text verb, .unsigned items, text " items of size ", .unsigned sizeofPointer,
    text " bytes and with alignment of ", .unsigned alignofPointer, text " bytes\n"]

def availableLine (bytes : Nat) (tail : String) : List Insertion :=
  [text "Available ", .unsigned bytes, text tail]

/-- `this` is where the cache lies. -/
def cacheTest (fuel this : Nat) (zones : Zones) : Boot Zones := do
  let cache ← Boot.ofOption (Cache.new sizeofPointer alignofPointer)
  let (allocated, ptrs, cache, w) ←
    Boot.ofOption (fillCacheLoop this fuel cache ⟨zones, fun _ => none⟩ [] 0)
  .say (itemsLine "Allocated " allocated)
  .say (availableLine w.phys.availablePhysical " bytes\n")
  let (cache, w) ← Boot.ofOption (freeCacheLoop this ptrs cache w)
  .say (itemsLine "Freed " allocated)
  .say (availableLine w.phys.availablePhysical " bytes after freeing\n")
  let (_, cache, w) ← Boot.ofOption (cache.reclaim Zones.memory w)
  .say (availableLine w.phys.availablePhysical " bytes after reclaim\n")
  let w ← Boot.ofOption (cache.destroy Zones.memory w)
  return w.phys

/-! ## What it does -/

variable {zones : Zones} {held others : List Contigous} {released : Nat → Set Nat}
variable {bounds : List (Nat × Nat × Nat)} {this : Nat}

/-- No zone starts at address 0. -/
theorem nonzero_memoryOf (hbounds : ∀ b ∈ bounds, 0 < b.1) :
    (memoryOf bounds released).Nonzero := by
  rintro zones held ⟨rfl, live, hledger⟩ m hm
  obtain ⟨i, z, hz, b, hb, rfl⟩ := (hledger.mem m).mp hm
  obtain ⟨hproper, hsub, _⟩ := hledger.block hz hb
  have hfirst := (hsub ⟨Nat.le_refl _, Nat.lt_add_of_pos_right hproper.size_pos⟩).1
  have hpos : 0 < z.fromAddress :=
    hbounds z.bounds (List.mem_map_of_mem (List.mem_of_getElem? hz))
  exact (hpos.trans_le hfirst).ne'

theorem reclaimLoop_memoryOf (a : SlabAllocator) (w : World Zones) (slabs : List Nat) :
    Cache.reclaimLoop (memoryOf bounds released) a w slabs =
      Cache.reclaimLoop Zones.memory a w slabs := by
  induction slabs generalizing a w with
  | nil => rfl
  | cons slab rest ih =>
      rw [Cache.reclaimLoop, Cache.reclaimLoop]
      exact congrArg _ (funext fun r => ih r.1 r.2)

theorem reclaim_memoryOf (cache : Cache) (w : World Zones) :
    cache.reclaim (memoryOf bounds released) w = cache.reclaim Zones.memory w := by
  rw [Cache.reclaim, reclaimLoop_memoryOf]
  rfl

theorem live_lt {c : Cache.Config Zones} {g : SlabLists}
    (hc : c.Valid (memoryOf bounds released) this others g) : c.live.length < 2 ^ 64 := by
  have hlt := hc.objects_lt
  have hlive := hc.live.length_eq
  have hmul := Nat.le_mul_of_pos_left (g.taken c.cache.layout).length hc.inv.layout.objectSize_pos
  omega

/-- The loop ends with slabs that are all full, and no block for another one. -/
theorem fillCacheLoop_spec (hbounds : ∀ b ∈ bounds, 0 < b.1) (fuel : Nat) {c : Cache.Config Zones}
    {g : SlabLists} (hc : c.Valid (memoryOf bounds released) this others g)
    (hmax : orderFor c.cache.layout.slabSize ≤ kMaxOrder)
    (hfuel : 2 ^ 64 ≤ fuel + c.live.length) :
    ∃ (d : Cache.Config Zones) (g' : SlabLists),
      fillCacheLoop this fuel c.cache c.world (c.live.map Prod.fst) c.live.length =
        some (d.live.length, d.live.map Prod.fst, d.cache, d.world) ∧
      d.Valid (memoryOf bounds released) this others g' ∧ d.cache.layout = c.cache.layout ∧
      g'.partly = [] ∧ g'.free = [] ∧
      (⟨d.world.phys, g'.blocks ++ others, released⟩ : Zones.Config).freeBlocks
        (orderFor c.cache.layout.slabSize) = ∅ := by
  induction fuel generalizing c g with
  | zero =>
      have hlt := live_lt hc
      omega
  | succ fuel ih =>
      rcases hc.allocate_cases (nonzero_memoryOf hbounds) with
        ⟨t, hcall, hphys, hpartly, hfree, hvalid⟩ |
        ⟨p, slab, cache, w, g', hp, hcall, hvalid, hlayout⟩
      · change c.cache.allocate Zones.memory this c.world = _ at hcall
        refine ⟨_, g, ?_, hvalid, rfl, hpartly, hfree, ?_⟩
        · rw [fillCacheLoop, hcall]
          rfl
        · obtain ⟨_, live, hledger⟩ := hc.held
          obtain ⟨k, _, _, hpow⟩ := hc.inv.layout.power
          have hpos : 0 < c.cache.layout.slabSize := hpow ▸ Nat.two_pow_pos k
          change c.world.phys.allocatePhysical c.cache.layout.slabSize = _ at hphys
          rcases hledger.allocate_order (c := ⟨c.world.phys, g.blocks ++ others, released⟩) hpos
            hmax with ⟨hcall', hnone⟩ | ⟨_, _, hcall', _⟩
          · rw [hphys] at hcall'
            cases hcall'
            exact hnone
          · rw [hphys] at hcall'
            cases hcall'
      · change c.cache.allocate Zones.memory this c.world = _ at hcall
        rw [← hlayout] at hmax ⊢
        have hlt : c.live.length + 1 < 2 ^ 64 := live_lt hvalid
        obtain ⟨d, g'', hloop, hd⟩ := ih hvalid hmax (by rw [List.length_cons]; omega)
        refine ⟨d, g'', ?_, hd⟩
        rw [fillCacheLoop, hcall]
        simp only [Option.bind_eq_bind, Option.bind_some, if_neg hp]
        rw [Word64.add_of_lt hlt]
        exact hloop

theorem freeCacheLoop_spec {c : Cache.Config Zones} {g : SlabLists} (live : List (Nat × Nat))
    (hc : c.Valid (memoryOf bounds released) this others g) (hlive : c.live = live) :
    ∃ (cache : Cache) (w : World Zones) (g' : SlabLists),
      freeCacheLoop this (live.map Prod.fst) c.cache c.world = some (cache, w) ∧
      Cache.Config.Valid (memoryOf bounds released) this others ⟨cache, w, []⟩ g' ∧
      w.phys = c.world.phys := by
  induction live generalizing c g with
  | nil =>
      obtain ⟨cache, w, _⟩ := c
      subst hlive
      exact ⟨cache, w, g, rfl, hc, rfl⟩
  | cons x live ih =>
      obtain ⟨ok, cache, w, g', hcall, hvalid, hphys⟩ := hc.free_live hlive
      obtain ⟨cache', w', g'', hloop, hvalid', hphys'⟩ := ih hvalid rfl
      refine ⟨cache', w', g'', ?_, hvalid', hphys'.trans hphys⟩
      rw [List.map_cons, freeCacheLoop, hcall]
      exact hloop

/-! ## The test -/

/-- The layout of the cache: slabs of eight pages. -/
def pointerLayout : Layout := ⟨sizeofPointer, 0, 61, 32696, 32768⟩

theorem new_pointer : ∃ cache, Cache.new sizeofPointer alignofPointer = some cache ∧
    cache.layout = pointerLayout := by
  have hlayout : (Cache.new sizeofPointer alignofPointer).map Cache.layout =
      some pointerLayout := by decide +kernel
  exact Option.map_eq_some_iff.mp hlayout

theorem pointerLayout_wellFormed : pointerLayout.WellFormed where
  storage_le := by decide
  objectOffset_eq := rfl
  two_le := by decide
  fits := by decide
  control := rfl
  power := ⟨15, by decide, by decide, by decide⟩

/-- What the test logs, where `pages` pages and `slabs` blocks of eight are free. -/
def cacheLines (pages slabs : Nat) : List Insertion :=
  itemsLine "Allocated " (61 * slabs) ++ availableLine ((pages - 8 * slabs) * 4096) " bytes\n" ++
    itemsLine "Freed " (61 * slabs) ++
    availableLine ((pages - 8 * slabs) * 4096) " bytes after freeing\n" ++
    availableLine (pages * 4096) " bytes after reclaim\n"

/-- The slabs are blocks of order 3. -/
theorem order_blocks {c : Cache.Config Zones} {g : SlabLists}
    (hc : c.Valid (memoryOf bounds released) this others g)
    (hlayout : c.cache.layout = pointerLayout) : ∀ m ∈ g.blocks, m.order = 3 := by
  intro m hm
  obtain ⟨h, hh, rfl⟩ := List.mem_map.mp hm
  have hv := hc.inv.stored.valid h hh
  have hsize := hv.proper.size_eq.symm.trans hv.size
  rw [hlayout] at hsize
  have hpow : 2 ^ (h.slab.memory.order + kPageBits) = 2 ^ (3 + kPageBits) := hsize
  exact Nat.add_right_cancel (Nat.pow_right_injective (Nat.le_refl 2) hpow)

variable (this) in
/-- The test fills every block of eight pages that is free and restores the allocator. -/
theorem cacheTest_spec {fuel : Nat} (h : (memoryOf bounds released).Holds zones held)
    (hbounds : ∀ b ∈ bounds, 0 < b.1) (hfuel : 2 ^ 64 ≤ fuel) (log : List Insertion) :
    ∃ t, cacheTest fuel this zones log = some (.ok (t, log ++ cacheLines zones.freePages
        ((⟨zones, held, released⟩ : Zones.Config).freeBlocks 3).ncard)) ∧
      (memoryOf bounds released).Holds t held := by
  obtain ⟨cache, hnew, hlayout⟩ := new_pointer
  have hstart : (Cache.initial cache zones).Valid (memoryOf bounds released) this held
      ⟨[], [], []⟩ :=
    Cache.initial_valid hnew (hlayout ▸ pointerLayout_wellFormed) h
  obtain ⟨d, g, hfill, hd, hsame, hpartly, hfree, hnone⟩ := fillCacheLoop_spec hbounds fuel hstart
    (by change orderFor cache.layout.slabSize ≤ _; rw [hlayout]; decide)
    (hfuel.trans (Nat.le_add_right _ _))
  have hlayout' : d.cache.layout = pointerLayout := hsame.trans hlayout
  -- as many slabs were made as blocks were free
  obtain ⟨hbounds₀, live₀, hledger₀⟩ := id h
  obtain ⟨hbounds₁, live₁, hledger₁⟩ := id hd.held
  have hsize := size_of_bounds (hbounds₁.trans hbounds₀.symm)
  have horder := order_blocks hd hlayout'
  have hslabs : g.blocks.length = _ :=
    Zones.filled_length (c := ⟨zones, held, released⟩) hledger₁ hsize horder (by
      change (⟨d.world.phys, g.blocks ++ held, released⟩ : Zones.Config).freeBlocks
        (orderFor cache.layout.slabSize) = ∅ at hnone
      rwa [hlayout] at hnone)
  have hlength := hd.live_length (nonzero_memoryOf hbounds) hpartly hfree
  rw [hslabs, hlayout'] at hlength
  have hpages := hledger₀.freePages_eq hledger₁ hsize
  rw [Zones.heldPages_append, Zones.heldPages_of_order horder, hslabs] at hpages
  have havailable : d.world.phys.availablePhysical = (zones.freePages -
      8 * ((⟨zones, held, released⟩ : Zones.Config).freeBlocks 3).ncard) * 4096 := by
    refine hledger₁.availablePhysical_eq.trans (congrArg (· * 4096) (Nat.eq_sub_of_add_eq ?_))
    omega
  obtain ⟨cache', w, g', hloop, hvalid, hphys⟩ := freeCacheLoop_spec d.live hd rfl
  have hblocks : ∀ m ∈ g'.blocks, m.fromAddress ≠ 0 := fun m hm =>
    nonzero_memoryOf hbounds _ _ hvalid.held m (List.mem_append_left _ hm)
  obtain ⟨ok, cache'', w', hreclaim, hempty, _, hheld⟩ := hvalid.reclaim_all hblocks rfl
  rw [reclaim_memoryOf] at hreclaim
  obtain ⟨hbounds₂, live₂, hledger₂⟩ := id hheld
  have hrestored : w'.phys.availablePhysical = zones.freePages * 4096 := by
    have heq := hledger₀.freePages_eq hledger₂ (size_of_bounds (hbounds₂.trans hbounds₀.symm))
    exact hledger₂.availablePhysical_eq.trans (congrArg (· * 4096) (Nat.add_right_cancel heq))
  refine ⟨w'.phys, ?_, hheld⟩
  rw [cacheTest, Boot.ofOption_bind hnew]
  refine (Boot.ofOption_bind hfill _ _).trans ?_
  refine (Boot.ofOption_bind hloop _ _).trans ?_
  refine (Boot.ofOption_bind hreclaim _ _).trans ?_
  refine (Boot.ofOption_bind (Cache.destroy_of_empty hempty w') _ _).trans ?_
  rw [hphys, havailable, hrestored, hlength]
  simp only [cacheLines, List.append_assoc]
  rfl

end Aarch64.Cxx.Bootstrap
