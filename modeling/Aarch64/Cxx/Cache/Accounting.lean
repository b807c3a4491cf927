import Aarch64.Cxx.Cache.Run

/-!
# The accounting of a cache

Which list a slab is on and what the three counters say, in every state that a
cache reaches while `AllocatePhysical` never gives it memory at address 0. Memory at
address 0 breaks the accounting: the first object of such a slab is the null pointer, so
the call that makes the slab returns `nullptr`. The cache has counted an object then that
the slab has not, and the slab is on `partial_` without an object.
-/

namespace Aarch64.Cxx.Cache

variable {σ : Type} {P : PhysicalMemory σ} {this : Nat} {others : List Contigous}
variable {c d : Config σ} {g : SlabLists}

/-- `Allocate` would not make a slab at address 0. It makes one when `partial_` and
`free_` are empty. -/
def Config.MemoryNonzero (P : PhysicalMemory σ) (c : Config σ) : Prop :=
  c.cache.partial_ = [] → c.cache.free_ = [] →
    ∀ m t, P.allocate c.world.phys c.cache.layout.slabSize = some (some m, t) → m.fromAddress ≠ 0

/-- A step that does not make a slab at address 0. -/
def NonzeroStep (P : PhysicalMemory σ) (this : Nat) (c d : Config σ) : Prop :=
  ∃ op : Op, op.Allowed c ∧ (op = .allocate → c.MemoryNonzero P) ∧ op.run P this c = some d

def NonzeroReachable (P : PhysicalMemory σ) (this : Nat) (cache : Cache) (phys : σ)
    (c : Config σ) : Prop :=
  Relation.ReflTransGen (NonzeroStep P this) (initial cache phys) c

/-- The lists and the counters describe the slabs and the live objects. -/
structure Config.Consistent (c : Config σ) : Prop where
  nodup : c.cache.slabs.Nodup
  held : ∀ a, (c.world.slabs a).isSome ↔ a ∈ c.cache.slabs
  freelist : ∀ a s, c.world.slabs a = some s →
    s.freelist.length + s.allocated = c.cache.layout.objects
  free : ∀ a s, c.world.slabs a = some s → (a ∈ c.cache.free_ ↔ s.allocated = 0)
  partly : ∀ a s, c.world.slabs a = some s →
    (a ∈ c.cache.partial_ ↔ 0 < s.allocated ∧ s.allocated < c.cache.layout.objects)
  full : ∀ a s, c.world.slabs a = some s →
    (a ∈ c.cache.full_ ↔ s.allocated = c.cache.layout.objects)
  allocated : c.cache.allocated = c.cache.layout.objectSize * c.live.length
  reclaimable : c.cache.reclaimable = c.cache.layout.slabSize * c.cache.free_.length
  occupied : c.cache.occupied = c.cache.layout.slabSize * c.cache.slabs.length

/-! ## The lists -/

/-- A control structure in memory belongs to a slab of the cache. -/
theorem Config.Valid.exists_slab (hc : c.Valid P this others g) {a : Nat} {s : Slab}
    (hread : c.world.slabs a = some s) :
    ∃ h ∈ g.all, h.addr c.cache.layout = a ∧ h.slab = s := by
  have hmem : a ∈ c.cache.slabs := by
    by_contra hnot
    rw [hc.outside a hnot] at hread
    cases hread
  rw [hc.inv.lists.slabs_eq] at hmem
  obtain ⟨h, hh, rfl⟩ := List.mem_map.mp hmem
  rw [hc.inv.stored.read h hh] at hread
  exact ⟨h, hh, rfl, Option.some.inj hread⟩

/-- Reading the control structure of a slab of one of the lists. -/
theorem Config.Valid.of_mem (hc : c.Valid P this others g) {a : Nat} {s : Slab}
    (hread : c.world.slabs a = some s) {list : List HeldSlab} (hsub : ∀ h ∈ list, h ∈ g.all)
    (ha : a ∈ list.map (HeldSlab.addr c.cache.layout)) :
    ∃ h ∈ list, h.slab.memory ∈ g.blocks ∧ s.allocated = h.taken.length := by
  obtain ⟨h, hh, rfl⟩ := List.mem_map.mp ha
  rw [hc.inv.stored.read h (hsub h hh)] at hread
  obtain rfl := Option.some.inj hread
  exact ⟨h, hh, List.mem_map_of_mem (hsub h hh),
    (hc.inv.stored.valid h (hsub h hh)).allocated⟩

/-- A slab is on the list that its counter says. -/
theorem Config.Valid.sorted (hc : c.Valid P this others g)
    (hnonzero : ∀ m ∈ g.blocks, m.fromAddress ≠ 0) {a : Nat} {s : Slab}
    (hread : c.world.slabs a = some s) :
    (a ∈ c.cache.free_ ↔ s.allocated = 0) ∧
      (a ∈ c.cache.partial_ ↔ 0 < s.allocated ∧ s.allocated < c.cache.layout.objects) ∧
      (a ∈ c.cache.full_ ↔ s.allocated = c.cache.layout.objects) := by
  have htwo := hc.inv.layout.two_le
  have hstatus := hc.inv.status
  have hfree : a ∈ c.cache.free_ → s.allocated = 0 := by
    intro ha
    rw [hc.inv.lists.free_eq] at ha
    obtain ⟨h, hh, _, heq⟩ := hc.of_mem hread (fun h hh => List.mem_append_left _ hh) ha
    rw [heq, hstatus.free h hh]
    rfl
  have hpartly : a ∈ c.cache.partial_ → 0 < s.allocated ∧ s.allocated < c.cache.layout.objects := by
    intro ha
    rw [hc.inv.lists.partial_eq] at ha
    obtain ⟨h, hh, hblock, heq⟩ := hc.of_mem hread
      (fun h hh => List.mem_append_right _ (List.mem_append_left _ hh)) ha
    rw [heq]
    exact hstatus.partly h hh (hnonzero _ hblock)
  have hfull : a ∈ c.cache.full_ → s.allocated = c.cache.layout.objects := by
    intro ha
    rw [hc.inv.lists.full_eq] at ha
    obtain ⟨h, hh, hblock, heq⟩ := hc.of_mem hread
      (fun h hh => List.mem_append_right _ (List.mem_append_right _ hh)) ha
    rw [heq]
    exact hstatus.full h hh (hnonzero _ hblock)
  -- the three conditions exclude each other, and the slab is on one of the lists
  have hsome : a ∈ c.cache.free_ ∨ a ∈ c.cache.partial_ ∨ a ∈ c.cache.full_ := by
    obtain ⟨h, hh, rfl, _⟩ := hc.exists_slab hread
    have hmem : h.addr c.cache.layout ∈ c.cache.slabs := by
      rw [hc.inv.lists.slabs_eq]
      exact List.mem_map_of_mem hh
    exact (List.mem_append.mp hmem).imp_right List.mem_append.mp
  refine ⟨⟨hfree, fun h => ?_⟩, ⟨hpartly, fun h => ?_⟩, ⟨hfull, fun h => ?_⟩⟩
  · rcases hsome with ha | ha | ha
    · exact ha
    · have := hpartly ha
      omega
    · have := hfull ha
      omega
  · rcases hsome with ha | ha | ha
    · have := hfree ha
      omega
    · exact ha
    · have := hfull ha
      omega
  · rcases hsome with ha | ha | ha
    · have := hfree ha
      omega
    · have := hpartly ha
      omega
    · exact ha

/-! ## The counters -/

/-- The slabs fit into the address space, so their number of bytes is exact. -/
theorem Config.Valid.slabs_lt (hc : c.Valid P this others g) :
    c.cache.layout.slabSize * g.all.length < 2 ^ 64 := by
  have hvalid := hc.inv.stored.valid
  have hblocks := (List.pairwise_append.mp (P.disjoint hc.held)).1
  rw [SlabLists.blocks, List.pairwise_map] at hblocks
  have hpos : 0 < c.cache.layout.slabSize :=
    Nat.lt_of_le_of_lt (Nat.zero_le _) hc.inv.layout.controlOffset_lt
  have hapart : (g.all.map HeldSlab.base).Pairwise fun p q =>
      p + c.cache.layout.slabSize ≤ q ∨ q + c.cache.layout.slabSize ≤ p := by
    rw [List.pairwise_map]
    refine hblocks.imp_of_mem ?_
    intro h k hh hk hdisjoint
    rw [Contigous.bytes, Contigous.bytes, (hvalid h hh).size, (hvalid k hk).size] at hdisjoint
    exact Packing.apart_of_disjoint (i := (h.base, c.cache.layout.slabSize))
      (j := (k.base, c.cache.layout.slabSize)) hpos hpos hdisjoint
  have hbound : ∀ p ∈ g.all.map HeldSlab.base, p + c.cache.layout.slabSize ≤ 2 ^ 64 - 1 := by
    intro p hp
    obtain ⟨h, hh, rfl⟩ := List.mem_map.mp hp
    exact Nat.le_sub_one_of_lt (hvalid h hh).base_add_lt
  have hle := Packing.length_mul_le hapart hbound
  rw [List.length_map] at hle
  omega

/-- So do the objects. -/
theorem Config.Valid.objects_lt (hc : c.Valid P this others g) :
    c.cache.layout.objectSize * (g.taken c.cache.layout).length < 2 ^ 64 := by
  have hapart : ((g.taken c.cache.layout).map Prod.fst).Pairwise fun p q =>
      p + c.cache.layout.objectSize ≤ q ∨ q + c.cache.layout.objectSize ≤ p := by
    rw [List.pairwise_map]
    exact hc.taken_apart
  have hbound : ∀ p ∈ (g.taken c.cache.layout).map Prod.fst,
      p + c.cache.layout.objectSize ≤ 2 ^ 64 - 1 := by
    intro p hp
    obtain ⟨⟨q, slab⟩, hx, rfl⟩ := List.mem_map.mp hp
    obtain ⟨h, hh, hq, _⟩ := SlabLists.mem_taken.mp hx
    have hv := hc.inv.stored.valid h hh
    obtain ⟨_, hle⟩ := hc.inv.layout.object_le (hv.mem_objectsAt hq)
    have hend := hv.base_add_lt
    have hcontrol := hc.inv.layout.controlOffset_lt
    change q + _ ≤ _
    omega
  have hle := Packing.length_mul_le hapart hbound
  rw [List.length_map] at hle
  omega

theorem Config.Valid.consistent (hc : c.Valid P this others g)
    (hnonzero : ∀ m ∈ g.blocks, m.fromAddress ≠ 0) (hcounted : c.cache.Counted g) :
    c.Consistent := by
  have hslabs := hc.inv.lists.slabs_eq
  refine ⟨hc.inv.nodup, fun a => ⟨fun ha => ?_, fun ha => ?_⟩, fun a s hread => ?_,
    fun a s hread => (hc.sorted hnonzero hread).1, fun a s hread => (hc.sorted hnonzero hread).2.1,
    fun a s hread => (hc.sorted hnonzero hread).2.2, ?_, ?_, ?_⟩
  · by_contra hnot
    rw [hc.outside a hnot] at ha
    cases ha
  · rw [hslabs] at ha
    obtain ⟨h, hh, rfl⟩ := List.mem_map.mp ha
    rw [hc.inv.stored.read h hh]
    rfl
  · obtain ⟨h, hh, _, rfl⟩ := hc.exists_slab hread
    have hv := hc.inv.stored.valid h hh
    have hlen := hv.length_eq hc.inv.layout
    have hbase : h.base ≠ 0 := hnonzero _ (List.mem_map_of_mem hh)
    rw [if_neg hbase, Nat.add_zero] at hlen
    rw [hv.allocated]
    exact hlen
  · rw [hcounted, Nat.mod_eq_of_lt hc.objects_lt, hc.live.length_eq]
  · have hle : c.cache.layout.slabSize * g.free.length ≤
        c.cache.layout.slabSize * g.all.length := by
      apply Nat.mul_le_mul_left
      rw [SlabLists.all, List.length_append]
      exact Nat.le_add_right _ _
    rw [hc.inv.reclaimable, Nat.mod_eq_of_lt (Nat.lt_of_le_of_lt hle hc.slabs_lt),
      hc.inv.lists.free_eq, List.length_map]
  · rw [hc.inv.occupied, Nat.mod_eq_of_lt hc.slabs_lt, hslabs, List.length_map]

/-! ## Single calls -/

/-- A null pointer means that `AllocatePhysical` has failed, and then nothing but
the physical allocator has moved. -/
theorem Config.Valid.allocate_null (hc : c.Valid P this others g)
    (hnonzero : ∀ m ∈ g.blocks, m.fromAddress ≠ 0) (hmemory : c.MemoryNonzero P)
    {c' : Cache} {w' : World σ} (hnull : c.cache.allocate P this c.world = some (0, c', w')) :
    ∃ t, P.allocate c.world.phys c.cache.layout.slabSize = some (none, t) ∧
      c' = c.cache ∧ w' = { c.world with phys := t } := by
  rcases Cache.allocate_spec hc.inv hc.held with
    ⟨t, hphys, _, _, hcall⟩ | ⟨p, slab, c₁, w₁, c₂, w₂, g', _, hcall, htook⟩
  · rw [hcall] at hnull
    cases hnull
    exact ⟨t, hphys, rfl, rfl⟩
  · rw [hcall] at hnull
    cases hnull
    exfalso
    obtain ⟨m, hm, hzero⟩ := htook.null rfl
    rcases htook.blocks m hm with hold | ⟨hpartly, hfree, t, hnew⟩
    · exact hnonzero m hold hzero
    · exact hmemory hpartly hfree m t hnew hzero

/-- When no object is live, every slab is on `free_`, and `Reclaim` gives back all
of the physical memory. -/
theorem Config.Valid.reclaim_all (hc : c.Valid P this others g)
    (hnonzero : ∀ m ∈ g.blocks, m.fromAddress ≠ 0) (hlive : c.live = []) :
    ∃ ok c' w', c.cache.reclaim P c.world = some (ok, c', w') ∧ c'.slabs = [] ∧
      c'.occupied = 0 ∧ P.Holds w'.phys others := by
  have hnone : g.taken c.cache.layout = [] := List.perm_nil.mp (hlive ▸ hc.live.symm)
  have hempty : ∀ h ∈ g.all, h.taken = [] := by
    intro h hh
    rw [List.eq_nil_iff_forall_not_mem]
    intro p hp
    have hmem : (p, h.addr c.cache.layout) ∈ g.taken c.cache.layout :=
      SlabLists.mem_taken.mpr ⟨h, hh, hp, rfl⟩
    rw [hnone] at hmem
    exact List.not_mem_nil hmem
  have hpartly : g.partly = [] := by
    rw [List.eq_nil_iff_forall_not_mem]
    intro h hh
    have hmem : h ∈ g.all := List.mem_append_right _ (List.mem_append_left _ hh)
    have hpos := (hc.inv.status.partly h hh (hnonzero _ (List.mem_map_of_mem hmem))).1
    rw [hempty h hmem] at hpos
    exact Nat.lt_irrefl _ hpos
  have hfull : g.full = [] := by
    rw [List.eq_nil_iff_forall_not_mem]
    intro h hh
    have hmem : h ∈ g.all := List.mem_append_right _ (List.mem_append_right _ hh)
    have hobjects := hc.inv.status.full h hh (hnonzero _ (List.mem_map_of_mem hmem))
    rw [hempty h hmem] at hobjects
    have htwo := hc.inv.layout.two_le
    rw [← hobjects] at htwo
    exact absurd htwo (by decide)
  obtain ⟨c', w', g', hcall, hreclaimed⟩ := Cache.reclaim_spec hc.inv hc.held
  have hlists : g' = ⟨[], [], []⟩ := by
    rw [hreclaimed.lists, hpartly, hfull]
  subst hlists
  refine ⟨_, c', w', hcall, ?_, ?_, hreclaimed.held⟩
  · rw [hreclaimed.inv.lists.slabs_eq]
    rfl
  · rw [hreclaimed.inv.occupied]
    rfl

/-! ## Runs -/

theorem NonzeroReachable.valid {cache : Cache} {phys : σ} (hstart : (initial cache phys).Valid P
      this others ⟨[], [], []⟩) (hcounted : cache.Counted ⟨[], [], []⟩)
    (hrun : NonzeroReachable P this cache phys c) :
    ∃ g, c.Valid P this others g ∧ (∀ m ∈ g.blocks, m.fromAddress ≠ 0) ∧ c.cache.Counted g := by
  induction hrun with
  | refl => exact ⟨_, hstart, fun m hm => absurd hm List.not_mem_nil, hcounted⟩
  | tail _ hstep ih =>
      obtain ⟨g, hvalid, hnonzero, hcount⟩ := ih
      obtain ⟨op, hop, hmemory, heq⟩ := hstep
      obtain ⟨d, g', hd, hran⟩ := op.run_spec hvalid hop
      rw [heq] at hd
      obtain rfl := Option.some.inj hd
      have hnonzero' : ∀ m ∈ g'.blocks, m.fromAddress ≠ 0 := by
        intro m hm
        rcases hran.blocks m hm with hold | ⟨hallocate, hpartly, hfree, t, hnew⟩
        · exact hnonzero m hold
        · exact hmemory hallocate hpartly hfree m t hnew
      exact ⟨g', hran.valid, hnonzero', hran.counted hnonzero' hcount⟩

/-- The books of a cache, in every run in which no slab is made at address 0. The three lists hold
each slab once and by how many of its objects are live, and the three counters are the bytes of the
live objects, of the slabs without any, and of all slabs (`Consistent`). A null pointer means that
`AllocatePhysical` has failed, and changes nothing but the allocator of pages. `Reclaim` gives all
memory back when no object is live, and no call that is allowed fails. -/
theorem reachable_consistent {size a : Nat} (hsize : size < 2 ^ 64) (ha : a < 64) {cache : Cache}
    (hnew : Cache.new size (2 ^ a) = some cache)
    (hwrap : cache.layout.objectSize * kMinObjects + sizeofSlab < 2 ^ 64)
    {others : List Contigous} {phys : σ} (hheld : P.Holds phys others)
    (hrun : NonzeroReachable P this cache phys c) :
    c.Consistent ∧
      (c.MemoryNonzero P → ∀ c' w', c.cache.allocate P this c.world = some (0, c', w') →
        ∃ t, P.allocate c.world.phys c.cache.layout.slabSize = some (none, t) ∧
          c' = c.cache ∧ w' = { c.world with phys := t }) ∧
      (c.live = [] → ∃ ok c' w', c.cache.reclaim P c.world = some (ok, c', w') ∧ c'.slabs = [] ∧
        c'.occupied = 0 ∧ P.Holds w'.phys others) ∧
      ∀ op : Op, op.Allowed c → ∃ d, op.run P this c = some d := by
  obtain ⟨_, hstorage, _⟩ := new_objectSize hsize ha hnew
  have hwell := makeLayout_wellFormed (new_layout hnew).1 hstorage hwrap
  obtain ⟨g, hvalid, hnonzero, hcounted⟩ :=
    hrun.valid (initial_valid hnew hwell hheld) (new_counted hnew)
  refine ⟨hvalid.consistent hnonzero hcounted,
    fun hmemory c' w' hnull => hvalid.allocate_null hnonzero hmemory hnull,
    fun hlive => hvalid.reclaim_all hnonzero hlive, fun op hop => ?_⟩
  obtain ⟨d, _, hd, _⟩ := op.run_spec hvalid hop
  exact ⟨d, hd⟩

theorem reachable_consistent_board : ∃ c : Config Zones,
    c.live = [(0x4040, 0x4fb8), (0x4000, 0x4fb8)] ∧ c.Consistent := by
  obtain ⟨zones, cache, c, d, hheld, hnew, hlayout, hphys, hfirst, hsecond, hpart, hlive⟩ :=
    allocate_board
  have hmemory : (initial cache zones).MemoryNonzero Zones.memory := by
    intro _ _ m t hm hzero
    change zones.allocatePhysical cache.layout.slabSize = some (some m, t) at hm
    rw [hlayout] at hm
    change zones.allocatePhysical 4096 = some (some m, t) at hm
    rw [hm, Option.map_some, Option.map_some, hzero] at hphys
    exact absurd hphys (by decide)
  have hmemory' : c.MemoryNonzero Zones.memory := by
    intro hempty
    rw [hpart] at hempty
    cases hempty
  have hrun : NonzeroReachable Zones.memory 0x1000 cache zones d :=
    (Relation.ReflTransGen.single ⟨.allocate, trivial, fun _ => hmemory, hfirst⟩).tail
      ⟨.allocate, trivial, fun _ => hmemory', hsecond⟩
  exact ⟨d, hlive, (reachable_consistent (a := 6) (by decide) (by decide) hnew
    (by rw [hlayout]; decide) (P := Zones.memory) hheld hrun).1⟩

/-- When the page at address 0 is the one that is free, the first call returns the null pointer.
The cache counts an object that nobody has. -/
theorem reachable_consistent_fails :
    ¬ ∀ (zones : Zones) (cache : Cache) (c : Config Zones), Zones.Holds zones [] →
      Cache.new 64 (2 ^ 6) = some cache → Reachable Zones.memory 0x1000 cache zones c →
      c.Consistent := by
  intro hclaim
  obtain ⟨zones, hzones, hheld⟩ := Zones.board_spec 0 256 0
    (by decide) (by decide) (by decide) (by decide) (by decide)
  have hrun : ((Zones.board 0 256 0 (by decide) (by decide)).bind fun zones =>
      (Cache.new 64 (2 ^ 6)).bind fun cache =>
        (Op.run Zones.memory 0x1000 (initial cache zones) .allocate).map
          fun c => (c.cache.allocated, c.live)) = some (64, []) := by
    decide +kernel
  rw [hzones, Option.bind_some] at hrun
  obtain ⟨cache, hnew, hrun⟩ := Option.bind_eq_some_iff.mp hrun
  obtain ⟨c, hstep, heq⟩ := Option.map_eq_some_iff.mp hrun
  obtain ⟨hallocated, hlive⟩ := Prod.mk.inj heq
  have hconsistent := hclaim zones cache c hheld hnew
    (Relation.ReflTransGen.single ⟨.allocate, trivial, hstep⟩)
  have hcount := hconsistent.allocated
  rw [hallocated, hlive] at hcount
  exact absurd hcount (by simp)

end Aarch64.Cxx.Cache
