import Aarch64.Cxx.Cache.Operations
import Aarch64.Cxx.Physical.Zones
import Mathlib.Logic.Relation

/-!
# Runs of a cache

A configuration adds to a cache and the state around it what the clients know: the
live objects, each with the slab it was allocated from. The null pointer is not an
object. A cache whose memory starts at address 0 loses the object there, because
`Allocate` returns its address, and counts it all the same. So what holds of the objects
that clients have holds in every run, and what the counters say holds in the runs in
which no slab starts at address 0.
-/

namespace Aarch64.Cxx.Cache

variable {σ : Type}

/-- A cache, the state around it, and the live objects with their slabs. -/
structure Config (σ : Type) where
  cache : Cache
  world : World σ
  live : List (Nat × Nat)

/-- A call. `free` names the slab of its object as well, which the code does not
need to know. -/
inductive Op
  | allocate
  | free (ptr slab : Nat)
  | reclaim

/-- Clients free live objects only. -/
def Op.Allowed (c : Config σ) : Op → Prop
  | .allocate => True
  | .free ptr slab => (ptr, slab) ∈ c.live
  | .reclaim => True

def Op.run (P : PhysicalMemory σ) (this : Nat) (c : Config σ) : Op → Option (Config σ)
  | .allocate => do
      let (slab, _, _) ← c.cache.selectSlab P this c.world
      let (ptr, cache, world) ← c.cache.allocate P this c.world
      return ⟨cache, world, if ptr = 0 then c.live else (ptr, slab) :: c.live⟩
  | .free ptr slab => do
      let (_, cache, world) ← c.cache.free this c.world ptr
      return ⟨cache, world, c.live.erase (ptr, slab)⟩
  | .reclaim => do
      let (_, cache, world) ← c.cache.reclaim P c.world
      return ⟨cache, world, c.live⟩

def Step (P : PhysicalMemory σ) (this : Nat) (c d : Config σ) : Prop :=
  ∃ op : Op, op.Allowed c ∧ op.run P this c = some d

def initial (cache : Cache) (phys : σ) : Config σ := ⟨cache, ⟨phys, fun _ => none⟩, []⟩

def Reachable (P : PhysicalMemory σ) (this : Nat) (cache : Cache) (phys : σ) (c : Config σ) :
    Prop :=
  Relation.ReflTransGen (Step P this) (initial cache phys) c

variable {P : PhysicalMemory σ} {this : Nat} {others : List Contigous} {c d : Config σ}
variable {g g' : SlabLists}

/-- The invariant of a configuration. -/
structure Config.Valid (P : PhysicalMemory σ) (this : Nat) (others : List Contigous)
    (c : Config σ) (g : SlabLists) : Prop where
  inv : c.cache.Inv this c.world.slabs g
  held : P.Holds c.world.phys (g.blocks ++ others)
  live : c.live.Perm (g.taken c.cache.layout)
  outside : ∀ a, a ∉ c.cache.slabs → c.world.slabs a = none

theorem outside_of_frame {cache cache' : Cache} {slabs slabs' : Nat → Option Slab}
    (hframe : Frame cache cache' slabs slabs') (hout : ∀ a, a ∉ cache.slabs → slabs a = none)
    (a : Nat) (ha : a ∉ cache'.slabs) : slabs' a = none := by
  rw [hframe a ha]
  split
  next => rfl
  next hnot => exact hout a hnot

theorem new_layout {cache : Cache} {size alignment : Nat}
    (hnew : Cache.new size alignment = some cache) :
    makeLayout size alignment = some cache.layout ∧ cache.allocator.layout = cache.layout := by
  rw [Cache.new, Option.bind_eq_bind, Option.bind_eq_some_iff] at hnew
  obtain ⟨layout, hlayout, heq⟩ := hnew
  obtain rfl := Option.some.inj heq
  exact ⟨hlayout, rfl⟩

/-- The objects of a new cache hold what clients ask for and are aligned. -/
theorem new_objectSize {cache : Cache} {size a : Nat} (hsize : size < 2 ^ 64) (ha : a < 64)
    (hnew : Cache.new size (2 ^ a) = some cache) :
    size ≤ cache.layout.objectSize ∧ sizeofStorage ≤ cache.layout.objectSize ∧
      2 ^ a ∣ cache.layout.objectSize := by
  obtain ⟨hobject, hpos, _⟩ := makeLayout_eq (new_layout hnew).1
  rw [hobject] at hpos ⊢
  exact objectSize_spec hsize ha hpos

/-- A new cache holds nothing. -/
theorem new_inv {cache : Cache} {size alignment : Nat}
    (hnew : Cache.new size alignment = some cache) (hlayout : cache.layout.WellFormed) :
    cache.Inv this (fun _ => none) ⟨[], [], []⟩ := by
  rw [Cache.new, Option.bind_eq_bind, Option.bind_eq_some_iff] at hnew
  obtain ⟨layout, _, heq⟩ := hnew
  obtain rfl := Option.some.inj heq
  refine ⟨hlayout, rfl, ⟨rfl, rfl, rfl⟩, ⟨List.nodup_nil, ?_, ?_⟩, ⟨?_, ?_, ?_⟩, rfl, rfl⟩
  all_goals exact fun h hh => absurd hh List.not_mem_nil

theorem initial_valid {cache : Cache} {size alignment : Nat} {phys : σ}
    (hnew : Cache.new size alignment = some cache) (hlayout : cache.layout.WellFormed)
    (hheld : P.Holds phys others) : (initial cache phys).Valid P this others ⟨[], [], []⟩ :=
  ⟨new_inv hnew hlayout, hheld, List.Perm.refl _, fun _ _ => rfl⟩

theorem new_counted {cache : Cache} {size alignment : Nat}
    (hnew : Cache.new size alignment = some cache) : cache.Counted ⟨[], [], []⟩ := by
  rw [Cache.new, Option.bind_eq_bind, Option.bind_eq_some_iff] at hnew
  obtain ⟨layout, _, heq⟩ := hnew
  obtain rfl := Option.some.inj heq
  rfl

/-- A call that hands out the null pointer is not counted as the others are. -/
theorem Took.counted {cache cache' : Cache} {w w' : World σ} {ptr slab : Nat}
    (htook : Took P this cache w g others ptr slab cache' w' g') (hptr : ptr ≠ 0)
    (hcounted : cache.Counted g) : cache'.Counted g' := by
  have hlength := (htook.taken_of_ne hptr).length_eq
  rw [List.length_cons] at hlength
  rw [Counted, htook.layout, htook.allocated, hcounted, hlength, Word64.add_mul_mod]

theorem Freed.counted {cache cache' : Cache} {w w' : World σ} {ptr slab : Nat}
    (hfreed : Freed this cache w g ptr slab cache' w' g') (hword : cache.layout.objectSize ≤ 2 ^ 64)
    (hcounted : cache.Counted g) : cache'.Counted g' := by
  have hlength := hfreed.taken.length_eq
  rw [List.length_cons] at hlength
  rw [Counted, hfreed.layout, hfreed.allocated, hcounted, hlength, Word64.sub_mul_mod hword]

/-- What a call leaves: the invariant, slabs that come from `AllocatePhysical` where they are new,
and a counter that is right where no slab starts at address 0. -/
structure Ran (P : PhysicalMemory σ) (this : Nat) (others : List Contigous) (c : Config σ)
    (g : SlabLists) (op : Op) (d : Config σ) (g' : SlabLists) : Prop where
  valid : d.Valid P this others g'
  layout : d.cache.layout = c.cache.layout
  blocks : ∀ m ∈ g'.blocks, m ∈ g.blocks ∨
    op = .allocate ∧ c.cache.partial_ = [] ∧ c.cache.free_ = [] ∧
      ∃ t, P.allocate c.world.phys c.cache.layout.slabSize = some (some m, t)
  counted : (∀ m ∈ g'.blocks, m.fromAddress ≠ 0) → c.cache.Counted g → d.cache.Counted g'

theorem run_allocate_spec (hc : c.Valid P this others g) :
    ∃ d g', Op.allocate.run P this c = some d ∧ Ran P this others c g .allocate d g' := by
  rcases Cache.allocate_spec hc.inv hc.held with
    ⟨t, hphys, hheld, hselect, hcall⟩ | ⟨p, slab, c₁, w₁, c', w', g', hselect, hcall, htook⟩
  · refine ⟨⟨c.cache, { c.world with phys := t }, c.live⟩, g, ?_,
      ⟨hc.inv, hheld, hc.live, hc.outside⟩, rfl, fun m hm => .inl hm, fun _ hcounted => hcounted⟩
    simp only [Op.run, hselect, hcall, Option.bind_eq_bind, Option.bind_some, if_true]
    rfl
  · refine ⟨⟨c', w', if p = 0 then c.live else (p, slab) :: c.live⟩, g', ?_,
      ⟨htook.inv, htook.held, ?_, outside_of_frame htook.frame hc.outside⟩, htook.layout,
      fun m hm => (htook.blocks m hm).imp_right fun hnew => ⟨rfl, hnew⟩, ?_⟩
    · simp only [Op.run, hselect, hcall, Option.bind_eq_bind, Option.bind_some]
      rfl
    · change (ite _ _ _ : List (Nat × Nat)).Perm (g'.taken c'.layout)
      rw [htook.layout]
      refine List.Perm.trans ?_ htook.taken.symm
      split
      next => exact hc.live
      next => exact hc.live.cons _
    · intro hnonzero hcounted
      refine htook.counted (fun hp => ?_) hcounted
      obtain ⟨m, hm, hzero⟩ := htook.null hp
      exact hnonzero m hm hzero

theorem run_free_spec {ptr slab : Nat} (hc : c.Valid P this others g) (hlive : (ptr, slab) ∈ c.live) :
    ∃ d g', (Op.free ptr slab).run P this c = some d ∧
      Ran P this others c g (.free ptr slab) d g' := by
  obtain ⟨c', w', g', hcall, hfreed⟩ := Cache.free_spec hc.inv (hc.live.subset hlive)
  refine ⟨⟨c', w', c.live.erase (ptr, slab)⟩, g', ?_,
    ⟨hfreed.inv, ?_, ?_, outside_of_frame hfreed.frame hc.outside⟩, hfreed.layout,
    fun m hm => .inl (hfreed.blocks.subset hm),
    fun _ hcounted => hfreed.counted hc.inv.layout.objectSize_lt.le hcounted⟩
  · simp only [Op.run, hcall, Option.bind_eq_bind, Option.bind_some]
    rfl
  · change P.Holds w'.phys _
    rw [hfreed.phys]
    exact P.perm hc.held (hfreed.blocks.symm.append_right others)
  · have hperm := (hc.live.trans hfreed.taken).erase (ptr, slab)
    rw [List.erase_cons_head] at hperm
    change (c.live.erase _).Perm (g'.taken c'.layout)
    rw [hfreed.layout]
    exact hperm

theorem run_reclaim_spec (hc : c.Valid P this others g) :
    ∃ d g', Op.reclaim.run P this c = some d ∧ Ran P this others c g .reclaim d g' := by
  obtain ⟨c', w', g', hcall, hreclaimed⟩ := Cache.reclaim_spec hc.inv hc.held
  refine ⟨⟨c', w', c.live⟩, g', ?_, ⟨hreclaimed.inv, hreclaimed.held, ?_,
    outside_of_frame hreclaimed.frame hc.outside⟩, hreclaimed.layout, fun m hm => .inl ?_,
    fun _ hcounted => ?_⟩
  · simp only [Op.run, hcall, Option.bind_eq_bind, Option.bind_some]
    rfl
  · change c.live.Perm (g'.taken c'.layout)
    rw [hreclaimed.layout, hreclaimed.taken]
    exact hc.live
  · rw [hreclaimed.lists] at hm
    rw [SlabLists.blocks, SlabLists.all, List.map_append]
    exact List.mem_append_right _ hm
  · change c'.Counted g'
    rw [Counted, hreclaimed.layout, hreclaimed.allocated, hreclaimed.taken]
    exact hcounted

/-- Every allowed call returns and keeps the invariant. -/
theorem Op.run_spec (hc : c.Valid P this others g) (op : Op) (hop : op.Allowed c) :
    ∃ d g', op.run P this c = some d ∧ Ran P this others c g op d g' := by
  cases op with
  | allocate => exact run_allocate_spec hc
  | free ptr slab => exact run_free_spec hc hop
  | reclaim => exact run_reclaim_spec hc

/-- The invariant along a run. -/
theorem Reachable.valid {cache : Cache} {phys : σ} (hstart : (initial cache phys).Valid P this
      others ⟨[], [], []⟩) (hrun : Reachable P this cache phys c) :
    c.cache.layout = cache.layout ∧ ∃ g, c.Valid P this others g := by
  induction hrun with
  | refl => exact ⟨rfl, _, hstart⟩
  | tail _ hstep ih =>
      obtain ⟨hlayout, g, hvalid⟩ := ih
      obtain ⟨op, hop, heq⟩ := hstep
      obtain ⟨d, g', hd, hran⟩ := op.run_spec hvalid hop
      rw [heq] at hd
      obtain rfl := Option.some.inj hd
      exact ⟨hran.layout.trans hlayout, g', hran.valid⟩

/-! ## Where the objects are -/

theorem Config.Valid.taken_apart (hc : c.Valid P this others g) :
    (g.taken c.cache.layout).Pairwise fun x y =>
      x.1 + c.cache.layout.objectSize ≤ y.1 ∨ y.1 + c.cache.layout.objectSize ≤ x.1 :=
  hc.inv.taken_apart hc.held

/-- What clients rely on: the live objects are apart, aligned, and inside their
slabs before the control structures, and `Find` leads to these. -/
structure Config.Safe (alignment : Nat) (c : Config σ) : Prop where
  apart : c.live.Pairwise fun x y =>
    x.1 + c.cache.layout.objectSize ≤ y.1 ∨ y.1 + c.cache.layout.objectSize ≤ x.1
  aligned : ∀ x ∈ c.live, alignment ∣ x.1
  inside : ∀ x ∈ c.live, ∃ s, c.world.slabs x.2 = some s ∧ s.memory.fromAddress ≤ x.1 ∧
    x.1 + c.cache.layout.objectSize ≤ x.2 ∧ x.2 + sizeofSlab = s.memory.fromAddress + s.memory.size
  find : ∀ x ∈ c.live, c.cache.allocator.find c.world.slabs x.1 = some x.2

theorem Config.Valid.safe {a : Nat} (hc : c.Valid P this others g)
    (ha : 2 ^ a ∣ c.cache.layout.objectSize) : c.Safe (2 ^ a) := by
  have hl := hc.inv.layout
  have hmem : ∀ x ∈ c.live, ∃ h ∈ g.all, x.1 ∈ h.taken ∧ h.addr c.cache.layout = x.2 :=
    fun x hx => SlabLists.mem_taken.mp (hc.live.subset hx)
  have hsymm : ∀ {x y : Nat × Nat}, (x.1 + c.cache.layout.objectSize ≤ y.1 ∨
      y.1 + c.cache.layout.objectSize ≤ x.1) → (y.1 + c.cache.layout.objectSize ≤ x.1 ∨
      x.1 + c.cache.layout.objectSize ≤ y.1) := fun h => h.symm
  refine ⟨?_, fun x hx => ?_, fun x hx => ?_, fun x hx => ?_⟩
  · rw [hc.live.pairwise_iff hsymm]
    exact hc.taken_apart
  · obtain ⟨h, hh, hp, _⟩ := hmem x hx
    have hv := hc.inv.stored.valid h hh
    obtain ⟨i, _, heq⟩ := Layout.WellFormed.mem_objectsAt.mp (hv.mem_objectsAt hp)
    -- the block is aligned to its size, which is a larger power of two
    have hle : a ≤ h.slab.memory.order + kPageBits := by
      have hsize := hv.size
      have hcontrol := hl.controlOffset_lt
      have hfits := hl.fits
      have hone : c.cache.layout.objectSize * 1 ≤ c.cache.layout.objectSize * c.cache.layout.objects :=
        Nat.mul_le_mul_left _ (Nat.le_of_succ_le hl.two_le)
      have hpow := Nat.le_of_dvd hl.objectSize_pos ha
      rw [hv.proper.size_eq] at hsize
      exact (Nat.pow_le_pow_iff_right (by decide : 1 < 2)).mp (by omega)
    have hbase : 2 ^ a ∣ h.base := (Nat.pow_dvd_pow 2 hle).trans hv.proper.aligned
    rw [heq]
    exact Nat.dvd_add hbase (Dvd.dvd.mul_left ha i)
  · obtain ⟨h, hh, hp, haddr⟩ := hmem x hx
    have hv := hc.inv.stored.valid h hh
    obtain ⟨hge, hle⟩ := hl.object_le (hv.mem_objectsAt hp)
    rw [← haddr]
    refine ⟨h.slab, hc.inv.stored.read h hh, hge, hle, ?_⟩
    rw [hv.size, ← hl.control]
    exact Nat.add_assoc ..
  · obtain ⟨h, hh, hp, haddr⟩ := hmem x hx
    have hv := hc.inv.stored.valid h hh
    have hallocator : c.cache.allocator = ⟨c.cache.allocator.allocated, c.cache.layout⟩ := by
      rw [← hc.inv.allocator]
    rw [← haddr, hallocator]
    exact SlabAllocator.find_spec hl hv (hc.inv.stored.read h hh) (hv.taken_mem_bytes hl hp)

/-- Two calls on a board with four pages at `0x4000`. -/
theorem allocate_board : ∃ (zones : Zones) (cache : Cache) (c d : Config Zones),
    Zones.Holds zones [] ∧ Cache.new 64 (2 ^ 6) = some cache ∧
      cache.layout = ⟨64, 0, 62, 4024, 4096⟩ ∧
      (zones.allocatePhysical 4096).map (fun r => r.1.map Contigous.fromAddress) =
        some (some 0x4000) ∧
      Op.run Zones.memory 0x1000 (initial cache zones) .allocate = some c ∧
      Op.run Zones.memory 0x1000 c .allocate = some d ∧ c.cache.partial_ = [0x4fb8] ∧
      d.live = [(0x4040, 0x4fb8), (0x4000, 0x4fb8)] := by
  obtain ⟨zones, hzones, hheld⟩ := Zones.board_spec 4 4 2
    (by decide) (by decide) (by decide) (by decide) (by decide)
  have hphys : ((Zones.board 4 4 2 (by decide) (by decide)).bind fun zones =>
      zones.allocatePhysical 4096).map (fun r => r.1.map Contigous.fromAddress) =
        some (some 0x4000) := by
    decide +kernel
  have hrun : ((Zones.board 4 4 2 (by decide) (by decide)).bind fun zones =>
      (Cache.new 64 (2 ^ 6)).bind fun cache =>
        (Op.run Zones.memory 0x1000 (initial cache zones) .allocate).bind fun c =>
          (Op.run Zones.memory 0x1000 c .allocate).map
            fun d => (cache.layout, c.cache.partial_, d.live)) =
        some (⟨64, 0, 62, 4024, 4096⟩, [0x4fb8], [(0x4040, 0x4fb8), (0x4000, 0x4fb8)]) := by
    decide +kernel
  rw [hzones, Option.bind_some] at hphys hrun
  obtain ⟨cache, hnew, hrun⟩ := Option.bind_eq_some_iff.mp hrun
  obtain ⟨c, hfirst, hrun⟩ := Option.bind_eq_some_iff.mp hrun
  obtain ⟨d, hsecond, heq⟩ := Option.map_eq_some_iff.mp hrun
  obtain ⟨hlayout, heq⟩ := Prod.mk.inj heq
  obtain ⟨hpart, hlive⟩ := Prod.mk.inj heq
  exact ⟨zones, cache, c, d, hheld, hnew, hlayout, hphys, hfirst, hsecond, hpart, hlive⟩

end Aarch64.Cxx.Cache
