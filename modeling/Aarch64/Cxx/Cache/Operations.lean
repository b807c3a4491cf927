import Aarch64.Cxx.Cache.Invariant

/-!
# Operations of a cache

One lemma for each call. `others` are the blocks of physical memory that somebody
else holds, which no call of the cache touches. An allocation that goes through is
described by `Took`: one more object is taken from one of the slabs.
-/

namespace Aarch64.Cxx.Cache

variable {σ : Type} {P : PhysicalMemory σ} {c : Cache} {this : Nat} {w : World σ}
variable {g : SlabLists} {others : List Contigous}

/-- The state after `slab` has been asked for an object and `ptr` is returned. No object is taken
if that is the null pointer, and only a slab at address 0 returns it, but the counter of the
cache moves in any case. -/
structure Took (P : PhysicalMemory σ) (this : Nat) (c : Cache) (w : World σ) (g : SlabLists)
    (others : List Contigous) (ptr slab : Nat) (c' : Cache) (w' : World σ) (g' : SlabLists) :
    Prop where
  layout : c'.layout = c.layout
  inv : c'.Inv this w'.slabs g'
  held : P.Holds w'.phys (g'.blocks ++ others)
  taken : (g'.taken c.layout).Perm
    (if ptr = 0 then g.taken c.layout else (ptr, slab) :: g.taken c.layout)
  allocated : c'.allocated = Word64.add c.allocated c.layout.objectSize
  null : ptr = 0 → ∃ m ∈ g'.blocks, m.fromAddress = 0
  blocks : ∀ m ∈ g'.blocks, m ∈ g.blocks ∨ c.partial_ = [] ∧ c.free_ = [] ∧
    ∃ t, P.allocate w.phys c.layout.slabSize = some (some m, t)
  frame : Frame c c' w.slabs w'.slabs

theorem Took.taken_of_ne {ptr slab : Nat} {c' : Cache} {w' : World σ} {g' : SlabLists}
    (h : Took P this c w g others ptr slab c' w' g') (hptr : ptr ≠ 0) :
    (g'.taken c.layout).Perm ((ptr, slab) :: g.taken c.layout) := by
  have htaken := h.taken
  rwa [if_neg hptr] at htaken

/-- No object is lost. -/
theorem Took.subset {ptr slab : Nat} {c' : Cache} {w' : World σ} {g' : SlabLists}
    (h : Took P this c w g others ptr slab c' w' g') : g.taken c.layout ⊆ g'.taken c.layout := by
  have htaken := h.taken.symm.subset
  split at htaken
  next => exact htaken
  next => exact fun x hx => htaken (List.mem_cons_of_mem _ hx)

theorem allocate_of_select {slab p : Nat} {c' : Cache} {w' : World σ} {s s' : Slab}
    (hselect : c.selectSlab P this w = some (slab, c', w')) (hslab : slab ≠ 0)
    (hread : w'.slabs slab = some s) (hallocate : s.allocate = (p, s')) :
    c.allocate P this w = some (p, c', w'.setSlab slab (some s')) := by
  rw [allocate, hselect]
  simp only [Option.bind_eq_bind, Option.bind_some, if_neg hslab, hread, hallocate]
  rfl

/-- Asking a slab that the cache holds already for an object, after the list moves of the
branch. -/
theorem took_of_replace {h : HeldSlab} {rest : List HeldSlab} {p : Nat} {s : Slab} {c' : Cache}
    {g' : SlabLists} (hinv : c.Inv this w.slabs g) (hheld : P.Holds w.phys (g.blocks ++ others))
    (hperm : g.all.Perm (h :: rest))
    (hperm' : g'.all.Perm (⟨s, HeldSlab.took p h.taken⟩ :: rest))
    (hmemory : s.memory = h.slab.memory)
    (hvalid : HeldSlab.Valid c.layout this ⟨s, HeldSlab.took p h.taken⟩)
    (hnull : p = 0 → h.base = 0)
    (hlayout : c'.layout = c.layout) (hallocator : c'.allocator = c.allocator)
    (hlists : c'.Lists g') (hstatus : g'.Status c.layout.objects)
    (hallocated : c'.allocated = Word64.add c.allocated c.layout.objectSize)
    (hreclaimable : c'.reclaimable = c.layout.slabSize * g'.free.length % 2 ^ 64) :
    Took P this c w g others p (h.addr c.layout) c' (w.setSlab (h.addr c.layout) (some s)) g' := by
  have haddr : HeldSlab.addr c.layout ⟨s, HeldSlab.took p h.taken⟩ = h.addr c.layout :=
    HeldSlab.addr_congr c.layout hmemory
  have htaken := SlabLists.taken_took hperm hperm' haddr rfl
  have hblocks := SlabLists.blocks_congr hperm hperm' hmemory
  obtain ⟨hinv', hframe⟩ := hinv.replace hperm hperm' hmemory hvalid hlayout hallocator hlists
    hstatus hreclaimable
  refine ⟨hlayout, hinv', P.perm hheld (hblocks.symm.append_right others), htaken, hallocated,
    fun hp => ⟨h.slab.memory, ?_, hnull hp⟩, fun m hm => .inl (hblocks.subset hm), hframe⟩
  exact hblocks.symm.subset (List.mem_map_of_mem (hperm.symm.subset List.mem_cons_self))

/-- The test for a slab that becomes full. -/
theorem full_test {l : Layout} {h : HeldSlab} (hl : l.WellFormed) (hv : h.Valid l this) :
    Word64.add h.slab.allocated 1 = l.objects ↔ h.taken.length + 1 = l.objects := by
  have hlen := hv.length_eq hl
  have hlt := hl.objects_lt
  rw [hv.allocated, Word64.add_of_lt (by omega)]

/-- The first branch of the selection, for a slab that gives its last object. -/
theorem selectSlab_last {h : HeldSlab} {rest : List HeldSlab} (hinv : c.Inv this w.slabs g)
    (hpartly : g.partly = h :: rest) (hlast : h.taken.length + 1 = c.layout.objects) :
    c.selectSlab P this w = some (h.addr c.layout, { c with
      free_ := c.free_.erase (h.addr c.layout)
      partial_ := c.partial_.erase (h.addr c.layout)
      full_ := h.addr c.layout :: c.full_.erase (h.addr c.layout)
      allocated := Word64.add c.allocated c.layout.objectSize }, w) := by
  have hmem : h ∈ g.all := by simp [SlabLists.all, hpartly]
  have hlist := hinv.lists.partial_cons hpartly
  have hin := hinv.mem_slabs hmem
  have hout := not_mem_removed hinv.nodup (h.addr c.layout)
  have htest := (full_test hinv.layout (hinv.stored.valid h hmem)).mpr hlast
  simp only [selectSlab, hlist, hinv.stored.read h hmem, htest, if_true, Option.bind_eq_bind,
    Option.bind_some, unlink_of_mem hin, pushFull_of_not_mem hout]
  simp only [removed, hlist]
  rfl

/-- The first branch of the selection, for a slab that stays on `partial_`. -/
theorem selectSlab_partial {h : HeldSlab} {rest : List HeldSlab} (hinv : c.Inv this w.slabs g)
    (hpartly : g.partly = h :: rest) (hlast : h.taken.length + 1 ≠ c.layout.objects) :
    c.selectSlab P this w = some (h.addr c.layout,
      { c with allocated := Word64.add c.allocated c.layout.objectSize }, w) := by
  have hmem : h ∈ g.all := by simp [SlabLists.all, hpartly]
  have hlist := hinv.lists.partial_cons hpartly
  have htest := (full_test hinv.layout (hinv.stored.valid h hmem)).not.mpr hlast
  simp only [selectSlab, hlist, hinv.stored.read h hmem, if_neg htest, Option.bind_eq_bind,
    Option.bind_some]
  rfl

/-- The first branch of `Allocate`: the first slab of `partial_` has an object, unless it is the
slab at address 0. -/
theorem allocate_partial {h : HeldSlab} {rest : List HeldSlab} (hinv : c.Inv this w.slabs g)
    (hheld : P.Holds w.phys (g.blocks ++ others)) (hpartly : g.partly = h :: rest) :
    ∃ p c₁ w₁ c' w' g', c.selectSlab P this w = some (h.addr c.layout, c₁, w₁) ∧
      c.allocate P this w = some (p, c', w') ∧
      Took P this c w g others p (h.addr c.layout) c' w' g' := by
  have hl := hinv.layout
  have hall : g.all.Perm (h :: (g.free ++ (rest ++ g.full))) := by
    rw [SlabLists.all, hpartly]
    exact List.perm_middle
  have hmem : h ∈ g.all := hall.symm.subset List.mem_cons_self
  have hread := hinv.stored.read h hmem
  have hsome := hinv.status.partly
  rw [hpartly] at hsome
  obtain ⟨hhead, hrest⟩ := List.forall_mem_cons.mp hsome
  obtain ⟨p, s, hallocate, hmemory, hvalid, hnull⟩ :=
    (hinv.stored.valid h hmem).allocate_spec hl fun hbase => (hhead hbase).2
  have haddr : HeldSlab.addr c.layout ⟨s, HeldSlab.took p h.taken⟩ = h.addr c.layout :=
    HeldSlab.addr_congr c.layout hmemory
  have hbase : HeldSlab.base ⟨s, HeldSlab.took p h.taken⟩ = h.base :=
    congrArg Contigous.fromAddress hmemory
  have hlength : h.base ≠ 0 → (HeldSlab.took p h.taken).length = h.taken.length + 1 := by
    intro hne
    rw [HeldSlab.took_of_ne fun hp => hne (hnull hp).1, List.length_cons]
  have hpos := (HeldSlab.addr_pos hl h).ne'
  by_cases hlast : h.taken.length + 1 = c.layout.objects
  · -- the slab moves to `full_` before its last object is taken
    have hselect := selectSlab_last (P := P) hinv hpartly hlast
    have hlists := hinv.lists.removed hinv.nodup (h.addr c.layout)
    have hstatus := hinv.status.without c.layout (h.addr c.layout)
    refine ⟨p, _, _, _, _, { g.without c.layout (h.addr c.layout) with
        full := ⟨s, HeldSlab.took p h.taken⟩ :: (g.without c.layout (h.addr c.layout)).full },
      hselect, allocate_of_select hselect hpos hread hallocate,
      took_of_replace hinv hheld (SlabLists.perm_without hinv.stored.nodup hmem)
        (SlabLists.perm_full _) hmemory hvalid (fun hp => (hnull hp).1) rfl rfl
        ⟨hlists.free_eq, hlists.partial_eq, ?_⟩ ⟨hstatus.free, hstatus.partly, ?_⟩ rfl ?_⟩
    · change h.addr c.layout :: c.full_.erase _ = HeldSlab.addr c.layout _ :: _
      rw [haddr]
      exact congrArg _ hlists.full_eq
    · refine List.forall_mem_cons.mpr ⟨fun hne => ?_, hstatus.full⟩
      exact (hlength (hbase ▸ hne)).trans hlast
    · have hsome : h.taken ≠ [] := by
        rintro heq
        rw [heq] at hlast
        exact absurd hl.two_le (by rw [← hlast]; decide)
      change c.reclaimable = _ * (g.without c.layout _).free.length % 2 ^ 64
      rw [SlabLists.free_without fun k hk => hinv.addr_ne_of_free hmem hsome hk]
      exact hinv.reclaimable
  · have hselect := selectSlab_partial (P := P) hinv hpartly hlast
    refine ⟨p, _, _, _, _, ⟨g.free, ⟨s, HeldSlab.took p h.taken⟩ :: rest, g.full⟩, hselect,
      allocate_of_select hselect hpos hread hallocate,
      took_of_replace hinv hheld hall List.perm_middle hmemory hvalid (fun hp => (hnull hp).1)
        rfl rfl ⟨hinv.lists.free_eq, ?_, hinv.lists.full_eq⟩
        ⟨hinv.status.free, List.forall_mem_cons.mpr ⟨fun hne => ?_, hrest⟩, hinv.status.full⟩ rfl
        hinv.reclaimable⟩
    · change c.partial_ = HeldSlab.addr c.layout _ :: _
      rw [haddr, hinv.lists.partial_cons hpartly]
    · have hlt := (hhead (hbase ▸ hne)).2
      change 0 < (HeldSlab.took p h.taken).length ∧ (HeldSlab.took p h.taken).length < _
      rw [hlength (hbase ▸ hne)]
      omega

/-- The second branch: the first slab of `free_` moves to `partial_`. -/
theorem allocate_free {h : HeldSlab} {rest : List HeldSlab} (hinv : c.Inv this w.slabs g)
    (hheld : P.Holds w.phys (g.blocks ++ others)) (hpartly : g.partly = [])
    (hfree : g.free = h :: rest) :
    ∃ p c₁ w₁ c' w' g', c.selectSlab P this w = some (h.addr c.layout, c₁, w₁) ∧
      c.allocate P this w = some (p, c', w') ∧
      Took P this c w g others p (h.addr c.layout) c' w' g' := by
  have hl := hinv.layout
  have hall : g.all.Perm (h :: (rest ++ g.full)) := by
    rw [SlabLists.all, hpartly, hfree]
    exact List.Perm.refl _
  have hmem : h ∈ g.all := hall.symm.subset List.mem_cons_self
  have hempties := hinv.status.free
  rw [hfree] at hempties
  obtain ⟨hnone, hrest⟩ := List.forall_mem_cons.mp hempties
  have hroom : h.taken.length + 1 < c.layout.objects := by
    rw [hnone]
    exact hl.two_le
  have hlist := hinv.lists.free_cons hfree
  have hempty := hinv.lists.partial_nil hpartly
  obtain ⟨p, s, hallocate, hmemory, hvalid, hnull⟩ :=
    (hinv.stored.valid h hmem).allocate_spec hl fun _ => Nat.lt_of_succ_lt hroom
  have hp : p ≠ 0 := fun hzero => hroom.ne (hnull hzero).2
  have haddr : HeldSlab.addr c.layout ⟨s, HeldSlab.took p h.taken⟩ = h.addr c.layout :=
    HeldSlab.addr_congr c.layout hmemory
  have hnew : h.addr c.layout ∉
      ({ c with free_ := rest.map (HeldSlab.addr c.layout) } : Cache).slabs := by
    have hnodup := hinv.nodup
    rw [slabs, hlist] at hnodup
    exact (List.nodup_cons.mp hnodup).1
  have hselect : c.selectSlab P this w = some (h.addr c.layout, { c with
      free_ := rest.map (HeldSlab.addr c.layout)
      partial_ := h.addr c.layout :: c.partial_
      allocated := Word64.add c.allocated c.layout.objectSize
      reclaimable := Word64.sub c.reclaimable c.layout.slabSize }, w) := by
    simp only [selectSlab, hempty, hlist]
    rw [hempty] at hnew
    rw [pushPartial_of_not_mem hnew]
    rfl
  refine ⟨p, _, _, _, _, ⟨rest, [⟨s, HeldSlab.took p h.taken⟩], g.full⟩, hselect,
    allocate_of_select hselect (HeldSlab.addr_pos hl h).ne' (hinv.stored.read h hmem) hallocate,
    took_of_replace hinv hheld hall List.perm_middle hmemory hvalid (fun hp => (hnull hp).1) rfl rfl
      ⟨rfl, ?_, hinv.lists.full_eq⟩ ⟨hrest, ?_, hinv.status.full⟩ rfl ?_⟩
  · change h.addr c.layout :: c.partial_ = [HeldSlab.addr c.layout _]
    rw [haddr, hempty]
  · refine List.forall_mem_singleton.mpr fun _ => ?_
    rw [HeldSlab.took_of_ne hp]
    exact ⟨Nat.succ_pos _, hroom⟩
  · change Word64.sub c.reclaimable c.layout.slabSize = _
    rw [hinv.reclaimable, hfree, List.length_cons, Word64.sub_mul_mod hl.slabSize_lt.le]

/-- A slab carved from a new block is none of the slabs held already, because the
blocks are disjoint. -/
theorem addr_not_mem_of_new {t : σ} {h : HeldSlab} (hinv : c.Inv this w.slabs g)
    (hheld : P.Holds t (h.slab.memory :: (g.blocks ++ others))) (hv : h.Valid c.layout this) :
    h.addr c.layout ∉ g.all.map (HeldSlab.addr c.layout) := by
  intro hmem
  obtain ⟨k, hk, haddr⟩ := List.mem_map.mp hmem
  have hdisjoint := (List.pairwise_cons.mp (P.disjoint hheld)).1 k.slab.memory
    (List.mem_append_left _ (List.mem_map_of_mem hk))
  have hnew : h.addr c.layout ∈ h.slab.memory.bytes := hv.addr_mem hinv.layout
  have hold : k.addr c.layout ∈ k.slab.memory.bytes :=
    (hinv.stored.valid k hk).addr_mem hinv.layout
  rw [haddr] at hold
  exact Set.disjoint_left.mp hdisjoint hnew hold

/-- The third branch of the selection: a slab is made of a new block. -/
theorem selectSlab_new {m : Contigous} {t : σ} {s : Slab} (hinv : c.Inv this w.slabs g)
    (hempty : c.partial_ = []) (hnone : c.free_ = [])
    (hphys : P.allocate w.phys c.layout.slabSize = some (some m, t))
    (hslab : Slab.new this m c.layout = some s)
    (hword : Word64.add m.fromAddress c.layout.controlOffset =
      m.fromAddress + c.layout.controlOffset)
    (hpos : m.fromAddress + c.layout.controlOffset ≠ 0)
    (hout : m.fromAddress + c.layout.controlOffset ∉ c.slabs) :
    c.selectSlab P this w = some (m.fromAddress + c.layout.controlOffset, { c with
      allocator := { c.allocator with
        allocated := Word64.add c.allocator.allocated c.layout.slabSize }
      partial_ := [m.fromAddress + c.layout.controlOffset]
      allocated := Word64.add c.allocated c.layout.objectSize },
      ({ w with phys := t } : World σ).setSlab (m.fromAddress + c.layout.controlOffset)
        (some s)) := by
  have hmake : c.allocator.allocate P this w = some (m.fromAddress + c.layout.controlOffset,
      { c.allocator with allocated := Word64.add c.allocator.allocated c.layout.slabSize },
      ({ w with phys := t } : World σ).setSlab (m.fromAddress + c.layout.controlOffset)
        (some s)) := by
    simp only [SlabAllocator.allocate, hinv.allocator, hphys, Option.bind_eq_bind,
      Option.bind_some, hword, hslab]
    rfl
  rw [slabs, hempty, hnone] at hout
  simp only [selectSlab, hempty, hnone, hmake, Option.bind_eq_bind, Option.bind_some,
    if_neg hpos, pushPartial, slabs, if_neg hout]
  rfl

/-- The third branch when `AllocatePhysical` succeeds. The new slab has an object for the caller,
unless it is the slab at address 0. -/
theorem allocate_new {m : Contigous} {t : σ} (hinv : c.Inv this w.slabs g)
    (hpartly : g.partly = []) (hfree : g.free = [])
    (hphys : P.allocate w.phys c.layout.slabSize = some (some m, t))
    (horder : m.order = orderFor c.layout.slabSize)
    (hheld : P.Holds t (m :: (g.blocks ++ others))) :
    ∃ p c₁ w₁ c' w' g', c.selectSlab P this w =
        some (m.fromAddress + c.layout.controlOffset, c₁, w₁) ∧
      c.allocate P this w = some (p, c', w') ∧
      Took P this c w g others p (m.fromAddress + c.layout.controlOffset) c' w' g' := by
  have hl := hinv.layout
  have hproper := P.proper hheld m List.mem_cons_self
  have hsize : m.size = c.layout.slabSize := by
    obtain ⟨k, hk, hk64, hpow⟩ := hl.power
    rw [hproper.size_eq, horder, hpow, orderFor_two_pow hk hk64]
  obtain ⟨s₀, s, hslab, hallocate, hmemory, hvalid⟩ := Slab.new_spec hl this hproper hsize
  have hword : Word64.add m.fromAddress c.layout.controlOffset =
      m.fromAddress + c.layout.controlOffset := by
    have hend := hproper.toAddress_lt
    have hcontrol := hl.controlOffset_lt
    exact Word64.add_of_lt (by omega)
  set h : HeldSlab := ⟨s, HeldSlab.took m.fromAddress []⟩ with hh
  have haddr : h.addr c.layout = m.fromAddress + c.layout.controlOffset := by
    rw [HeldSlab.addr, HeldSlab.base, hmemory]
  have hpos := (HeldSlab.addr_pos hl h).ne'
  have hout : h.addr c.layout ∉ g.all.map (HeldSlab.addr c.layout) :=
    addr_not_mem_of_new hinv (by rw [hmemory]; exact hheld) hvalid
  have hempty := hinv.lists.partial_nil hpartly
  have hnone := hinv.lists.free_nil hfree
  have hselect := selectSlab_new hinv hempty hnone hphys hslab hword (haddr ▸ hpos)
    (by rw [hinv.lists.slabs_eq, ← haddr]; exact hout)
  rw [← haddr] at hselect ⊢
  have hcall := allocate_of_select hselect hpos (Function.update_self ..) hallocate
  have hsome : h.base ≠ 0 → 0 < h.taken.length ∧ h.taken.length < c.layout.objects := by
    intro hbase
    have hne : m.fromAddress ≠ 0 := hmemory ▸ hbase
    rw [hh, HeldSlab.took_of_ne hne]
    exact ⟨Nat.zero_lt_one, hl.two_le⟩
  have hupdate : Function.update (Function.update w.slabs (h.addr c.layout) (some s₀))
      (h.addr c.layout) (some s) = Function.update w.slabs (h.addr c.layout) (some s) :=
    Function.update_idem ..
  obtain ⟨hinv', hframe⟩ := hinv.insert { c with
      allocator := { c.allocator with
        allocated := Word64.add c.allocator.allocated c.layout.slabSize }
      partial_ := [h.addr c.layout]
      allocated := Word64.add c.allocated c.layout.objectSize } hvalid hout hsome rfl rfl rfl
    ⟨hinv.lists.free_eq, by rw [hpartly]; rfl, hinv.lists.full_eq⟩ rfl
  have hblocks : (SlabLists.blocks { g with partly := h :: g.partly }).Perm (m :: g.blocks) := by
    have hmap := (SlabLists.perm_partly (g := g) h).map fun h => h.slab.memory
    rwa [List.map_cons, hmemory] at hmap
  refine ⟨m.fromAddress, _, _, _, _, { g with partly := h :: g.partly }, hselect, hcall, rfl, ?_,
    P.perm hheld (hblocks.symm.append_right others), ?_, rfl,
    fun hzero => ⟨m, hblocks.symm.subset List.mem_cons_self, hzero⟩, fun n hn => ?_, ?_⟩
  · change Inv this _ (Function.update (Function.update w.slabs _ (some s₀)) _ (some s)) _
    rw [hupdate]
    exact hinv'
  · have htaken := (SlabLists.perm_partly (g := g) h).flatMap_right
      fun h => h.taken.map fun p => (p, h.addr c.layout)
    refine htaken.trans (List.Perm.of_eq ?_)
    rw [List.flatMap_cons]
    change (HeldSlab.took m.fromAddress []).map _ ++ g.taken c.layout = _
    rw [HeldSlab.took]
    split <;> rfl
  · rcases List.mem_cons.mp (hblocks.subset hn) with rfl | hn
    · exact .inr ⟨hempty, hnone, t, hphys⟩
    · exact .inl hn
  · change Frame c _ w.slabs (Function.update (Function.update w.slabs _ (some s₀)) _ (some s))
    rw [hupdate]
    exact hframe

/-- The third branch when `AllocatePhysical` fails. -/
theorem allocate_failed {t : σ} (hinv : c.Inv this w.slabs g) (hpartly : g.partly = [])
    (hfree : g.free = []) (hphys : P.allocate w.phys c.layout.slabSize = some (none, t)) :
    c.selectSlab P this w = some (0, c, { w with phys := t }) ∧
      c.allocate P this w = some (0, c, { w with phys := t }) := by
  have hempty := hinv.lists.partial_nil hpartly
  have hnone := hinv.lists.free_nil hfree
  have hselect : c.selectSlab P this w = some (0, c, { w with phys := t }) := by
    have hself : ({ c with free_ := [], partial_ := [] } : Cache) = c := by
      cases c
      cases hempty
      cases hnone
      rfl
    simp only [selectSlab, hempty, hnone, SlabAllocator.allocate, hinv.allocator, hphys,
      Option.bind_eq_bind, Option.bind_some, Option.pure_def, if_true]
    exact congrArg (fun d : Cache => some (0, d, { w with phys := t })) hself
  refine ⟨hselect, ?_⟩
  rw [allocate, hselect]
  rfl

/-- `Allocate` takes an object, or it fails because `AllocatePhysical` does, and
then only the physical allocator has moved. -/
theorem allocate_spec (hinv : c.Inv this w.slabs g)
    (hheld : P.Holds w.phys (g.blocks ++ others)) :
    (∃ t, P.allocate w.phys c.layout.slabSize = some (none, t) ∧
        P.Holds t (g.blocks ++ others) ∧
        c.selectSlab P this w = some (0, c, { w with phys := t }) ∧
        c.allocate P this w = some (0, c, { w with phys := t })) ∨
      ∃ p slab c₁ w₁ c' w' g', c.selectSlab P this w = some (slab, c₁, w₁) ∧
        c.allocate P this w = some (p, c', w') ∧ Took P this c w g others p slab c' w' g' := by
  cases hpartly : g.partly with
  | cons h rest =>
      obtain ⟨p, c₁, w₁, c', w', g', hcall⟩ := allocate_partial hinv hheld hpartly
      exact .inr ⟨p, _, c₁, w₁, c', w', g', hcall⟩
  | nil =>
      cases hfree : g.free with
      | cons h rest =>
          obtain ⟨p, c₁, w₁, c', w', g', hcall⟩ := allocate_free hinv hheld hpartly hfree
          exact .inr ⟨p, _, c₁, w₁, c', w', g', hcall⟩
      | nil =>
          have hpos : 0 < c.layout.slabSize := by
            obtain ⟨k, _, _, hpow⟩ := hinv.layout.power
            rw [hpow]
            exact Nat.two_pow_pos k
          rcases P.allocate_spec hheld hpos hinv.layout.slabSize_lt with
            ⟨t, hphys, hheld'⟩ | ⟨m, t, hphys, horder, hheld'⟩
          · exact .inl ⟨t, hphys, hheld', allocate_failed hinv hpartly hfree hphys⟩
          · obtain ⟨p, c₁, w₁, c', w', g', hcall⟩ :=
              allocate_new hinv hpartly hfree hphys horder hheld'
            exact .inr ⟨p, _, c₁, w₁, c', w', g', hcall⟩

/-! ## Freeing -/

/-- The state after an object of `slab` has been returned. -/
structure Freed (this : Nat) (c : Cache) (w : World σ) (g : SlabLists) (ptr slab : Nat)
    (c' : Cache) (w' : World σ) (g' : SlabLists) : Prop where
  layout : c'.layout = c.layout
  inv : c'.Inv this w'.slabs g'
  phys : w'.phys = w.phys
  blocks : g'.blocks.Perm g.blocks
  taken : (g.taken c.layout).Perm ((ptr, slab) :: g'.taken c.layout)
  allocated : c'.allocated = Word64.sub c.allocated c.layout.objectSize
  frame : Frame c c' w.slabs w'.slabs

/-- `Free` up to the list moves. -/
theorem free_of_relink {h : HeldSlab} {p : Nat} {s : Slab} {c' : Cache}
    (hinv : c.Inv this w.slabs g) (hmem : h ∈ g.all) (hp : p ∈ h.taken)
    (hfree : h.slab.free p = (true, s))
    (hrelink : c.relink (h.addr c.layout) s.allocated = some c') :
    c.free this w p = some (true,
      { c' with allocated := Word64.sub c'.allocated c'.layout.objectSize },
      w.setSlab (h.addr c.layout) (some s)) := by
  have hl := hinv.layout
  have hv := hinv.stored.valid h hmem
  have hread := hinv.stored.read h hmem
  have hallocator : c.allocator = ⟨c.allocator.allocated, c.layout⟩ := by
    rw [← hinv.allocator]
  have hfind : c.allocator.find w.slabs p = some (h.addr c.layout) := by
    rw [hallocator]
    exact SlabAllocator.find_spec hl hv hread (hv.taken_mem_bytes hl hp)
  have hpos := (HeldSlab.addr_pos hl h).ne'
  have hallocated : h.slab.allocated ≠ 0 := by
    rw [hv.allocated]
    exact (List.length_pos_of_mem hp).ne'
  have howner : ¬ h.slab.cache ≠ this := not_not_intro hv.owner
  rw [free]
  simp only [if_neg (hv.ne_zero hp), Option.bind_eq_bind, hfind, Option.bind_some, if_neg hpos, hread,
    if_neg howner, if_neg hallocated, hfree, hrelink]
  rfl

/-- The state after the list moves, put together. -/
theorem freed_of_replace {h : HeldSlab} {rest : List HeldSlab} {p : Nat} {s : Slab} {c' : Cache}
    {g' : SlabLists} (hinv : c.Inv this w.slabs g) (hp : p ∈ h.taken)
    (hperm : g.all.Perm (h :: rest)) (hperm' : g'.all.Perm (⟨s, h.taken.erase p⟩ :: rest))
    (hmemory : s.memory = h.slab.memory)
    (hvalid : HeldSlab.Valid c.layout this ⟨s, h.taken.erase p⟩)
    (hlayout : c'.layout = c.layout) (hallocator : c'.allocator = c.allocator)
    (hlists : c'.Lists g') (hstatus : g'.Status c.layout.objects)
    (hallocated : c'.allocated = Word64.sub c.allocated c.layout.objectSize)
    (hreclaimable : c'.reclaimable = c.layout.slabSize * g'.free.length % 2 ^ 64) :
    Freed this c w g p (h.addr c.layout) c' (w.setSlab (h.addr c.layout) (some s)) g' := by
  have haddr : h.addr c.layout = HeldSlab.addr c.layout ⟨s, h.taken.erase p⟩ :=
    HeldSlab.addr_congr c.layout hmemory.symm
  have htaken := SlabLists.taken_cons hperm' hperm haddr (List.perm_cons_erase hp)
  rw [← haddr] at htaken
  obtain ⟨hinv', hframe⟩ := hinv.replace hperm hperm' hmemory hvalid hlayout hallocator hlists
    hstatus hreclaimable
  exact ⟨hlayout, hinv', rfl, SlabLists.blocks_congr hperm hperm' hmemory, htaken, hallocated,
    hframe⟩

/-! The list moves of `Free`. -/

section Relink

variable {slab n : Nat}

/-- A slab without objects moves to `free_`, from whichever list it is on. -/
theorem relink_empty (hslab : slab ∈ c.slabs) (hnodup : c.slabs.Nodup)
    (htwo : 2 ≤ c.layout.objects) : c.relink slab 0 = some { c with
      free_ := slab :: c.free_.erase slab
      partial_ := c.partial_.erase slab
      full_ := c.full_.erase slab
      reclaimable := Word64.add c.reclaimable c.layout.slabSize } := by
  have hnot : 1 ≠ c.layout.objects := by omega
  simp [relink, hslab, hnodup, hnot]

/-- A slab that was full moves to `partial_`. -/
theorem relink_full (hslab : slab ∈ c.slabs) (hnodup : c.slabs.Nodup) (hpos : n ≠ 0)
    (hfull : Word64.add n 1 = c.layout.objects) : c.relink slab n = some { c with
      free_ := c.free_.erase slab
      partial_ := slab :: c.partial_.erase slab
      full_ := c.full_.erase slab } := by
  simp [relink, hpos, hfull, hslab, hnodup]

theorem relink_other (hpos : n ≠ 0) (hfull : Word64.add n 1 ≠ c.layout.objects) :
    c.relink slab n = some c := by
  simp [relink, hpos, hfull]

end Relink

/-- `Free` returns every object that has been taken. The slab moves to `free_` with its last
object, from `full_` to `partial_` with its first, and stays where it is with the others. A slab
at address 0 that is on `full_` stays there, because it never counts as full. -/
theorem free_spec {p slab : Nat} (hinv : c.Inv this w.slabs g)
    (hp : (p, slab) ∈ g.taken c.layout) :
    ∃ c' w' g', c.free this w p = some (true, c', w') ∧
      Freed this c w g p slab c' w' g' := by
  obtain ⟨h, hmem, htaken, rfl⟩ := SlabLists.mem_taken.mp hp
  have hl := hinv.layout
  have hv := hinv.stored.valid h hmem
  obtain ⟨s, hfree, hmemory, hvalid⟩ := hv.free_spec hl htaken
  have haddr : HeldSlab.addr c.layout ⟨s, h.taken.erase p⟩ = h.addr c.layout :=
    HeldSlab.addr_congr c.layout hmemory
  have hbase : HeldSlab.base ⟨s, h.taken.erase p⟩ = h.base :=
    congrArg Contigous.fromAddress hmemory
  have hleft : s.allocated = (h.taken.erase p).length := hvalid.allocated
  have hlength := List.length_erase_of_mem htaken
  have hpos := List.length_pos_of_mem htaken
  have htwo := hl.two_le
  have hlt := hl.objects_lt
  have hlen := hv.length_eq hl
  have hword : Word64.add s.allocated 1 = h.taken.length := by
    rw [hleft, hlength, Word64.add_of_lt (by omega)]
    omega
  have hslab := hinv.mem_slabs hmem
  have hout : ∀ k ∈ g.free, k.addr c.layout ≠ h.addr c.layout := fun k hk =>
    hinv.addr_ne_of_free hmem (List.ne_nil_of_mem htaken) hk
  have hperm := SlabLists.perm_without hinv.stored.nodup hmem
  have hlists := hinv.lists.removed hinv.nodup (h.addr c.layout)
  have hstatus := hinv.status.without c.layout (h.addr c.layout)
  by_cases hlast : s.allocated = 0
  · have hrelink := relink_empty hslab hinv.nodup htwo
    rw [← hlast] at hrelink
    refine ⟨_, _, { g.without c.layout (h.addr c.layout) with
        free := ⟨s, h.taken.erase p⟩ :: (g.without c.layout (h.addr c.layout)).free },
      free_of_relink hinv hmem htaken hfree hrelink,
      freed_of_replace hinv htaken hperm (List.Perm.refl _) hmemory hvalid rfl rfl
        ⟨?_, hlists.partial_eq, hlists.full_eq⟩
        ⟨List.forall_mem_cons.mpr ⟨?_, hstatus.free⟩, hstatus.partly, hstatus.full⟩ rfl ?_⟩
    · change h.addr c.layout :: c.free_.erase _ = HeldSlab.addr c.layout _ :: _
      rw [haddr]
      exact congrArg _ hlists.free_eq
    · exact List.eq_nil_of_length_eq_zero (hleft.symm.trans hlast)
    · change Word64.add c.reclaimable c.layout.slabSize = _ * (_ :: (g.without _ _).free).length % _
      rw [SlabLists.free_without hout, List.length_cons, hinv.reclaimable, Word64.add_mul_mod]
  by_cases hfull : Word64.add s.allocated 1 = c.layout.objects
  · have hrelink := relink_full hslab hinv.nodup hlast hfull
    refine ⟨_, _, { g.without c.layout (h.addr c.layout) with
        partly := ⟨s, h.taken.erase p⟩ :: (g.without c.layout (h.addr c.layout)).partly },
      free_of_relink hinv hmem htaken hfree hrelink,
      freed_of_replace hinv htaken hperm (SlabLists.perm_partly _) hmemory hvalid rfl rfl
        ⟨hlists.free_eq, ?_, hlists.full_eq⟩
        ⟨hstatus.free, List.forall_mem_cons.mpr ⟨fun _ => ?_, hstatus.partly⟩, hstatus.full⟩
        rfl ?_⟩
    · change h.addr c.layout :: c.partial_.erase _ = HeldSlab.addr c.layout _ :: _
      rw [haddr]
      exact congrArg _ hlists.partial_eq
    · change 0 < (h.taken.erase p).length ∧ (h.taken.erase p).length < _
      omega
    · change c.reclaimable = _ * (g.without _ _).free.length % _
      rw [SlabLists.free_without hout]
      exact hinv.reclaimable
  · have hrelink : c.relink (h.addr c.layout) s.allocated = some c := relink_other hlast hfull
    have hput := hinv.lists.put ⟨s, h.taken.erase p⟩
    have hfit : ∀ k ∈ g.full, k.addr c.layout = HeldSlab.addr c.layout ⟨s, h.taken.erase p⟩ →
        HeldSlab.base ⟨s, h.taken.erase p⟩ ≠ 0 →
        (h.taken.erase p).length = c.layout.objects := by
      intro k hk heq hne
      have hsame := hinv.stored.eq_of_addr hmem
        (List.mem_append_right _ (List.mem_append_right _ hk)) (heq.trans haddr)
      exact absurd (hword.trans (hinv.status.full h (hsame ▸ hk) (hbase ▸ hne))) hfull
    refine ⟨_, _, g.put c.layout ⟨s, h.taken.erase p⟩,
      free_of_relink hinv hmem htaken hfree hrelink,
      freed_of_replace hinv htaken hperm (SlabLists.perm_put hinv.stored.nodup hmem haddr) hmemory
        hvalid rfl rfl ⟨hput.free_eq, hput.partial_eq, hput.full_eq⟩
        (hinv.status.put (fun k hk heq => absurd (heq.trans haddr) (hout k hk)) (fun _ => ?_) hfit)
        rfl ?_⟩
    · change 0 < (h.taken.erase p).length ∧ (h.taken.erase p).length < _
      omega
    · change c.reclaimable = _ * (List.map _ g.free).length % _
      rw [List.length_map]
      exact hinv.reclaimable

/-! ## Reclaiming -/

/-- The state after every slab of `free_` has been given back. -/
structure Reclaimed (P : PhysicalMemory σ) (this : Nat) (c : Cache) (w : World σ) (g : SlabLists)
    (others : List Contigous) (c' : Cache) (w' : World σ) (g' : SlabLists) : Prop where
  layout : c'.layout = c.layout
  inv : c'.Inv this w'.slabs g'
  held : P.Holds w'.phys (g'.blocks ++ others)
  lists : g' = ⟨[], g.partly, g.full⟩
  taken : g'.taken c.layout = g.taken c.layout
  allocated : c'.allocated = c.allocated
  frame : Frame c c' w.slabs w'.slabs

/-- The loop of `Reclaim` gives back one slab after the other. No object of theirs
is taken, so their destructors do not panic. -/
theorem reclaimLoop_spec {l : Layout} (rest : List HeldSlab) : ∀ (free : List HeldSlab)
    (a : SlabAllocator) (w : World σ), a.layout = l → (∀ h ∈ free, h.taken = []) →
    Stored l this w.slabs (free ++ rest) →
    P.Holds w.phys ((free ++ rest).map (fun h => h.slab.memory) ++ others) →
    a.allocated = l.slabSize * (free ++ rest).length % 2 ^ 64 → l.slabSize ≤ 2 ^ 64 →
    ∃ a' w', reclaimLoop P a w (free.map (HeldSlab.addr l)) = some (a', w') ∧ a'.layout = l ∧
      Stored l this w'.slabs rest ∧
      P.Holds w'.phys (rest.map (fun h => h.slab.memory) ++ others) ∧
      a'.allocated = l.slabSize * rest.length % 2 ^ 64 ∧
      ∀ b, w'.slabs b = if b ∈ free.map (HeldSlab.addr l) then none else w.slabs b := by
  intro free
  induction free with
  | nil =>
      intro a w hlayout _ hstored hheld hallocated _
      exact ⟨a, w, rfl, hlayout, hstored, hheld, hallocated, fun b => (if_neg List.not_mem_nil).symm⟩
  | cons h free ih =>
      intro a w hlayout hnone hstored hheld hallocated hword
      have hread := hstored.read h List.mem_cons_self
      have hv := hstored.valid h List.mem_cons_self
      have hempty : ¬ h.slab.allocated ≠ 0 := by
        rw [hv.allocated, hnone h List.mem_cons_self]
        exact not_not_intro rfl
      obtain ⟨t, hfree, hheld'⟩ := P.free_spec hheld
      have hstep : a.free P w (h.addr l) = some
          ({ a with allocated := Word64.sub a.allocated l.slabSize },
            ({ w with phys := t } : World σ).setSlab (h.addr l) none) := by
        simp only [SlabAllocator.free, hread, Option.bind_eq_bind, Option.bind_some,
          if_neg hempty, hfree, hlayout]
        rfl
      have hcount : Word64.sub a.allocated l.slabSize =
          l.slabSize * (free ++ rest).length % 2 ^ 64 := by
        rw [hallocated, List.cons_append, List.length_cons, Word64.sub_mul_mod hword]
      obtain ⟨a', w', hloop, hlayout', hstored', hheld'', hallocated', hslabs⟩ := ih
        { a with allocated := Word64.sub a.allocated l.slabSize }
        (({ w with phys := t } : World σ).setSlab (h.addr l) none) hlayout
        (fun k hk => hnone k (List.mem_cons_of_mem h hk)) (hstored.erase none) hheld' hcount hword
      refine ⟨a', w', ?_, hlayout', hstored', hheld'', hallocated', fun b => ?_⟩
      · rw [List.map_cons, reclaimLoop, hstep, Option.bind_eq_bind, Option.bind_some]
        exact hloop
      · rw [hslabs b]
        change (if _ then none else Function.update w.slabs (h.addr l) none b) = _
        by_cases hb : b = h.addr l
        · subst hb
          rw [Function.update_self, List.map_cons, if_pos List.mem_cons_self, ite_self]
        · rw [Function.update_of_ne hb, List.map_cons]
          simp only [List.mem_cons, hb, false_or]

theorem reclaim_spec (hinv : c.Inv this w.slabs g)
    (hheld : P.Holds w.phys (g.blocks ++ others)) :
    ∃ c' w' g', c.reclaim P w = some (decide (c.reclaimable ≠ 0), c', w') ∧
      Reclaimed P this c w g others c' w' g' := by
  have hl := hinv.layout
  obtain ⟨a', w', hloop, hlayout, hstored, hheld', hallocated, hslabs⟩ := reclaimLoop_spec
    (g.partly ++ g.full) g.free c.allocator w hinv.allocator hinv.status.free
    hinv.stored hheld hinv.occupied hl.slabSize_lt.le
  rw [← hinv.lists.free_eq] at hloop hslabs
  have htaken : SlabLists.taken c.layout ⟨[], g.partly, g.full⟩ = g.taken c.layout := by
    have hfree : (g.free.flatMap fun h => h.taken.map fun p => (p, h.addr c.layout)) = [] := by
      rw [List.flatMap_eq_nil_iff]
      intro h hh
      rw [hinv.status.free h hh, List.map_nil]
    change (g.partly ++ g.full).flatMap _ = (g.free ++ (g.partly ++ g.full)).flatMap _
    conv_rhs => rw [List.flatMap_append, hfree, List.nil_append]
  refine ⟨{ c with allocator := a', free_ := [], reclaimable := 0 }, w',
    ⟨[], g.partly, g.full⟩, ?_, rfl, ⟨hl, hlayout, ⟨rfl, hinv.lists.partial_eq,
    hinv.lists.full_eq⟩, hstored, ⟨fun h hh => absurd hh List.not_mem_nil, hinv.status.partly,
    hinv.status.full⟩, ?_, hallocated⟩, hheld', rfl, htaken, rfl, ?_⟩
  · rw [reclaim, hloop]
    rfl
  · change 0 = c.layout.slabSize * 0 % 2 ^ 64
    rfl
  · intro b hb
    rw [hslabs b]
    by_cases hfree : b ∈ c.free_
    · have hin : b ∈ c.slabs := List.mem_append_left _ hfree
      rw [if_pos hfree, if_pos hin]
    · have hout : b ∉ c.slabs := fun hmem => (List.mem_append.mp hmem).elim hfree hb
      rw [if_neg hfree, if_neg hout]

end Aarch64.Cxx.Cache
