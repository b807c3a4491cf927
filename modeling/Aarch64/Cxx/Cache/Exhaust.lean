import Aarch64.Cxx.Cache.Accounting

/-!
# Caches that are used up

What happens to a cache whose clients take objects until there is none, when no memory starts
at address 0: all of its slabs are full then. The destructor `~Cache` of `memory/cache.cc` is
here as well.
-/

namespace Aarch64.Cxx

variable {σ : Type} {P : PhysicalMemory σ} {this : Nat} {others : List Contigous}

/-- No memory is handed out at address 0. -/
def PhysicalMemory.Nonzero (P : PhysicalMemory σ) : Prop :=
  ∀ s held, P.Holds s held → ∀ m ∈ held, m.fromAddress ≠ 0

namespace Cache

/-- `~Cache`, which panics while an object is allocated. -/
def destroy (P : PhysicalMemory σ) (c : Cache) (w : World σ) : Option (World σ) := do
  if c.partial_ ≠ [] ∨ c.full_ ≠ [] then none
  else
    let (_, _, w) ← c.reclaim P w
    return w

variable {c : Config σ} {g : SlabLists}

theorem Took.ptr_ne_zero {cache cache' : Cache} {w w' : World σ} {g' : SlabLists} {p slab : Nat}
    (h : Took P this cache w g others p slab cache' w' g') (hnonzero : P.Nonzero) : p ≠ 0 := by
  intro hp
  obtain ⟨m, hm, hzero⟩ := h.null hp
  exact hnonzero _ _ h.held m (List.mem_append_left _ hm) hzero

/-- `Allocate` hands out an object, or every slab is full and `AllocatePhysical` fails. -/
theorem Config.Valid.allocate_cases (hc : c.Valid P this others g) (hnonzero : P.Nonzero) :
    (∃ t, c.cache.allocate P this c.world = some (0, c.cache, { c.world with phys := t }) ∧
        P.allocate c.world.phys c.cache.layout.slabSize = some (none, t) ∧
        g.partly = [] ∧ g.free = [] ∧
        Config.Valid P this others ⟨c.cache, { c.world with phys := t }, c.live⟩ g) ∨
      ∃ p slab cache world g', p ≠ 0 ∧ c.cache.allocate P this c.world = some (p, cache, world) ∧
        Config.Valid P this others ⟨cache, world, (p, slab) :: c.live⟩ g' ∧
        cache.layout = c.cache.layout := by
  obtain ⟨d, g', hrun, hran⟩ := Op.run_spec hc .allocate trivial
  have hvalid := hran.valid
  have hlayout := hran.layout
  simp only [Op.run, Option.bind_eq_bind, Option.bind_eq_some_iff] at hrun
  obtain ⟨⟨slab, c₁, w₁⟩, hselect, ⟨p, cache, world⟩, hcall, heq⟩ := hrun
  obtain rfl := Option.some.inj heq
  by_cases hp : p = 0
  · subst hp
    left
    -- the other branches hand out an object
    have hempty : g.partly = [] ∧ g.free = [] := by
      have hnull : ∀ p slab cache' w' g', c.cache.allocate P this c.world = some (p, cache', w') →
          ¬ Took P this c.cache c.world g others p slab cache' w' g' := by
        intro p slab cache' w' g' hcall' htook
        rw [hcall] at hcall'
        cases hcall'
        exact htook.ptr_ne_zero hnonzero rfl
      cases hpartly : g.partly with
      | cons h rest =>
          obtain ⟨p, _, _, c', w', g', _, hcall', htook⟩ := allocate_partial hc.inv hc.held hpartly
          exact absurd htook (hnull _ _ _ _ _ hcall')
      | nil =>
          cases hfree : g.free with
          | cons h rest =>
              obtain ⟨p, _, _, c', w', g', _, hcall', htook⟩ :=
                allocate_free hc.inv hc.held hpartly hfree
              exact absurd htook (hnull _ _ _ _ _ hcall')
          | nil => exact ⟨rfl, rfl⟩
    rcases Cache.allocate_spec hc.inv hc.held with
      ⟨t, hphys, hheld, _, hcall'⟩ | ⟨_, _, _, _, _, _, _, _, hcall', htook⟩
    · exact ⟨t, hcall', hphys, hempty.1, hempty.2, hc.inv, hheld, hc.live, hc.outside⟩
    · rw [hcall] at hcall'
      cases hcall'
      exact absurd rfl (htook.ptr_ne_zero hnonzero)
  · rw [if_neg hp] at hvalid
    exact .inr ⟨p, slab, cache, world, g', hp, hcall, hvalid, hlayout⟩

/-- Slabs that are all full hold as many objects as fit. -/
theorem Config.Valid.live_length (hc : c.Valid P this others g) (hnonzero : P.Nonzero)
    (hpartly : g.partly = []) (hfree : g.free = []) :
    c.live.length = c.cache.layout.objects * g.blocks.length := by
  have hall : g.all = g.full := by
    rw [SlabLists.all, hpartly, hfree]
    rfl
  have hblocks : ∀ m ∈ g.blocks, m.fromAddress ≠ 0 := fun m hm =>
    hnonzero _ _ hc.held m (List.mem_append_left _ hm)
  have hlengths : (g.full.map fun h => h.taken.length) =
      List.replicate g.full.length c.cache.layout.objects := by
    rw [← List.map_const']
    exact List.map_congr_left fun h hh => hc.inv.status.full h hh
      (hblocks _ (List.mem_map_of_mem (hall ▸ hh)))
  rw [hc.live.length_eq, SlabLists.taken, SlabLists.blocks, hall, List.length_flatMap,
    List.length_map]
  simp only [List.length_map]
  rw [hlengths, List.sum_replicate_nat, Nat.mul_comm]

/-- `Free` moves objects and slabs, but no physical memory. -/
theorem free_phys {cache cache' : Cache} {w w' : World σ} {p : Nat} {ok : Bool}
    (h : cache.free this w p = some (ok, cache', w')) : w'.phys = w.phys := by
  simp only [Cache.free] at h
  split at h
  · cases h
    rfl
  obtain ⟨slab, _, h⟩ := Option.bind_eq_some_iff.mp h
  split at h
  · cases h
    rfl
  obtain ⟨s, _, h⟩ := Option.bind_eq_some_iff.mp h
  split at h
  · cases h
  split at h
  · cases h
    rfl
  split at h
  · cases h
    rfl
  obtain ⟨_, _, h⟩ := Option.bind_eq_some_iff.mp h
  cases h
  rfl

/-- A live object can be freed. -/
theorem Config.Valid.free_live {p slab : Nat} {live : List (Nat × Nat)}
    (hc : c.Valid P this others g) (hlive : c.live = (p, slab) :: live) :
    ∃ ok cache world g', c.cache.free this c.world p = some (ok, cache, world) ∧
      Config.Valid P this others ⟨cache, world, live⟩ g' ∧ world.phys = c.world.phys := by
  have hmem : (p, slab) ∈ c.live := by
    rw [hlive]
    exact List.mem_cons_self
  obtain ⟨d, g', hrun, hran⟩ := Op.run_spec hc (.free p slab) hmem
  have hvalid := hran.valid
  simp only [Op.run, Option.bind_eq_bind, Option.bind_eq_some_iff] at hrun
  obtain ⟨⟨ok, cache, world⟩, hcall, heq⟩ := hrun
  obtain rfl := Option.some.inj heq
  rw [hlive, List.erase_cons_head] at hvalid
  exact ⟨ok, cache, world, g', hcall, hvalid, free_phys hcall⟩

/-- A cache without slabs is destroyed without effect. -/
theorem destroy_of_empty {cache : Cache} (hslabs : cache.slabs = []) (w : World σ) :
    cache.destroy P w = some w := by
  obtain ⟨hfree, hrest⟩ := List.append_eq_nil_iff.mp hslabs
  obtain ⟨hnone, hfull⟩ := List.append_eq_nil_iff.mp hrest
  rw [destroy, if_neg (by simp [hnone, hfull]), Cache.reclaim, hfree]
  rfl

end Cache

end Aarch64.Cxx
