import Aarch64.Cxx.Cache.Run

/-!
# Safety of a cache

Every run of a cache is safe for its clients. Two kinds of layouts have to be told
apart. A layout that does not wrap is well formed, and then the run invariant gives
safety. A layout whose arithmetic wraps, but whose slab is small all the same, has no
objects at all, and the cache never hands one out.
-/

namespace Aarch64.Cxx.Cache

variable {σ : Type} {P : PhysicalMemory σ} {this : Nat} {c d : Config σ}

/-- A cache whose objects do not fit into its slabs never hands one out. -/
structure Config.Barren (c : Config σ) : Prop where
  objects : c.cache.layout.objects = 0
  allocator : c.cache.allocator.layout = c.cache.layout
  freelist : ∀ a s, c.world.slabs a = some s → s.freelist = []
  live : c.live = []

theorem slab_new_barren {l : Layout} {m : Contigous} {s : Slab} (hl : l.objects = 0)
    (h : Slab.new this m l = some s) : s.freelist = [] := by
  have hword := Word64.add_lt m.fromAddress l.objectOffset
  have hend : Word64.add (Word64.add m.fromAddress l.objectOffset)
      (Word64.mul l.objectSize l.objects) = Word64.add m.fromAddress l.objectOffset := by
    rw [hl]
    exact Word64.add_of_lt hword
  have hloop : ∀ x size, Slab.freelistLoop x x size = some [] := by
    intro x size
    rw [Slab.freelistLoop, if_neg (Nat.lt_irrefl _)]
  rw [Slab.new] at h
  simp only [hend, hloop, Option.bind_eq_bind, Option.bind_some, Option.pure_def,
    Option.some.injEq] at h
  rw [← h]

theorem unlink_layout {cache cache' : Cache} {slab : Nat} (h : cache.unlink slab = some cache') :
    cache'.layout = cache.layout ∧ cache'.allocator = cache.allocator := by
  rw [unlink] at h
  split at h
  next =>
    obtain rfl := Option.some.inj h
    exact ⟨rfl, rfl⟩
  next => cases h

theorem pushFull_layout {cache cache' : Cache} {slab : Nat}
    (h : cache.pushFull slab = some cache') :
    cache'.layout = cache.layout ∧ cache'.allocator = cache.allocator := by
  rw [pushFull] at h
  split at h
  next => cases h
  next =>
    obtain rfl := Option.some.inj h
    exact ⟨rfl, rfl⟩

theorem pushPartial_layout {cache cache' : Cache} {slab : Nat}
    (h : cache.pushPartial slab = some cache') :
    cache'.layout = cache.layout ∧ cache'.allocator = cache.allocator := by
  rw [pushPartial] at h
  split at h
  next => cases h
  next =>
    obtain rfl := Option.some.inj h
    exact ⟨rfl, rfl⟩

theorem slabAllocator_barren {a a' : SlabAllocator} {slab : Nat} {w w' : World σ}
    (hobjects : a.layout.objects = 0) (hfreelist : ∀ b s, w.slabs b = some s → s.freelist = [])
    (h : a.allocate P this w = some (slab, a', w')) :
    a'.layout = a.layout ∧ ∀ b s, w'.slabs b = some s → s.freelist = [] := by
  rw [SlabAllocator.allocate, Option.bind_eq_bind, Option.bind_eq_some_iff] at h
  obtain ⟨⟨m, t⟩, _, h⟩ := h
  cases m with
  | none =>
      cases h
      exact ⟨rfl, hfreelist⟩
  | some m =>
      obtain ⟨s, hnew, heq⟩ := Option.bind_eq_some_iff.mp h
      cases heq
      refine ⟨rfl, fun b s' hread => ?_⟩
      change Function.update w.slabs _ (some s) b = some s' at hread
      by_cases hb : b = Word64.add m.fromAddress a.layout.controlOffset
      · rw [hb, Function.update_self] at hread
        cases hread
        exact slab_new_barren hobjects hnew
      · rw [Function.update_of_ne hb] at hread
        exact hfreelist b s' hread

/-- The slabs that a barren cache selects are empty. -/
theorem selectSlab_barren {slab : Nat} {cache cache' : Cache} {w w' : World σ}
    (hobjects : cache.layout.objects = 0) (hallocator : cache.allocator.layout = cache.layout)
    (hfreelist : ∀ a s, w.slabs a = some s → s.freelist = [])
    (h : cache.selectSlab P this w = some (slab, cache', w')) :
    cache'.layout = cache.layout ∧ cache'.allocator.layout = cache.layout ∧
      ∀ a s, w'.slabs a = some s → s.freelist = [] := by
  rw [selectSlab] at h
  split at h
  next first rest hpartly =>
    simp only [Option.bind_eq_bind, Option.bind_eq_some_iff] at h
    obtain ⟨s, _, c₁, hmoved, heq⟩ := h
    have hsame : c₁.layout = cache.layout ∧ c₁.allocator = cache.allocator := by
      split at hmoved
      next =>
        obtain ⟨c₂, hunlink, hpush⟩ := Option.bind_eq_some_iff.mp hmoved
        have h₁ := unlink_layout hunlink
        have h₂ := pushFull_layout hpush
        exact ⟨h₂.1.trans h₁.1, h₂.2.trans h₁.2⟩
      next =>
        obtain rfl := Option.some.inj hmoved
        exact ⟨rfl, rfl⟩
    cases heq
    exact ⟨hsame.1, by rw [← hallocator, ← hsame.2], hfreelist⟩
  next =>
    split at h
    next first rest hfree =>
      simp only [Option.bind_eq_bind, Option.bind_eq_some_iff] at h
      obtain ⟨c₁, hpush, heq⟩ := h
      have hsame := pushPartial_layout hpush
      cases heq
      exact ⟨hsame.1, by rw [← hallocator]; exact congrArg SlabAllocator.layout hsame.2, hfreelist⟩
    next =>
      simp only [Option.bind_eq_bind, Option.bind_eq_some_iff] at h
      obtain ⟨⟨new, a, w₁⟩, hallocate, h⟩ := h
      obtain ⟨hlayout, hslabs⟩ := slabAllocator_barren (hallocator ▸ hobjects) hfreelist hallocate
      split at h
      next =>
        cases h
        exact ⟨rfl, hlayout.trans hallocator, hslabs⟩
      next =>
        obtain ⟨c₁, hpush, heq⟩ := Option.bind_eq_some_iff.mp h
        have hsame := pushPartial_layout hpush
        cases heq
        refine ⟨hsame.1, ?_, hslabs⟩
        exact (congrArg SlabAllocator.layout hsame.2).trans (hlayout.trans hallocator)

theorem reclaimLoop_barren : ∀ (free : List Nat) (a a' : SlabAllocator) (w w' : World σ),
    (∀ b s, w.slabs b = some s → s.freelist = []) →
    reclaimLoop P a w free = some (a', w') →
    a'.layout = a.layout ∧ ∀ b s, w'.slabs b = some s → s.freelist = [] := by
  intro free
  induction free with
  | nil =>
      intro a a' w w' hfreelist h
      cases h
      exact ⟨rfl, hfreelist⟩
  | cons slab free ih =>
      intro a a' w w' hfreelist h
      rw [reclaimLoop, Option.bind_eq_bind, Option.bind_eq_some_iff] at h
      obtain ⟨⟨a₁, w₁⟩, hfree, hloop⟩ := h
      rw [SlabAllocator.free, Option.bind_eq_bind, Option.bind_eq_some_iff] at hfree
      obtain ⟨s, _, hfree⟩ := hfree
      split at hfree
      next => cases hfree
      next =>
        obtain ⟨t, _, heq⟩ := Option.bind_eq_some_iff.mp hfree
        cases heq
        refine ih { a with allocated := Word64.sub a.allocated a.layout.slabSize } a'
          (({ w with phys := t } : World σ).setSlab slab none) w' (fun b s hread => ?_) hloop
        change Function.update w.slabs slab none b = some s at hread
        by_cases hb : b = slab
        · rw [hb, Function.update_self] at hread
          cases hread
        · rw [Function.update_of_ne hb] at hread
          exact hfreelist b s hread

/-- No call of a barren cache makes an object live. -/
theorem Op.run_barren (hc : c.Barren) (op : Op) (hop : op.Allowed c)
    (h : op.run P this c = some d) : d.Barren := by
  cases op with
  | allocate =>
      simp only [Op.run, Option.bind_eq_bind, Option.bind_eq_some_iff] at h
      obtain ⟨⟨slab, c₁, w₁⟩, hselect, ⟨ptr, cache, world⟩, hcall, heq⟩ := h
      obtain ⟨hlayout, hallocator, hslabs⟩ :=
        selectSlab_barren hc.objects hc.allocator hc.freelist hselect
      rw [Cache.allocate, hselect] at hcall
      simp only [Option.bind_eq_bind, Option.bind_some] at hcall
      have hresult : ptr = 0 ∧ cache = c₁ ∧ ∀ b s, world.slabs b = some s → s.freelist = [] := by
        split at hcall
        next =>
          cases hcall
          exact ⟨rfl, rfl, hslabs⟩
        next =>
          obtain ⟨s, hread, heq⟩ := Option.bind_eq_some_iff.mp hcall
          have hempty := hslabs slab s hread
          have hnone : s.allocate = (0, s) := by rw [Slab.allocate, hempty]
          rw [hnone] at heq
          cases heq
          refine ⟨rfl, rfl, fun b s' hread' => ?_⟩
          change Function.update w₁.slabs slab (some s) b = some s' at hread'
          by_cases hb : b = slab
          · rw [hb, Function.update_self] at hread'
            cases hread'
            exact hempty
          · rw [Function.update_of_ne hb] at hread'
            exact hslabs b s' hread'
      obtain ⟨rfl, rfl, hslabs'⟩ := hresult
      cases heq
      refine ⟨?_, hallocator.trans hlayout.symm, hslabs', ?_⟩
      · change cache.layout.objects = 0
        rw [hlayout]
        exact hc.objects
      · change (if 0 = 0 then c.live else (0, slab) :: c.live) = []
        rw [if_pos rfl]
        exact hc.live
  | free ptr slab =>
      change (ptr, slab) ∈ c.live at hop
      rw [hc.live] at hop
      exact absurd hop List.not_mem_nil
  | reclaim =>
      simp only [Op.run, Cache.reclaim, Option.bind_eq_bind, Option.bind_eq_some_iff] at h
      obtain ⟨⟨ok, cache, world⟩, ⟨⟨a, w⟩, hloop, hcall⟩, heq⟩ := h
      obtain ⟨hlayout, hslabs⟩ := reclaimLoop_barren _ _ _ _ _ hc.freelist hloop
      cases hcall
      cases heq
      exact ⟨hc.objects, hlayout.trans hc.allocator, hslabs, hc.live⟩

theorem Config.Barren.safe {alignment : Nat} (hc : c.Barren) : c.Safe alignment := by
  have hno : ∀ x, x ∉ c.live := by
    intro x hx
    rw [hc.live] at hx
    exact List.not_mem_nil hx
  refine ⟨?_, fun x hx => absurd hx (hno x), fun x hx => absurd hx (hno x),
    fun x hx => absurd hx (hno x)⟩
  rw [hc.live]
  exact List.Pairwise.nil

/-- In every run of a cache the live objects are at least `object_size` apart and aligned, so no two
of them share a byte. Each lies in one block of the allocator of pages, before the control structure
of its slab, and `Find` leads from the object to the slab that it was allocated from. Slabs at
address 0 are included: what is lost there is memory and never an object. -/
theorem reachable_safe {size a : Nat} (hsize : size < 2 ^ 64) (ha : a < 64) {cache : Cache}
    (hnew : Cache.new size (2 ^ a) = some cache) (hsmall : cache.layout.slabSize ≤ 2 ^ 32)
    {others : List Contigous} {phys : σ} (hheld : P.Holds phys others)
    (hrun : Reachable P this cache phys c) : c.Safe (2 ^ a) := by
  obtain ⟨hlayout, hallocator⟩ := new_layout hnew
  obtain ⟨_, hstorage, haligned⟩ := new_objectSize hsize ha hnew
  rcases makeLayout_small hlayout hstorage hsmall with hwell | hnone
  · obtain ⟨hsame, g, hvalid⟩ := hrun.valid (initial_valid hnew hwell hheld)
    exact hvalid.safe (hsame ▸ haligned)
  · have hbarren : c.Barren := by
      induction hrun with
      | refl => exact ⟨hnone, hallocator, fun _ _ h => (by cases h), rfl⟩
      | tail _ hstep ih =>
          obtain ⟨op, hop, heq⟩ := hstep
          exact op.run_barren ih hop heq
    exact hbarren.safe

/-- Two objects of one slab. -/
theorem reachable_safe_board : ∃ c : Config Zones,
    c.live = [(0x4040, 0x4fb8), (0x4000, 0x4fb8)] ∧ c.Safe 64 := by
  obtain ⟨zones, cache, c, d, hheld, hnew, hlayout, _, hfirst, hsecond, _, hlive⟩ := allocate_board
  have hrun : Reachable Zones.memory 0x1000 cache zones d :=
    (Relation.ReflTransGen.single ⟨.allocate, trivial, hfirst⟩).tail ⟨.allocate, trivial, hsecond⟩
  refine ⟨d, hlive, ?_⟩
  exact reachable_safe (a := 6) (by decide) (by decide) hnew
    (by rw [hlayout]; decide) (P := Zones.memory) hheld hrun

end Aarch64.Cxx.Cache
