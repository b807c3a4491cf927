import Aarch64.Rust.Memory.Basic
import Aarch64.Rust.MemoryMap.Allocate

/-!
# Setting up the page memory

`Memory::new` on a map whose addresses stay below `2 ^ 52`, where the sizes of the
control arrays are far from wrapping. The arrays are carved out of free memory
while the zones are visited, so what is free afterwards was free before and is
outside every array. Each zone is then given the whole pages of the free ranges
inside it, every page in exactly one block.
-/

namespace Aarch64.Rust

open Dyadic (Block)
open Segments (Canonical)

/-- The page `p` lies inside the range. -/
def PageIn (r : Range) (p : Nat) : Prop :=
  r.start ≤ PAGE_SIZE * p ∧ PAGE_SIZE * (p + 1) ≤ r.stop

theorem pageIn_iff {r : Range} {p : Nat} :
    PageIn r p ↔ (r.start + (PAGE_SIZE - 1)) / PAGE_SIZE ≤ p ∧ p < r.stop / PAGE_SIZE := by
  simp only [PageIn, PAGE_SIZE]
  omega

/-- The page `p` lies inside a single free range of the map. -/
def MemoryMap.WholePage (m : MemoryMap) (p : Nat) : Prop :=
  ∃ r ∈ m.memory, r.status = .free ∧ PageIn r.range p

theorem alignUp_pageSize {x : Nat} (hx : x + PAGE_SIZE < 2 ^ 64) :
    Numeric.alignUp x PAGE_SIZE =
      some ((x + (PAGE_SIZE - 1)) / PAGE_SIZE * PAGE_SIZE) :=
  Numeric.alignUp_two_pow (k := 12) hx.le (by decide)

theorem alignDown_pageSize {x : Nat} (hx : x < 2 ^ 64) :
    Numeric.alignDown x PAGE_SIZE = some (x / PAGE_SIZE * PAGE_SIZE) :=
  Numeric.alignDown_two_pow (k := 12) hx (by decide)

/-! ## Carving the arrays -/

/-- `m'` is `m` with the addresses of `taken` no longer free. -/
structure Carved (m m' : MemoryMap) (taken : Set Nat) : Prop where
  canonical : Canonical (segments m'.memory)
  below : m'.Below (2 ^ 52)
  free : ∀ x memtype, lookup m'.memory x = some (memtype, .free) →
    lookup m.memory x = some (memtype, .free) ∧ x ∉ taken

namespace Carved

variable {m m' m'' : MemoryMap} {s t : Set Nat}

theorem refl (hm : Canonical (segments m.memory)) (hbelow : m.Below (2 ^ 52)) :
    Carved m m ∅ := ⟨hm, hbelow, fun _ _ hx => ⟨hx, Set.notMem_empty _⟩⟩

theorem trans (h : Carved m m' s) (h' : Carved m' m'' t) : Carved m m'' (s ∪ t) where
  canonical := h'.canonical
  below := h'.below
  free x memtype hx := by
    obtain ⟨hmid, ht⟩ := h'.free x memtype hx
    obtain ⟨hfirst, hs⟩ := h.free x memtype hmid
    exact ⟨hfirst, fun hmem => hmem.elim hs ht⟩

theorem mono (h : Carved m m' t) (hst : s ⊆ t) : Carved m m' s where
  canonical := h.canonical
  below := h.below
  free x memtype hx := ⟨(h.free x memtype hx).1, fun hs => (h.free x memtype hx).2 (hst hs)⟩

theorem of_allocated {limit : Range} {size align a : Nat} (hbelow : m.Below (2 ^ 52))
    (h : m.Allocated limit size align a m') : Carved m m' (Set.Ico a (a + size)) where
  canonical := h.canonical
  below := h.below hbelow
  free _ _ hx := h.free_of_free hx

end Carved

/-- The bytes of the page array of a zone. -/
def Zone.pageArray (z : Zone) : Set Nat :=
  Set.Ico z.freelist.pages.ptr (z.freelist.pages.ptr + z.freelist.pages.len * sizeOfPage)

/-- A zone as `create_zones` makes it for a range of the map: it consists of the
whole pages of the range, and none of them is released. -/
structure Fresh (r : Range) (z : Zone) : Prop where
  new : ∃ pages offset, z = Zone.new pages offset ∧ ∀ p ∈ pages.items, p = Page.new
  contains_iff : ∀ p, z.contains p = true ↔ PageIn r p
  small : z.space.start ≤ 2 ^ 40 + 1 ∧ z.space.stop ≤ 2 ^ 40

variable {m malloc malloc' : MemoryMap}

/-- An allocation aligned to a page on a map below `2 ^ 52`. -/
theorem carved_of_allocateInRange (hm : Canonical (segments malloc.memory))
    (hbelow : malloc.Below (2 ^ 52)) {limit : Range} {size a : Nat} (hsize : size < 2 ^ 63)
    (h : malloc.allocateInRange limit size PAGE_SIZE = some (some a, malloc')) :
    size ≤ 2 ^ 52 ∧ Carved malloc malloc' (Set.Ico a (a + size)) := by
  have hfits : malloc.FitsBelow (2 ^ 12 + size) := hbelow.fitsBelow hm (by omega)
  rcases MemoryMap.allocateInRange_spec hm limit (by decide : 12 < 64) hfits with
    hnone | ⟨a', m', hsome, halloc⟩
  · cases hnone.symm.trans h
  · cases hsome.symm.trans h
    refine ⟨Nat.le_of_not_lt fun hlt => ?_, Carved.of_allocated hbelow halloc⟩
    -- the last byte of the block is registered
    have hlast := hbelow (a + size - 1) (by
      rw [halloc.wasFree (a + size - 1) (by omega) (by omega)]
      exact Option.some_ne_none _)
    omega

theorem carved_of_allocateWithHint (hm : Canonical (segments malloc.memory))
    (hbelow : malloc.Below (2 ^ 52)) {hint : Range} {size a : Nat} (hsize : size < 2 ^ 63)
    (h : malloc.allocateWithHint hint size PAGE_SIZE = some (some a, malloc')) :
    size ≤ 2 ^ 52 ∧ Carved malloc malloc' (Set.Ico a (a + size)) := by
  rcases MemoryMap.allocateWithHint_cases h with hwithin | ⟨_, hanywhere⟩
  · exact carved_of_allocateInRange hm hbelow hsize hwithin
  · exact carved_of_allocateInRange hm hbelow hsize hanywhere

/-- What `create_pages` does: it allocates an array, not at address 0, and zeroes each page of
it. -/
theorem createPages_cases {zone : Range} {pageSize : Nat} {pages : Slice Page}
    (h : createPages zone pageSize malloc = some (some pages, malloc')) :
    malloc.allocateWithHint zone
        (Word64.mul (Word64.sub zone.stop zone.start / pageSize) sizeOfPage) pageSize =
      some (some pages.ptr, malloc') ∧
    pages.items = List.replicate (Word64.sub zone.stop zone.start / pageSize) Page.new ∧
    pages.ptr ≠ 0 := by
  simp only [createPages] at h
  split at h
  next =>
    obtain ⟨⟨addr, malloc₁⟩, hcall, h⟩ := Option.bind_eq_some_iff.mp h
    obtain ⟨haddr, rfl⟩ := Prod.mk.inj (Option.some.inj h)
    obtain ⟨a, rfl, hslice⟩ := Option.bind_eq_some_iff.mp haddr
    obtain ⟨hne, rfl⟩ := sliceAt_eq_some_iff.mp hslice
    exact ⟨hcall, rfl, hne⟩
  next => cases h

/-- An array that was allocated had its size computed without wrapping: a wrapped
difference of the bounds asks for more memory than the map has. -/
theorem createPages_spec (hm : Canonical (segments malloc.memory))
    (hbelow : malloc.Below (2 ^ 52)) {first last : Nat} (hlast : last ≤ 2 ^ 40)
    (hfirst : first ≤ last + 1) {pages : Slice Page}
    (h : createPages ⟨first * PAGE_SIZE, last * PAGE_SIZE⟩ PAGE_SIZE malloc =
      some (some pages, malloc')) :
    first ≤ last ∧ pages.items = List.replicate (last - first) Page.new ∧
      Carved malloc malloc' (Set.Ico pages.ptr (pages.ptr + pages.len * sizeOfPage)) := by
  obtain ⟨hcall, hitems, _⟩ := createPages_cases h
  rcases Nat.lt_or_ge last first with hlt | hle
  · obtain rfl : first = last + 1 := by omega
    have hpages : Word64.sub (last * PAGE_SIZE) ((last + 1) * PAGE_SIZE) / PAGE_SIZE =
        2 ^ 52 - 1 := by
      simp only [Word64.sub, PAGE_SIZE]
      omega
    rw [hpages] at hcall
    have hbytes : Word64.mul (2 ^ 52 - 1) sizeOfPage = (2 ^ 52 - 1) * 24 :=
      Word64.mul_of_lt (by decide)
    rw [hbytes] at hcall
    have := (carved_of_allocateWithHint hm hbelow (by decide) hcall).1
    omega
  · have hpages : Word64.sub (last * PAGE_SIZE) (first * PAGE_SIZE) / PAGE_SIZE =
        last - first := by
      rw [Word64.sub_of_le (Nat.mul_le_mul_right _ hle) (by simp only [PAGE_SIZE]; omega),
        ← Nat.sub_mul, Nat.mul_div_cancel _ (by decide)]
    rw [hpages] at hcall hitems
    have hbytes : Word64.mul (last - first) sizeOfPage = (last - first) * sizeOfPage :=
      Word64.mul_of_lt (by simp only [sizeOfPage]; omega)
    rw [hbytes] at hcall
    refine ⟨hle, hitems, ?_⟩
    have hcarved := (carved_of_allocateWithHint hm hbelow (by simp only [sizeOfPage]; omega) hcall).2
    rwa [Slice.len, hitems, List.length_replicate]

/-- The zone made of an array with one page for each page of the range. -/
private theorem fresh_new {r : Range} {pages : Slice Page} {first last : Nat}
    (hfirst : first = (r.start + (PAGE_SIZE - 1)) / PAGE_SIZE) (hlast : last = r.stop / PAGE_SIZE)
    (hle : first ≤ last) (hsmall : last ≤ 2 ^ 40)
    (hpages : pages.items = List.replicate (last - first) Page.new) :
    Fresh r (Zone.new pages (first * PAGE_SIZE / PAGE_SIZE)) := by
  have hoffset : first * PAGE_SIZE / PAGE_SIZE = first := Nat.mul_div_cancel _ (by decide)
  have hstop : Word64.add first pages.len = last := by
    have hlen : pages.len = last - first := by rw [Slice.len, hpages, List.length_replicate]
    rw [hlen, Word64.add_of_lt (by omega)]
    omega
  rw [hoffset]
  refine ⟨⟨pages, first, rfl, fun p hp => ?_⟩, fun p => ?_, ?_, ?_⟩
  · rw [hpages] at hp
    exact List.eq_of_mem_replicate hp
  · rw [pageIn_iff, ← hfirst, ← hlast, Zone.contains, Range.contains_iff, Zone.new, hstop]
  · change first ≤ _
    omega
  · change Word64.add first pages.len ≤ _
    omega

theorem createZonesLoop_spec : ∀ (ranges : List MemoryRange) (malloc : MemoryMap),
    Canonical (segments malloc.memory) → malloc.Below (2 ^ 52) →
    (∀ r ∈ ranges, r.range.start < r.range.stop ∧ r.range.stop ≤ 2 ^ 52) →
    ∀ zones malloc', createZonesLoop PAGE_SIZE ranges malloc = some (zones, malloc') →
      List.Forall₂ (fun r z => Fresh r.range z) ranges zones ∧
        Carved malloc malloc' {x | ∃ z ∈ zones, x ∈ z.pageArray} := by
  intro ranges
  induction ranges with
  | nil =>
      intro malloc hm hbelow _ zones malloc' h
      cases h
      refine ⟨List.Forall₂.nil, (Carved.refl hm hbelow).mono ?_⟩
      rintro x ⟨z, hz, _⟩
      exact absurd hz List.not_mem_nil
  | cons r ranges ih =>
      intro malloc hm hbelow hranges zones malloc' h
      obtain ⟨⟨hlt, hstop⟩, hrest⟩ := List.forall_mem_cons.mp hranges
      simp only [createZonesLoop, alignUp_pageSize (x := r.range.start)
        (by simp only [PAGE_SIZE]; omega), alignDown_pageSize (x := r.range.stop) (by omega),
        Option.bind_eq_bind, Option.bind_some, Option.bind_eq_some_iff] at h
      obtain ⟨⟨_, malloc₁⟩, hpages, pages, rfl, ⟨zones', malloc₂⟩, hloop, h⟩ := h
      cases h
      obtain ⟨hle, hitems, hcarved⟩ := createPages_spec hm hbelow
        (by simp only [PAGE_SIZE]; omega) (by simp only [PAGE_SIZE]; omega) hpages
      obtain ⟨hall, hcarved'⟩ := ih malloc₁ hcarved.canonical hcarved.below hrest _ _ hloop
      refine ⟨List.Forall₂.cons (fresh_new rfl rfl hle (by simp only [PAGE_SIZE]; omega) hitems)
        hall, (hcarved.trans hcarved').mono ?_⟩
      rintro x ⟨z, hz, hx⟩
      rcases List.mem_cons.mp hz with rfl | hz
      · exact Or.inl hx
      · exact Or.inr ⟨z, hz, hx⟩

/-- What `create_zones` does: it allocates an array, not at address 0, and makes the zones one by
one. -/
theorem createZones_cases {pageSize : Nat} {mmap malloc malloc' : MemoryMap} {zones : Slice Zone}
    (h : createZones pageSize mmap malloc = some (some zones, malloc')) :
    ∃ malloc₁, malloc.allocate (Word64.mul mmap.zones.length sizeOfZone) pageSize =
        some (some zones.ptr, malloc₁) ∧
      createZonesLoop pageSize mmap.zones malloc₁ = some (zones.items, malloc') ∧
      zones.ptr ≠ 0 := by
  simp only [createZones] at h
  split at h
  next =>
    obtain ⟨⟨addr, malloc₁⟩, hcall, h⟩ := Option.bind_eq_some_iff.mp h
    cases addr with
    | none => cases h
    | some a =>
        obtain ⟨⟨items, malloc₂⟩, hloop, h⟩ := Option.bind_eq_some_iff.mp h
        obtain ⟨hslice, rfl⟩ := Prod.mk.inj (Option.some.inj h)
        obtain ⟨hne, rfl⟩ := sliceAt_eq_some_iff.mp hslice
        exact ⟨malloc₁, hcall, hloop, hne⟩
  next => cases h

/-- The bytes of the array of zones. -/
def zoneArray (zones : Slice Zone) : Set Nat :=
  Set.Ico zones.ptr (zones.ptr + zones.len * sizeOfZone)

/-- The bytes of all control arrays. -/
def controlArrays (zones : Slice Zone) : Set Nat :=
  zoneArray zones ∪ {x | ∃ z ∈ zones.items, x ∈ z.pageArray}

/-- The zones have the addresses of the memory, so they stay below the same bound. -/
theorem MemoryMap.Registered.zone_range {mmap : MemoryMap} {bound : Nat} (hreg : mmap.Registered)
    (hbelow : mmap.Below bound) {r : MemoryRange} (hr : r ∈ mmap.zones) :
    r.range.start < r.range.stop ∧ r.range.stop ≤ bound := by
  refine range_of_mem hreg.canonical.2 (fun x hx => hbelow x fun hnone => hx ?_) hr
  rw [hreg.zonesAgree x, hnone]
  rfl

/-- One zone for each zone of the map, and all arrays are carved out of the map. -/
theorem createZones_spec {mmap : MemoryMap} (hreg : mmap.Registered)
    (hbelow : mmap.Below (2 ^ 52)) {zones : Slice Zone}
    (h : createZones PAGE_SIZE mmap mmap = some (some zones, malloc)) :
    List.Forall₂ (fun r z => Fresh r.range z) mmap.zones zones.items ∧
      Carved mmap malloc (controlArrays zones) := by
  have hranges : ∀ r ∈ mmap.zones, r.range.start < r.range.stop ∧ r.range.stop ≤ 2 ^ 52 :=
    fun r hr => hreg.zone_range hbelow hr
  have hlength : mmap.zones.length ≤ 2 ^ 52 := by
    have hle := hreg.canonical.2.length_le 0 (2 ^ 52) (fun _ _ => Nat.zero_le _)
      (fun s hs => by
        obtain ⟨r, hr, rfl⟩ := List.mem_map.mp hs
        exact (hranges r hr).2)
    simpa [segments] using hle
  have hbytes : Word64.mul mmap.zones.length sizeOfZone = mmap.zones.length * sizeOfZone :=
    Word64.mul_of_lt (by simp only [sizeOfZone]; omega)
  obtain ⟨malloc₁, hcall, hloop, _⟩ := createZones_cases h
  rw [hbytes] at hcall
  have hcarved := (carved_of_allocateInRange hreg.canonical.1 hbelow
    (by simp only [sizeOfZone]; omega) hcall).2
  obtain ⟨hall, hcarved'⟩ := createZonesLoop_spec _ _ hcarved.canonical hcarved.below
    hranges _ _ hloop
  refine ⟨hall, (hcarved.trans hcarved').mono ?_⟩
  rw [controlArrays, zoneArray, Slice.len, ← hall.length_eq]

/-! ## Seeding the zones -/

/-- The page sets of two ranges one after the other are disjoint. -/
theorem not_pageIn_of_le {r t : Range} (h : r.stop ≤ t.start) {p : Nat} (hr : PageIn r p) :
    ¬ PageIn t p := by
  simp only [PageIn, PAGE_SIZE] at hr ⊢
  omega

/-- `blocks` are the calls of `free_pages_at_level` that turn `z` into `t`: no page
is in two of them, and together they have the pages of `pages`. -/
structure Seeds (z : Zone) (blocks : List Block) (pages : Set Nat) (t : Zone) : Prop where
  calls : z.freeBlocks blocks = some t
  once : blocks.Pairwise fun a b => Disjoint a.pages b.pages
  cover : ∀ p, (∃ b ∈ blocks, p ∈ b.pages) ↔ p ∈ pages
  space_eq : t.space = z.space
  sameZone : z.freelist.SameZone t.freelist

/-- Freeing the whole pages of fragments that lie one after the other. -/
theorem freeFragments_spec (fragments : List MemoryRange) : ∀ (z : Zone) (released : Set Nat),
    z.freelist.Holding [] [] released ∅ →
    (∀ c ∈ fragments, c.range.start + PAGE_SIZE < 2 ^ 64 ∧ c.range.stop < 2 ^ 64 ∧
      ∀ p, PageIn c.range p → p ∈ z.freelist.indices ∧ p ∉ released) →
    fragments.Pairwise (fun c d => c.range.stop ≤ d.range.start) →
    ∃ blocks t, freeFragments z fragments = some t ∧
      Seeds z blocks {p | ∃ c ∈ fragments, PageIn c.range p} t ∧
      t.freelist.Holding [] [] (released ∪ {p | ∃ c ∈ fragments, PageIn c.range p}) ∅ := by
  induction fragments with
  | nil =>
      intro z released h _ _
      refine ⟨[], z, rfl, ⟨rfl, List.Pairwise.nil, by simp, rfl, .refl _⟩, ?_⟩
      simpa using h
  | cons c rest ih =>
      intro z released h hfragments hord
      obtain ⟨⟨hstart, hstop, hpages⟩, hrest⟩ := List.forall_mem_cons.mp hfragments
      obtain ⟨hfirst, hord⟩ := List.pairwise_cons.mp hord
      obtain ⟨range, hrange⟩ : ∃ range : Range, range =
          ⟨(c.range.start + (PAGE_SIZE - 1)) / PAGE_SIZE, c.range.stop / PAGE_SIZE⟩ := ⟨_, rfl⟩
      have hmem : ∀ p, p ∈ Set.Ico range.start range.stop ↔ PageIn c.range p := by
        intro p
        rw [pageIn_iff, hrange]
        exact Iff.rfl
      obtain ⟨u, hu, hspace, hzone, hholding⟩ := Zone.freePageRange_spec range h
        (fun p hp => (hpages p ((hmem p).mp hp)).1)
        (Set.disjoint_left.mpr fun p hp => (hpages p ((hmem p).mp hp)).2)
      have hrstop : range.stop < 2 ^ 64 := by
        rw [hrange]
        exact (Nat.div_le_self _ _).trans_lt hstop
      obtain ⟨hcalls, honce, hcover⟩ := Zone.rangeBlocks_spec hrstop
        (range.stop - range.start) range.start z (Nat.le_refl _)
      obtain ⟨blocks, t, ht, hseeds, hholding'⟩ := ih u _ hholding (by
          intro d hd
          obtain ⟨hdstart, hdstop, hdpages⟩ := hrest d hd
          refine ⟨hdstart, hdstop, fun p hp => ?_⟩
          rw [hzone.indices_eq]
          refine ⟨(hdpages p hp).1, fun hmem' => ?_⟩
          rcases hmem' with hold | hnew
          · exact (hdpages p hp).2 hold
          · exact not_pageIn_of_le (hfirst d hd) ((hmem p).mp hnew) hp)
        hord
      have hset : {p | ∃ d ∈ c :: rest, PageIn d.range p} =
          Set.Ico range.start range.stop ∪ {p | ∃ d ∈ rest, PageIn d.range p} := by
        ext p
        rw [Set.mem_union, hmem]
        exact List.exists_mem_cons_iff _ _ _
      refine ⟨Zone.rangeBlocks (range.stop - range.start) range.start range.stop ++ blocks, t,
        ?_, ⟨?_, ?_, ?_, ?_, ?_⟩, ?_⟩
      · have hback : ∀ x, x * PAGE_SIZE / PAGE_SIZE = x := fun x =>
          Nat.mul_div_cancel x (by decide)
        simp only [freeFragments, alignUp_pageSize hstart, alignDown_pageSize hstop,
          Option.bind_eq_bind, Option.bind_some, hback, ← hrange, hu]
        exact ht
      · rw [Zone.freeBlocks_append, hcalls]
        rw [Zone.freePageRange] at hu
        rw [hu]
        exact hseeds.calls
      · refine List.pairwise_append.mpr ⟨honce, hseeds.once, fun a ha b hb => ?_⟩
        rw [Set.disjoint_left]
        intro p hpa hpb
        have hc : PageIn c.range p := (hmem p).mp ((hcover p).mp ⟨a, ha, hpa⟩)
        obtain ⟨d, hd, hpd⟩ := (hseeds.cover p).mp ⟨b, hb, hpb⟩
        exact not_pageIn_of_le (hfirst d hd) hc hpd
      · intro p
        rw [hset, Set.mem_union, Set.mem_Ico, ← hcover p, ← hseeds.cover p]
        simp only [List.mem_append, or_and_right, exists_or]
      · exact hseeds.space_eq.trans hspace
      · exact hzone.trans hseeds.sameZone
      · rw [hset, ← Set.union_assoc]
        exact hholding'

/-- The pages that the zone gets: those that it contains and that are wholly free. -/
def Zone.freePagesOf (malloc : MemoryMap) (z : Zone) : Set Nat :=
  {p | z.contains p = true ∧ malloc.WholePage p}

theorem seedZone_spec (hm : Canonical (segments malloc.memory)) (hbelow : malloc.Below (2 ^ 52))
    {r : Range} {z : Zone} (hz : Fresh r z) :
    ∃ blocks t, seedZone malloc z = some t ∧ Seeds z blocks (z.freePagesOf malloc) t ∧
      t.freelist.Holding [] [] (z.freePagesOf malloc) ∅ := by
  obtain ⟨hstart, hstop⟩ := hz.small
  have hindices : ∀ p, p ∈ z.freelist.indices ↔ z.contains p = true := by
    intro p
    obtain ⟨pages, offset, rfl, _⟩ := hz.new
    exact Range.contains_iff.symm
  have hcontains : ∀ p, z.contains p = true ↔ z.space.start ≤ p ∧ p < z.space.stop :=
    fun p => Range.contains_iff
  obtain ⟨limits, hlimits⟩ : ∃ limits : Range, limits =
      ⟨z.space.start * PAGE_SIZE, z.space.stop * PAGE_SIZE⟩ := ⟨_, rfl⟩
  -- a fragment has the pages of a free range that are in the zone
  have hfragment : ∀ c ∈ malloc.freeMemoryInRange limits, ∃ r ∈ malloc.memory,
      r.status = .free ∧ c.range.start < r.range.stop ∧ c.range.stop ≤ r.range.stop ∧
      ∀ p, PageIn c.range p ↔ PageIn r.range p ∧ z.contains p = true := by
    intro c hc
    obtain ⟨r, hr, hfree, rfl, hlt⟩ := MemoryMap.mem_freeMemoryInRange.mp hc
    refine ⟨r, hr, hfree, ?_, ?_, fun p => ?_⟩
    · simp only [overlap] at hlt ⊢
      omega
    · exact Nat.min_le_left _ _
    · rw [hcontains]
      simp only [PageIn, overlap, hlimits, PAGE_SIZE]
      omega
  have hpages : {p | ∃ c ∈ malloc.freeMemoryInRange limits, PageIn c.range p} =
      z.freePagesOf malloc := by
    ext p
    constructor
    · rintro ⟨c, hc, hp⟩
      obtain ⟨r, hr, hfree, _, _, hiff⟩ := hfragment c hc
      exact ⟨((hiff p).mp hp).2, r, hr, hfree, ((hiff p).mp hp).1⟩
    · rintro ⟨hcon, r, hr, hfree, hp⟩
      have hmem := (hcontains p).mp hcon
      have hin : PageIn (overlap r.range limits) p := by
        simp only [PageIn, overlap, hlimits, PAGE_SIZE] at hp ⊢
        omega
      refine ⟨⟨overlap r.range limits, r.memtype, .free⟩,
        MemoryMap.mem_freeMemoryInRange.mpr ⟨r, hr, hfree, rfl, ?_⟩, hin⟩
      simp only [PageIn, PAGE_SIZE] at hin
      change (overlap r.range limits).start < (overlap r.range limits).stop
      omega
  have hnew : z.freelist.Holding [] [] ∅ ∅ := by
    obtain ⟨pages, offset, rfl, hzero⟩ := hz.new
    exact BuddySystem.new_holding hzero offset
  obtain ⟨blocks, t, ht, hseeds, hholding⟩ := freeFragments_spec
    (malloc.freeMemoryInRange limits) z ∅ hnew (by
      intro c hc
      obtain ⟨r, hr, _, hlt, hle, hiff⟩ := hfragment c hc
      have hbound := (range_of_mem hm hbelow hr).2
      refine ⟨by simp only [PAGE_SIZE]; omega, by omega, fun p hp => ⟨?_, Set.notMem_empty p⟩⟩
      exact (hindices p).mpr ((hiff p).mp hp).2)
    (MemoryMap.pairwise_freeMemoryInRange hm limits)
  rw [Set.empty_union, hpages] at hholding
  rw [hpages] at hseeds
  refine ⟨blocks, t, ?_, hseeds, hholding⟩
  rw [seedZone, Zone.pageRange, Word64.mul_of_lt (by simp only [PAGE_SIZE]; omega),
    Word64.mul_of_lt (by simp only [PAGE_SIZE]; omega), ← hlimits]
  exact ht

/-- The zone `t` manages the pages of `z`, and holds those that it was given. -/
structure Seeded (malloc : MemoryMap) (z t : Zone) : Prop where
  space_eq : t.space = z.space
  sameZone : z.freelist.SameZone t.freelist
  holding : t.freelist.Holding [] [] (z.freePagesOf malloc) ∅

/-- Seeding all zones, with the calls made for each of them. -/
theorem seedZones_spec (hm : Canonical (segments malloc.memory)) (hbelow : malloc.Below (2 ^ 52))
    (zones : List Zone) (hzones : ∀ z ∈ zones, ∃ r, Fresh r z) :
    ∃ (calls : List (Zone × List Block)) (ts : List Zone), calls.map Prod.fst = zones ∧
      zones.mapM (seedZone malloc) = some ts ∧
      calls.mapM (fun c => c.1.freeBlocks c.2) = some ts ∧
      (∀ c ∈ calls, c.2.Pairwise (fun a b => Disjoint a.pages b.pages) ∧
        ∀ p, (∃ b ∈ c.2, p ∈ b.pages) ↔ p ∈ c.1.freePagesOf malloc) ∧
      List.Forall₂ (Seeded malloc) zones ts := by
  induction zones with
  | nil => exact ⟨[], [], rfl, rfl, rfl, by simp, List.Forall₂.nil⟩
  | cons z zones ih =>
      obtain ⟨⟨r, hz⟩, hrest⟩ := List.forall_mem_cons.mp hzones
      obtain ⟨blocks, t, ht, hseeds, hholding⟩ := seedZone_spec hm hbelow hz
      obtain ⟨calls, ts, hfst, hseeded, hcalls, hblocks, hall⟩ := ih hrest
      refine ⟨(z, blocks) :: calls, t :: ts, by simp [hfst], ?_, ?_, ?_, ?_⟩
      · simp [List.mapM_cons, ht, hseeded]
      · simp [List.mapM_cons, hseeds.calls, hcalls]
      · exact List.forall_mem_cons.mpr ⟨⟨hseeds.once, hseeds.cover⟩, hblocks⟩
      · exact List.Forall₂.cons ⟨hseeds.space_eq, hseeds.sameZone, hholding⟩ hall

/-! ## The released pages -/

/-- No page is in two zones. -/
def ZonesApart (zones : List Zone) : Prop :=
  zones.Pairwise fun y z => ∀ p, y.contains p = true → ¬ z.contains p = true

theorem exists_fresh {ranges : List MemoryRange} {zones : List Zone}
    (h : List.Forall₂ (fun r z => Fresh r.range z) ranges zones) :
    ∀ z ∈ zones, ∃ r ∈ ranges, Fresh r.range z := by
  induction h with
  | nil => simp
  | cons hrz _ ih =>
      refine List.forall_mem_cons.mpr ⟨⟨_, List.mem_cons_self, hrz⟩, fun z hz => ?_⟩
      obtain ⟨r, hr, hfresh⟩ := ih z hz
      exact ⟨r, List.mem_cons_of_mem _ hr, hfresh⟩

private theorem zonesApart_of_fresh {ranges : List MemoryRange} {zones : List Zone}
    (h : List.Forall₂ (fun r z => Fresh r.range z) ranges zones)
    (hranges : ranges.Pairwise fun r t => r.range.stop ≤ t.range.start) : ZonesApart zones := by
  induction h with
  | nil => exact List.Pairwise.nil
  | cons hrz hrest ih =>
      obtain ⟨hfirst, hranges⟩ := List.pairwise_cons.mp hranges
      refine List.pairwise_cons.mpr ⟨fun y hy p hp hpy => ?_, ih hranges⟩
      obtain ⟨t, ht, hfresh⟩ := exists_fresh hrest y hy
      exact not_pageIn_of_le (hfirst t ht) ((hrz.contains_iff p).mp hp) ((hfresh.contains_iff p).mp hpy)

theorem exists_zone_of_fresh {ranges : List MemoryRange} {zones : List Zone}
    (h : List.Forall₂ (fun r z => Fresh r.range z) ranges zones) {p : Nat}
    (hp : ∃ r ∈ ranges, PageIn r.range p) : ∃ z ∈ zones, z.contains p = true := by
  induction h with
  | nil => simp at hp
  | cons hrz _ ih =>
      rw [List.exists_mem_cons_iff] at hp ⊢
      exact hp.imp (hrz.contains_iff p).mpr ih

/-- A page of free memory lies inside one zone of the map, since a zone is a
maximal run of registered addresses of one type. -/
theorem exists_range_of_wholePage {mmap : MemoryMap} (hreg : mmap.Registered) {taken : Set Nat}
    (hcarved : Carved mmap malloc taken) {p : Nat} (hp : malloc.WholePage p) :
    ∃ r ∈ mmap.zones, PageIn r.range p := by
  obtain ⟨r, hr, hfree, hlo, hhi⟩ := hp
  have hpos : 0 < PAGE_SIZE := by decide
  have hlabel : ∀ x, PAGE_SIZE * p ≤ x → x < PAGE_SIZE * (p + 1) →
      lookup mmap.zones x = some (r.memtype, .unknown) := by
    intro x hx hx'
    have hx'' := lookup_of_mem hcarved.canonical hr (hlo.trans hx) (hx'.trans_le hhi)
    rw [hfree] at hx''
    rw [hreg.zonesAgree x, (hcarved.free x _ hx'').1]
    rfl
  obtain ⟨s, hs, hslo, hshi, _⟩ := hreg.canonical.2.exists_segment
    (Nat.mul_lt_mul_of_pos_left (Nat.lt_succ_self p) hpos) hlabel
  obtain ⟨t, ht, rfl⟩ := List.mem_map.mp hs
  exact ⟨t, ht, hslo, hshi⟩

/-- What `Memory::new` has done to reach `memory`: `zones` are the zones with all
their pages unreleased, `malloc` is the map after the arrays were allocated, and
`calls` lists the calls of `free_pages_at_level` for each zone. -/
structure Seeding (malloc : MemoryMap) (zones : Slice Zone) (calls : List (Zone × List Block))
    (memory : Memory) : Prop where
  zones_eq : calls.map Prod.fst = zones.items
  ptr_eq : memory.zones.ptr = zones.ptr
  run : calls.mapM (fun c => c.1.freeBlocks c.2) = some memory.zones.items
  once : (calls.flatMap Prod.snd).Pairwise fun a b => Disjoint a.pages b.pages
  whole : ∀ p, (∃ b ∈ calls.flatMap Prod.snd, p ∈ b.pages) ↔ malloc.WholePage p
  inZone : ∀ c ∈ calls, ∀ b ∈ c.2, ∀ p ∈ b.pages, c.1.contains p = true

theorem new_seeding {mmap : MemoryMap} (hreg : mmap.Registered) (hbelow : mmap.Below (2 ^ 52))
    {memory : Memory} (hnew : Memory.new mmap = some memory) :
    ∃ malloc zones calls, createZones PAGE_SIZE mmap mmap = some (some zones, malloc) ∧
      Seeding malloc zones calls memory ∧ memory.pageSize = PAGE_SIZE ∧
      Carved mmap malloc (controlArrays zones) ∧ ZonesApart zones.items ∧
      List.Forall₂ (Seeded malloc) zones.items memory.zones.items ∧
      ∀ z ∈ zones.items, ∃ r, Fresh r z := by
  simp only [Memory.new, Option.bind_eq_bind, Option.bind_eq_some_iff] at hnew
  obtain ⟨⟨_, malloc⟩, hcreate, zones, rfl, items, hitems, hnew⟩ := hnew
  cases hnew
  obtain ⟨hall, hcarved⟩ := createZones_spec hreg hbelow hcreate
  have hapart := zonesApart_of_fresh hall (List.pairwise_map.mp hreg.canonical.2.pairwise)
  have hfresh : ∀ z ∈ zones.items, ∃ r, Fresh r z := fun z hz => by
    obtain ⟨r, _, hr⟩ := exists_fresh hall z hz
    exact ⟨r.range, hr⟩
  obtain ⟨calls, ts, hfst, hseeded, hcalls, hblocks, hts⟩ :=
    seedZones_spec hcarved.canonical hcarved.below zones.items hfresh
  cases hitems.symm.trans hseeded
  refine ⟨malloc, zones, calls, hcreate, ⟨hfst, rfl, hcalls, ?_, fun p => ?_, ?_⟩, rfl, hcarved,
    hapart, hts, hfresh⟩
  · rw [← hfst] at hapart
    refine List.pairwise_flatMap.mpr ⟨fun c hc => (hblocks c hc).1, ?_⟩
    refine (List.pairwise_map.mp hapart).imp_of_mem fun {c d} hc hd hcd a ha b hb => ?_
    rw [Set.disjoint_left]
    intro p hpa hpb
    exact hcd p (((hblocks c hc).2 p).mp ⟨a, ha, hpa⟩).1 (((hblocks d hd).2 p).mp ⟨b, hb, hpb⟩).1
  · constructor
    · rintro ⟨b, hb, hpb⟩
      obtain ⟨c, hc, hbc⟩ := List.mem_flatMap.mp hb
      exact (((hblocks c hc).2 p).mp ⟨b, hbc, hpb⟩).2
    · intro hp
      obtain ⟨z, hz, hin⟩ := exists_zone_of_fresh hall (exists_range_of_wholePage hreg hcarved hp)
      rw [← hfst] at hz
      obtain ⟨c, hc, rfl⟩ := List.mem_map.mp hz
      obtain ⟨b, hb, hpb⟩ := ((hblocks c hc).2 p).mpr ⟨hin, hp⟩
      exact ⟨b, List.mem_flatMap.mpr ⟨c, hc, hb⟩, hpb⟩
  · intro c hc b hb p hp
    exact (((hblocks c hc).2 p).mp ⟨b, hb, hp⟩).1

end Aarch64.Rust
