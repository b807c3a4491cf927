import Aarch64.Rust.Memory.New

/-!
# Runs of the Rust page memory

After `Memory::new` the kernel allocates blocks and frees the blocks that it
holds. Every zone keeps the allocator invariant for the blocks that start in it,
so the blocks of all zones stay inside the pages released at the start, which are
free memory outside the control arrays.
-/

namespace Aarch64.Rust

open Dyadic (Block)
open Segments (Canonical)

/-- `t` is a later state of the zone `z`. -/
def SameSpace (z t : Zone) : Prop := t.space = z.space ∧ z.freelist.SameZone t.freelist

theorem SameSpace.refl (z : Zone) : SameSpace z z := ⟨rfl, .refl _⟩

theorem SameSpace.trans {z t u : Zone} (h : SameSpace z t) (h' : SameSpace t u) : SameSpace z u :=
  ⟨h'.1.trans h.1, h.2.trans h'.2⟩

theorem SameSpace.contains_eq {z t : Zone} (h : SameSpace z t) : t.contains = z.contains := by
  funext p
  rw [Zone.contains, Zone.contains, h.1]

theorem SameSpace.pageArray_eq {z t : Zone} (h : SameSpace z t) : t.pageArray = z.pageArray := by
  rw [Zone.pageArray, Zone.pageArray, h.2.2.1, h.2.2.2]

theorem sameSpace_refl (zones : List Zone) : List.Forall₂ SameSpace zones zones :=
  List.forall₂_same.mpr fun z _ => SameSpace.refl z

variable {pages : Set Nat} {live : List Block} {zones : List Zone} {z : Zone} {b : Block}

/-- The blocks of `live` that start in the zone. -/
def Zone.liveIn (z : Zone) (live : List Block) : List Block :=
  live.filter fun b => z.contains b.index

@[simp] theorem Zone.mem_liveIn : b ∈ z.liveIn live ↔ b ∈ live ∧ z.contains b.index = true :=
  List.mem_filter

theorem Zone.liveIn_cons_of (h : z.contains b.index = true) :
    z.liveIn (b :: live) = b :: z.liveIn live := by
  simp [liveIn, h]

theorem Zone.liveIn_cons_of_not (h : ¬ z.contains b.index = true) :
    z.liveIn (b :: live) = z.liveIn live := by
  simp [liveIn, h]

@[simp] theorem Zone.liveIn_erase : z.liveIn (live.erase b) = (z.liveIn live).erase b :=
  List.erase_filter.symm

/-- The zone holds the blocks of `live` that start in it, and was given the pages
of `pages` that it contains. -/
structure ZoneHolds (pages : Set Nat) (live : List Block) (z : Zone) : Prop where
  indices_eq : z.freelist.indices = {p | z.contains p = true}
  holding : z.freelist.Holding [] (z.liveIn live) {p | z.contains p = true ∧ p ∈ pages} ∅

theorem ZonesApart.eq_of_contains {y : Zone} (h : ZonesApart zones) (hy : y ∈ zones)
    (hz : z ∈ zones) {p : Nat} (hpy : y.contains p = true) (hpz : z.contains p = true) : y = z :=
  List.Pairwise.forall_of_forall_of_flip (R := fun y z => y.contains p = true →
      z.contains p = true → y = z) (fun _ _ _ _ => rfl)
    (h.imp fun hyz hy hz => absurd hz (hyz p hy))
    (h.imp fun hyz hz hy => absurd hz (hyz p hy)) hy hz hpy hpz

/-! ## Blocks of a zone -/

theorem ZoneHolds.mem (h : ZoneHolds pages live z) (hb : b ∈ live)
    (hz : z.contains b.index = true) {p : Nat} (hp : p ∈ b.pages) :
    z.contains p = true ∧ p ∈ pages :=
  h.holding.subset_released (.inr (.inr (Zone.mem_liveIn.mpr ⟨hb, hz⟩))) hp

/-- A block elsewhere is no concern of the zone. -/
theorem ZoneHolds.cons_of_not (h : ZoneHolds pages live z) (hb : ¬ z.contains b.index = true) :
    ZoneHolds pages (b :: live) z :=
  ⟨h.indices_eq, by rw [Zone.liveIn_cons_of_not hb]; exact h.holding⟩

theorem ZoneHolds.erase_of_not (h : ZoneHolds pages live z) (hb : ¬ z.contains b.index = true) :
    ZoneHolds pages (live.erase b) z := by
  refine ⟨h.indices_eq, ?_⟩
  rw [Zone.liveIn_erase, List.erase_of_not_mem fun hmem => hb (Zone.mem_liveIn.mp hmem).2]
  exact h.holding

/-- A zone has no block, or hands out one that starts in it. -/
theorem ZoneHolds.allocatePages (h : ZoneHolds pages live z) (order : Nat) :
    z.allocatePages order = some (none, z) ∨
      ∃ index t, z.allocatePages order = some (some index, t) ∧ SameSpace z t ∧
        z.contains index = true ∧ ZoneHolds pages (⟨index, order⟩ :: live) t := by
  rcases BuddySystem.allocatePages_spec order h.holding with
    ⟨_, hnone⟩ | ⟨index, m, s, _, _, _, _, hsome, hzone, hholding⟩
  · exact Or.inl (by simp [Zone.allocatePages, hnone])
  · have hin : z.contains index = true := by
      have hmem := hholding.within (.inr (.inr List.mem_cons_self))
        (Block.index_mem ⟨index, order⟩)
      rw [hzone.indices_eq, h.indices_eq] at hmem
      exact hmem
    refine Or.inr ⟨index, ⟨s, z.space⟩, by simp [Zone.allocatePages, hsome], ⟨rfl, hzone⟩, hin,
      hzone.indices_eq.trans h.indices_eq, ?_⟩
    rw [Zone.liveIn_cons_of (by exact hin)]
    exact hholding

theorem ZoneHolds.freePages (h : ZoneHolds pages live z) (hb : b ∈ live)
    (hz : z.contains b.index = true) :
    ∃ t, z.freePages b.index = some t ∧ SameSpace z t ∧ ZoneHolds pages (live.erase b) t := by
  obtain ⟨s, hs, hzone, hholding⟩ :=
    BuddySystem.freeLive_spec h.holding (Zone.mem_liveIn.mpr ⟨hb, hz⟩)
  refine ⟨⟨s, z.space⟩, by simp [Zone.freePages, hs], ⟨rfl, hzone⟩,
    hzone.indices_eq.trans h.indices_eq, ?_⟩
  rw [Zone.liveIn_erase]
  exact hholding

/-! ## The loops over the zones -/

theorem allocateLoop_spec (order : Nat) (hzones : ∀ z ∈ zones, ZoneHolds pages live z)
    (hapart : ZonesApart zones) :
    Memory.allocateLoop order zones = some (none, zones) ∨
      ∃ index ts, Memory.allocateLoop order zones = some (some index, ts) ∧
        List.Forall₂ SameSpace zones ts ∧ (∃ z ∈ zones, z.contains index = true) ∧
        ∀ t ∈ ts, ZoneHolds pages (⟨index, order⟩ :: live) t := by
  induction zones with
  | nil => exact Or.inl rfl
  | cons z zones ih =>
      obtain ⟨hz, hrest⟩ := List.forall_mem_cons.mp hzones
      obtain ⟨hfirst, hapart⟩ := List.pairwise_cons.mp hapart
      rcases hz.allocatePages order with hnone | ⟨index, t, hsome, hsame, hin, hholds⟩
      · rcases ih hrest hapart with hnone' | ⟨index, ts, hsome, hsame, ⟨y, hy, hin⟩, hholds⟩
        · exact Or.inl (by simp [Memory.allocateLoop, hnone, hnone'])
        · refine Or.inr ⟨index, z :: ts, by simp [Memory.allocateLoop, hnone, hsome],
            List.Forall₂.cons (SameSpace.refl z) hsame, ⟨y, List.mem_cons_of_mem _ hy, hin⟩, ?_⟩
          refine List.forall_mem_cons.mpr ⟨hz.cons_of_not fun hzin => ?_, hholds⟩
          exact hfirst y hy index hzin hin
      · refine Or.inr ⟨index, t :: zones, by simp [Memory.allocateLoop, hsome],
          List.Forall₂.cons hsame (sameSpace_refl zones), ⟨z, List.mem_cons_self, hin⟩, ?_⟩
        exact List.forall_mem_cons.mpr ⟨hholds, fun y hy =>
          (hrest y hy).cons_of_not (hfirst y hy index hin)⟩

theorem freeLoop_spec (hzones : ∀ z ∈ zones, ZoneHolds pages live z)
    (hapart : ZonesApart zones) (hb : b ∈ live) (hin : ∃ z ∈ zones, z.contains b.index = true) :
    ∃ ts, Memory.freeLoop b.index zones = some ts ∧ List.Forall₂ SameSpace zones ts ∧
      ∀ t ∈ ts, ZoneHolds pages (live.erase b) t := by
  induction zones with
  | nil =>
      obtain ⟨z, hz, _⟩ := hin
      exact absurd hz List.not_mem_nil
  | cons z zones ih =>
      obtain ⟨hz, hrest⟩ := List.forall_mem_cons.mp hzones
      obtain ⟨hfirst, hapart⟩ := List.pairwise_cons.mp hapart
      rw [Memory.freeLoop]
      by_cases hzin : z.contains b.index = true
      · obtain ⟨t, ht, hsame, hholds⟩ := hz.freePages hb hzin
        refine ⟨t :: zones, by simp [hzin, ht], List.Forall₂.cons hsame (sameSpace_refl zones), ?_⟩
        exact List.forall_mem_cons.mpr ⟨hholds, fun y hy =>
          (hrest y hy).erase_of_not (hfirst y hy _ hzin)⟩
      · obtain ⟨ts, hts, hsame, hholds⟩ := ih hrest hapart (by
          obtain ⟨y, hy, hyin⟩ := hin
          rcases List.mem_cons.mp hy with rfl | hy
          · exact absurd hyin hzin
          · exact ⟨y, hy, hyin⟩)
        refine ⟨z :: ts, by simp [hzin, hts], List.Forall₂.cons (SameSpace.refl z) hsame, ?_⟩
        exact List.forall_mem_cons.mpr ⟨hz.erase_of_not hzin, hholds⟩

/-! ## Runs -/

namespace Memory

/-- The memory and the blocks that its callers hold. -/
structure Config where
  memory : Memory
  live : List Block

inductive Op
  | allocate (order : Nat)
  | free (b : Block)

/-- Only addresses of live blocks are freed. -/
def Op.Allowed (c : Config) : Op → Prop
  | .allocate _ => True
  | .free b => b ∈ c.live

def Op.run (c : Config) : Op → Option Config
  | .allocate order => do
      match ← c.memory.allocatePages order with
      | (none, memory) => return ⟨memory, c.live⟩
      | (some addr, memory) => return ⟨memory, ⟨memory.addressPage addr, order⟩ :: c.live⟩
  | .free b => do
      let memory ← c.memory.freePages (c.memory.pageAddress b.index)
      return ⟨memory, c.live.erase b⟩

def Step (c d : Config) : Prop := ∃ op : Op, op.Allowed c ∧ op.run c = some d

def Reachable (memory : Memory) : Config → Prop := Relation.ReflTransGen Step ⟨memory, []⟩

/-- The bytes `[addr, addr + 4096 * 2 ^ order)`. -/
def blockBytes (addr order : Nat) : Set Nat := Set.Ico addr (addr + PAGE_SIZE * 2 ^ order)

structure Config.Valid (pages : Set Nat) (c : Config) : Prop where
  pageSize_eq : c.memory.pageSize = PAGE_SIZE
  apart : ZonesApart c.memory.zones.items
  holds : ∀ z ∈ c.memory.zones.items, ZoneHolds pages c.live z
  owned : ∀ b ∈ c.live, ∃ z ∈ c.memory.zones.items, z.contains b.index = true

/-- The memory `m'` has the zones of `m` in later states. -/
def SameZones (m m' : Memory) : Prop :=
  m'.zones.ptr = m.zones.ptr ∧ List.Forall₂ SameSpace m.zones.items m'.zones.items

theorem SameZones.refl (m : Memory) : SameZones m m := ⟨rfl, sameSpace_refl _⟩

private theorem forall₂_sameSpace_trans {zs ts us : List Zone} (h : List.Forall₂ SameSpace zs ts)
    (h' : List.Forall₂ SameSpace ts us) : List.Forall₂ SameSpace zs us := by
  induction h generalizing us with
  | nil => exact h'
  | cons hzt _ ih =>
      cases h' with
      | cons htu hrest => exact List.Forall₂.cons (hzt.trans htu) (ih hrest)

theorem SameZones.trans {m m' m'' : Memory} (h : SameZones m m') (h' : SameZones m' m'') :
    SameZones m m'' := ⟨h'.1.trans h.1, forall₂_sameSpace_trans h.2 h'.2⟩

/-- The zones stay apart, and a page stays in a zone. -/
theorem zonesApart_of_sameSpace {zs ts : List Zone} (h : List.Forall₂ SameSpace zs ts)
    (hapart : ZonesApart zs) : ZonesApart ts := by
  have hmap : zs.map Zone.contains = ts.map Zone.contains := by
    induction h with
    | nil => rfl
    | cons hzt _ ih =>
        rw [List.map_cons, List.map_cons, hzt.contains_eq, ih (List.pairwise_cons.mp hapart).2]
  have happly : (zs.map Zone.contains).Pairwise fun f g => ∀ p, f p = true → ¬ g p = true :=
    List.pairwise_map.mpr hapart
  rw [hmap] at happly
  exact List.pairwise_map.mp happly

theorem exists_contains_of_sameSpace {zs ts : List Zone} (h : List.Forall₂ SameSpace zs ts)
    {p : Nat} (hp : ∃ z ∈ zs, z.contains p = true) : ∃ t ∈ ts, t.contains p = true := by
  induction h with
  | nil => exact hp
  | cons hzt _ ih =>
      rw [List.exists_mem_cons_iff] at hp ⊢
      rw [hzt.contains_eq]
      exact hp.imp_right ih

private theorem exists_pageArray_iff {zs ts : List Zone} (h : List.Forall₂ SameSpace zs ts)
    (x : Nat) : (∃ t ∈ ts, x ∈ t.pageArray) ↔ ∃ z ∈ zs, x ∈ z.pageArray := by
  induction h with
  | nil => exact Iff.rfl
  | cons hzt _ ih => rw [List.exists_mem_cons_iff, List.exists_mem_cons_iff, hzt.pageArray_eq, ih]

/-- The control arrays stay where they are. -/
theorem SameZones.controlArrays_eq {m m' : Memory} (h : SameZones m m') :
    controlArrays m'.zones = controlArrays m.zones := by
  rw [controlArrays, controlArrays, zoneArray, zoneArray, Slice.len, Slice.len, h.1,
    h.2.length_eq]
  exact congrArg _ (Set.ext (exists_pageArray_iff h.2))

namespace Config.Valid

variable {pages : Set Nat} {c : Config}

/-- The pages of a live block are pages that were released. -/
theorem subset_pages (h : c.Valid pages) {b : Block} (hb : b ∈ c.live) : b.pages ⊆ pages := by
  intro p hp
  obtain ⟨z, hz, hin⟩ := h.owned b hb
  exact ((h.holds z hz).mem hb hin hp).2

/-- Live blocks are disjoint, whether they are in one zone or in two. -/
theorem live_disjoint (h : c.Valid pages) :
    c.live.Pairwise fun a b => Disjoint a.pages b.pages := by
  refine List.pairwise_of_forall_sublist fun {a b} hsub => ?_
  have ha : a ∈ c.live := hsub.subset (by simp)
  have hb : b ∈ c.live := hsub.subset (by simp)
  obtain ⟨z, hz, hin⟩ := h.owned a ha
  have hholds := h.holds z hz
  by_cases hbin : z.contains b.index = true
  · have hfilter : [a, b].Sublist (z.liveIn c.live) := by
      have hkeep := hsub.filter fun b => z.contains b.index
      simpa [Zone.liveIn, hin, hbin] using hkeep
    have hpair := (List.pairwise_append.mp hholds.holding.pairwise_disjoint).2.1
    exact hpair.forall_sublist hfilter
  · obtain ⟨y, hy, hyin⟩ := h.owned b hb
    rw [Set.disjoint_left]
    intro p hpa hpb
    refine hbin ?_
    have hpz := (hholds.mem ha hin hpa).1
    have hpy := ((h.holds y hy).mem hb hyin hpb).1
    rwa [← h.apart.eq_of_contains hy hz hpy hpz]

theorem pageAddress_eq (h : c.Valid pages) (hsmall : ∀ p ∈ pages, PAGE_SIZE * (p + 1) < 2 ^ 64)
    {p : Nat} (hp : p ∈ pages) : c.memory.pageAddress p = PAGE_SIZE * p := by
  rw [pageAddress, h.pageSize_eq, Word64.mul_of_lt]
  exact (Nat.mul_le_mul_left _ (Nat.le_succ p)).trans_lt (hsmall p hp)

theorem allocatePages_spec (h : c.Valid pages)
    (hsmall : ∀ p ∈ pages, PAGE_SIZE * (p + 1) < 2 ^ 64) (order : Nat) :
    c.memory.allocatePages order = some (none, c.memory) ∨
      ∃ index memory, c.memory.allocatePages order = some (some (PAGE_SIZE * index), memory) ∧
        Valid pages ⟨memory, ⟨index, order⟩ :: c.live⟩ ∧ SameZones c.memory memory := by
  rcases allocateLoop_spec order h.holds h.apart with
    hnone | ⟨index, ts, hsome, hsame, hin, hholds⟩
  · exact Or.inl (by simp [allocatePages, hnone])
  · have hvalid : Valid pages ⟨⟨⟨c.memory.zones.ptr, ts⟩, c.memory.pageSize⟩,
        ⟨index, order⟩ :: c.live⟩ := by
      refine ⟨h.pageSize_eq, zonesApart_of_sameSpace hsame h.apart, hholds, ?_⟩
      refine List.forall_mem_cons.mpr ⟨exists_contains_of_sameSpace hsame hin, fun b hb => ?_⟩
      exact exists_contains_of_sameSpace hsame (h.owned b hb)
    have hindex : index ∈ pages :=
      hvalid.subset_pages List.mem_cons_self (Block.index_mem ⟨index, order⟩)
    refine Or.inr ⟨index, _, ?_, hvalid, rfl, hsame⟩
    simp [allocatePages, hsome, h.pageAddress_eq hsmall hindex]

theorem freePages_spec (h : c.Valid pages) (hsmall : ∀ p ∈ pages, PAGE_SIZE * (p + 1) < 2 ^ 64)
    {b : Block} (hb : b ∈ c.live) :
    ∃ memory, c.memory.freePages (c.memory.pageAddress b.index) = some memory ∧
      Valid pages ⟨memory, c.live.erase b⟩ ∧ SameZones c.memory memory := by
  obtain ⟨ts, hts, hsame, hholds⟩ := freeLoop_spec h.holds h.apart hb (h.owned b hb)
  have haddr := h.pageAddress_eq hsmall (h.subset_pages hb b.index_mem)
  have hmask : PAGE_SIZE * b.index &&& Word64.sub PAGE_SIZE 1 = 0 := by
    rw [show PAGE_SIZE = 2 ^ 12 from rfl, Word64.sub_one_two_pow (by decide),
      Word64.and_low_mask_eq_zero]
    exact Nat.dvd_mul_right _ _
  have hback : PAGE_SIZE * b.index / PAGE_SIZE = b.index := Nat.mul_div_cancel_left _ (by decide)
  refine ⟨⟨⟨c.memory.zones.ptr, ts⟩, c.memory.pageSize⟩, ?_,
    ⟨h.pageSize_eq, zonesApart_of_sameSpace hsame h.apart, hholds, fun a ha => ?_⟩, rfl, hsame⟩
  · simp [freePages, haddr, h.pageSize_eq, hmask, addressPage, hback, hts]
  · exact exists_contains_of_sameSpace hsame (h.owned a (List.mem_of_mem_erase ha))

/-- Every allowed call returns and keeps the invariant. -/
theorem run_spec (h : c.Valid pages) (hsmall : ∀ p ∈ pages, PAGE_SIZE * (p + 1) < 2 ^ 64)
    (op : Op) (hop : op.Allowed c) :
    ∃ d, op.run c = some d ∧ d.Valid pages ∧ SameZones c.memory d.memory := by
  cases op with
  | allocate order =>
      rcases h.allocatePages_spec hsmall order with hnone | ⟨index, memory, hsome, hvalid, hsame⟩
      · exact ⟨c, by simp [Op.run, hnone], h, .refl _⟩
      · refine ⟨_, ?_, hvalid, hsame⟩
        have hback : PAGE_SIZE * index / PAGE_SIZE = index := Nat.mul_div_cancel_left _ (by decide)
        have hsize : memory.pageSize = PAGE_SIZE := hvalid.pageSize_eq
        simp [Op.run, hsome, addressPage, hsize, hback]
  | free b =>
      obtain ⟨memory, hfree, hvalid, hsame⟩ := h.freePages_spec hsmall hop
      exact ⟨⟨memory, _⟩, by simp [Op.run, hfree], hvalid, hsame⟩

end Config.Valid

theorem Reachable.valid {pages : Set Nat} {memory : Memory} {c : Config}
    (hstart : Config.Valid pages ⟨memory, []⟩)
    (hsmall : ∀ p ∈ pages, PAGE_SIZE * (p + 1) < 2 ^ 64) (hrun : Reachable memory c) :
    c.Valid pages ∧ SameZones memory c.memory := by
  induction hrun with
  | refl => exact ⟨hstart, .refl _⟩
  | tail _ hstep ih =>
      obtain ⟨op, hop, heq⟩ := hstep
      obtain ⟨d, hd, hvalid, hsame⟩ := ih.1.run_spec hsmall op hop
      cases heq.symm.trans hd
      exact ⟨hvalid, ih.2.trans hsame⟩

/-! ## Safety of the blocks handed out -/

/-- `Memory::new` leaves a memory that holds the invariant for the wholly free
pages of the map. -/
theorem valid_of_seeded {malloc : MemoryMap} {fresh : Slice Zone} {memory : Memory}
    (hsize : memory.pageSize = PAGE_SIZE) (hapart : ZonesApart fresh.items)
    (hseeded : List.Forall₂ (Seeded malloc) fresh.items memory.zones.items)
    (hfresh : ∀ z ∈ fresh.items, ∃ r, Fresh r z) :
    Config.Valid {p | malloc.WholePage p} ⟨memory, []⟩ := by
  have hsame : List.Forall₂ SameSpace fresh.items memory.zones.items :=
    hseeded.imp fun _ _ h => ⟨h.space_eq, h.sameZone⟩
  refine ⟨hsize, zonesApart_of_sameSpace hsame hapart, ?_, by simp⟩
  clear hapart hsame
  change ∀ t ∈ memory.zones.items, _
  generalize memory.zones.items = ts at hseeded
  generalize fresh.items = zs at hseeded hfresh
  induction hseeded with
  | nil => simp
  | @cons z t _ _ hzt _ ih =>
      obtain ⟨⟨r, hz⟩, hrest⟩ := List.forall_mem_cons.mp hfresh
      refine List.forall_mem_cons.mpr ⟨⟨?_, ?_⟩, ih hrest⟩
      · obtain ⟨pages, offset, rfl, _⟩ := hz.new
        rw [hzt.sameZone.indices_eq]
        ext p
        change _ ↔ Range.contains t.space p = true
        rw [hzt.space_eq, Range.contains_iff]
        rfl
      · have hset : z.freePagesOf malloc =
            {p | t.contains p = true ∧ p ∈ {p | malloc.WholePage p}} := by
          rw [SameSpace.contains_eq ⟨hzt.space_eq, hzt.sameZone⟩]
          rfl
        rw [← hset]
        exact hzt.holding

/-- What the blocks handed out in a state must satisfy. -/
structure Safe (mmap : MemoryMap) (arrays : Set Nat) (c : Config) : Prop where
  returns : ∀ op : Op, op.Allowed c → ∃ d, op.run c = some d
  aligned : ∀ order addr memory, c.memory.allocatePages order = some (some addr, memory) →
    PAGE_SIZE ∣ addr
  free : ∀ order addr memory, c.memory.allocatePages order = some (some addr, memory) →
    ∀ x ∈ blockBytes addr order, ∃ memtype, lookup mmap.memory x = some (memtype, .free)
  arrays : ∀ order addr memory, c.memory.allocatePages order = some (some addr, memory) →
    Disjoint (blockBytes addr order) arrays
  live : ∀ order addr memory, c.memory.allocatePages order = some (some addr, memory) →
    ∀ b ∈ c.live, Disjoint (blockBytes addr order) (blockBytes (PAGE_SIZE * b.index) b.level)

theorem div_mem_of_mem_blockBytes {b : Block} {x : Nat}
    (hx : x ∈ blockBytes (PAGE_SIZE * b.index) b.level) : x / PAGE_SIZE ∈ b.pages := by
  rw [blockBytes, Set.mem_Ico] at hx
  rw [Block.mem_pages]
  simp only [PAGE_SIZE] at hx ⊢
  omega

theorem disjoint_blockBytes {a b : Block} (h : Disjoint a.pages b.pages) :
    Disjoint (blockBytes (PAGE_SIZE * a.index) a.level)
      (blockBytes (PAGE_SIZE * b.index) b.level) := by
  rw [Set.disjoint_left] at h ⊢
  exact fun x hxa hxb => h (div_mem_of_mem_blockBytes hxa) (div_mem_of_mem_blockBytes hxb)

/-- Every byte of a wholly free page is free. -/
theorem lookup_of_wholePage {malloc : MemoryMap} (hm : Canonical (segments malloc.memory)) {x : Nat}
    (h : malloc.WholePage (x / PAGE_SIZE)) :
    ∃ memtype, lookup malloc.memory x = some (memtype, .free) := by
  obtain ⟨r, hr, hfree, hpage⟩ := h
  refine ⟨r.memtype, ?_⟩
  simp only [PageIn, PAGE_SIZE] at hpage
  rw [← hfree]
  exact lookup_of_mem hm hr (by omega) (by omega)

/-- What the memory of the kernel is for. After `Memory::new` on a map built by successful
registrations, the released pages are exactly the wholly free pages of the map that is left when the
control arrays are carved out, each released once and to the zone that contains it (`Seeding`). In
every later run the blocks that are handed out are free memory of the map, outside the control
arrays, and disjoint from all live blocks (`Safe`). With registered memory below `2 ^ 52` no sum on
the way wraps. -/
theorem new_safe {mmap : MemoryMap} {memory : Memory} (hreg : mmap.Registered)
    (hbelow : mmap.Below (2 ^ 52)) (hnew : new mmap = some memory) :
    (∃ malloc zones calls, createZones PAGE_SIZE mmap mmap = some (some zones, malloc) ∧
      Seeding malloc zones calls memory) ∧
      ∀ c, Reachable memory c → Safe mmap (controlArrays memory.zones) c := by
  obtain ⟨malloc, zones, calls, hcreate, hseeding, hsize, hcarved, hapart, hseeded, hfresh⟩ :=
    new_seeding hreg hbelow hnew
  refine ⟨⟨malloc, zones, calls, hcreate, hseeding⟩, fun c hrun => ?_⟩
  have hsmall : ∀ p ∈ {p | malloc.WholePage p}, PAGE_SIZE * (p + 1) < 2 ^ 64 := by
    rintro p ⟨r, hr, _, hpage⟩
    exact (hpage.2.trans (hcarved.below.stop_le hcarved.canonical hr)).trans_lt (by decide)
  obtain ⟨hvalid, hsame⟩ :=
    hrun.valid (valid_of_seeded hsize hapart hseeded hfresh) hsmall
  have harrays : controlArrays memory.zones = controlArrays zones :=
    SameZones.controlArrays_eq (m := ⟨zones, PAGE_SIZE⟩)
      ⟨hseeding.ptr_eq, hseeded.imp fun _ _ h => ⟨h.space_eq, h.sameZone⟩⟩
  -- an allocation is the first block of a valid state
  have hallocated : ∀ order addr memory',
      c.memory.allocatePages order = some (some addr, memory') →
      ∃ index, addr = PAGE_SIZE * index ∧
        Config.Valid {p | malloc.WholePage p} ⟨memory', ⟨index, order⟩ :: c.live⟩ := by
    intro order addr memory' heq
    rcases hvalid.allocatePages_spec hsmall order with hnone | ⟨index, m', hsome, hvalid', _⟩
    · cases heq.symm.trans hnone
    · cases heq.symm.trans hsome
      exact ⟨index, rfl, hvalid'⟩
  have hbytes : ∀ order addr memory', c.memory.allocatePages order = some (some addr, memory') →
      ∀ x ∈ blockBytes addr order, ∃ memtype, lookup malloc.memory x = some (memtype, .free) := by
    intro order addr memory' heq x hx
    obtain ⟨index, rfl, hvalid'⟩ := hallocated order addr memory' heq
    exact lookup_of_wholePage hcarved.canonical (hvalid'.subset_pages List.mem_cons_self
      (div_mem_of_mem_blockBytes (b := ⟨index, order⟩) hx))
  refine ⟨fun op hop => ?_, ?_, ?_, ?_, ?_⟩
  · obtain ⟨d, hd, _⟩ := hvalid.run_spec hsmall op hop
    exact ⟨d, hd⟩
  · intro order addr memory' heq
    obtain ⟨index, rfl, _⟩ := hallocated order addr memory' heq
    exact Nat.dvd_mul_right _ _
  · intro order addr memory' heq x hx
    obtain ⟨memtype, hlookup⟩ := hbytes order addr memory' heq x hx
    exact ⟨memtype, (hcarved.free x memtype hlookup).1⟩
  · intro order addr memory' heq
    rw [harrays, Set.disjoint_left]
    intro x hx
    obtain ⟨memtype, hlookup⟩ := hbytes order addr memory' heq x hx
    exact (hcarved.free x memtype hlookup).2
  · intro order addr memory' heq b hb
    obtain ⟨index, rfl, hvalid'⟩ := hallocated order addr memory' heq
    have hpair := (List.pairwise_cons.mp hvalid'.live_disjoint).1 b hb
    exact disjoint_blockBytes (a := ⟨index, order⟩) hpair

private def board : MemoryMap :=
  ⟨[⟨⟨4096, 5000⟩, .regular, .free⟩, ⟨⟨5000, 5001⟩, .regular, .reserved⟩,
      ⟨⟨5001, 36964⟩, .regular, .free⟩],
    [⟨⟨4096, 36964⟩, .regular, .unknown⟩]⟩

/-- A board with memory from the second page on and one reserved byte in it. -/
theorem new_safe_board : ∃ mmap memory, new mmap = some memory ∧
    (∃ malloc zones calls, createZones PAGE_SIZE mmap mmap = some (some zones, malloc) ∧
      Seeding malloc zones calls memory) ∧
      ∀ c, Reachable memory c → Safe mmap (controlArrays memory.zones) c := by
  have hreg : MemoryMap.Registered board := by
    refine (Relation.ReflTransGen.single (b := ⟨[⟨⟨4096, 36964⟩, .regular, .free⟩],
      [⟨⟨4096, 36964⟩, .regular, .unknown⟩]⟩) ?_).tail ?_
    · exact ⟨⟨4096, 36964⟩, .regular, Or.inl (by decide +kernel)⟩
    · exact ⟨⟨5000, 5001⟩, .regular, Or.inr (by decide +kernel)⟩
  have hbelow : MemoryMap.Below board (2 ^ 52) := by
    intro x hx
    obtain ⟨l, hl⟩ := Option.ne_none_iff_exists'.mp hx
    obtain ⟨r, hr, _, hhi, _⟩ := exists_mem_of_lookup hl
    have hstop : ∀ r ∈ board.memory, r.range.stop ≤ 36964 := by decide
    have := hstop r hr
    omega
  have hreturns : (new board).isSome = true := by decide +kernel
  obtain ⟨memory, hnew⟩ := Option.isSome_iff_exists.mp hreturns
  exact ⟨board, memory, hnew, new_safe hreg hbelow hnew⟩

end Memory

end Aarch64.Rust
