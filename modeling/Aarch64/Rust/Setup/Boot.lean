import Aarch64.Rust.Memory.Release
import Aarch64.Rust.Pl011
import Aarch64.Rust.Setup.Reservations

/-!
# Setting up the kernel

`from_devicetree` of `kernel/kernel/src/setup.rs` and `start_kernel` of
`kernel/kernel/src/lib.rs`. What the `bootstrap` crate returns is a parameter. The kernel
sets up its memory, then the serial line, and then takes over the heap of the bootstrap page
by page.
-/

namespace Aarch64.Rust

open Mmio (Driver Bus)
open Segments (Canonical)

/-- What the functions of the `bootstrap` crate return. -/
structure Bootstrap where
  fdt : List UInt8
  reserved : List Range
  shutdown : Bool
  heap : Range

structure Kernel where
  memory : Memory
  logger : PL011

/-- A panic is `some none`, as in `mmapFromDevicetree`. -/
def memoryFromDevicetree (fuel : Nat) (dt : DeviceTree) (bootstrap : List Range) :
    Option (Option Memory) :=
  (mmapFromDevicetree fuel dt bootstrap).map fun mmap => mmap >>= Memory.new

/-- The loop that frees the heap. A round that still has to run without fuel left stands for
a loop that does not end. -/
def freeHeapLoop (fuel : Nat) (addr stop : Nat) (memory : Memory) : Option Memory :=
  if addr < stop then
    match fuel with
    | 0 => none
    | fuel + 1 => do
        let memory ← memory.freePages addr
        freeHeapLoop fuel (Word64.add addr memory.pageSize) stop memory
  else some memory

def freeHeap (heap : Range) (memory : Memory) : Option Memory := do
  let addr ← Numeric.alignUp heap.start memory.pageSize
  let stop ← Numeric.alignDown heap.stop memory.pageSize
  freeHeapLoop (stop - addr) addr stop memory

/-- What the serial line is driven as. -/
def serialLogger : Driver (BitVec 32) PL011 := PL011.new 0x9000000 24000000

/-- `fuel` is what `mmapFromDevicetree` has. -/
def fromDevicetree (fuel : Nat) (bootstrap : Bootstrap) : Driver (BitVec 32) Kernel := do
  let dt ← Driver.get (parse bootstrap.fdt).unwrap
  let memory ← Driver.get (memoryFromDevicetree fuel dt bootstrap.reserved).join
  let logger ← serialLogger
  let memory ← Driver.get (if bootstrap.shutdown then freeHeap bootstrap.heap memory else none)
  return ⟨memory, logger⟩

variable {m m' : MemoryMap} {dt : DeviceTree} {fuel : Nat} {bootstrap : List Range}

theorem registered_of_registerAll {status : MemoryStatus}
    (hstatus : status = .free ∨ status = .reserved) (ranges : List Range) (hm : m.Registered)
    (h : registerAll status ranges m = some m') : m'.Registered := by
  induction ranges generalizing m with
  | nil =>
      cases h
      exact hm
  | cons r ranges ih =>
      rw [registerAll_cons] at h
      obtain ⟨m₁, hfirst, h⟩ := Option.bind_eq_some_iff.mp h
      refine ih (hm.tail ⟨r, .regular, ?_⟩) h
      have hcall : m.addMemoryWith r .regular status = some (.ok (), m₁) := by
        rcases hwith : m.addMemoryWith r .regular status with _ | ⟨_ | ⟨⟩, m₂⟩
        · rw [hwith] at hfirst
          cases hfirst
        · rw [hwith] at hfirst
          cases hfirst
        · rw [hwith] at hfirst
          cases hfirst
          rfl
      rcases hstatus with rfl | rfl
      · exact Or.inl hcall
      · exact Or.inr hcall

theorem maps_of_mmapFromDevicetree (h : mmapFromDevicetree fuel dt bootstrap = some (some m)) :
    Maps dt bootstrap m ∧ m.Registered := by
  obtain ⟨m', hregister, hm'⟩ := exists_maps dt bootstrap
  obtain ⟨hgood, hbad⟩ := mmapFromDevicetree_result h
  have hm : Maps dt bootstrap m := by
    by_cases hdec : AllDecode dt.root.addressSpace dt.root.children
    · obtain ⟨m'', heq, hm⟩ := hgood hdec
      exact Option.some.inj heq ▸ hm
    · cases hbad hdec
  refine ⟨hm, ?_⟩
  obtain rfl : m' = m := hm'.sound.eq_of_lookup_eq hm.sound fun x => by
    rw [hm'.lookup_eq, hm.lookup_eq]
  obtain ⟨m₁, hfirst, hsecond⟩ := Option.bind_eq_some_iff.mp hregister
  exact registered_of_registerAll (Or.inr rfl) _
    (registered_of_registerAll (Or.inl rfl) _ Relation.ReflTransGen.refl hfirst) hsecond

theorem Maps.lookup_ne_none_iff (hm : Maps dt bootstrap m) (x : Nat) :
    lookup m.memory x ≠ none ↔ RamAt dt x ∨ ReservedAt dt bootstrap x := by
  rw [hm.lookup_eq x]
  by_cases hreserved : ReservedAt dt bootstrap x
  · simp [hreserved]
  · by_cases hram : RamAt dt x
    · simp [hreserved, hram]
    · simp [hreserved, hram]

/-- All memory is regular, so a page of registered addresses lies inside one zone. -/
theorem Maps.exists_zone (hm : Maps dt bootstrap m) {p : Nat}
    (hp : ∀ x, PAGE_SIZE * p ≤ x → x < PAGE_SIZE * (p + 1) → ReservedAt dt bootstrap x) :
    ∃ r ∈ m.zones, PageIn r.range p := by
  have hpos : 0 < PAGE_SIZE := by decide
  have hlabel : ∀ x, PAGE_SIZE * p ≤ x → x < PAGE_SIZE * (p + 1) →
      lookup m.zones x = some (.regular, .unknown) := by
    intro x hlo hhi
    rw [hm.sound.agree x, hm.lookup_eq x, if_pos (hp x hlo hhi)]
    rfl
  obtain ⟨s, hs, hslo, hshi, _⟩ := hm.sound.zones.exists_segment
    (Nat.mul_lt_mul_of_pos_left (Nat.lt_succ_self p) hpos) hlabel
  obtain ⟨t, ht, rfl⟩ := List.mem_map.mp hs
  exact ⟨t, ht, hslo, hshi⟩

/-! ## Taking over the heap -/

open Memory (Config SameZones)

variable {pages : Set Nat}

/-- Freeing unreleased pages one after the other releases them all. The induction is on the
pages left. -/
theorem freeHeapLoop_spec {b : Nat} (hb : PAGE_SIZE * b < 2 ^ 64) (fuel : Nat) :
    ∀ (a : Nat) (c : Config) (pages : Set Nat), b - a ≤ fuel → c.Valid pages →
    (∀ p, a ≤ p → p < b → p ∉ pages ∧ ∃ z ∈ c.memory.zones.items, z.contains p = true) →
    ∃ memory, freeHeapLoop fuel (PAGE_SIZE * a) (PAGE_SIZE * b) c.memory = some memory ∧
      Config.Valid (pages ∪ Set.Ico a b) ⟨memory, c.live⟩ ∧ SameZones c.memory memory := by
  have hpos : 0 < PAGE_SIZE := by decide
  have hlt_iff : ∀ a, PAGE_SIZE * a < PAGE_SIZE * b ↔ a < b := fun a => Nat.mul_lt_mul_left hpos
  induction fuel with
  | zero =>
      intro a c pages hfuel hc _
      refine ⟨c.memory, ?_, ?_, SameZones.refl _⟩
      · rw [freeHeapLoop, if_neg (by rw [hlt_iff]; omega)]
      · rw [Set.Ico_eq_empty (by omega), Set.union_empty]
        exact hc
  | succ fuel ih =>
      intro a c pages hfuel hc hfresh
      by_cases hlt : a < b
      · obtain ⟨hnew, hin⟩ := hfresh a (Nat.le_refl _) hlt
        obtain ⟨memory, hcall, hvalid, hsame⟩ := hc.seedPage hnew hin
        obtain ⟨memory', hrest, hvalid', hsame'⟩ := ih (a + 1) ⟨memory, c.live⟩ _ (by omega) hvalid
          (by
            intro p hlo hhi
            obtain ⟨hp, hpin⟩ := hfresh p (by omega) hhi
            refine ⟨fun hmem => ?_, hsame.exists_contains hpin⟩
            rcases Set.mem_insert_iff.mp hmem with rfl | hmem
            · omega
            · exact hp hmem)
        have hnext : Word64.add (PAGE_SIZE * a) memory.pageSize = PAGE_SIZE * (a + 1) := by
          have hle := Nat.mul_le_mul_left PAGE_SIZE (Nat.succ_le_of_lt hlt)
          rw [hvalid.pageSize_eq, Nat.mul_succ, Word64.add_of_lt]
          rw [Nat.succ_eq_add_one, Nat.mul_succ] at hle
          omega
        have hset : pages ∪ Set.Ico a b = insert a pages ∪ Set.Ico (a + 1) b := by
          ext p
          simp only [Set.mem_union, Set.mem_insert_iff, Set.mem_Ico]
          constructor
          · rintro (hp | ⟨hlo, hhi⟩)
            · exact Or.inl (Or.inr hp)
            · rcases Nat.eq_or_lt_of_le hlo with rfl | hlo
              · exact Or.inl (Or.inl rfl)
              · exact Or.inr ⟨hlo, hhi⟩
          · rintro ((rfl | hp) | ⟨hlo, hhi⟩)
            · exact Or.inr ⟨Nat.le_refl _, hlt⟩
            · exact Or.inl hp
            · exact Or.inr ⟨by omega, hhi⟩
        refine ⟨memory', ?_, ?_, hsame.trans hsame'⟩
        · rw [freeHeapLoop, if_pos ((hlt_iff a).mpr hlt), hcall, Option.bind_eq_bind,
            Option.bind_some, hnext]
          exact hrest
        · rw [hset]
          exact hvalid'
      · refine ⟨c.memory, ?_, ?_, SameZones.refl _⟩
        · rw [freeHeapLoop, if_neg (by rwa [hlt_iff])]
        · rw [Set.Ico_eq_empty hlt, Set.union_empty]
          exact hc

/-- The heap is taken over if its whole pages are unreleased pages of the zones. -/
theorem freeHeap_spec {heap : Range} (hstart : heap.start + PAGE_SIZE < 2 ^ 64)
    (hstop : heap.stop < 2 ^ 64) {c : Config} (hc : c.Valid pages)
    (hfresh : ∀ p, PageIn heap p →
      p ∉ pages ∧ ∃ z ∈ c.memory.zones.items, z.contains p = true) :
    ∃ memory, freeHeap heap c.memory = some memory ∧
      Config.Valid (pages ∪ {p | PageIn heap p}) ⟨memory, c.live⟩ ∧ SameZones c.memory memory := by
  generalize ha : (heap.start + (PAGE_SIZE - 1)) / PAGE_SIZE = a
  generalize hb : heap.stop / PAGE_SIZE = b
  have hmem : ∀ p, p ∈ Set.Ico a b ↔ PageIn heap p := by
    intro p
    rw [pageIn_iff, ha, hb]
    exact Iff.rfl
  have hle : PAGE_SIZE * b < 2 ^ 64 := by
    rw [← hb]
    exact (Nat.mul_div_le _ _).trans_lt hstop
  obtain ⟨memory, hcall, hvalid, hsame⟩ := freeHeapLoop_spec hle (PAGE_SIZE * b - PAGE_SIZE * a) a c
    pages (by simp only [PAGE_SIZE]; omega) hc fun p hlo hhi => hfresh p ((hmem p).mp ⟨hlo, hhi⟩)
  have hset : Set.Ico a b = {p | PageIn heap p} := Set.ext hmem
  rw [hset] at hvalid
  refine ⟨memory, ?_, hvalid, hsame⟩
  rw [freeHeap, hc.pageSize_eq, alignUp_pageSize hstart, alignDown_pageSize hstop, ha, hb,
    Nat.mul_comm a, Nat.mul_comm b]
  exact hcall

/-! ## From the device tree to the kernel -/

/-- What the kernel relies on: registered memory lies below `2 ^ 52`, and the heap is a range
of reserved memory. -/
structure Bootstrap.HandsOver (bootstrap : Bootstrap) (dt : DeviceTree) : Prop where
  below : ∀ x, RamAt dt x ∨ ReservedAt dt bootstrap.reserved x → x < 2 ^ 52
  ordered : bootstrap.heap.start ≤ bootstrap.heap.stop
  stop_le : bootstrap.heap.stop ≤ 2 ^ 52
  heap_reserved : ∀ x, bootstrap.heap.start ≤ x → x < bootstrap.heap.stop →
    ReservedAt dt bootstrap.reserved x

/-- The bytes that the kernel may hand out: memory that nothing reserves, and the heap. -/
def Bootstrap.usable (bootstrap : Bootstrap) (dt : DeviceTree) : Set Nat :=
  {x | RamAt dt x ∧ ¬ ReservedAt dt bootstrap.reserved x ∨
    bootstrap.heap.start ≤ x ∧ x < bootstrap.heap.stop}

/-- The pages `pages` are released, in zones, small enough and usable outside the arrays. -/
structure Released (pages : Set Nat) (usable : Set Nat) (memory : Memory) : Prop where
  valid : Config.Valid pages ⟨memory, []⟩
  covered : ∀ p ∈ pages, ∃ z ∈ memory.zones.items, z.contains p = true
  small : ∀ p ∈ pages, PAGE_SIZE * (p + 1) < 2 ^ 64
  usable : ∀ x, x / PAGE_SIZE ∈ pages → x ∈ usable ∧ x ∉ controlArrays memory.zones

variable {b : Bootstrap} {memory : Memory}

/-- Taking over the heap never panics, and releases the pages of the heap. -/
theorem freeHeap_of_handsOver (h : b.HandsOver dt)
    (hmemory : memoryFromDevicetree fuel dt b.reserved = some (some memory)) :
    ∃ memory' pages, freeHeap b.heap memory = some memory' ∧
      Released pages (b.usable dt) memory' ∧ ∀ p, PageIn b.heap p → p ∈ pages := by
  obtain ⟨result, hresult, hmap⟩ := Option.map_eq_some_iff.mp hmemory
  obtain ⟨mmap, rfl, hnew⟩ := Option.bind_eq_some_iff.mp hmap
  obtain ⟨hmaps, hreg⟩ := maps_of_mmapFromDevicetree hresult
  have hbelow : mmap.Below (2 ^ 52) := fun x hx => h.below x ((hmaps.lookup_ne_none_iff x).mp hx)
  obtain ⟨malloc, zones, calls, hcreate, hseeding, hsize, hcarved, hapart, hseeded, hfresh⟩ :=
    new_seeding hreg hbelow hnew
  have hvalid := Memory.valid_of_seeded hsize hapart hseeded hfresh
  have hsame : SameZones ⟨zones, PAGE_SIZE⟩ memory :=
    ⟨hseeding.ptr_eq, hseeded.imp fun _ _ h => ⟨h.space_eq, h.sameZone⟩⟩
  have hzones := (createZones_spec hreg hbelow hcreate).1
  have hfreeAt := createZones_freeAt hreg hbelow hcreate
  have hreserved_of_page : ∀ p, PageIn b.heap p → ∀ x, PAGE_SIZE * p ≤ x →
      x < PAGE_SIZE * (p + 1) → ReservedAt dt b.reserved x := fun p hp x hlo hhi =>
    h.heap_reserved x (hp.1.trans hlo) (hhi.trans_le hp.2)
  have hpage : ∀ x, PAGE_SIZE * (x / PAGE_SIZE) ≤ x ∧ x < PAGE_SIZE * (x / PAGE_SIZE + 1) := by
    intro x
    simp only [PAGE_SIZE]
    omega
  have hheap_zone : ∀ p, PageIn b.heap p → ∃ z ∈ zones.items, z.contains p = true := fun p hp =>
    exists_zone_of_fresh hzones (hmaps.exists_zone (hreserved_of_page p hp))
  have hunreleased : ∀ p, PageIn b.heap p → p ∉ {p | malloc.WholePage p} := by
    intro p hp hwhole
    have hlo : p * PAGE_SIZE / PAGE_SIZE = p := Nat.mul_div_cancel p (by decide)
    obtain ⟨memtype, hfree⟩ := Memory.lookup_of_wholePage hcarved.canonical (x := p * PAGE_SIZE)
      (by rwa [hlo])
    obtain ⟨-, hnot⟩ := (hmaps.free_iff _).mp ⟨memtype, (hcarved.free _ _ hfree).1⟩
    have hat := hpage (p * PAGE_SIZE)
    rw [hlo] at hat
    exact hnot (hreserved_of_page p hp _ hat.1 hat.2)
  have hstart : b.heap.start + PAGE_SIZE < 2 ^ 64 := by
    have := h.ordered
    have := h.stop_le
    simp only [PAGE_SIZE]
    omega
  have hstop : b.heap.stop < 2 ^ 64 := h.stop_le.trans_lt (by decide)
  obtain ⟨memory', hcall, hvalid', hsame'⟩ := freeHeap_spec hstart hstop hvalid fun p hp =>
    ⟨hunreleased p hp, hsame.exists_contains (hheap_zone p hp)⟩
  have hall := hsame.trans hsame'
  refine ⟨memory', _, hcall, ⟨hvalid', ?_, ?_, ?_⟩, fun p hp => Or.inr hp⟩
  · rintro p (hp | hp)
    · exact hall.exists_contains
        (exists_zone_of_fresh hzones (exists_range_of_wholePage hreg hcarved hp))
    · exact hall.exists_contains (hheap_zone p hp)
  · rintro p (⟨r, hr, _, hp⟩ | hp)
    · exact (hp.2.trans (hcarved.below.stop_le hcarved.canonical hr)).trans_lt (by decide)
    · exact (hp.2.trans h.stop_le).trans_lt (by decide)
  · have harrays : controlArrays memory'.zones = controlArrays zones := hall.controlArrays_eq
    intro x hx
    rw [harrays]
    rcases hx with hx | hx
    · obtain ⟨memtype, hfree⟩ := Memory.lookup_of_wholePage hcarved.canonical hx
      obtain ⟨hmmap, hnot⟩ := hcarved.free x memtype hfree
      exact ⟨Or.inl ((hmaps.free_iff x).mp ⟨memtype, hmmap⟩), hnot⟩
    · refine ⟨Or.inr ⟨hx.1.trans (hpage x).1, (hpage x).2.trans_le hx.2⟩, fun harray => ?_⟩
      obtain ⟨-, hnot⟩ := (hmaps.free_iff x).mp (hfreeAt x harray)
      exact hnot (hreserved_of_page _ hx x (hpage x).1 (hpage x).2)

/-- The stages of the set up, each of which has to return. -/
theorem fromDevicetree_eq_some_iff {bus : Bus (BitVec 32)} {kernel : Kernel} :
    (fromDevicetree fuel b bus).1 = some kernel ↔ ∃ dt memory, (parse b.fdt).unwrap = some dt ∧
      memoryFromDevicetree fuel dt b.reserved = some (some memory) ∧
      (serialLogger bus).1 = some kernel.logger ∧ b.shutdown = true ∧
      freeHeap b.heap memory = some kernel.memory := by
  simp only [fromDevicetree, Driver.bind_fst_eq_some_iff, Driver.get_apply, Prod.mk.injEq,
    Driver.pure_apply, Option.some.injEq]
  constructor
  · rintro ⟨dt, _, ⟨hparse, rfl⟩, memory, _, ⟨hmemory, rfl⟩, logger, after, hlogger, memory', _,
      ⟨hheap, rfl⟩, rfl⟩
    rw [Option.join_eq_some_iff] at hmemory
    have hshutdown : b.shutdown = true := by
      by_contra hnot
      rw [if_neg hnot] at hheap
      cases hheap
    rw [if_pos hshutdown] at hheap
    exact ⟨dt, memory, hparse, hmemory, congrArg Prod.fst hlogger, hshutdown, hheap⟩
  · rintro ⟨dt, memory, hparse, hmemory, hlogger, hshutdown, hheap⟩
    refine ⟨dt, bus, ⟨hparse, rfl⟩, memory, bus, ⟨Option.join_eq_some_iff.mpr hmemory, rfl⟩,
      kernel.logger, (serialLogger bus).2, Prod.ext hlogger rfl, kernel.memory, _,
      ⟨by rw [if_pos hshutdown, hheap], rfl⟩, rfl⟩

/-- The serial line of the kernel. -/
def line : PL011 := .fresh 0x9000000 24000000

theorem serialLogger_eq_some_iff {bus : Bus (BitVec 32)} {dev : PL011} :
    (serialLogger bus).1 = some dev ↔ dev = line ∧ PL011.Starts bus.answers :=
  PL011.new_eq_some_iff 0x9000000 24000000 bus

/-- Once the memory is set up, only the device and the bootstrap allocator can keep the kernel from
starting: the loop that takes over the heap page by page ends and never panics, for the heap lies in
reserved memory that nothing has released. -/
theorem fromDevicetree_returns_iff (hparse : parse b.fdt = .ok dt) (h : b.HandsOver dt)
    (bus : Bus (BitVec 32)) : (∃ kernel, (fromDevicetree fuel b bus).1 = some kernel) ↔
      (∃ memory, memoryFromDevicetree fuel dt b.reserved = some (some memory)) ∧
        PL011.Starts bus.answers ∧ b.shutdown = true := by
  have hunwrap : (parse b.fdt).unwrap = some dt := by
    rw [hparse]
    rfl
  simp only [fromDevicetree_eq_some_iff, serialLogger_eq_some_iff]
  constructor
  · rintro ⟨kernel, dt', memory, hdt, hmemory, ⟨-, hstarts⟩, hshutdown, -⟩
    obtain rfl : dt = dt' := Option.some.inj (hunwrap.symm.trans hdt)
    exact ⟨⟨memory, hmemory⟩, hstarts, hshutdown⟩
  · rintro ⟨⟨memory, hmemory⟩, hstarts, hshutdown⟩
    obtain ⟨memory', pages, hcall, -⟩ := freeHeap_of_handsOver h hmemory
    exact ⟨⟨memory', line⟩, dt, memory, hunwrap, hmemory, ⟨rfl, hstarts⟩, hshutdown, hcall⟩

/-- Eight pages of memory, with a heap of two pages in the middle. -/
private def smallBoard : Bootstrap where
  fdt := Fdt.assemble []
    (Fdt.structBlock [(.beginNode [], 0), (.beginNode (Bytes.ofString "memory"), 0),
      (.prop (Bytes.ofString "reg") (Fdt.word 4096 ++ Fdt.word 32768), 0), (.endNode, 0),
      (.endNode, 0)]) (Bytes.ofString "reg" ++ [0])
  reserved := [⟨16384, 24576⟩]
  shutdown := true
  heap := ⟨16384, 24576⟩

private def smallTree : DeviceTree :=
  ⟨[], ⟨[(Bytes.ofString "memory",
    ⟨[], [(Bytes.ofString "reg", Fdt.word 4096 ++ Fdt.word 32768)], ⟨1, 1⟩⟩)], [], ⟨1, 1⟩⟩, 16, 0⟩

private theorem parse_smallBoard : parse smallBoard.fdt = .ok smallTree := by
  refine (parse_of_flattened (Fdt.flattened_assemble
    (.node (.node (.prop .nil) .nil) .nil) (by decide +kernel) (by decide +kernel))
    (by decide) (by decide) ?_).trans rfl
  refine .node (by decide) (by decide +kernel) (fun b => List.not_mem_nil) ?_ .nil
  exact .prop (by decide) (by decide +kernel) (fun v => List.not_mem_nil)
    (fun h => absurd h (by decide)) .nil

private theorem handsOver_smallBoard : smallBoard.HandsOver smallTree where
  below x hx := by
    have hmap : mmapFromDevicetree 2 smallTree [⟨16384, 24576⟩] = some (some
        ⟨[⟨⟨4096, 16384⟩, .regular, .free⟩, ⟨⟨16384, 24576⟩, .regular, .reserved⟩,
          ⟨⟨24576, 36864⟩, .regular, .free⟩], [⟨⟨4096, 36864⟩, .regular, .unknown⟩]⟩) := by
      decide +kernel
    have hlookup := ((maps_of_mmapFromDevicetree hmap).1.lookup_ne_none_iff x).mpr hx
    obtain ⟨l, hl⟩ := Option.ne_none_iff_exists'.mp hlookup
    obtain ⟨r, hr, _, hhi, _⟩ := exists_mem_of_lookup hl
    have hstop : ∀ r ∈ [(⟨⟨4096, 16384⟩, .regular, .free⟩ : MemoryRange),
        ⟨⟨16384, 24576⟩, .regular, .reserved⟩, ⟨⟨24576, 36864⟩, .regular, .free⟩],
        r.range.stop ≤ 36864 := by decide
    have := hstop r hr
    omega
  ordered := by decide
  stop_le := by decide
  heap_reserved x hlo hhi := ⟨⟨16384, 24576⟩, List.mem_cons_self, Range.contains_iff.mpr ⟨hlo, hhi⟩⟩

theorem fromDevicetree_returns_iff_smallBoard :
    ∃ kernel, (fromDevicetree 2 smallBoard ⟨[0, 0, 0, 0], []⟩).1 = some kernel := by
  have hmemory : (memoryFromDevicetree 2 smallTree smallBoard.reserved).join.isSome = true := by
    decide +kernel
  obtain ⟨memory, hmemory⟩ := Option.isSome_iff_exists.mp hmemory
  refine (fromDevicetree_returns_iff parse_smallBoard handsOver_smallBoard _).mpr
    ⟨⟨memory, Option.join_eq_some_iff.mp hmemory⟩, ⟨[], 0, [0, 0, 0], rfl, ?_, ?_, ?_⟩, rfl⟩
  · exact List.forall_mem_nil _
  · decide
  · exact ⟨0, 0, [0], rfl, 0, List.mem_cons_self, by decide⟩

/-- In every run of the memory that the kernel starts with, what is handed out is memory that
nothing reserves or was the heap, outside the control arrays and all live blocks. The pages
that are free or in a live block are always those that were free at the start, and those of
the heap are among them. -/
theorem fromDevicetree_serves {kernel : Kernel} {bus : Bus (BitVec 32)}
    (hparse : parse b.fdt = .ok dt) (h : b.HandsOver dt)
    (hkernel : (fromDevicetree fuel b bus).1 = some kernel) :
    (∀ c, Memory.Reachable kernel.memory c →
      Memory.Serves (b.usable dt) (controlArrays kernel.memory.zones) c ∧
        ∀ p, (c.memory.FreePage p ∨ ∃ a ∈ c.live, p ∈ a.pages) ↔ kernel.memory.FreePage p) ∧
      ∀ p, PageIn b.heap p → kernel.memory.FreePage p := by
  obtain ⟨dt', memory, hdt, hmemory, -, -, hheap⟩ := fromDevicetree_eq_some_iff.mp hkernel
  rw [hparse] at hdt
  obtain rfl : dt = dt' := Option.some.inj hdt
  obtain ⟨memory', pages, hcall, hreleased, hpages⟩ := freeHeap_of_handsOver h hmemory
  obtain rfl : kernel.memory = memory' := Option.some.inj (hheap.symm.trans hcall)
  have hfree : ∀ p, kernel.memory.FreePage p ↔ p ∈ pages := by
    intro p
    rw [hreleased.valid.freePage_iff hreleased.covered]
    simp
  refine ⟨fun c hrun => ?_, fun p hp => (hfree p).mpr (hpages p hp)⟩
  obtain ⟨hvalid, hsame⟩ := hrun.valid hreleased.valid hreleased.small
  refine ⟨hvalid.serves hreleased.small hreleased.usable, fun p => ?_⟩
  have hcovered : ∀ p ∈ pages, ∃ z ∈ c.memory.zones.items, z.contains p = true := fun p hp =>
    hsame.exists_contains (hreleased.covered p hp)
  rw [hfree, hvalid.freePage_iff hcovered]
  constructor
  · rintro (⟨hp, -⟩ | ⟨a, ha, hpa⟩)
    · exact hp
    · exact hvalid.subset_pages ha hpa
  · intro hp
    by_cases hlive : ∃ a ∈ c.live, p ∈ a.pages
    · exact Or.inr hlive
    · exact Or.inl ⟨hp, fun a ha hpa => hlive ⟨a, ha, hpa⟩⟩

/-- The first page of the heap is free in the end. -/
theorem fromDevicetree_serves_smallBoard : ∃ kernel,
    (fromDevicetree 2 smallBoard ⟨[0, 0, 0, 0], []⟩).1 = some kernel ∧
      kernel.memory.FreePage 4 := by
  have hreturns : (fromDevicetree 2 smallBoard ⟨[0, 0, 0, 0], []⟩).1.isSome = true := by
    decide +kernel
  obtain ⟨kernel, hkernel⟩ := Option.isSome_iff_exists.mp hreturns
  exact ⟨kernel, hkernel,
    (fromDevicetree_serves parse_smallBoard handsOver_smallBoard hkernel).2 4
      ⟨by decide, by decide⟩⟩

/-! ## What the kernel says -/

end Aarch64.Rust
