import Aarch64.Cxx.Bootstrap.Reserve
import Aarch64.Cxx.Logging

/-!
# The bootstrap

`kernel` of `bootstrap/main.cc` up to its self tests. It finds the device tree among the
modules, builds the map of memory from it, reserves the modules and sets up the allocator.
Every stage either goes on or logs what has failed and panics.
-/

namespace Aarch64.Cxx.Bootstrap

open Aarch64.Fdt (Header Items IsReservations)
open Aarch64.Cxx.Fdt (Blob)
open Zones (coveredBy HasPage setupAllocator)
open MemoryMap (Build)

/-! ## Stages -/

/-- A computation that logs. The result is `none` if it does not return, and `err` with what
has been logged if it panics. -/
def Boot (α : Type) : Type :=
  List Insertion → Option (Outcome (List Insertion) (α × List Insertion))

namespace Boot

variable {α β ε : Type}

instance : Monad Boot where
  pure a log := some (.ok (a, log))
  bind x f log :=
    match x log with
    | some (.ok (a, log)) => f a log
    | some (.err log) => some (.err log)
    | some .fault => some .fault
    | none => none

def say (items : List Insertion) : Boot Unit := fun log => some (.ok ((), log ++ items))

/-- `Panic` never returns, and nothing is logged any more. -/
def panic : Boot α := fun log => some (.err log)

/-- The result of a call, or a message and a panic where it has failed. -/
def orPanic (message : List Insertion) : Option (Outcome ε α) → Boot α
  | some (.ok a) => pure a
  | some (.err _) => do
      say message
      panic
  | some .fault => fun _ => some .fault
  | none => fun _ => none

theorem bind_eq_ok_iff {x : Boot α} {f : α → Boot β} {log : List Insertion}
    {r : β × List Insertion} : (x >>= f) log = some (.ok r) ↔
      ∃ a log', x log = some (.ok (a, log')) ∧ f a log' = some (.ok r) := by
  change (match x log with
    | some (.ok (a, log)) => f a log
    | some (.err log) => some (.err log)
    | some .fault => some .fault
    | none => none) = _ ↔ _
  constructor
  · intro h
    split at h
    next a log' hcall => exact ⟨a, log', hcall, h⟩
    next => cases h
    next => cases h
    next => cases h
  · rintro ⟨a, log', hcall, h⟩
    rw [hcall]
    exact h

theorem orPanic_eq_ok_iff {message log : List Insertion} {result : Option (Outcome ε α)}
    {r : α × List Insertion} :
    orPanic message result log = some (.ok r) ↔ result = some (.ok r.1) ∧ r.2 = log := by
  rw [orPanic.eq_def]
  split
  next a =>
    constructor
    · rintro ⟨⟩
      exact ⟨rfl, rfl⟩
    · rintro ⟨⟨⟩, hlog⟩
      exact congrArg (fun log => some (Outcome.ok (r.1, log))) hlog.symm
  next => exact iff_of_false (by rintro ⟨⟩) (by rintro ⟨⟨⟩, _⟩)
  next => exact iff_of_false (by rintro ⟨⟩) (by rintro ⟨⟨⟩, _⟩)
  next => exact iff_of_false (by rintro ⟨⟩) (by rintro ⟨⟨⟩, _⟩)

end Boot

/-! ## The code -/

def text (s : String) : Insertion := .string (Bytes.ofString s)

/-- The first module that is named so. -/
def lookupDTB : List Data → Option (Nat × Nat)
  | [] => none
  | d :: data =>
      if StringView.eq (Bytes.ofString "dtb") d.name then some (d.begin, d.stop)
      else lookupDTB data

/-- The lines of `PrintMMap`. -/
def lines (mmap : MemoryMap) : List Insertion :=
  text "Memory Map:\n" :: mmap.ranges.items.flatMap fun it =>
    [text "[", .pointer it.start, text "-", .pointer it.stop, text ") ",
      text (if it.status = .reserved then "reserved\n" else "free\n")]

def printMMap (mmap : MemoryMap) : Boot Unit := .say (lines mmap)

/-- The bytes of memory from an address on. -/
def load (memory : Nat → UInt8) (begin size : Nat) : List UInt8 :=
  (List.range size).map fun i => memory (Word64.add begin i)

/-- A call that returns `false`, or `true` with what it stores. -/
def check {α : Type} : Bool × α → Outcome Unit α
  | (true, a) => .ok a
  | (false, _) => .err ()

def kernel (memory : Nat → UInt8) (build : Build) (fuel : Nat) (data : List Data) :
    Boot (MemoryMap × Zones) := do
  .say [text "Looking up the DTB...\n"]
  let (dtbBegin, dtbEnd) ← Boot.orPanic [text "Failed to lookup the DTB\n"]
    ((lookupDTB data).map (Outcome.ok (ε := Unit)))
  .say [text "Setting up DTB Parser...\n"]
  let fdt := load memory dtbBegin (Word64.sub dtbEnd dtbBegin)
  let blob ← Boot.orPanic [text "Failed to setup DTB parser!\n"] (some (Blob.parse fdt))
  .say [text "Initializaing memory map...\n"]
  let mmap ← Boot.orPanic [text "Failed to initialize memory map!\n"]
    (mmapFromDTB fdt build blob .new)
  .say [text "Reserve used memory in the memory map...\n"]
  let mmap ← Boot.orPanic [text "Failed to reserved used memory in the memory map!\n"]
    ((reserveMemory build data mmap).map check)
  printMMap mmap
  .say [text "Initializing memory allocator...\n"]
  let (mmap, zones) ← Boot.orPanic [text "Failed to initialize memory allocator!\n"]
    ((setupAllocator build fuel mmap).map check)
  .say [text "Initialization complete.\n",
    text "Total ", .unsigned zones.totalPhysical, text " bytes\n",
    text "Available ", .unsigned zones.availablePhysical, text " bytes\n"]
  return (mmap, zones)

/-! ## When it completes -/

variable {memory : Nat → UInt8} {build : Build} {fuel : Nat} {data : List Data}
variable {fdt : List UInt8} {h : Header} {entries : List (Nat × Nat)} {items : Items} {dtbBegin dtbEnd : Nat}

/-- What a bootstrap logs that completes. -/
def transcript (mmap : MemoryMap) (zones : Zones) : List Insertion :=
  [text "Looking up the DTB...\n", text "Setting up DTB Parser...\n",
    text "Initializaing memory map...\n", text "Reserve used memory in the memory map...\n"] ++
    lines mmap ++ [text "Initializing memory allocator...\n", text "Initialization complete.\n",
      text "Total ", .unsigned zones.totalPhysical, text " bytes\n",
      text "Available ", .unsigned zones.availablePhysical, text " bytes\n"]

theorem check_eq_ok_iff {α : Type} {result : Option (Bool × α)} {a : α} :
    result.map check = some (.ok a) ↔ result = some (true, a) := by
  cases result with
  | none => exact iff_of_false (by rintro ⟨⟩) (by rintro ⟨⟩)
  | some result =>
      obtain ⟨ok, b⟩ := result
      cases ok with
      | false => exact iff_of_false (by rintro ⟨⟩) (by rintro ⟨⟩)
      | true => simp [check]

/-- Each stage returns what the next one takes. -/
structure Stages (build : Build) (fuel : Nat) (data : List Data) (fdt : List UInt8) (blob : Blob)
    (m₁ m₂ m₃ : MemoryMap) (zones : Zones) : Prop where
  parse : Blob.parse fdt = .ok blob
  mmap : mmapFromDTB fdt build blob .new = some (.ok m₁)
  reserve : reserveMemory build data m₁ = some (true, m₂)
  setup : setupAllocator build fuel m₂ = some (true, m₃, zones)

variable {blob : Blob} {m₁ m₂ m₃ : MemoryMap} {zones : Zones} {log : List Insertion}

theorem Stages.kernel_eq (hstages : Stages build fuel data fdt blob m₁ m₂ m₃ zones)
    (hdtb : lookupDTB data = some (dtbBegin, dtbEnd))
    (hload : load memory dtbBegin (Word64.sub dtbEnd dtbBegin) = fdt) :
    kernel memory build fuel data [] = some (.ok ((m₃, zones), transcript m₂ zones)) := by
  obtain ⟨hparse, hmmap, hreserve, hsetup⟩ := hstages
  subst hload
  have hlog : transcript m₂ zones = [] ++ [text "Looking up the DTB...\n"] ++
      [text "Setting up DTB Parser...\n"] ++ [text "Initializaing memory map...\n"] ++
      [text "Reserve used memory in the memory map...\n"] ++ lines m₂ ++
      [text "Initializing memory allocator...\n"] ++ [text "Initialization complete.\n",
        text "Total ", .unsigned zones.totalPhysical, text " bytes\n",
        text "Available ", .unsigned zones.availablePhysical, text " bytes\n"] := by
    simp [transcript]
  rw [kernel, hdtb, hlog]
  refine Boot.bind_eq_ok_iff.mpr ⟨(), _, rfl, Boot.bind_eq_ok_iff.mpr ⟨(dtbBegin, dtbEnd), _, rfl,
    ?_⟩⟩
  dsimp only
  rw [hparse]
  refine Boot.bind_eq_ok_iff.mpr ⟨(), _, rfl, Boot.bind_eq_ok_iff.mpr ⟨blob, _, rfl, ?_⟩⟩
  rw [hmmap]
  refine Boot.bind_eq_ok_iff.mpr ⟨(), _, rfl, Boot.bind_eq_ok_iff.mpr ⟨m₁, _, rfl, ?_⟩⟩
  rw [hreserve]
  refine Boot.bind_eq_ok_iff.mpr ⟨(), _, rfl, Boot.bind_eq_ok_iff.mpr ⟨m₂, _, rfl, ?_⟩⟩
  refine Boot.bind_eq_ok_iff.mpr ⟨(), _, rfl, ?_⟩
  rw [hsetup]
  exact Boot.bind_eq_ok_iff.mpr ⟨(), _, rfl, Boot.bind_eq_ok_iff.mpr ⟨(m₃, zones), _, rfl, rfl⟩⟩

/-- The bootstrap completes only if each stage does. -/
theorem exists_stages (hdtb : lookupDTB data = some (dtbBegin, dtbEnd))
    (hload : load memory dtbBegin (Word64.sub dtbEnd dtbBegin) = fdt)
    (hcall : kernel memory build fuel data [] = some (.ok ((m₃, zones), log))) :
    ∃ blob m₁ m₂, Stages build fuel data fdt blob m₁ m₂ m₃ zones := by
  subst hload
  rw [kernel, hdtb] at hcall
  obtain ⟨_, _, _, hcall⟩ := Boot.bind_eq_ok_iff.mp hcall
  obtain ⟨⟨b, e⟩, _, hlookup, hcall⟩ := Boot.bind_eq_ok_iff.mp hcall
  obtain ⟨⟨⟩, _⟩ := Boot.orPanic_eq_ok_iff.mp hlookup
  obtain ⟨_, _, _, hcall⟩ := Boot.bind_eq_ok_iff.mp hcall
  obtain ⟨blob, _, hparse, hcall⟩ := Boot.bind_eq_ok_iff.mp hcall
  obtain ⟨_, _, _, hcall⟩ := Boot.bind_eq_ok_iff.mp hcall
  obtain ⟨m₁, _, hmmap, hcall⟩ := Boot.bind_eq_ok_iff.mp hcall
  obtain ⟨_, _, _, hcall⟩ := Boot.bind_eq_ok_iff.mp hcall
  obtain ⟨m₂, _, hreserve, hcall⟩ := Boot.bind_eq_ok_iff.mp hcall
  obtain ⟨_, _, _, hcall⟩ := Boot.bind_eq_ok_iff.mp hcall
  obtain ⟨_, _, _, hcall⟩ := Boot.bind_eq_ok_iff.mp hcall
  obtain ⟨⟨m₃, zones'⟩, _, hsetup, hcall⟩ := Boot.bind_eq_ok_iff.mp hcall
  obtain ⟨_, _, _, hcall⟩ := Boot.bind_eq_ok_iff.mp hcall
  cases hcall
  exact ⟨blob, m₁, m₂, Option.some.inj (Boot.orPanic_eq_ok_iff.mp hparse).1,
    (Boot.orPanic_eq_ok_iff.mp hmmap).1,
    check_eq_ok_iff.mp (Boot.orPanic_eq_ok_iff.mp hreserve).1,
    check_eq_ok_iff.mp (Boot.orPanic_eq_ok_iff.mp hsetup).1⟩

/-- What the stages need of a device tree: its memory can be registered, nothing that is reserved
lies in it, and it has no whole page. -/
structure Pageless (fdt : List UInt8) (entries : List (Nat × Nat)) (items : Items)
    (data : List Data) : Prop where
  registered : ∃ blob m, Blob.parse fdt = .ok blob ∧ registerMemory fdt blob .new = .ok m
  entries : ∀ e ∈ entries, Disjoint (Set.Ico e.1 (e.1 + e.2)) (ram items)
  modules : ∀ d ∈ data, Disjoint (Set.Ico d.begin d.stop) (ram items)
  pages : ¬ HasPage (ram items)

section Memory

variable (hfdt : Aarch64.Fdt.Flattened fdt h entries items) (hentries : IsReservations entries)
variable (hwf : items.WellFormed) (hfirst : items.CellsFirst) (hregions : Regions items)
variable (hreserved : ∀ e ∈ entries, Upright (e.1, e.1 + e.2))
variable (hdata : ∀ d ∈ data, Upright (d.begin, d.stop))
include hfdt hentries hwf hfirst hregions hreserved hdata

/-- Where they are met, every build goes through the stages, and ends up without a zone. -/
theorem Pageless.stages (hless : Pageless fdt entries items data) (build : Build) (fuel : Nat) :
    ∃ blob m, Stages build fuel data fdt blob m m m ⟨[], Nat.zero_le _⟩ := by
  obtain ⟨⟨blob, m, hparse, hregister⟩, hentries', hmodules, hpage⟩ := hless
  obtain ⟨hlow, hcovers⟩ := registerMemory_covers hfdt hwf hfirst hregions hparse hregister
  rw [← hcovers] at hentries' hmodules hpage
  refine ⟨blob, m, hparse, ?_, ?_, Zones.setupAllocator_of_not_page hlow hpage build fuel⟩
  · exact mmapFromDTB_of_disjoint hfdt hentries hreserved hlow hparse hregister build hentries'
  · rw [reserveMemory_eq]
    exact reserveAll_of_disjoint hlow.proper build
      (List.forall_mem_map.mpr fun d hd => (hdata d hd).1) (List.forall_mem_map.mpr hmodules)

/-- The stages as they are written need it. -/
theorem pageless_of_stages {loops : Nat}
    (hstages : Stages (.asWritten loops) fuel data fdt blob m₁ m₂ m₃ zones) :
    Pageless fdt entries items data := by
  obtain ⟨hparse, hmmap, hreserve, hsetup⟩ := hstages
  have hregister : ∃ m, registerMemory fdt blob .new = .ok m := by
    rw [mmapFromDTB] at hmmap
    split at hmmap
    next m hm => exact ⟨m, hm⟩
    next => cases hmmap
    next => cases hmmap
  obtain ⟨m, hregister⟩ := hregister
  obtain ⟨hlow, hcovers⟩ := registerMemory_covers hfdt hwf hfirst hregions hparse hregister
  obtain ⟨rfl, hentries'⟩ :=
    (mmapFromDTB_eq_ok_iff hfdt hentries hreserved hlow hparse hregister).mp hmmap
  rw [reserveMemory_eq, reserveAll_eq_true_iff hlow.proper
    (List.forall_mem_map.mpr fun d hd => (hdata d hd).1)] at hreserve
  obtain ⟨rfl, hmodules⟩ := hreserve
  obtain ⟨hpage, -, -⟩ := (Zones.setupAllocator_eq_true_iff hlow loops fuel _ _).mp hsetup
  rw [hcovers] at hentries' hmodules hpage
  exact ⟨⟨blob, _, hparse, hregister⟩, hentries', List.forall_mem_map.mp hmodules, hpage⟩

end Memory

theorem total_suffix (m : MemoryMap) :
    Bytes.ofString "Total 0 bytes\nAvailable 0 bytes\n" <:+
      (transcript m ⟨[], Nat.zero_le _⟩).flatMap Insertion.text := by
  have hlast : ([text "Total ", .unsigned 0, text " bytes\n", text "Available ", .unsigned 0,
      text " bytes\n"] : List Insertion).flatMap Insertion.text =
      Bytes.ofString "Total 0 bytes\nAvailable 0 bytes\n" := by
    decide +kernel
  rw [← hlast, transcript, List.flatMap_append]
  refine List.IsSuffix.trans ?_ (List.suffix_append _ _)
  refine ⟨([text "Initializing memory allocator...\n", text "Initialization complete.\n"] :
    List Insertion).flatMap Insertion.text, ?_⟩
  rw [← List.flatMap_append]
  rfl

/-- The bootstrap is sure to get through its stages, whatever the compiler makes of the loop of
`SetStatus`, exactly if the device tree is read, neither a reservation nor a module lies in
memory, and memory has no whole page. The allocator that it has set up then has nothing to
give, in every build. -/
theorem kernel_completes_iff (hdtb : lookupDTB data = some (dtbBegin, dtbEnd))
    (hload : load memory dtbBegin (Word64.sub dtbEnd dtbBegin) = fdt)
    (hfdt : Aarch64.Fdt.Flattened fdt h entries items) (hentries : IsReservations entries)
    (hwf : items.WellFormed) (hfirst : items.CellsFirst) (hregions : Regions items)
    (hreserved : ∀ e ∈ entries, Upright (e.1, e.1 + e.2))
    (hdata : ∀ d ∈ data, Upright (d.begin, d.stop)) (fuel : Nat) :
    ((∀ build, ∃ result, kernel memory build fuel data [] = some (.ok result)) ↔
      Pageless fdt entries items data) ∧
      (Pageless fdt entries items data → ∀ build mmap zones log,
        kernel memory build fuel data [] = some (.ok ((mmap, zones), log)) →
        zones.items = [] ∧ Bytes.ofString "Total 0 bytes\nAvailable 0 bytes\n" <:+
          log.flatMap Insertion.text) := by
  have hcall : Pageless fdt entries items data → ∀ build, ∃ m,
      kernel memory build fuel data [] =
        some (.ok ((m, ⟨[], Nat.zero_le _⟩), transcript m ⟨[], Nat.zero_le _⟩)) := by
    intro hless build
    obtain ⟨blob, m, hstages⟩ :=
      hless.stages hfdt hentries hwf hfirst hregions hreserved hdata build fuel
    exact ⟨m, hstages.kernel_eq hdtb hload⟩
  refine ⟨⟨fun hbuilds => ?_, fun hless build => ?_⟩, fun hless build m zones log hreturn => ?_⟩
  · obtain ⟨⟨⟨m, zones⟩, log⟩, hreturn⟩ := hbuilds (.asWritten 0)
    obtain ⟨blob, m₁, m₂, hstages⟩ := exists_stages hdtb hload hreturn
    exact pageless_of_stages hfdt hentries hwf hfirst hregions hreserved hdata hstages
  · obtain ⟨m, hreturn⟩ := hcall hless build
    exact ⟨_, hreturn⟩
  · obtain ⟨m', hreturn'⟩ := hcall hless build
    rw [hreturn] at hreturn'
    cases hreturn'
    exact ⟨rfl, total_suffix m⟩

/-! ## Half a page -/

private def halfItems : Items :=
  .prop (Bytes.ofString "#address-cells") (Aarch64.Fdt.word 1)
    (.prop (Bytes.ofString "#size-cells") (Aarch64.Fdt.word 1)
      (.node (Bytes.ofString "memory")
        (.prop (Bytes.ofString "reg") (Aarch64.Fdt.word 0x2000 ++ Aarch64.Fdt.word 0x800) .nil)
        .nil))

private def halfToks : List (Aarch64.Fdt.Tok × Nat) :=
  [(.beginNode [], 0), (.prop (Bytes.ofString "#address-cells") (Aarch64.Fdt.word 1), 0),
    (.prop (Bytes.ofString "#size-cells") (Aarch64.Fdt.word 1), 15),
    (.beginNode (Bytes.ofString "memory"), 0),
    (.prop (Bytes.ofString "reg") (Aarch64.Fdt.word 0x2000 ++ Aarch64.Fdt.word 0x800), 27),
    (.endNode, 0), (.endNode, 0)]

private def halfFdt : List UInt8 :=
  Aarch64.Fdt.assemble [(0x1000, 0x1000)] (Aarch64.Fdt.structBlock halfToks)
    (Bytes.ofString "#address-cells" ++ [0] ++ (Bytes.ofString "#size-cells" ++ [0]) ++
      (Bytes.ofString "reg" ++ [0]))

private theorem half_wellFormed : halfItems.WellFormed := by
  refine .prop (by decide +kernel) (by decide +kernel) ?_ (fun _ => by decide) (.prop
    (by decide +kernel) (by decide +kernel) (fun v => List.not_mem_nil) (fun _ => by decide) (.node
      (by decide +kernel) (by decide +kernel) (fun b => List.not_mem_nil) (.prop (by decide)
        (by decide +kernel) (fun v => List.not_mem_nil) (fun h => absurd h (by decide +kernel))
        .nil) .nil))
  intro v hmem
  obtain ⟨heq, _⟩ := Prod.mk.inj (List.mem_singleton.mp hmem)
  exact absurd heq (by decide +kernel)

private theorem half_regions : Regions halfItems := by
  rintro p ⟨e, he, _, value, hvalue, hp⟩
  obtain rfl := List.mem_singleton.mp he
  obtain ⟨_, rfl⟩ := Prod.mk.inj (List.mem_singleton.mp hvalue)
  have hpair : Aarch64.Fdt.pairs (halfItems.cells (Bytes.ofString "#address-cells") 2)
      (halfItems.cells (Bytes.ofString "#size-cells") 2)
      (Aarch64.Fdt.word 0x2000 ++ Aarch64.Fdt.word 0x800) = [(0x2000, 0x800)] := by
    decide +kernel
  rw [hpair] at hp
  obtain rfl := List.mem_singleton.mp hp
  decide

private def halfModules : List Data :=
  [⟨Bytes.ofString "kernel", 0x4000, 0x5000⟩,
    ⟨Bytes.ofString "dtb", 0x8000, 0x8000 + halfFdt.length⟩]

/-- A bootstrap with half a page of memory, and the device tree elsewhere. -/
theorem kernel_completes_iff_half : Pageless halfFdt [(0x1000, 0x1000)] halfItems halfModules ∧
    ∀ build, ∃ result, kernel (fun a => halfFdt.getD (a - 0x8000) 0) build 0 halfModules [] =
      some (.ok result) := by
  have hfdt : Aarch64.Fdt.Flattened halfFdt _ [(0x1000, 0x1000)] halfItems :=
    Aarch64.Fdt.flattened_assemble (.node (.prop (.prop (.node (.prop .nil) .nil))) .nil)
      (by decide +kernel) (by decide +kernel)
  have hcxx : ((Blob.parse halfFdt).replaceErr .new >>= fun blob =>
      registerMemory halfFdt blob .new) = .ok ⟨⟨[⟨0x2000, 0x2800, .free⟩], by decide⟩⟩ := by
    decide +kernel
  obtain ⟨blob, hparse, hregister⟩ := Outcome.bind_eq_ok_iff.mp hcxx
  rw [Outcome.replaceErr_eq_ok_iff] at hparse
  have hfirst : halfItems.CellsFirst :=
    ⟨fun e he => absurd he List.not_mem_nil, trivial⟩
  have hcovers := (registerMemory_covers hfdt half_wellFormed hfirst half_regions hparse
    hregister).2
  have hram : ram halfItems = Set.Ico 0x2000 0x2800 := by
    rw [← hcovers, Zones.coveredBy_cons, Zones.coveredBy_nil, Set.union_empty]
  have hdtb : lookupDTB halfModules = some (0x8000, 0x8000 + halfFdt.length) := by decide +kernel
  have hload : load (fun a => halfFdt.getD (a - 0x8000) 0) 0x8000
      (Word64.sub (0x8000 + halfFdt.length) 0x8000) = halfFdt := by
    decide +kernel
  have hiff := (kernel_completes_iff hdtb hload hfdt (by decide) half_wellFormed hfirst half_regions
    (by decide) (by decide +kernel) 0).1
  suffices hless : Pageless halfFdt [(0x1000, 0x1000)] halfItems halfModules from
    ⟨hless, hiff.mpr hless⟩
  refine ⟨⟨blob, _, hparse, hregister⟩, ?_, ?_, ?_⟩
  · rw [hram]
    refine List.forall_mem_singleton.mpr (Set.disjoint_left.mpr fun x hx hx' => ?_)
    exact absurd hx.2 (Nat.not_lt.mpr hx'.1)
  · rw [hram]
    refine List.forall_mem_cons.mpr ⟨?_, List.forall_mem_singleton.mpr ?_⟩
    · exact Set.disjoint_left.mpr fun x hx hx' => by
        have hlo := hx.1
        have hhi := hx'.2
        dsimp only at hlo
        omega
    · exact Set.disjoint_left.mpr fun x hx hx' => by
        have hlo := hx.1
        have hhi := hx'.2
        dsimp only at hlo
        omega
  · rw [hram]
    rintro ⟨a, hsub⟩
    change Set.Ico (a * 4096) ((a + 1) * 4096) ⊆ _ at hsub
    have hlo := (hsub (a := a * 4096) ⟨by omega, by omega⟩).1
    have hhi := (hsub (a := (a + 1) * 4096 - 1) ⟨by omega, by omega⟩).2
    omega

end Aarch64.Cxx.Bootstrap
