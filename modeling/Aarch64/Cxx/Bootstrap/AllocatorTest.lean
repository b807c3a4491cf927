import Aarch64.Cxx.Bootstrap.Kernel
import Aarch64.Cxx.Physical.Accounting

/-!
# The first self test

`AllocatorTest` of `bootstrap/main.cc` takes pages until there is none and gives all of them
back. The list of pages lies in the pages, which nobody else has. It gets every page that is
free, and leaves the allocator with what it had.
-/

namespace Aarch64.Cxx.Bootstrap

open Zones (memoryOf)

/-! ## The code -/

/-- A call that logs nothing. -/
def Boot.ofOption {α : Type} (x : Option α) : Boot α := fun log => x.map fun a => .ok (a, log)

def kSize : Nat := 4096

/-- The loop that allocates. A round that still has to run without fuel left stands for a loop
that does not end. -/
def fillLoop : Nat → Zones → List Contigous → Nat → Option (Nat × List Contigous × Zones)
  | 0, _, _, _ => none
  | fuel + 1, zones, items, allocated => do
      match ← zones.allocatePhysical kSize with
      | (none, zones) => return (allocated, items, zones)
      | (some m, zones) => fillLoop fuel zones (m :: items) (Word64.add allocated 1)

/-- The loop that frees. -/
def drainLoop : List Contigous → Zones → Nat → Option (Nat × Zones)
  | [], zones, freed => some (freed, zones)
  | m :: items, zones, freed => do
      let zones ← zones.freePhysical m
      drainLoop items zones (Word64.add freed 1)

/-- The two lines of the test. -/
def pagesLine (verb : String) (pages : Nat) : List Insertion :=
  [text verb, .unsigned pages, text " ", .unsigned kSize, text " byte pages\n"]

def allocatorTest (fuel : Nat) (zones : Zones) : Boot Zones := do
  let (allocated, items, zones) ← Boot.ofOption (fillLoop fuel zones [] 0)
  .say (pagesLine "Allocated " allocated)
  let (freed, zones) ← Boot.ofOption (drainLoop items zones 0)
  .say (pagesLine "Freed " freed)
  return zones

/-! ## What it does -/

theorem Boot.bind_eq {α β : Type} {x : Boot α} {a : α} {log log' : List Insertion}
    (h : x log = some (.ok (a, log'))) (f : α → Boot β) : (x >>= f) log = f a log' := by
  simp only [bind]
  rw [h]

theorem Boot.ofOption_bind {α β : Type} {x : Option α} {a : α} (h : x = some a) (f : α → Boot β)
    (log : List Insertion) : (Boot.ofOption x >>= f) log = f a log :=
  Boot.bind_eq (congrArg (Option.map _) h) f

theorem Boot.say_bind {β : Type} (items : List Insertion) (f : Unit → Boot β)
    (log : List Insertion) : (Boot.say items >>= f) log = f () (log ++ items) := rfl

theorem Boot.say_pure {α : Type} (items : List Insertion) (a : α) (log : List Insertion) :
    (Boot.say items >>= fun _ => pure a) log = some (.ok (a, log ++ items)) := rfl

variable {zones : Zones} {held items : List Contigous} {released : Nat → Set Nat}
variable {bounds : List (Nat × Nat × Nat)} {n : Nat}

theorem size_of_bounds {t : Zones} (h : t.bounds = zones.bounds) : t.size = zones.size := by
  have hlength := congrArg List.length h
  rwa [Zones.bounds, Zones.bounds, List.length_map, List.length_map] at hlength

theorem orderFor_kSize : orderFor kSize = 0 := by decide

/-- The loop ends with all the pages that were free. -/
theorem fillLoop_spec (fuel : Nat) (h : (memoryOf bounds released).Holds zones (items ++ held))
    (hitems : ∀ m ∈ items, m.order = 0) (hfuel : zones.freePages < fuel)
    (hword : n + zones.freePages < 2 ^ 64) :
    ∃ items' t, fillLoop fuel zones items n = some (n + zones.freePages, items', t) ∧
      (memoryOf bounds released).Holds t (items' ++ held) ∧ (∀ m ∈ items', m.order = 0) ∧
      items'.length = items.length + zones.freePages ∧
      (⟨t, items' ++ held, released⟩ : Zones.Config).freeBlocks 0 = ∅ := by
  induction fuel generalizing zones items n with
  | zero => exact absurd hfuel (Nat.not_lt_zero _)
  | succ fuel ih =>
      obtain ⟨hbounds, live, hledger⟩ := h
      rcases hledger.allocate_order (c := ⟨zones, items ++ held, released⟩)
        (by decide : 0 < kSize) (by decide) with ⟨hcall, hnone⟩ | ⟨m, t, hcall, hm⟩
      · rw [orderFor_kSize] at hnone
        have hzero : zones.freePages = 0 :=
          hledger.freePages_eq_zero (c := ⟨zones, items ++ held, released⟩) hnone
        refine ⟨items, zones, ?_, ⟨hbounds, live, hledger⟩, hitems, ?_, hnone⟩
        · rw [fillLoop, hcall, hzero]
          rfl
        · exact congrArg (items.length + ·) hzero.symm
      · obtain ⟨live', hledger'⟩ := hm.ledger
        have horder : m.order = 0 := hm.order_eq.trans orderFor_kSize
        have hbounds' := Zones.bounds_allocatePhysical hcall
        -- one page less is free
        have hpages : t.freePages + 1 = zones.freePages := by
          have heq := hledger.freePages_eq hledger' (size_of_bounds hbounds')
          rw [Zones.heldPages_cons, horder] at heq
          change t.freePages + (1 + Zones.heldPages (items ++ held)) = _ at heq
          omega
        have hnext : (memoryOf bounds released).Holds t (m :: items ++ held) :=
          ⟨hbounds'.trans hbounds, live', hledger'⟩
        obtain ⟨items', t', hloop, hholds, horders, hlength, hnone⟩ := ih (n := n + 1) hnext
          (List.forall_mem_cons.mpr ⟨horder, hitems⟩) (by omega) (by omega)
        refine ⟨items', t', ?_, hholds, horders, ?_, hnone⟩
        · rw [fillLoop, hcall]
          simp only [Option.bind_eq_bind, Option.bind_some]
          rw [Word64.add_of_lt (by omega), hloop]
          exact congrArg (fun k => some (k, items', t')) (by omega)
        · rw [List.length_cons] at hlength
          omega

theorem drainLoop_spec (h : (memoryOf bounds released).Holds zones (items ++ held))
    (hword : n + items.length < 2 ^ 64) :
    ∃ t, drainLoop items zones n = some (n + items.length, t) ∧
      (memoryOf bounds released).Holds t held := by
  induction items generalizing zones n with
  | nil => exact ⟨zones, rfl, h⟩
  | cons m items ih =>
      rw [List.length_cons] at hword ⊢
      obtain ⟨t, hfree, hholds⟩ := (memoryOf bounds released).free_spec h
      obtain ⟨t', hloop, hholds'⟩ := ih (n := n + 1) hholds (by omega)
      refine ⟨t', ?_, hholds'⟩
      have hfree' : zones.freePhysical m = some t := hfree
      rw [drainLoop, hfree', Option.bind_eq_bind, Option.bind_some,
        Word64.add_of_lt (by omega), hloop]
      exact congrArg (fun k => some (k, t')) (by omega)

/-- What the test logs when it finds `pages` pages. -/
def allocatorLines (pages : Nat) : List Insertion :=
  pagesLine "Allocated " pages ++ pagesLine "Freed " pages

/-- The test finds every page that is free and restores the allocator. -/
theorem allocatorTest_spec {fuel : Nat} (h : (memoryOf bounds released).Holds zones held)
    (hfuel : 2 ^ 64 ≤ fuel) (log : List Insertion) :
    ∃ t, allocatorTest fuel zones log =
        some (.ok (t, log ++ allocatorLines zones.freePages)) ∧
      (memoryOf bounds released).Holds t held ∧
      zones.freePages = ((⟨zones, held, released⟩ : Zones.Config).freeBlocks 0).ncard := by
  obtain ⟨hbounds₀, _, hledger⟩ := id h
  have hlt := hledger.freePages_lt
  have hnil : (memoryOf bounds released).Holds zones ([] ++ held) := h
  obtain ⟨items, t, hfill, hholds, horders, hlength, hnone⟩ :=
    fillLoop_spec fuel (n := 0) hnil (List.forall_mem_nil _) (by omega) (by omega)
  rw [List.length_nil, Nat.zero_add] at hlength
  obtain ⟨t', hdrain, hholds'⟩ := drainLoop_spec (n := 0) hholds (by omega)
  rw [Nat.zero_add] at hfill hdrain
  rw [hlength] at hdrain
  refine ⟨t', ?_, hholds', ?_⟩
  · rw [allocatorTest, Boot.ofOption_bind hfill]
    refine (Boot.ofOption_bind hdrain _ _).trans ((Boot.say_pure _ _ _).trans ?_)
    rw [allocatorLines, ← List.append_assoc]
  · obtain ⟨hbounds, _, hledger'⟩ := hholds
    rw [← hlength]
    exact Zones.filled_length (c := ⟨zones, held, released⟩) hledger'
      (size_of_bounds (hbounds.trans hbounds₀.symm)) horders hnone

end Aarch64.Cxx.Bootstrap
