import Aarch64.Cxx.Bootstrap.CacheTest
import Aarch64.Cxx.Vector.Exhaust

/-!
# The third self test

`VectorTest` of `bootstrap/main.cc` appends to a vector until it cannot grow, and destroys it.
The vector ends in one block, which it fills, and beside which there is no larger one.
-/

namespace Aarch64.Cxx.Bootstrap

open Common (ElementType Store Vector)
open Zones (memoryOf)

variable {α : Type}

/-! ## The code -/

/-- `LargeItem`. -/
def largeItem : ElementType where
  size := 128
  align := 1
  pow := ⟨0, rfl⟩
  dvd := Nat.one_dvd _
  pos := by decide
  fits := by decide

/-- What a round logs that has made the vector `size` elements long. -/
def growLines (size : Nat) : List Insertion :=
  if size % 100000 = 0 then [text "Current vector size ", .unsigned size, text "\n"] else []

/-- The loop that appends. -/
def pushLoop (item : α) : Nat → Vector → Store Zones α → Boot (Vector × Store Zones α)
  | 0, _, _ => Boot.ofOption none
  | fuel + 1, v, s => do
      let (ok, v, s) ← Boot.ofOption (v.pushBack Zones.memory largeItem s item)
      if !ok then return (v, s)
      else
        .say (growLines v.size)
        pushLoop item fuel v s

/-- The elements have any contents. -/
def vectorTest (fuel : Nat) (item : α) (zones : Zones) : Boot Zones := do
  .say (availableLine zones.availablePhysical " bytes before vector test\n")
  let (v, s) ← pushLoop item fuel Vector.new ⟨zones, fun _ => none, fun _ => none⟩
  .say [text "Vector size ", .unsigned v.size, text " entries currently\n"]
  .say (availableLine s.phys.availablePhysical " bytes after filling vector\n")
  let s ← Boot.ofOption (v.destroy Zones.memory largeItem s)
  .say (availableLine s.phys.availablePhysical " bytes after deleting vector\n")
  return s.phys

/-! ## How full a vector gets -/

/-- The entries and pages of a vector that cannot grow. -/
inductive Fills (c : Zones.Config) : Nat → Nat → Prop
  | none (h : c.freeBlocks 0 = ∅) : Fills c 0 0
  | block (m : Contigous) (hfree : (m.zone, m.fromAddress) ∈ c.freeBlocks m.order)
      (hbeside : m.order = kMaxOrder ∨
        (⟨c.zones, m :: c.held, c.released⟩ : Zones.Config).freeBlocks (m.order + 1) = ∅) :
      Fills c ((2 ^ (m.order + kPageBits) - 24) / 128) (2 ^ m.order)

variable {zones : Zones} {held owned : List Contigous} {released : Nat → Set Nat}
variable {bounds : List (Nat × Nat × Nat)} {v : Vector} {s : Store Zones α} {xs : List α}

theorem bytes_largeItem (n : Nat) : largeItem.bytes (n + 1) = 128 * n + 152 := by
  have hheader : largeItem.sizeofHeader = 152 := by decide
  rw [ElementType.bytes, hheader, Nat.add_sub_cancel]
  change 152 + n * 128 = _
  omega

theorem freeBlocks_congr {t : Zones} (h : t.size = zones.size) (held : List Contigous)
    (released : Nat → Set Nat) (order : Nat) :
    (⟨t, held, released⟩ : Zones.Config).freeBlocks order =
      (⟨zones, held, released⟩ : Zones.Config).freeBlocks order := by
  simp only [Zones.Config.freeBlocks, h]
  rfl

/-- The block of the vector is one of the sizes there are. -/
theorem capacity_le (hv : Common.Valid (memoryOf bounds released) largeItem held v s owned xs) :
    24 + v.capacity * 128 ≤ 2 ^ 32 := by
  cases hv.owns with
  | none _ capacity =>
      rw [capacity]
      decide
  | @block b _ backed =>
      obtain ⟨_, _, hledger⟩ := hv.held
      have hb : b ∈ [b] ++ held := List.mem_append_left _ List.mem_cons_self
      have hroom := backed.room
      rw [(hledger.proper b hb).size_eq] at hroom
      exact hroom.trans (Nat.pow_le_pow_right (by decide)
        (Nat.add_le_add_right (hledger.order_le hb) kPageBits))

theorem items_ne (hbounds : ∀ b ∈ bounds, 0 < b.1)
    (hv : Common.Valid (memoryOf bounds released) largeItem held v s owned xs) :
    v.items ≠ largeItem.offset := by
  cases hv.owns with
  | none items _ =>
      rw [items]
      decide
  | @block b _ backed =>
      have hne := nonzero_memoryOf hbounds _ _ hv.held b (List.mem_append_left _ List.mem_cons_self)
      rw [backed.items]
      omega

/-- The order that is asked for by a vector that has outgrown its block. -/
theorem orderFor_outgrown {order n : Nat} (horder : order ≤ kMaxOrder)
    (hroom : 24 + n * 128 ≤ 2 ^ (order + kPageBits))
    (hfull : 2 ^ (order + kPageBits) < 128 * n + 152) : orderFor (128 * n + 152) = order + 1 := by
  have hpow : 2 ^ (order + 1 + kPageBits) = 2 * 2 ^ (order + kPageBits) := by
    rw [Nat.add_right_comm, Nat.pow_succ, Nat.mul_comm]
  have hpage : 2 ^ kPageBits ≤ 2 ^ (order + kPageBits) :=
    Nat.pow_le_pow_right (by decide) (Nat.le_add_left _ _)
  have hmax : 2 ^ (order + kPageBits) ≤ 2 ^ 32 :=
    Nat.pow_le_pow_right (by decide) (Nat.add_le_add_right horder kPageBits)
  change 4096 ≤ _ at hpage
  obtain ⟨⟨_, hle⟩, hleast⟩ :=
    Zones.isBlockSize_orderFor (show 0 < 128 * n + 152 by omega) (by omega)
  have hupper : orderFor (128 * n + 152) + kPageBits ≤ order + 1 + kPageBits := by
    refine (Nat.pow_le_pow_iff_right (by decide : 1 < 2)).mp (hleast ⟨⟨_, rfl⟩, ?_⟩)
    rw [hpow]
    refine Nat.max_le.mpr ⟨by omega, ?_⟩
    change 4096 ≤ _
    omega
  have hlower : order + kPageBits < orderFor (128 * n + 152) + kPageBits :=
    (Nat.pow_lt_pow_iff_right (by decide : 1 < 2)).mp
      (hfull.trans_le ((Nat.le_max_left _ _).trans hle))
  omega

/-- A vector that is refused room fills its block, and there is no larger one beside it. -/
theorem fills_of_refused (hbounds : ∀ b ∈ bounds, 0 < b.1) (hsize : s.phys.size = zones.size)
    (hv : Common.Valid (memoryOf bounds released) largeItem held v s owned xs)
    (hcapacity : v.capacity = v.size) {p : Zones}
    (hplace : Common.PhysicalAllocator.grow largeItem s v.items (xs.length + 1) = some false)
    (hphys : s.phys.allocatePhysical (largeItem.allocationSize (xs.length + 1)) = some (none, p)) :
    Fills ⟨zones, held, released⟩ xs.length (Zones.heldPages owned) := by
  have hle := capacity_le hv
  rw [hcapacity, hv.size] at hle
  have hbytes : largeItem.allocationSize (xs.length + 1) = 128 * xs.length + 152 := by
    rw [← bytes_largeItem]
    refine ElementType.allocationSize_eq (by omega) ?_
    rw [bytes_largeItem]
    omega
  rw [hbytes] at hphys
  obtain ⟨_, live, hledger⟩ := hv.held
  have hnone : orderFor (128 * xs.length + 152) ≤ kMaxOrder →
      (⟨zones, owned ++ held, released⟩ : Zones.Config).freeBlocks
        (orderFor (128 * xs.length + 152)) = ∅ := by
    intro hmax
    rcases hledger.allocate_order (c := ⟨s.phys, owned ++ held, released⟩)
      (by omega : 0 < 128 * xs.length + 152) hmax with ⟨_, hnone⟩ | ⟨_, _, hcall, _⟩
    · rwa [freeBlocks_congr hsize] at hnone
    · rw [hphys] at hcall
      cases hcall
  cases howns : hv.owns with
  | none _ capacity =>
      have hzero : xs.length = 0 := by rw [← hv.size, ← hcapacity, capacity]
      rw [hzero] at hnone ⊢
      exact .none (hnone (by decide))
  | @block b _ backed =>
      have hb : b ∈ [b] ++ held := List.mem_append_left _ List.mem_cons_self
      have hproper := hledger.proper b hb
      have hroom := backed.room
      rw [hproper.size_eq, hcapacity, hv.size] at hroom
      change 24 + xs.length * 128 ≤ _ at hroom
      have hne := nonzero_memoryOf hbounds _ _ hv.held b hb
      rw [Common.PhysicalAllocator.grow_backed backed hproper, hbytes, hproper.size_eq,
        decide_eq_true hne, Bool.true_and, Option.some.injEq, decide_eq_false_iff_not] at hplace
      have hfull := Nat.lt_of_not_le hplace
      have hblock := hledger.mem_freeBlocks (c := ⟨zones, held, released⟩) hsize
        (List.mem_singleton.mpr rfl : b ∈ [b])
      have hlength : xs.length = (2 ^ (b.order + kPageBits) - 24) / 128 := by omega
      have hpages : Zones.heldPages [b] = 2 ^ b.order := List.sum_singleton
      rw [hpages, hlength]
      refine .block b hblock ?_
      rw [orderFor_outgrown (hledger.order_le hb) hroom hfull] at hnone
      rcases Nat.eq_or_lt_of_le (hledger.order_le hb) with heq | hlt
      · exact .inl heq
      · exact .inr (hnone hlt)

/-! ## The test -/

/-- The loop ends with a vector that cannot grow. -/
theorem pushLoop_spec (hbounds : ∀ b ∈ bounds, 0 < b.1) (item : α) (fuel : Nat)
    (hsize : s.phys.size = zones.size)
    (hv : Common.Valid (memoryOf bounds released) largeItem held v s owned xs)
    (hcapacity : v.capacity = v.size) (hfuel : 2 ^ 64 ≤ fuel + xs.length) (log : List Insertion) :
    ∃ w t owned' ys, pushLoop item fuel v s log = some (.ok ((w, t), log ++
        (List.range' (xs.length + 1) (List.length ys - xs.length)).flatMap growLines)) ∧
      Common.Valid (memoryOf bounds released) largeItem held w t owned' ys ∧
      xs.length ≤ ys.length ∧ Fills ⟨zones, held, released⟩ ys.length (Zones.heldPages owned') := by
  induction fuel generalizing v s owned xs log with
  | zero =>
      have hlt := hv.capacity_lt
      have hfits := hv.fits
      omega
  | succ fuel ih =>
      have hle := capacity_le hv
      have hlength := hv.size
      have hbytes : largeItem.bytes (xs.length + 1) < 2 ^ 64 := by
        rw [bytes_largeItem]
        omega
      rcases hv.pushBack_cases item hcapacity hbytes (items_ne hbounds hv) with
        ⟨w, t, owned', hcall, hvalid, hcapacity'⟩ | ⟨hplace, p, hphys, hcall, hvalid⟩
      · change v.pushBack Zones.memory largeItem s item = _ at hcall
        have hsize' : t.phys.size = zones.size := by
          rw [← hsize]
          exact size_of_bounds (hvalid.held.1.trans hv.held.1.symm)
        have hlength' : w.size = xs.length + 1 := by
          rw [hvalid.size, List.length_append]
          rfl
        obtain ⟨w', t', owned'', ys, hloop, hvalid', hle', hfills⟩ := ih hsize' hvalid hcapacity'
          (by rw [List.length_append, List.length_singleton]; omega) (log ++ growLines w.size)
        rw [List.length_append, List.length_singleton] at hloop hle'
        refine ⟨w', t', owned'', ys, ?_, hvalid', by omega, hfills⟩
        rw [pushLoop, Boot.ofOption_bind hcall]
        refine hloop.trans ?_
        have hrange : List.range' (xs.length + 1) (ys.length - xs.length) =
            (xs.length + 1) :: List.range' (xs.length + 1 + 1) (ys.length - (xs.length + 1)) := by
          rw [← List.range'_succ]
          exact congrArg (fun k => List.range' (xs.length + 1) k) (by omega)
        rw [hrange, List.flatMap_cons, hlength', List.append_assoc]
      · change v.pushBack Zones.memory largeItem s item = _ at hcall
        rw [Zones.memoryOf_allocate] at hphys
        refine ⟨v, _, owned, xs, ?_, hvalid, Nat.le_refl _,
          fills_of_refused hbounds hsize hv hcapacity hplace hphys⟩
        rw [pushLoop, Boot.ofOption_bind hcall, Nat.sub_self, List.range'_zero, List.flatMap_nil,
          List.append_nil]
        rfl

/-- What the test logs, where `pages` pages are free and the vector gets `entries` entries in
`used` of them. -/
def vectorLines (pages entries used : Nat) : List Insertion :=
  availableLine (pages * 4096) " bytes before vector test\n" ++
    (List.range' 1 entries).flatMap growLines ++
    [text "Vector size ", .unsigned entries, text " entries currently\n"] ++
    availableLine ((pages - used) * 4096) " bytes after filling vector\n" ++
    availableLine (pages * 4096) " bytes after deleting vector\n"

/-- The test fills a block and restores the allocator. -/
theorem vectorTest_spec {fuel : Nat} (h : (memoryOf bounds released).Holds zones held)
    (hbounds : ∀ b ∈ bounds, 0 < b.1) (hfuel : 2 ^ 64 ≤ fuel) (item : α) (log : List Insertion) :
    ∃ t entries used, vectorTest fuel item zones log =
        some (.ok (t, log ++ vectorLines zones.freePages entries used)) ∧
      (memoryOf bounds released).Holds t held ∧
      Fills ⟨zones, held, released⟩ entries used := by
  obtain ⟨w, t, owned, ys, hloop, hvalid, -, hfills⟩ := pushLoop_spec (α := α) hbounds item fuel rfl
    (Common.new_valid h) rfl (hfuel.trans (Nat.le_add_right _ _))
    (log ++ availableLine zones.availablePhysical " bytes before vector test\n")
  rw [List.length_nil, Nat.sub_zero, Nat.zero_add] at hloop
  obtain ⟨t', hdestroy, hholds⟩ := hvalid.destroy_spec (items_ne hbounds hvalid)
  change w.destroy Zones.memory largeItem t = _ at hdestroy
  obtain ⟨hbounds₀, live₀, hledger₀⟩ := id h
  obtain ⟨hbounds₁, live₁, hledger₁⟩ := id hvalid.held
  obtain ⟨hbounds₂, live₂, hledger₂⟩ := id hholds
  have hfilled : t.phys.availablePhysical =
      (zones.freePages - Zones.heldPages owned) * 4096 := by
    have heq := hledger₀.freePages_eq hledger₁ (size_of_bounds (hbounds₁.trans hbounds₀.symm))
    rw [Zones.heldPages_append] at heq
    exact hledger₁.availablePhysical_eq.trans (congrArg (· * 4096) (by omega))
  have hrestored : t'.phys.availablePhysical = zones.freePages * 4096 := by
    have heq := hledger₀.freePages_eq hledger₂ (size_of_bounds (hbounds₂.trans hbounds₀.symm))
    exact hledger₂.availablePhysical_eq.trans (congrArg (· * 4096) (Nat.add_right_cancel heq))
  refine ⟨t'.phys, ys.length, Zones.heldPages owned, ?_, hholds, hfills⟩
  rw [vectorTest]
  refine (Boot.say_bind _ _ _).trans ?_
  refine (Boot.bind_eq hloop _).trans ?_
  refine (Boot.ofOption_bind hdestroy _ _).trans ((Boot.say_pure _ _ _).trans ?_)
  rw [hledger₀.availablePhysical_eq, hfilled, hrestored, hvalid.size]
  simp only [vectorLines, List.append_assoc]
  rfl

end Aarch64.Cxx.Bootstrap
