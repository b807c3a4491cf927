import Aarch64.Cxx.Bootstrap.VectorTest

/-!
# The self tests

What `kernel` of `bootstrap/main.cc` does once the allocator is set up. In whatever state the
allocator is, every test ends and leaves it with what it had, so the tests find the same each
time.
-/

namespace Aarch64.Cxx.Bootstrap

open Zones (memoryOf)

variable {α : Type}

def testLine (bytes : Nat) : List Insertion :=
  [text "Available after test ", .unsigned bytes, text " bytes\n"]

/-- The tests, up to the panic that ends the bootstrap. -/
def selfTests (fuel this : Nat) (item : α) (zones : Zones) : Boot Zones := do
  let zones ← allocatorTest fuel zones
  let zones ← allocatorTest fuel zones
  let zones ← allocatorTest fuel zones
  .say (testLine zones.availablePhysical)
  let zones ← cacheTest fuel this zones
  let zones ← cacheTest fuel this zones
  let zones ← cacheTest fuel this zones
  .say (testLine zones.availablePhysical)
  let zones ← vectorTest fuel item zones
  let zones ← vectorTest fuel item zones
  let zones ← vectorTest fuel item zones
  .say [text "Finished."]
  return zones

/-! ## Three times each -/

/-- A test that restores the allocator can be repeated. -/
theorem repeated {held : List Contigous} {released : Nat → Set Nat}
    {bounds : List (Nat × Nat × Nat)} {test : Zones → Boot Zones} {β : Type}
    {lines : β → List Insertion} {Q : β → Prop}
    (htest : ∀ zones, (memoryOf bounds released).Holds zones held → ∀ log, ∃ t b,
      test zones log = some (.ok (t, log ++ lines b)) ∧
        (memoryOf bounds released).Holds t held ∧ Q b)
    {zones : Zones} (h : (memoryOf bounds released).Holds zones held) (f : Zones → Boot Zones)
    (log : List Insertion) :
    ∃ t b₁ b₂ b₃, (do
        let zones ← test zones
        let zones ← test zones
        let zones ← test zones
        f zones : Boot Zones) log = f t (log ++ lines b₁ ++ lines b₂ ++ lines b₃) ∧
      (memoryOf bounds released).Holds t held ∧ Q b₁ ∧ Q b₂ ∧ Q b₃ := by
  obtain ⟨t₁, b₁, hcall₁, h₁, hb₁⟩ := htest zones h log
  obtain ⟨t₂, b₂, hcall₂, h₂, hb₂⟩ := htest t₁ h₁ _
  obtain ⟨t₃, b₃, hcall₃, h₃, hb₃⟩ := htest t₂ h₂ _
  refine ⟨t₃, b₁, b₂, b₃, ?_, h₃, hb₁, hb₂, hb₃⟩
  rw [Boot.bind_eq hcall₁, Boot.bind_eq hcall₂, Boot.bind_eq hcall₃]

variable {zones t : Zones} {held : List Contigous} {released : Nat → Set Nat}
variable {bounds : List (Nat × Nat × Nat)}

/-- Zones that hold the same have as many free pages. -/
theorem freePages_congr (h : (memoryOf bounds released).Holds zones held)
    (h' : (memoryOf bounds released).Holds t held) :
    t.size = zones.size ∧ t.freePages = zones.freePages := by
  obtain ⟨hbounds, _, hledger⟩ := h
  obtain ⟨hbounds', _, hledger'⟩ := h'
  have hsize := size_of_bounds (hbounds'.trans hbounds.symm)
  exact ⟨hsize, Nat.add_right_cancel (hledger.freePages_eq hledger' hsize)⟩

theorem Fills.congr (h : t.size = zones.size) {entries used : Nat}
    (hfills : Fills ⟨t, held, released⟩ entries used) :
    Fills ⟨zones, held, released⟩ entries used := by
  cases hfills with
  | none hnone =>
      rw [freeBlocks_congr h] at hnone
      exact .none hnone
  | block m hfree hbeside =>
      rw [freeBlocks_congr h] at hfree hbeside
      exact .block m hfree hbeside

/-! ## All of them -/

/-- What the tests log, where `pages` pages and `slabs` blocks of eight are free. -/
def testLines (pages slabs : Nat) (v₁ v₂ v₃ : Nat × Nat) : List Insertion :=
  allocatorLines pages ++ allocatorLines pages ++ allocatorLines pages ++ testLine (pages * 4096) ++
    cacheLines pages slabs ++ cacheLines pages slabs ++ cacheLines pages slabs ++
    testLine (pages * 4096) ++ vectorLines pages v₁.1 v₁.2 ++ vectorLines pages v₂.1 v₂.2 ++
    vectorLines pages v₃.1 v₃.2 ++ [text "Finished."]

theorem selfTests_spec {fuel : Nat} (h : (memoryOf bounds released).Holds zones held)
    (hbounds : ∀ b ∈ bounds, 0 < b.1) (hfuel : 2 ^ 64 ≤ fuel) (this : Nat) (item : α)
    (log : List Insertion) :
    ∃ t v₁ v₂ v₃, selfTests fuel this item zones log = some (.ok (t, log ++
        testLines zones.freePages ((⟨zones, held, released⟩ : Zones.Config).freeBlocks 3).ncard
          v₁ v₂ v₃)) ∧
      (memoryOf bounds released).Holds t held ∧ Fills ⟨zones, held, released⟩ v₁.1 v₁.2 ∧
      Fills ⟨zones, held, released⟩ v₂.1 v₂.2 ∧ Fills ⟨zones, held, released⟩ v₃.1 v₃.2 := by
  have hallocator : ∀ t, (memoryOf bounds released).Holds t held → ∀ log, ∃ (t' : Zones) (_ : Unit),
      allocatorTest fuel t log = some (.ok (t', log ++ allocatorLines zones.freePages)) ∧
        (memoryOf bounds released).Holds t' held ∧ True := by
    intro t ht log
    obtain ⟨t', hcall, ht', _⟩ := allocatorTest_spec ht hfuel log
    rw [(freePages_congr h ht).2] at hcall
    exact ⟨t', (), hcall, ht', trivial⟩
  have hcache : ∀ t, (memoryOf bounds released).Holds t held → ∀ log, ∃ (t' : Zones) (_ : Unit),
      cacheTest fuel this t log = some (.ok (t', log ++ cacheLines zones.freePages
          ((⟨zones, held, released⟩ : Zones.Config).freeBlocks 3).ncard)) ∧
        (memoryOf bounds released).Holds t' held ∧ True := by
    intro t ht log
    obtain ⟨hsize, hpages⟩ := freePages_congr h ht
    obtain ⟨t', hcall, ht'⟩ := cacheTest_spec this ht hbounds hfuel log
    rw [hpages, freeBlocks_congr hsize] at hcall
    exact ⟨t', (), hcall, ht', trivial⟩
  have hvector : ∀ t, (memoryOf bounds released).Holds t held → ∀ log,
      ∃ (t' : Zones) (b : Nat × Nat),
      vectorTest fuel item t log =
          some (.ok (t', log ++ vectorLines zones.freePages b.1 b.2)) ∧
        (memoryOf bounds released).Holds t' held ∧ Fills ⟨zones, held, released⟩ b.1 b.2 := by
    intro t ht log
    obtain ⟨hsize, hpages⟩ := freePages_congr h ht
    obtain ⟨t', entries, used, hcall, ht', hfills⟩ := vectorTest_spec ht hbounds hfuel item log
    rw [hpages] at hcall
    exact ⟨t', (entries, used), hcall, ht', hfills.congr hsize⟩
  have havailable : ∀ t, (memoryOf bounds released).Holds t held →
      t.availablePhysical = zones.freePages * 4096 := by
    intro t ht
    obtain ⟨_, _, hledger⟩ := id ht
    rw [hledger.availablePhysical_eq, (freePages_congr h ht).2]
    rfl
  obtain ⟨t₁, _, _, _, hcall₁, h₁, -⟩ := repeated hallocator h _ log
  obtain ⟨t₂, _, _, _, hcall₂, h₂, -⟩ := repeated hcache h₁ _ _
  obtain ⟨t₃, v₁, v₂, v₃, hcall₃, h₃, hv₁, hv₂, hv₃⟩ := repeated hvector h₂ _ _
  refine ⟨t₃, v₁, v₂, v₃, ?_, h₃, hv₁, hv₂, hv₃⟩
  rw [selfTests]
  refine hcall₁.trans ((Boot.say_bind _ _ _).trans (hcall₂.trans ((Boot.say_bind _ _ _).trans
    (hcall₃.trans ((Boot.say_pure _ _ _).trans ?_)))))
  rw [havailable t₁ h₁, havailable t₂ h₂]
  simp only [testLines, List.append_assoc]

/-- In every reachable state of the allocator the self tests end and change nothing that lasts. They
find every page that is free, every block of eight pages that is, and a vector that fills its block
when it cannot grow. Afterwards the allocator holds and has available what it did before, and it is
valid, so the tests can be run again. -/
theorem selfTests_restore {c : Zones.Config} (hzones : Zones.Fresh zones)
    (hrun : Zones.Reachable zones c) (hnonzero : ∀ z ∈ c.zones.items, 0 < z.fromAddress)
    {fuel : Nat} (hfuel : 2 ^ 64 ≤ fuel) (this : Nat) (item : α) (log : List Insertion) :
    ∃ t v₁ v₂ v₃, selfTests fuel this item c.zones log = some (.ok (t, log ++
        testLines (c.freeBlocks 0).ncard (c.freeBlocks 3).ncard v₁ v₂ v₃)) ∧
      (⟨t, c.held, c.released⟩ : Zones.Config).Valid ∧
      c.zones.availablePhysical = (c.freeBlocks 0).ncard * 4096 ∧
      t.availablePhysical = (c.freeBlocks 0).ncard * 4096 ∧
      Fills c v₁.1 v₁.2 ∧ Fills c v₂.1 v₂.2 ∧ Fills c v₃.1 v₃.2 := by
  obtain ⟨⟨live, hledger⟩, hends⟩ := hrun.valid hzones
  have hholds : (memoryOf c.zones.bounds c.released).Holds c.zones c.held := ⟨rfl, live, hledger⟩
  have hbounds : ∀ b ∈ c.zones.bounds, 0 < b.1 := List.forall_mem_map.mpr hnonzero
  obtain ⟨_, _, _, hpages⟩ := allocatorTest_spec hholds hfuel log
  change c.zones.freePages = (c.freeBlocks 0).ncard at hpages
  obtain ⟨t, v₁, v₂, v₃, hcall, ht, hv₁, hv₂, hv₃⟩ :=
    selfTests_spec hholds hbounds hfuel this item log
  have hpages' := (freePages_congr hholds ht).2
  obtain ⟨hbounds', live', hledger'⟩ := ht
  rw [hpages] at hcall
  refine ⟨t, v₁, v₂, v₃, hcall, ⟨⟨live', hledger'⟩, ?_⟩, ?_, ?_, hv₁, hv₂, hv₃⟩
  · rw [hbounds']
    exact hends
  · rw [hledger.availablePhysical_eq, hpages]
    rfl
  · rw [hledger'.availablePhysical_eq, hpages', hpages]
    rfl

/-- One block that was released to the only zone, of which nothing is held. -/
private theorem freeBlocks_eq_singleton {c : Zones.Config} {index order : Nat}
    (hsize : c.zones.size = 1) (hheld : c.held = [])
    (hreleased : c.released 0 = Dyadic.Block.pages ⟨index, order⟩) (haligned : 2 ^ order ∣ index) :
    c.freeBlocks order = {(0, index * 2 ^ kPageBits)} := by
  have hpow : 2 ^ (order + kPageBits) = 2 ^ order * 2 ^ kPageBits := Nat.pow_add ..
  have hstart : 2 ^ (order + kPageBits) ∣ index * 2 ^ kPageBits := by
    rw [hpow]
    exact Nat.mul_dvd_mul_right haligned _
  have hbytes : ∀ x, x ∈ c.freeBytes 0 ↔
      index * 2 ^ kPageBits ≤ x ∧ x < index * 2 ^ kPageBits + 2 ^ (order + kPageBits) := by
    intro x
    change x / 2 ^ kPageBits ∈ c.released 0 ∧ (∀ m ∈ c.held, x ∉ m.bytes) ↔ _
    rw [hreleased, hheld, Zones.mem_pages_iff, hpow]
    exact and_iff_left fun m hm => absurd hm List.not_mem_nil
  ext ⟨it, a⟩
  constructor
  · rintro ⟨hit, hdvd, hsub⟩
    obtain rfl : it = 0 := by omega
    have ha : a ∈ Set.Ico a (a + 2 ^ (order + kPageBits)) :=
      ⟨Nat.le_refl a, Nat.lt_add_of_pos_right (Nat.two_pow_pos _)⟩
    exact Prod.ext rfl (Zones.eq_of_aligned hdvd hstart ha ((hbytes a).mp (hsub ha)))
  · rintro ⟨⟩
    exact ⟨hsize ▸ Nat.one_pos, hstart, fun x hx => (hbytes x).mpr hx⟩

/-- A zone of eight pages, all of them released as one block: the tests find the pages and the
block, of which the caches make objects. -/
theorem selfTests_restore_eight : ∃ (c : Zones.Config) (t : Zones) (v₁ v₂ v₃ : Nat × Nat),
    c.released 0 = Dyadic.Block.pages ⟨8, 3⟩ ∧
      selfTests (2 ^ 64) 0x1000 () c.zones [] = some (.ok (t, testLines 8 1 v₁ v₂ v₃)) ∧
      t.availablePhysical = 8 * 4096 := by
  set z := Zone.new (List.replicate 8 Page.zero) 0x8000 0x10000 (by decide) (by decide) with hz
  set zones : Zones := ⟨[z], by decide⟩ with hzones
  have hfresh : Zones.Fresh zones := by
    refine ⟨fun w hw => ?_, fun w hw => ?_, fun w hw => ?_, List.pairwise_singleton ..⟩ <;>
      obtain rfl := List.mem_singleton.mp hw
    · exact ⟨_, _, _, _, _, hz, fun p hp => List.eq_of_mem_replicate hp⟩
    · exact ⟨by decide, by decide⟩
    · decide
  have hallowed : (Zones.Op.seed 0 0x8000 3).Allowed ⟨zones, [], fun _ => ∅⟩ :=
    ⟨z, rfl, by decide, by decide, fun p hp => hp, Set.disjoint_empty _⟩
  obtain ⟨d, hd, _⟩ := (Zones.Op.seed 0 0x8000 3).run_spec hfresh.valid hallowed
  obtain ⟨w, hseed, hw⟩ : ∃ w, z.freePagesOrder 0x8000 3 = some w ∧ _ = some d :=
    Option.bind_eq_some_iff.mp hd
  have hfrom : w.fromAddress = 0x8000 := congrArg Prod.fst (Zone.bounds_freePagesOrder hseed)
  have havailable : (z.freePagesOrder 0x8000 3).map (·.available) = some 8 := by
    decide +kernel
  rw [hseed, Option.map_some, Option.some.injEq] at havailable
  have hitems : d.zones.items = [w] := congrArg (·.zones.items) (Option.some.inj hw).symm
  have hheld : d.held = [] := congrArg (·.held) (Option.some.inj hw).symm
  have hreleased : d.released 0 = Dyadic.Block.pages ⟨8, 3⟩ := by
    rw [← Option.some.inj hw]
    change Function.update (fun _ : Nat => (∅ : Set Nat)) 0 (∅ ∪ Dyadic.Block.pages ⟨8, 3⟩) 0 = _
    rw [Function.update_self, Set.empty_union]
  obtain ⟨t, v₁, v₂, v₃, hcall, -, hbefore, hafter, -⟩ :=
    selfTests_restore hfresh (.single ⟨_, hallowed, hd⟩)
      (fun u hu => by
        rw [hitems] at hu
        obtain rfl : u = w := List.mem_singleton.mp hu
        rw [hfrom]
        decide)
      (Nat.le_refl (2 ^ 64)) 0x1000 () []
  have hblock : (d.freeBlocks 3).ncard = 1 := by
    rw [freeBlocks_eq_singleton (congrArg List.length hitems) hheld hreleased (by decide)]
    exact Set.ncard_singleton _
  have hpages : (d.freeBlocks 0).ncard = 8 := by
    rw [Zones.availablePhysical, hitems, List.foldl_cons, List.foldl_nil, havailable] at hbefore
    have hsum : Word64.add 0 (Word64.shl 8 kPageBits) = 8 * 4096 := by decide
    omega
  rw [hblock, hpages] at hcall
  rw [hpages] at hafter
  exact ⟨d, t, v₁, v₂, v₃, hreleased, hcall, hafter⟩

end Aarch64.Cxx.Bootstrap
