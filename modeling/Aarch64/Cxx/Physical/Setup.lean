import Aarch64.Cxx.MemoryMap.SetStatus
import Aarch64.Cxx.Physical.Run

/-!
# Setting up physical memory

`CreateZones` and `FreeUnusedMemory` of `memory/memory.cc`. A zone is a maximal run of
ranges that touch, trimmed to whole pages, and every free range then gives its whole pages
to the zone around it, in blocks. Two walks over sorted lists have to agree: the one over
the ranges and the one over the zones.

The page records of the zones take their memory from the map, which is why the zones are
made from a copy. `AllocateIn` is a parameter here: a zone does not depend on where its
records are, and the second walk is over any map of the same addresses.
-/

namespace Aarch64.Cxx

open Dyadic (Block)

def kPageSize : Nat := 1 <<< kPageBits

namespace Zones

/-! ## Creating the zones -/

/-- The records of all pages between two addresses fit into memory. -/
theorem replicate_fits (begin stop : Nat) :
    (List.replicate (Word64.sub stop begin >>> kPageBits) Page.zero).length * 32 ≤ 2 ^ 64 := by
  have hlt : Word64.sub stop begin < 2 ^ 64 := Nat.mod_lt _ (Nat.two_pow_pos 64)
  rw [List.length_replicate, Nat.shiftRight_eq_div_pow]
  change Word64.sub stop begin / 4096 * 32 ≤ 2 ^ 64
  omega

section

variable {σ : Type} (allocateIn : σ → Nat → Nat → Nat → Nat → Bool × σ)

/-- `Allocate` of the map, whose `AllocateIn` takes the bounds, the size and the alignment. -/
def allocate (mmap : σ) (size alignment : Nat) : Bool × σ :=
  allocateIn mmap 0 (2 ^ 64 - 1) size alignment

/-- The memory for page records: near the pages if possible, else anywhere. -/
def allocateRecords (mmap : σ) (begin stop bytes : Nat) : Bool × σ :=
  let (ok, mmap) := allocateIn mmap begin stop bytes kPageSize
  if ok then (true, mmap) else allocate allocateIn mmap bytes kPageSize

/-- Add a zone for the whole pages between two addresses, with zeroed records of 32 bytes. -/
def createZone (mmap : σ) (zones : Zones) (begin stop : Nat) : Bool × σ × Zones :=
  let first := alignUp begin kPageSize
  let last := alignDown stop kPageSize
  if first ≥ last then (true, mmap, zones)
  else
    let pages := Word64.sub last first >>> kPageBits
    let bytes := Word64.mul pages 32
    let (ok, mmap) := allocateRecords allocateIn mmap first last bytes
    if !ok then (false, mmap, zones)
    else
      let page := List.replicate pages Page.zero
      let (ok, zones) := zones.emplaceBack
        (Zone.new page first last (replicate_fits first last) (alignUp_lt _ _))
      (ok, mmap, zones)

/-- The loop of `CreateZones`, which has seen a run of ranges from `begin` to `stop`. -/
def createZonesLoop (mmap : σ) (zones : Zones) (begin stop : Nat) :
    List MemoryRange → Bool × σ × Zones
  | [] => createZone allocateIn mmap zones begin stop
  | it :: rest =>
      if stop = it.start then createZonesLoop mmap zones begin it.stop rest
      else
        let (ok, mmap, zones) := createZone allocateIn mmap zones begin stop
        if !ok then (false, mmap, zones)
        else createZonesLoop mmap zones it.start it.stop rest

/-- `CreateZones` over the copy of the map, without zones at the start. -/
def createZones (mmap : σ) (copy : MemoryMap) : Bool × σ × Zones :=
  match copy.ranges.items with
  | [] => (true, mmap, ⟨[], Nat.zero_le _⟩)
  | first :: rest =>
      createZonesLoop allocateIn mmap ⟨[], Nat.zero_le _⟩ first.start first.stop rest

end

/-! ## Seeding them -/

/-- A call of `FreePages` with an address and an order on zone number `zone`. -/
structure Call where
  zone : Nat
  addr : Nat
  order : Nat
  deriving DecidableEq, Repr

def Call.block (c : Call) : Block := Zone.addrBlock c.addr c.order

/-- The order of the next block. Both bit positions become a `size_t`. -/
def freeOrder (addr stop : Nat) : Nat :=
  let offset := addr >>> kPageBits
  let pages := Word64.sub stop addr >>> kPageBits
  let align := leastSignificantBit offset
  let size := (mostSignificantBit pages % 2 ^ 64).toNat
  min (min align size) kMaxOrder

/-- The loop of `FreeMemory`, with the calls that it makes. -/
def freeMemoryLoop (fuel : Nat) (zones : Zones) (zone addr stop : Nat) :
    Option (Zones × List Call) :=
  if addr = stop then some (zones, [])
  else
    match fuel with
    | 0 => none
    | fuel + 1 => do
        let order := freeOrder addr stop
        let z ← zones.items[zone]?
        let z ← z.freePagesOrder addr order
        let next := Word64.add addr (Word64.shl 1 (kPageBits + order))
        let (zones, calls) ← freeMemoryLoop fuel (zones.set zone z) zone next stop
        return (zones, ⟨zone, addr, order⟩ :: calls)

def freeMemory (fuel : Nat) (zones : Zones) (zone begin stop : Nat) :
    Option (Bool × Zones × List Call) := do
  let z ← zones.items[zone]?
  if begin > stop then return (false, zones, [])
  else if begin < z.fromAddress ∨ begin ≥ z.toAddress then return (false, zones, [])
  else if stop ≤ z.fromAddress ∨ stop > z.toAddress then return (false, zones, [])
  else
    let begin := alignUp begin kPageSize
    let stop := alignDown stop kPageSize
    if begin ≥ stop then return (true, zones, [])
    else
      let (zones, calls) ← freeMemoryLoop fuel zones zone begin stop
      return (true, zones, calls)

/-- The inner loop of `FreeUnusedMemory`: the first zone from `zone` on that goes on behind
`begin`. -/
def skipZones (zones : Zones) (begin zone : Nat) : Nat :=
  if h : zone < zones.items.length then
    if zones.items[zone].toAddress ≤ begin then skipZones zones begin (zone + 1) else zone
  else zone
termination_by zones.items.length - zone

/-- The loop of `FreeUnusedMemory` over the ranges that are left. -/
def freeUnusedLoop (fuel : Nat) (zones : Zones) (zone : Nat) :
    List MemoryRange → Option (Bool × Zones × List Call)
  | [] => some (true, zones, [])
  | range :: rest =>
      if range.status ≠ .free then freeUnusedLoop fuel zones zone rest
      else
        let begin := alignUp range.start kPageSize
        let stop := alignDown range.stop kPageSize
        if begin ≥ stop then freeUnusedLoop fuel zones zone rest
        else
          let zone := zones.skipZones begin zone
          if zone = zones.size then some (false, zones, [])
          else do
            let (ok, zones, calls) ← zones.freeMemory fuel zone begin stop
            if !ok then return (false, zones, calls)
            let (ok, zones, calls') ← freeUnusedLoop fuel zones zone rest
            return (ok, zones, calls ++ calls')

def freeUnusedMemory (fuel : Nat) (zones : Zones) (m : MemoryMap) :
    Option (Bool × Zones × List Call) :=
  freeUnusedLoop fuel zones 0 m.ranges.items

/-! ## What the zones are -/

/-- A zone of whole pages over zeroed records, as `createZone` makes it. -/
structure Whole (z : Zone) : Prop where
  zeroed : ∃ page fromAddress toAddress hfits hfrom,
    z = Zone.new page fromAddress toAddress hfits hfrom ∧ ∀ p ∈ page, p = Page.zero
  aligned : PageAligned z
  toAddress_eq : z.toAddress = z.fromAddress + z.pages * 2 ^ kPageBits
  lt : z.fromAddress < z.toAddress

theorem Whole.mem_addresses {z : Zone} (h : Whole z) {x : Nat} :
    x ∈ addresses z ↔ z.fromAddress ≤ x ∧ x < z.toAddress := by
  rw [h.toAddress_eq]
  exact Iff.rfl

/-- The zones of a set of addresses: they lie inside it, in order, and a run of whole pages
of it lies in one of them. -/
structure Covers (covered : Set Nat) (zones : List Zone) : Prop where
  whole : ∀ z ∈ zones, Whole z
  inside : ∀ z ∈ zones, addresses z ⊆ covered
  sorted : zones.Pairwise fun z w => z.toAddress ≤ w.fromAddress
  exists_zone : ∀ a b, a < b → Set.Ico (a * 2 ^ kPageBits) (b * 2 ^ kPageBits) ⊆ covered →
    ∃ z ∈ zones, z.fromAddress ≤ a * 2 ^ kPageBits ∧ b * 2 ^ kPageBits ≤ z.toAddress

/-- Addresses without a whole page need no zone. -/
theorem Covers.nil {covered : Set Nat} (h : ∀ a b, a < b →
    ¬ Set.Ico (a * 2 ^ kPageBits) (b * 2 ^ kPageBits) ⊆ covered) : Covers covered [] where
  whole := List.forall_mem_nil _
  inside := List.forall_mem_nil _
  sorted := .nil
  exists_zone a b hab hsub := absurd hsub (h a b hab)

theorem Covers.empty : Covers ∅ [] := by
  refine .nil fun a b hab hsub => Set.notMem_empty (a * 2 ^ kPageBits) (hsub ⟨Nat.le_refl _, ?_⟩)
  exact Nat.mul_lt_mul_of_pos_right hab (Nat.two_pow_pos _)

/-- Where one address is missing, no run of pages goes on. -/
theorem Covers.append {s t : Set Nat} {us vs : List Zone} {y : Nat} (hs : Covers s us)
    (ht : Covers t vs) (hlo : ∀ x ∈ s, x < y) (hhi : ∀ x ∈ t, y < x) :
    Covers (s ∪ t) (us ++ vs) := by
  refine ⟨List.forall_mem_append.mpr ⟨hs.whole, ht.whole⟩, List.forall_mem_append.mpr ⟨?_, ?_⟩,
    List.pairwise_append.mpr ⟨hs.sorted, ht.sorted, fun z hz w hw => ?_⟩, fun a b hab hsub => ?_⟩
  · exact fun z hz => (hs.inside z hz).trans Set.subset_union_left
  · exact fun z hz => (ht.inside z hz).trans Set.subset_union_right
  · have hz' := hs.whole z hz
    have hlast : z.toAddress - 1 ∈ s :=
      hs.inside z hz (hz'.mem_addresses.mpr ⟨Nat.le_sub_one_of_lt hz'.lt,
        Nat.sub_lt (Nat.zero_lt_of_lt hz'.lt) Nat.one_pos⟩)
    have hfirst : w.fromAddress ∈ t :=
      ht.inside w hw ((ht.whole w hw).mem_addresses.mpr ⟨Nat.le_refl _, (ht.whole w hw).lt⟩)
    have hbelow := hlo _ hlast
    have habove := hhi _ hfirst
    omega
  · -- `y` is in neither set, so the run is on one side of it
    have hmul : a * 2 ^ kPageBits < b * 2 ^ kPageBits :=
      Nat.mul_lt_mul_of_pos_right hab (Nat.two_pow_pos _)
    have hy : ¬ (a * 2 ^ kPageBits ≤ y ∧ y < b * 2 ^ kPageBits) := by
      intro hmem
      rcases hsub hmem with hmem | hmem
      · exact Nat.lt_irrefl y (hlo y hmem)
      · exact Nat.lt_irrefl y (hhi y hmem)
    rcases Nat.lt_or_ge y (a * 2 ^ kPageBits) with hlt | hge
    · obtain ⟨z, hz, hin⟩ := ht.exists_zone a b hab fun x hx =>
        (hsub hx).resolve_left fun hxs => Nat.lt_asymm (hlo x hxs) (hlt.trans_le hx.1)
      exact ⟨z, List.mem_append_right _ hz, hin⟩
    · have hend : b * 2 ^ kPageBits ≤ y := Nat.not_lt.mp fun hlt => hy ⟨hge, hlt⟩
      obtain ⟨z, hz, hin⟩ := hs.exists_zone a b hab fun x hx =>
        (hsub hx).resolve_right fun hxt => Nat.lt_asymm (hhi x hxt) (hx.2.trans_le hend)
      exact ⟨z, List.mem_append_left _ hz, hin⟩

theorem alignUp_page {x : Nat} (hx : x + 4096 ≤ 2 ^ 64) :
    alignUp x kPageSize = (x + 4095) / 4096 * 4096 :=
  alignUp_two_pow (k := 12) hx (by decide)

theorem alignDown_page {x : Nat} (hx : x < 2 ^ 64) :
    alignDown x kPageSize = x / 4096 * 4096 :=
  alignDown_two_pow (k := 12) hx (by decide)

section

variable {σ : Type} {allocateIn : σ → Nat → Nat → Nat → Nat → Bool × σ} {mmap mmap' : σ}
variable {zones t : Zones} {begin stop : Nat}

/-- A call that returns `true` has found no whole page, or has added one zone. -/
theorem createZone_cases {first last : Nat} (hfirst : first = alignUp begin kPageSize)
    (hlast : last = alignDown stop kPageSize)
    (h : createZone allocateIn mmap zones begin stop = (true, mmap', t)) :
    (first ≥ last ∧ t = zones) ∨ (first < last ∧ ∃ hword, zones.emplaceBack
      (Zone.new (List.replicate (Word64.sub last first >>> kPageBits) Page.zero) first last
        (replicate_fits first last) hword) = (true, t)) := by
  subst hfirst hlast
  simp only [createZone] at h
  split at h
  next hge => exact .inl ⟨hge, (congrArg (·.2.2) h).symm⟩
  next hlt =>
    split at h
    next => cases congrArg Prod.fst h
    next =>
      simp only [Prod.mk.injEq] at h
      exact .inr ⟨Nat.lt_of_not_le hlt, alignUp_lt _ _, Prod.ext h.1 h.2.2⟩

theorem createZone_spec (hle : begin ≤ stop) (hstop : stop + 4096 ≤ 2 ^ 64)
    (h : createZone allocateIn mmap zones begin stop = (true, mmap', t)) :
    ∃ new, t.items = zones.items ++ new ∧ Covers (Set.Ico begin stop) new := by
  have hfirst := alignUp_page (x := begin) (by omega)
  have hlast := alignDown_page (x := stop) (by omega)
  -- the whole pages between the two addresses
  have hpages : ∀ a b, a < b → Set.Ico (a * 2 ^ kPageBits) (b * 2 ^ kPageBits) ⊆ Set.Ico begin stop →
      alignUp begin kPageSize ≤ a * 2 ^ kPageBits ∧ b * 2 ^ kPageBits ≤ alignDown stop kPageSize := by
    intro a b hab hsub
    change Set.Ico (a * 4096) (b * 4096) ⊆ _ at hsub
    have hlo := (hsub (a := a * 4096) ⟨by omega, by omega⟩).1
    have hhi := (hsub (a := b * 4096 - 1) ⟨by omega, by omega⟩).2
    change _ ≤ a * 4096 ∧ b * 4096 ≤ _
    omega
  rcases createZone_cases rfl rfl h with ⟨hge, rfl⟩ | ⟨hlt, _, hadd⟩
  · refine ⟨[], (List.append_nil _).symm, .nil fun a b hab hsub => ?_⟩
    obtain ⟨hlo, hhi⟩ := hpages a b hab hsub
    have hmul : a * 2 ^ kPageBits < b * 2 ^ kPageBits :=
      Nat.mul_lt_mul_of_pos_right hab (Nat.two_pow_pos _)
    omega
  · refine ⟨_, FixedVector.items_of_emplaceBack hadd, ?_⟩
    generalize hz : Zone.new _ _ _ (replicate_fits _ _) _ = z
    have hfrom : z.fromAddress = alignUp begin kPageSize := by rw [← hz]; rfl
    have hto : z.toAddress = alignDown stop kPageSize := by rw [← hz]; rfl
    have hlen : z.pages =
        Word64.sub (alignDown stop kPageSize) (alignUp begin kPageSize) >>> kPageBits := by
      rw [← hz]
      exact List.length_replicate
    have hcount : z.fromAddress + z.pages * 4096 = z.toAddress := by
      rw [hlen, hfrom, hto, Word64.sub_of_le (by omega) (by omega), Nat.shiftRight_eq_div_pow]
      change _ + _ / 4096 * 4096 = _
      omega
    have hwhole : Whole z := by
      refine ⟨⟨_, _, _, _, _, hz.symm, fun p hp => List.eq_of_mem_replicate hp⟩, ⟨?_, ?_⟩,
        hcount.symm, by omega⟩
      · rw [hfrom, hfirst]
        exact Nat.dvd_mul_left 4096 _
      · change z.fromAddress + z.pages * 4096 < _
        omega
    refine ⟨List.forall_mem_singleton.mpr hwhole, List.forall_mem_singleton.mpr fun x hx => ?_,
      List.pairwise_singleton .., fun a b hab hsub => ⟨z, List.mem_singleton_self z, ?_⟩⟩
    · obtain ⟨hlo, hhi⟩ := hwhole.mem_addresses.mp hx
      exact ⟨by omega, by omega⟩
    · rw [hfrom, hto]
      exact hpages a b hab hsub

/-- The addresses of the ranges. -/
def coveredBy (ranges : List MemoryRange) : Set Nat :=
  {x | ∃ r ∈ ranges, r.start ≤ x ∧ x < r.stop}

@[simp] theorem coveredBy_nil : coveredBy [] = ∅ := by
  ext x
  simp [coveredBy]

@[simp] theorem coveredBy_cons (r : MemoryRange) (ranges : List MemoryRange) :
    coveredBy (r :: ranges) = Set.Ico r.start r.stop ∪ coveredBy ranges := by
  ext x
  exact List.exists_mem_cons_iff _ _ _

/-- What the loop covers is the run that it has seen and the ranges that are left. -/
theorem createZonesLoop_spec : ∀ (ranges : List MemoryRange) (mmap : σ) (zones t : Zones)
    (begin stop : Nat), begin < stop → stop + 4096 ≤ 2 ^ 64 →
    (∀ r ∈ ranges, stop ≤ r.start ∧ r.start < r.stop ∧ r.stop + 4096 ≤ 2 ^ 64) →
    ranges.Pairwise (fun r s => r.stop ≤ s.start) →
    createZonesLoop allocateIn mmap zones begin stop ranges = (true, mmap', t) →
    ∃ new, t.items = zones.items ++ new ∧ Covers (Set.Ico begin stop ∪ coveredBy ranges) new := by
  intro ranges
  induction ranges with
  | nil =>
      intro mmap zones t begin stop hlt hstop _ _ h
      obtain ⟨new, hitems, hcovers⟩ := createZone_spec hlt.le hstop h
      refine ⟨new, hitems, ?_⟩
      rwa [coveredBy_nil, Set.union_empty]
  | cons r ranges ih =>
      intro mmap zones t begin stop hlt hstop hranges hsorted h
      obtain ⟨⟨hstart, hrlt, hrstop⟩, hrest⟩ := List.forall_mem_cons.mp hranges
      obtain ⟨hfirst, hsorted⟩ := List.pairwise_cons.mp hsorted
      have hnext : ∀ s ∈ ranges, r.stop ≤ s.start ∧ s.start < s.stop ∧ s.stop + 4096 ≤ 2 ^ 64 :=
        fun s hs => ⟨hfirst s hs, (hrest s hs).2⟩
      rw [createZonesLoop] at h
      split at h
      next htouch =>
        obtain ⟨new, hitems, hcovers⟩ :=
          ih mmap zones t begin r.stop (by omega) hrstop hnext hsorted h
        refine ⟨new, hitems, ?_⟩
        rwa [coveredBy_cons, ← Set.union_assoc, htouch,
          Set.Ico_union_Ico_eq_Ico (htouch ▸ hlt.le) hrlt.le]
      next hgap =>
        rcases hzone : createZone allocateIn mmap zones begin stop with ⟨ok, mmap₁, u⟩
        simp only [hzone] at h
        cases ok with
        | false => cases h
        | true =>
            obtain ⟨first, hfirst, hcovers⟩ := createZone_spec hlt.le hstop hzone
            obtain ⟨new, hitems, hcovers'⟩ := ih mmap₁ u t r.start r.stop hrlt hrstop hnext hsorted h
            refine ⟨first ++ new, by rw [hitems, hfirst, List.append_assoc], ?_⟩
            rw [coveredBy_cons]
            refine hcovers.append hcovers' (fun x hx => hx.2) fun x hx => ?_
            rcases hx with hx | ⟨s, hs, hx⟩
            · exact (Nat.lt_of_le_of_ne hstart hgap).trans_le hx.1
            · have := (hnext s hs).1
              omega

/-- The zones cover the registered addresses. -/
theorem createZones_spec {copy : MemoryMap} (hcopy : Segments.Proper copy.segments)
    (hword : ∀ r ∈ copy.ranges.items, r.stop + 4096 ≤ 2 ^ 64)
    (h : createZones allocateIn mmap copy = (true, mmap', zones)) :
    Covers (coveredBy copy.ranges.items) zones.items := by
  have hlt : ∀ r ∈ copy.ranges.items, r.start < r.stop := fun r hr =>
    hcopy.lt _ (List.mem_map_of_mem hr)
  have hsorted := List.pairwise_map.mp hcopy.pairwise
  rw [createZones] at h
  split at h
  next hnil =>
    cases h
    rw [hnil, coveredBy_nil]
    exact .empty
  next first rest hcons =>
    rw [hcons] at hlt hsorted hword ⊢
    obtain ⟨hfirst, hrest⟩ := List.forall_mem_cons.mp hlt
    obtain ⟨hword', hwords⟩ := List.forall_mem_cons.mp hword
    obtain ⟨hhead, hsorted⟩ := List.pairwise_cons.mp hsorted
    obtain ⟨new, hitems, hcovers⟩ := createZonesLoop_spec rest _ _ _ _ _ hfirst hword'
      (fun r hr => ⟨hhead r hr, hrest r hr, hwords r hr⟩) hsorted h
    rw [hitems, coveredBy_cons]
    exact hcovers

end

/-- Such zones are ready for a run. -/
theorem Covers.fresh {covered : Set Nat} {zones : Zones} (h : Covers covered zones.items) :
    Fresh zones := by
  refine ⟨fun z hz => (h.whole z hz).zeroed, fun z hz => (h.whole z hz).aligned,
    fun z hz => (h.whole z hz).toAddress_eq, h.sorted.imp_of_mem fun {z w} hz hw hle => ?_⟩
  rw [Set.disjoint_left]
  intro x hx hx'
  have hlt := ((h.whole z hz).mem_addresses.mp hx).2
  have hge := ((h.whole w hw).mem_addresses.mp hx').1
  omega

end Zones

end Aarch64.Cxx
