import Aarch64.Cxx.Physical.Setup

/-!
# Seeding physical memory

`FreeUnusedMemory` tiles the whole pages of each free range with aligned blocks. Each of
its calls is an allowed operation of a run, so the zones that it leaves are reachable, and
what has been released to them are these pages and no others.
-/

namespace Aarch64.Cxx.Zones

open Dyadic (Block)

variable {zones : Zones} {z : Zone} {zone fuel a b : Nat} {s t : Set Nat} {bs cs : List Call}

@[simp] theorem shift_page (a : Nat) : (a * 2 ^ kPageBits) >>> kPageBits = a := by
  rw [Nat.shiftRight_eq_div_pow, Nat.mul_div_cancel _ (Nat.two_pow_pos _)]

@[simp] theorem addrBlock_page (a order : Nat) : Zone.addrBlock (a * 2 ^ kPageBits) order = ⟨a, order⟩ :=
  congrArg (Block.mk · order) (shift_page a)

@[simp] theorem block_page (zone a order : Nat) :
    Call.block ⟨zone, a * 2 ^ kPageBits, order⟩ = ⟨a, order⟩ := addrBlock_page a order

/-! ## Tilings -/

/-- The calls release the pages of `pages`, each of them once, in aligned blocks that lie
inside their zones. -/
structure Tiles (zones : Zones) (pages : Set Nat) (calls : List Call) : Prop where
  order_le : ∀ c ∈ calls, c.order ≤ kMaxOrder
  aligned : ∀ c ∈ calls, 2 ^ (kPageBits + c.order) ∣ c.addr
  inside : ∀ c ∈ calls, ∃ z, zones.items[c.zone]? = some z ∧ z.fromAddress ≤ c.addr ∧
    c.addr + 2 ^ (kPageBits + c.order) ≤ z.toAddress
  once : calls.Pairwise fun b c => Disjoint b.block.pages c.block.pages
  cover : ∀ p, p ∈ pages ↔ ∃ c ∈ calls, p ∈ c.block.pages

theorem Tiles.nil (zones : Zones) : Tiles zones ∅ [] :=
  ⟨nofun, nofun, nofun, .nil, fun p => iff_of_false (Set.notMem_empty p) nofun⟩

theorem Tiles.append (h : Tiles zones s bs) (h' : Tiles zones t cs) (hst : Disjoint s t) :
    Tiles zones (s ∪ t) (bs ++ cs) where
  order_le := List.forall_mem_append.mpr ⟨h.order_le, h'.order_le⟩
  aligned := List.forall_mem_append.mpr ⟨h.aligned, h'.aligned⟩
  inside := List.forall_mem_append.mpr ⟨h.inside, h'.inside⟩
  once := List.pairwise_append.mpr ⟨h.once, h'.once, fun b hb c hc =>
    hst.mono (fun p hp => (h.cover p).mpr ⟨b, hb, hp⟩) fun p hp => (h'.cover p).mpr ⟨c, hc, hp⟩⟩
  cover p := by
    rw [Set.mem_union, h.cover, h'.cover]
    simp only [List.mem_append, or_and_right, exists_or]

/-- One aligned block of a zone. -/
theorem Tiles.single {order : Nat} (hz : zones.items[zone]? = some z) (horder : order ≤ kMaxOrder)
    (haligned : Block.Aligned ⟨a, order⟩) (hfrom : z.fromAddress ≤ a * 2 ^ kPageBits)
    (hto : (a + 2 ^ order) * 2 ^ kPageBits ≤ z.toAddress) :
    Tiles zones (Block.pages ⟨a, order⟩) [⟨zone, a * 2 ^ kPageBits, order⟩] := by
  have hpow : 2 ^ (kPageBits + order) = 2 ^ order * 2 ^ kPageBits := by
    rw [Nat.add_comm, Nat.pow_add]
  refine ⟨List.forall_mem_singleton.mpr horder, List.forall_mem_singleton.mpr ?_,
    List.forall_mem_singleton.mpr ⟨z, hz, hfrom, ?_⟩, List.pairwise_singleton .., fun p => ?_⟩
  · rw [hpow]
    exact Nat.mul_dvd_mul_right haligned _
  · rw [hpow, ← Nat.add_mul]
    exact hto
  · simp only [List.mem_singleton, exists_eq_left, block_page]

/-! ## The next block -/

/-- The block at page `a` is aligned and ends before page `b`. -/
theorem freeOrder_spec (hlt : a < b) (hb : b * 2 ^ kPageBits < 2 ^ 64) {order : Nat}
    (horder : order = freeOrder (a * 2 ^ kPageBits) (b * 2 ^ kPageBits)) :
    order ≤ kMaxOrder ∧ Block.Aligned ⟨a, order⟩ ∧ a + 2 ^ order ≤ b := by
  have hpages : Word64.sub (b * 2 ^ kPageBits) (a * 2 ^ kPageBits) >>> kPageBits = b - a := by
    rw [Word64.sub_of_le (Nat.mul_le_mul_right _ hlt.le) hb, ← Nat.sub_mul, shift_page]
  change b * 4096 < _ at hb
  obtain ⟨k, hk, hle, _⟩ := mostSignificantBit_spec (x := b - a) (by omega) (by omega)
  have hsize : ((k : Int) % 2 ^ 64).toNat = k := by
    have := Nat.lt_two_pow_self (n := k)
    omega
  rw [freeOrder, shift_page, hpages, hk, hsize] at horder
  refine ⟨horder ▸ Nat.min_le_right _ _, ?_, ?_⟩
  · -- page 0 is aligned to everything
    rcases Nat.eq_zero_or_pos a with rfl | hpos
    · exact Nat.dvd_zero _
    · refine (Nat.pow_dvd_pow 2 ?_).trans (leastSignificantBit_spec hpos (by omega)).1
      rw [horder]
      exact (Nat.min_le_left _ _).trans (Nat.min_le_left _ _)
  · have hpow : 2 ^ order ≤ 2 ^ k := by
      rw [horder]
      exact Nat.pow_le_pow_right (by decide) ((Nat.min_le_left _ _).trans (Nat.min_le_right _ _))
    omega

/-! ## Runs of calls -/

/-- The calls lead from `c` to `d`, and release their blocks. -/
structure Seeded (c : Config) (calls : List Call) (d : Config) : Prop where
  run : Relation.ReflTransGen Step c d
  valid : d.Valid
  bounds_eq : d.zones.bounds = c.zones.bounds
  held_eq : d.held = c.held
  released_eq : ∀ i, d.released i =
    c.released i ∪ {p | ∃ call ∈ calls, call.zone = i ∧ p ∈ call.block.pages}

theorem Seeded.refl {c : Config} (h : c.Valid) : Seeded c [] c :=
  ⟨.refl, h, rfl, rfl, fun i => by simp⟩

theorem Seeded.append {c d e : Config} (h : Seeded c bs d) (h' : Seeded d cs e) :
    Seeded c (bs ++ cs) e where
  run := h.run.trans h'.run
  valid := h'.valid
  bounds_eq := h'.bounds_eq.trans h.bounds_eq
  held_eq := h'.held_eq.trans h.held_eq
  released_eq i := by
    rw [h'.released_eq, h.released_eq, Set.union_assoc]
    congr 1
    ext p
    simp only [Set.mem_union, Set.mem_ofPred_eq, List.mem_append, or_and_right, exists_or]

/-- One call of `FreePages` on a block of pages that have not been released. -/
theorem Seeded.single {c : Config} {order : Nat} (h : c.Valid)
    (hz : c.zones.items[zone]? = some z) (horder : order ≤ kMaxOrder)
    (haligned : Block.Aligned ⟨a, order⟩) (hwithin : Block.pages ⟨a, order⟩ ⊆ z.offsets)
    (hnew : Disjoint (Block.pages ⟨a, order⟩) (c.released zone)) :
    ∃ w d, z.freePagesOrder (a * 2 ^ kPageBits) order = some w ∧ d.zones = c.zones.set zone w ∧
      Seeded c [⟨zone, a * 2 ^ kPageBits, order⟩] d := by
  have hallowed : (Op.seed zone (a * 2 ^ kPageBits) order).Allowed c := by
    refine ⟨z, hz, horder, ?_, ?_, ?_⟩ <;> rwa [addrBlock_page]
  obtain ⟨d, hd, hvalid⟩ := Op.run_spec h _ hallowed
  have hstep : Relation.ReflTransGen Step c d := .single ⟨_, hallowed, hd⟩
  simp only [Op.run, hz, Option.bind_eq_bind, Option.bind_some, Option.bind_eq_some_iff] at hd
  obtain ⟨w, hw, hd⟩ := hd
  cases hd
  refine ⟨w, _, hw, rfl, hstep, hvalid, bounds_set hz (Zone.bounds_freePagesOrder hw), rfl,
    fun i => ?_⟩
  by_cases hi : i = zone
  · subst hi
    refine (Function.update_self ..).trans ?_
    rw [addrBlock_page]
    congr 1
    ext p
    simp
  · simp [Function.update_of_ne hi, Ne.symm hi]

/-- Pages that have not been released and that the calls leave alone are still to be released. -/
theorem Seeded.disjoint_released {c d : Config} (h : Seeded c bs d) (htiles : Tiles zones s bs)
    (hnew : Disjoint t (c.released zone)) (hapart : Disjoint s t) :
    Disjoint t (d.released zone) := by
  rw [h.released_eq, Set.disjoint_union_right]
  refine ⟨hnew, hapart.symm.mono_right ?_⟩
  rintro p ⟨call, hcall, _, hp⟩
  exact (htiles.cover p).mpr ⟨call, hcall, hp⟩

/-! ## One range -/

/-- The end of a block of pages as the code computes it. -/
theorem add_shl_page {order : Nat} (h : (a + 2 ^ order) * 2 ^ kPageBits < 2 ^ 64) :
    Word64.add (a * 2 ^ kPageBits) (Word64.shl 1 (kPageBits + order)) =
      (a + 2 ^ order) * 2 ^ kPageBits := by
  have hpow : 2 ^ (kPageBits + order) = 2 ^ order * 2 ^ kPageBits := by
    rw [Nat.add_comm, Nat.pow_add]
  rw [Nat.add_mul] at h ⊢
  rw [Word64.shl_of_lt, Nat.one_mul, hpow, Word64.add_of_lt h]
  rw [Nat.one_mul, hpow]
  exact (Nat.le_add_left _ _).trans_lt h

theorem exists_of_bounds_eq {u : Zones} (h : u.bounds = zones.bounds)
    (hz : zones.items[zone]? = some z) :
    ∃ w, u.items[zone]? = some w ∧ Zone.SameZone z w ∧ w.toAddress = z.toAddress := by
  have hmap : u.bounds[zone]? = some z.bounds := by
    rw [h, bounds, List.getElem?_map, hz]
    rfl
  rw [bounds, List.getElem?_map] at hmap
  obtain ⟨w, hw, heq⟩ := Option.map_eq_some_iff.mp hmap
  simp only [Zone.bounds, Prod.mk.injEq] at heq
  exact ⟨w, hw, ⟨heq.1, heq.2.2⟩, heq.2.1⟩

theorem Whole.subset_offsets (h : Whole z) (hfrom : z.fromAddress ≤ a * 2 ^ kPageBits)
    (hto : b * 2 ^ kPageBits ≤ z.toAddress) : Set.Ico a b ⊆ z.offsets := by
  have hoffset := h.aligned.from_eq
  have hend := h.toAddress_eq
  change z.fromAddress = z.offset * 4096 at hoffset
  change z.toAddress = z.fromAddress + z.pages * 4096 at hend
  change z.fromAddress ≤ a * 4096 at hfrom
  change b * 4096 ≤ z.toAddress at hto
  rintro p ⟨hge, hlt⟩
  exact ⟨by omega, by omega⟩

theorem Whole.toAddress_lt (h : Whole z) : z.toAddress < 2 ^ 64 := by
  rw [h.toAddress_eq]
  exact h.aligned.fits

/-- The loop frees the pages that are left, whatever blocks it cuts them into. The
induction is on their number. -/
theorem freeMemoryLoop_spec (hz : zones.items[zone]? = some z) (hwhole : Whole z)
    (hto : b * 2 ^ kPageBits ≤ z.toAddress) : ∀ fuel (c : Config) a,
    c.Valid → c.zones.bounds = zones.bounds → a ≤ b → b - a ≤ fuel →
    z.fromAddress ≤ a * 2 ^ kPageBits → Disjoint (Set.Ico a b) (c.released zone) →
    ∃ calls d, freeMemoryLoop fuel c.zones zone (a * 2 ^ kPageBits) (b * 2 ^ kPageBits) =
      some (d.zones, calls) ∧ Seeded c calls d ∧ Tiles zones (Set.Ico a b) calls := by
  have hdone : ∀ fuel (c : Config), c.Valid → ∃ calls d,
      freeMemoryLoop fuel c.zones zone (b * 2 ^ kPageBits) (b * 2 ^ kPageBits) =
        some (d.zones, calls) ∧ Seeded c calls d ∧ Tiles zones (Set.Ico b b) calls := by
    intro fuel c hc
    refine ⟨[], c, ?_, .refl hc, ?_⟩
    · rw [freeMemoryLoop.eq_def, if_pos rfl]
    · rw [Set.Ico_self]
      exact .nil zones
  intro fuel
  induction fuel with
  | zero =>
      intro c a hc _ hle hfuel _ _
      obtain rfl : a = b := by omega
      exact hdone 0 c hc
  | succ fuel ih =>
      intro c a hc hbounds hle hfuel hfrom hnew
      rcases Nat.eq_or_lt_of_le hle with rfl | hlt
      · exact hdone (fuel + 1) c hc
      · have hword := hto.trans_lt hwhole.toAddress_lt
        obtain ⟨order, horder⟩ : ∃ order, order =
            freeOrder (a * 2 ^ kPageBits) (b * 2 ^ kPageBits) := ⟨_, rfl⟩
        obtain ⟨hmax, haligned, hend⟩ := freeOrder_spec hlt hword horder
        have hsplit : Set.Ico a b = Block.pages ⟨a, order⟩ ∪ Set.Ico (a + 2 ^ order) b :=
          (Set.Ico_union_Ico_eq_Ico (Nat.le_add_right _ _) hend).symm
        have hapart : Disjoint (Block.pages ⟨a, order⟩) (Set.Ico (a + 2 ^ order) b) :=
          Set.disjoint_left.mpr fun p hp hp' => Nat.not_lt_of_le hp'.1 hp.2
        rw [hsplit, Set.disjoint_union_left] at hnew
        obtain ⟨u, hu, hsame, _⟩ := exists_of_bounds_eq hbounds hz
        have hlast : (a + 2 ^ order) * 2 ^ kPageBits ≤ z.toAddress :=
          (Nat.mul_le_mul_right _ hend).trans hto
        obtain ⟨w, d, hw, hd, hseeded⟩ := Seeded.single hc hu hmax haligned
          (by rw [hsame.offsets_eq]; exact hwhole.subset_offsets hfrom hlast) hnew.1
        have hstep := add_shl_page (hlast.trans_lt hwhole.toAddress_lt)
        have hblock := Tiles.single hz hmax haligned hfrom hlast
        have hpos := Nat.two_pow_pos order
        obtain ⟨calls, e, hloop, hseeded', htiles⟩ := ih d (a + 2 ^ order) hseeded.valid
          (hseeded.bounds_eq.trans hbounds) hend (by omega)
          (hfrom.trans (Nat.mul_le_mul_right _ (Nat.le_add_right _ _)))
          (hseeded.disjoint_released hblock hnew.2 hapart)
        refine ⟨_, e, ?_, hseeded.append hseeded', ?_⟩
        · have hne : a * 2 ^ kPageBits ≠ b * 2 ^ kPageBits :=
            (Nat.mul_lt_mul_of_pos_right hlt (Nat.two_pow_pos _)).ne
          rw [freeMemoryLoop, if_neg hne]
          simp only [← horder, hu, hw, Option.bind_eq_bind, Option.bind_some, hstep, ← hd, hloop]
          rfl
        · rw [hsplit]
          exact hblock.append htiles hapart

/-- `FreeMemory` of whole pages that lie in the zone. It needs at most `2 ^ 52` rounds. -/
theorem freeMemory_spec {c : Config} (hz : zones.items[zone]? = some z) (hwhole : Whole z)
    (hc : c.Valid) (hbounds : c.zones.bounds = zones.bounds) (hlt : a < b)
    (hfrom : z.fromAddress ≤ a * 2 ^ kPageBits) (hto : b * 2 ^ kPageBits ≤ z.toAddress)
    (hnew : Disjoint (Set.Ico a b) (c.released zone)) (hfuel : 2 ^ 52 ≤ fuel) :
    ∃ calls d, c.zones.freeMemory fuel zone (a * 2 ^ kPageBits) (b * 2 ^ kPageBits) =
      some (true, d.zones, calls) ∧ Seeded c calls d ∧ Tiles zones (Set.Ico a b) calls := by
  have hword := hwhole.toAddress_lt
  have hpages : b ≤ 2 ^ 52 := by
    change b * 4096 ≤ _ at hto
    omega
  obtain ⟨calls, d, hloop, hseeded, htiles⟩ := freeMemoryLoop_spec hz hwhole hto fuel c a hc
    hbounds hlt.le (by omega) hfrom hnew
  refine ⟨calls, d, ?_, hseeded, htiles⟩
  obtain ⟨u, hu, hsame, hend⟩ := exists_of_bounds_eq hbounds hz
  have hstart : u.fromAddress = z.fromAddress := hsame.from
  have hmul : a * 2 ^ kPageBits < b * 2 ^ kPageBits :=
    Nat.mul_lt_mul_of_pos_right hlt (Nat.two_pow_pos _)
  have hroom : a * 2 ^ kPageBits + 2 ^ kPageBits ≤ 2 ^ 64 := by
    rw [← Nat.succ_mul]
    exact (Nat.mul_le_mul_right _ hlt).trans (hto.trans hword.le)
  have hup : alignUp (a * 2 ^ kPageBits) kPageSize = a * 2 ^ kPageBits := by
    rw [alignUp_page hroom]
    change (a * 4096 + 4095) / 4096 * 4096 = a * 4096
    omega
  have hdown : alignDown (b * 2 ^ kPageBits) kPageSize = b * 2 ^ kPageBits := by
    rw [alignDown_page (hto.trans_lt hword)]
    exact congrArg (· * 4096) (Nat.mul_div_cancel b (by decide : 0 < 4096))
  simp only [freeMemory, hu, Option.bind_eq_bind, Option.bind_some, hup, hdown, hloop]
  rw [if_neg (by omega), if_neg (by omega), if_neg (by omega), if_neg (by omega)]
  rfl

/-! ## The walk -/

def wholePages (r : MemoryRange) : Set Nat :=
  {p | r.start ≤ p * 2 ^ kPageBits ∧ (p + 1) * 2 ^ kPageBits ≤ r.stop}

/-- The whole pages of the free ranges. -/
def unusedPages (ranges : List MemoryRange) : Set Nat :=
  {p | ∃ r ∈ ranges, r.status = .free ∧ p ∈ wholePages r}

theorem wholePages_eq (r : MemoryRange) :
    wholePages r = Set.Ico ((r.start + 4095) / 4096) (r.stop / 4096) := by
  ext p
  change r.start ≤ p * 4096 ∧ (p + 1) * 4096 ≤ r.stop ↔ _ ≤ p ∧ p < _
  omega

theorem disjoint_wholePages {r s : MemoryRange} (h : r.stop ≤ s.start) :
    Disjoint (wholePages r) (wholePages s) := by
  rw [Set.disjoint_left]
  rintro p ⟨_, hp⟩ ⟨hp', _⟩
  change (p + 1) * 4096 ≤ _ at hp
  change _ ≤ p * 4096 at hp'
  omega

@[simp] theorem unusedPages_nil : unusedPages [] = ∅ := by
  ext p
  simp [unusedPages]

theorem unusedPages_cons_of_free {r : MemoryRange} (h : r.status = .free)
    (ranges : List MemoryRange) :
    unusedPages (r :: ranges) = wholePages r ∪ unusedPages ranges := by
  ext p
  simp [unusedPages, h]

theorem unusedPages_cons_of_ne {r : MemoryRange} (h : r.status ≠ .free)
    (ranges : List MemoryRange) : unusedPages (r :: ranges) = unusedPages ranges := by
  ext p
  simp [unusedPages, h]

theorem skipZones_eq {begin j : Nat} (hz : zones.items[j]? = some z) (hbegin : begin < z.toAddress)
    (hbefore : ∀ i < j, ∀ w, zones.items[i]? = some w → w.toAddress ≤ begin) (hle : zone ≤ j) :
    zones.skipZones begin zone = j := by
  obtain ⟨hj, rfl⟩ := List.getElem?_eq_some_iff.mp hz
  induction zone using skipZones.induct zones begin with
  | case1 zone hlt hend ih =>
      rw [skipZones, dif_pos hlt, if_pos hend]
      refine ih (Nat.lt_of_le_of_ne hle fun heq => ?_)
      subst heq
      exact Nat.not_lt_of_le hend hbegin
  | case2 zone hlt hend =>
      rw [skipZones, dif_pos hlt, if_neg hend]
      refine Nat.le_antisymm hle (Nat.not_lt.mp fun hzone => hend ?_)
      exact hbefore zone hzone _ (List.getElem?_eq_getElem hlt)
  | case3 zone hge => exact absurd (hle.trans_lt hj) hge

/-- In a list of zones one after the other, those before a zone end below it. -/
theorem Covers.toAddress_le {covered : Set Nat} {i j : Nat} {w : Zone}
    (h : Covers covered zones.items) (hw : zones.items[i]? = some w) (hz : zones.items[j]? = some z)
    (hij : i < j) : w.toAddress ≤ z.fromAddress := by
  obtain ⟨hi, rfl⟩ := List.getElem?_eq_some_iff.mp hw
  obtain ⟨hj, rfl⟩ := List.getElem?_eq_some_iff.mp hz
  exact List.pairwise_iff_getElem.mp h.sorted i j hi hj hij

/-- The zone around the whole pages from `a` to `b` of a range: the walk goes on to it. -/
theorem exists_skipZones {covered : Set Nat} {u : Zones} {r : MemoryRange}
    (hcovers : Covers covered zones.items) (hbounds : u.bounds = zones.bounds) (hab : a < b)
    (hstart : r.start ≤ a * 2 ^ kPageBits) (hstop : b * 2 ^ kPageBits ≤ r.stop)
    (hsub : Set.Ico r.start r.stop ⊆ covered)
    (hpassed : ∀ i < zone, ∀ w, zones.items[i]? = some w → w.toAddress ≤ r.start) :
    ∃ j z, zones.items[j]? = some z ∧ z.fromAddress ≤ a * 2 ^ kPageBits ∧
      b * 2 ^ kPageBits ≤ z.toAddress ∧ j < u.size ∧
      u.skipZones (a * 2 ^ kPageBits) zone = j := by
  obtain ⟨z, hz, hfrom, hto⟩ := hcovers.exists_zone a b hab fun x hx =>
    hsub ⟨hstart.trans hx.1, hx.2.trans_le hstop⟩
  obtain ⟨j, hj⟩ := List.mem_iff_getElem?.mp hz
  have hbegin : a * 2 ^ kPageBits < z.toAddress :=
    (Nat.mul_lt_mul_of_pos_right hab (Nat.two_pow_pos _)).trans_le hto
  -- the zone is not one of those that the walk has left behind
  have hle : zone ≤ j := Nat.not_lt.mp fun hlt =>
    Nat.not_lt_of_le ((hpassed j hlt z hj).trans hstart) hbegin
  obtain ⟨w, hw, _, hend⟩ := exists_of_bounds_eq hbounds hj
  refine ⟨j, z, hj, hfrom, hto, (List.getElem?_eq_some_iff.mp hw).1, ?_⟩
  refine skipZones_eq hw (by rwa [hend]) (fun i hi v hv => ?_) hle
  obtain ⟨v', hv', _, hend'⟩ := exists_of_bounds_eq hbounds.symm hv
  exact hend' ▸ (hcovers.toAddress_le hv' hj hi).trans hfrom

/-- The walk over the ranges. The zones before the current one end below every range that is
left, and no page of these ranges has been released. -/
theorem freeUnusedLoop_spec {covered : Set Nat} (hcovers : Covers covered zones.items)
    (hfuel : 2 ^ 52 ≤ fuel) : ∀ (ranges : List MemoryRange) (c : Config) (zone : Nat),
    c.Valid → c.zones.bounds = zones.bounds →
    (∀ r ∈ ranges, r.start < r.stop ∧ r.stop + 4096 ≤ 2 ^ 64 ∧ Set.Ico r.start r.stop ⊆ covered) →
    ranges.Pairwise (fun r s => r.stop ≤ s.start) →
    (∀ i < zone, ∀ w, zones.items[i]? = some w → ∀ r ∈ ranges, w.toAddress ≤ r.start) →
    (∀ i, Disjoint (unusedPages ranges) (c.released i)) →
    ∃ calls d, freeUnusedLoop fuel c.zones zone ranges = some (true, d.zones, calls) ∧
      Seeded c calls d ∧ Tiles zones (unusedPages ranges) calls := by
  intro ranges
  induction ranges with
  | nil =>
      intro c zone hc _ _ _ _ _
      rw [unusedPages_nil]
      exact ⟨[], c, rfl, .refl hc, .nil zones⟩
  | cons r ranges ih =>
      intro c zone hc hbounds hranges hsorted hpassed hnew
      obtain ⟨⟨hlt, hstop, hsub⟩, hrest⟩ := List.forall_mem_cons.mp hranges
      obtain ⟨hfirst, hsorted⟩ := List.pairwise_cons.mp hsorted
      have hskipped := ih c zone hc hbounds hrest hsorted fun i hi w hw s hs =>
        hpassed i hi w hw s (List.mem_cons_of_mem r hs)
      rw [freeUnusedLoop]
      by_cases hstatus : r.status = .free
      · rw [unusedPages_cons_of_free hstatus, wholePages_eq] at hnew ⊢
        rw [if_neg (not_not_intro hstatus), alignUp_page (by omega), alignDown_page (by omega)]
        obtain ⟨a, ha⟩ : ∃ a, a = (r.start + 4095) / 4096 := ⟨_, rfl⟩
        obtain ⟨b, hb⟩ : ∃ b, b = r.stop / 4096 := ⟨_, rfl⟩
        rw [← ha, ← hb] at hnew ⊢
        rcases Nat.lt_or_ge a b with hab | hba
        · have hstart : r.start ≤ a * 2 ^ kPageBits := by
            change r.start ≤ a * 4096
            omega
          have hend : b * 2 ^ kPageBits ≤ r.stop := by
            change b * 4096 ≤ _
            omega
          have hmul := Nat.mul_lt_mul_of_pos_right hab (Nat.two_pow_pos kPageBits)
          obtain ⟨j, z, hj, hfrom, hto, hsize, hskip⟩ := exists_skipZones hcovers hbounds hab hstart
            hend hsub fun i hi w hw => hpassed i hi w hw r List.mem_cons_self
          obtain ⟨calls, d, hcall, hseeded, htiles⟩ := freeMemory_spec hj
            (hcovers.whole z (List.mem_of_getElem? hj)) hc hbounds hab hfrom hto
            (Set.disjoint_union_left.mp (hnew j)).1 hfuel
          have hapart : Disjoint (Set.Ico a b) (unusedPages ranges) := by
            rw [ha, hb, ← wholePages_eq, Set.disjoint_left]
            rintro p hp ⟨s, hs, _, hps⟩
            exact Set.disjoint_left.mp (disjoint_wholePages (hfirst s hs)) hp hps
          obtain ⟨calls', e, hloop, hseeded', htiles'⟩ := ih d j hseeded.valid
            (hseeded.bounds_eq.trans hbounds) hrest hsorted
            (fun i hi w hw s hs => by
              have := hcovers.toAddress_le hw hj hi
              have := hfirst s hs
              omega)
            (fun i => hseeded.disjoint_released htiles (Set.disjoint_union_left.mp (hnew i)).2 hapart)
          refine ⟨calls ++ calls', e, ?_, hseeded.append hseeded', htiles.append htiles' hapart⟩
          have hne : ¬ a * 4096 ≥ b * 4096 := Nat.not_le_of_lt hmul
          have hzone : c.zones.skipZones (a * 4096) zone = j := hskip
          have hrange : c.zones.freeMemory fuel j (a * 4096) (b * 4096) = _ := hcall
          simp only [if_neg hne, hzone, if_neg hsize.ne, hrange, Option.bind_eq_bind,
            Option.bind_some, hloop]
          rfl
        · rw [Set.Ico_eq_empty (Nat.not_lt_of_le hba), Set.empty_union] at hnew ⊢
          rw [if_pos (Nat.mul_le_mul_right _ hba)]
          exact hskipped hnew
      · rw [unusedPages_cons_of_ne hstatus] at hnew ⊢
        rw [if_pos hstatus]
        exact hskipped hnew

/-! ## All of memory -/

open MemoryMap (lookup)

theorem mem_coveredBy_iff {m : MemoryMap} {x : Nat} :
    x ∈ coveredBy m.ranges.items ↔ lookup m x ≠ none := by
  rw [Ne, lookup, Segments.labelAt_eq_none_iff]
  simp [coveredBy, MemoryMap.segments]

variable {copy m : MemoryMap} {σ : Type} {allocateIn : σ → Nat → Nat → Nat → Nat → Bool × σ}
variable {mmap mmap' : σ}

/-- The walk over a map, on zones that were made from a map of the same addresses. -/
theorem freeUnusedMemory_spec (hcopy : Segments.Proper copy.segments)
    (hm : Segments.Proper m.segments) (hword : ∀ r ∈ m.ranges.items, r.stop ≤ 2 ^ 64 - 4096)
    (hsame : ∀ x, lookup copy x = none ↔ lookup m x = none)
    (hzones : createZones allocateIn mmap copy = (true, mmap', zones)) (hfuel : 2 ^ 52 ≤ fuel) :
    Fresh zones ∧ ∃ calls d, freeUnusedMemory fuel zones m = some (true, d.zones, calls) ∧
      Seeded ⟨zones, [], fun _ => ∅⟩ calls d ∧ Tiles zones (unusedPages m.ranges.items) calls := by
  have hcovered : coveredBy copy.ranges.items = coveredBy m.ranges.items := by
    ext x
    rw [mem_coveredBy_iff, mem_coveredBy_iff, Ne, hsame x]
  have hcopyword : ∀ r ∈ copy.ranges.items, r.stop + 4096 ≤ 2 ^ 64 := by
    intro r hr
    have hlt : r.start < r.stop := hcopy.lt _ (List.mem_map_of_mem hr)
    have hlast : r.stop - 1 ∈ coveredBy copy.ranges.items := ⟨r, hr, by omega, by omega⟩
    rw [hcovered] at hlast
    obtain ⟨s, hs, _, hlt'⟩ := hlast
    have := hword s hs
    omega
  have hcovers := createZones_spec hcopy hcopyword hzones
  rw [hcovered] at hcovers
  refine ⟨hcovers.fresh, ?_⟩
  refine freeUnusedLoop_spec hcovers hfuel m.ranges.items ⟨zones, [], fun _ => ∅⟩ 0
    hcovers.fresh.valid rfl (fun r hr => ⟨hm.lt _ (List.mem_map_of_mem hr), ?_, fun x hx => ?_⟩)
    (List.pairwise_map.mp hm.pairwise) (fun i hi => absurd hi (Nat.not_lt_zero i))
    fun i => Set.disjoint_empty _
  · have := hword r hr
    omega
  · exact ⟨r, hr, hx⟩

/-- `FreeUnusedMemory` returns `true`, and its calls tile the whole pages of the free ranges: each
of these pages is released exactly once, in an aligned block that lies in a zone, and no other page
is. The map may have changed since the zones were made of `copy`, but not in the addresses that are
registered. -/
theorem freeUnusedMemory_tiles (hcopy : Segments.Proper copy.segments)
    (hm : Segments.Proper m.segments) (hword : ∀ r ∈ m.ranges.items, r.stop ≤ 2 ^ 64 - 4096)
    (hsame : ∀ x, lookup copy x = none ↔ lookup m x = none)
    (hzones : createZones allocateIn mmap copy = (true, mmap', zones)) (hfuel : 2 ^ 52 ≤ fuel) :
    ∃ t calls, freeUnusedMemory fuel zones m = some (true, t, calls) ∧
      Tiles zones (unusedPages m.ranges.items) calls := by
  obtain ⟨_, calls, d, hcall, _, htiles⟩ :=
    freeUnusedMemory_spec hcopy hm hword hsame hzones hfuel
  exact ⟨d.zones, calls, hcall, htiles⟩

/-- Eight pages from address 0 on, after their records have been allocated. -/
def firstPages : MemoryMap :=
  ⟨⟨[⟨0, 0x100, .reserved⟩, ⟨0x100, 0x8000, .free⟩], by decide⟩⟩

theorem freeUnusedMemory_tiles_firstPages : ∃ zones t calls,
    createZones (fun _ _ _ _ _ => (true, firstPages)) (MemoryMap.single 0 0x8000)
      (MemoryMap.single 0 0x8000) = (true, firstPages, zones) ∧
    freeUnusedMemory (2 ^ 52) zones firstPages = some (true, t, calls) ∧
    Tiles zones (unusedPages firstPages.ranges.items) calls := by
  set zones := (createZones (fun _ _ _ _ _ => (true, firstPages)) (MemoryMap.single 0 0x8000)
    (MemoryMap.single 0 0x8000)).2.2
  have hzones : createZones (fun _ _ _ _ _ => (true, firstPages)) (MemoryMap.single 0 0x8000)
      (MemoryMap.single 0 0x8000) = (true, firstPages, zones) :=
    Prod.ext (by decide +kernel) (Prod.ext (by decide +kernel) rfl)
  have hproper : Segments.Proper firstPages.segments := by
    refine ⟨fun s hs => ?_, List.pairwise_pair.mpr (by decide)⟩
    rcases List.mem_pair.mp hs with rfl | rfl <;> decide
  have hsame : ∀ x, lookup (MemoryMap.single 0 0x8000) x = none ↔ lookup firstPages x = none := by
    intro x
    simp [lookup, MemoryMap.segments, MemoryMap.single, firstPages, Segments.labelAt_eq_none_iff]
    omega
  have hword : ∀ r ∈ firstPages.ranges.items, r.stop ≤ 2 ^ 64 - 4096 := by
    intro r hr
    rcases List.mem_pair.mp hr with rfl | rfl <;> decide
  obtain ⟨t, calls, hcall, htiles⟩ := freeUnusedMemory_tiles
    (MemoryMap.single_proper (by decide)) hproper hword hsame hzones (Nat.le_refl _)
  exact ⟨zones, t, calls, hzones, hcall, htiles⟩

/-- What `FreeUnusedMemory` leaves is a reachable state: nothing is held, and what has been
released are the whole pages of the free ranges. -/
theorem freeUnusedMemory_reachable (hcopy : Segments.Proper copy.segments)
    (hm : Segments.Proper m.segments) (hword : ∀ r ∈ m.ranges.items, r.stop ≤ 2 ^ 64 - 4096)
    (hsame : ∀ x, lookup copy x = none ↔ lookup m x = none)
    (hzones : createZones allocateIn mmap copy = (true, mmap', zones)) (hfuel : 2 ^ 52 ≤ fuel) :
    Fresh zones ∧ ∃ calls d, freeUnusedMemory fuel zones m = some (true, d.zones, calls) ∧
      Reachable zones d ∧ d.held = [] ∧
      ∀ p, (∃ i, p ∈ d.released i) ↔ p ∈ unusedPages m.ranges.items := by
  obtain ⟨hfresh, calls, d, hcall, hseeded, htiles⟩ :=
    freeUnusedMemory_spec hcopy hm hword hsame hzones hfuel
  refine ⟨hfresh, calls, d, hcall, hseeded.run, hseeded.held_eq, fun p => ?_⟩
  rw [htiles.cover]
  constructor
  · rintro ⟨i, hp⟩
    rw [hseeded.released_eq, Set.empty_union] at hp
    obtain ⟨call, hmem, _, hp⟩ := hp
    exact ⟨call, hmem, hp⟩
  · rintro ⟨call, hmem, hp⟩
    refine ⟨call.zone, ?_⟩
    rw [hseeded.released_eq]
    exact .inr ⟨call, hmem, rfl, hp⟩

end Aarch64.Cxx.Zones
