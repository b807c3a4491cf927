import Aarch64.Rust.MemoryMap.Allocate

/-!
# The zones of the Rust memory map

A `MemoryMap` keeps two lists. The zones list is the memory list without statuses,
but each call updates the two on their own, so a call can be refused by one of them
and carried out by the other. While every registration succeeds the lists agree,
as long as the search of an allocation does not wrap around the address space.
-/

namespace Aarch64.Rust

open Segments (Canonical)

variable {seq seq' : List MemoryRange}

/-- Some address of the range is registered in a way that rules `mem` out. -/
def Refused (seq : List MemoryRange) (mem : MemoryRange) : Prop :=
  ∃ x memtype status, mem.range.contains x = true ∧ lookup seq x = some (memtype, status) ∧
    Conflicts mem memtype status

/-- Every address of the range is registered as `mem` already. -/
def Covered (seq : List MemoryRange) (mem : MemoryRange) : Prop :=
  ∀ x, mem.range.contains x = true → lookup seq x = some (mem.memtype, mem.status)

/-- A call on a canonical list: it is refused and changes nothing, or it succeeds and
changes something unless the range is covered. -/
theorem addMemory_cases (hseq : Canonical (segments seq)) (mem : MemoryRange) :
    (Refused seq mem ∧ ∃ e, addMemory seq mem = some (.error e, seq)) ∨
      (¬ Refused seq mem ∧ ∃ seq', addMemory seq mem = some (.ok (), seq') ∧
        (seq' = seq ↔ Covered seq mem)) := by
  by_cases hempty : mem.range.isEmpty = true
  · have hout : ∀ x, mem.range.contains x ≠ true := by
      intro x hx
      rw [Range.isEmpty_iff] at hempty
      rw [Range.contains_iff] at hx
      omega
    refine Or.inr ⟨?_, seq, addMemory_of_isEmpty hempty, iff_of_true rfl ?_⟩
    · rintro ⟨x, _, _, hx, _⟩
      exact hout x hx
    · exact fun x hx => absurd hx (hout x)
  · obtain ⟨result, seq', hcall, hover, hcanon⟩ :=
      addMemory_spec mem hseq (by simpa using hempty)
    cases result with
    | error e =>
        obtain rfl := hover.unchanged ⟨e, rfl⟩
        exact Or.inl ⟨hover.error_iff.mp ⟨e, rfl⟩, e, hcall⟩
    | ok u =>
        have hgood : ¬ Refused seq mem := fun h => by
          obtain ⟨e, he⟩ := hover.error_iff.mpr h
          cases he
        refine Or.inr ⟨hgood, seq', hcall, ?_, ?_⟩
        · rintro rfl x hx
          rw [hover.lookup_eq rfl x, if_pos hx]
        · intro hcovered
          refine segments_injective (hcanon.eq_of_labelAt_eq hseq fun x => ?_)
          change lookup seq' x = lookup seq x
          rw [hover.lookup_eq rfl x]
          split
          next hx => exact (hcovered x hx).symm
          next => rfl

namespace MemoryMap

variable {m m' : MemoryMap}

/-! ## Refused calls -/

/-- Either neither list refuses `mem`, or each of them refuses it or covers it. -/
def Atomic (m : MemoryMap) (mem : MemoryRange) : Prop :=
  (¬ Refused m.memory mem ∧ ¬ Refused m.zones { mem with status := .unknown }) ∨
    ((Refused m.memory mem ∨ Covered m.memory mem) ∧
      (Refused m.zones { mem with status := .unknown } ∨
        Covered m.zones { mem with status := .unknown }))

theorem addMemoryWith_atomic_iff (hmemory : Canonical (segments m.memory))
    (hzones : Canonical (segments m.zones)) (range : Range) (memtype : MemoryType)
    (status : MemoryStatus) :
    (∀ e m', m.addMemoryWith range memtype status = some (.error e, m') → m' = m) ↔
      m.Atomic ⟨range, memtype, status⟩ := by
  rcases addMemory_cases hmemory ⟨range, memtype, status⟩ with
    ⟨hrefused, e, hfirst⟩ | ⟨hgood, memory, hfirst, hcovered⟩ <;>
    rcases addMemory_cases hzones ⟨range, memtype, .unknown⟩ with
      ⟨hrefused', e', hsecond⟩ | ⟨hgood', zones, hsecond, hcovered'⟩ <;>
    simp only [addMemoryWith, hfirst, hsecond, Option.bind_eq_bind, Option.bind_some]
  · -- both refuse
    refine iff_of_true ?_ (Or.inr ⟨Or.inl hrefused, Or.inl hrefused'⟩)
    intro _ _ h
    cases h
    rfl
  · -- the memory refuses and the zones grow
    constructor
    · intro h
      have hzone : zones = m.zones := congrArg MemoryMap.zones (h e _ rfl)
      exact Or.inr ⟨Or.inl hrefused, Or.inr (hcovered'.mp hzone)⟩
    · rintro (⟨hnot, _⟩ | ⟨_, hnot | hzone⟩)
      · exact absurd hrefused hnot
      · exact absurd hnot hgood'
      · intro _ _ h
        obtain rfl := hcovered'.mpr hzone
        cases h
        rfl
  · -- the memory grows and the zones refuse
    constructor
    · intro h
      have hmem : memory = m.memory := congrArg MemoryMap.memory (h e' _ rfl)
      exact Or.inr ⟨Or.inr (hcovered.mp hmem), Or.inl hrefused'⟩
    · rintro (⟨_, hnot⟩ | ⟨hnot | hmem, _⟩)
      · exact absurd hrefused' hnot
      · exact absurd hnot hgood
      · intro _ _ h
        obtain rfl := hcovered.mpr hmem
        cases h
        rfl
  · -- neither refuses
    refine iff_of_true ?_ (Or.inl ⟨hgood, hgood'⟩)
    intro _ _ h
    cases h

/-- When a refused registration leaves a reachable map as it was. The memory list and the list of
zones are changed each on its own, so one of them can be changed although the other one refuses;
`Atomic` says of a range when this does not happen. -/
theorem reachable_atomic_iff (h : Reachable m) (range : Range) (memtype : MemoryType) :
    ((∀ e m', m.addMemory range memtype = some (.error e, m') → m' = m) ↔
        m.Atomic ⟨range, memtype, .free⟩) ∧
      ((∀ e m', m.reserveMemory range memtype = some (.error e, m') → m' = m) ↔
        m.Atomic ⟨range, memtype, .reserved⟩) :=
  ⟨addMemoryWith_atomic_iff h.canonical.1 h.canonical.2 range memtype .free,
    addMemoryWith_atomic_iff h.canonical.1 h.canonical.2 range memtype .reserved⟩

/-- The first sixteen addresses reserved, all others unregistered. -/
private def corner : MemoryMap :=
  ⟨[⟨⟨0, 16⟩, .regular, .reserved⟩], [⟨⟨0, 16⟩, .regular, .unknown⟩]⟩

private theorem corner_reachable : Reachable corner :=
  Relation.ReflTransGen.single ⟨.reserveMemory ⟨0, 16⟩ .regular, by decide +kernel⟩

theorem reachable_atomic_iff_corner : ∃ m : MemoryMap, m.memory.length = 1 ∧
    ((∀ e m', m.addMemory ⟨0, 32⟩ .regular = some (.error e, m') → m' = m) ↔
      m.Atomic ⟨⟨0, 32⟩, .regular, .free⟩) :=
  ⟨corner, rfl, (reachable_atomic_iff corner_reachable ⟨0, 32⟩ .regular).1⟩

/-- Reserved memory is refused, but by then the zones have grown. -/
theorem reachable_atomic_fails :
    ¬ ∀ m : MemoryMap, Reachable m → ∀ range memtype e m',
      (m.addMemory range memtype = some (.error e, m') ∨
        m.reserveMemory range memtype = some (.error e, m')) → m' = m := by
  intro hclaim
  have hcall : corner.addMemory ⟨0, 32⟩ .regular = some (.error "Reserved memory cannot be freed.",
      ⟨[⟨⟨0, 16⟩, .regular, .reserved⟩], [⟨⟨0, 32⟩, .regular, .unknown⟩]⟩) := by
    decide +kernel
  have heq := hclaim corner corner_reachable _ _ _ _ (Or.inl hcall)
  exact absurd heq (by decide)

/-! ## Runs in which every registration succeeds -/

/-- The candidates that the search accepts: a regular one whose aligned start and the
block behind it come before its end, as the word arithmetic computes them. -/
def hasRoom (size align : Nat) (c : MemoryRange) : Bool :=
  decide (c.memtype = .regular) && match Numeric.alignUp c.range.start align with
    | some start => decide (Word64.add start size ≤ c.range.stop)
    | none => false

/-- The aligned start of the candidate that is taken does not wrap around to lie before
the candidate. -/
def AlignsInside (m : MemoryMap) (limit : Range) (size align : Nat) : Prop :=
  ∀ c, (m.freeMemoryInRange limit).find? (hasRoom size align) = some c →
    ∀ start, Numeric.alignUp c.range.start align = some start → c.range.start ≤ start

/-- The calls of the run: registrations return `Ok`, and no search takes a block that
wrapped around. -/
def Op.Accepted : Op → MemoryMap → Prop
  | .addMemory range memtype, m => ∃ m', m.addMemory range memtype = some (.ok (), m')
  | .reserveMemory range memtype, m => ∃ m', m.reserveMemory range memtype = some (.ok (), m')
  | .allocate _ _, _ | .allocateWithHint _ _ _, _ => True

def Op.AlignsInside : Op → MemoryMap → Prop
  | .addMemory _ _, _ | .reserveMemory _ _, _ => True
  | .allocate size align, m => m.AlignsInside ⟨0, 2 ^ 64 - 1⟩ size align
  | .allocateWithHint hint size align, m => m.AlignsInside hint size align ∧
      (m.findFreeMemoryInRange hint size align = some none →
        m.AlignsInside ⟨0, 2 ^ 64 - 1⟩ size align)

def Reaches (P : Op → MemoryMap → Prop) : MemoryMap → Prop :=
  Relation.ReflTransGen (fun m m' => ∃ op : Op, P op m ∧ op.run m = some m') new

def eraseStatus (r : MemoryRange) : MemoryRange := { r with status := .unknown }

/-- What the two lists have to do with each other. -/
structure Agrees (m : MemoryMap) : Prop where
  zones_eq : compact (m.memory.map eraseStatus) = some m.zones
  lookup_eq : ∀ x, lookup m.zones x = (lookup m.memory x).map fun l => (l.1, .unknown)
  one_zone : ∀ r ∈ m.memory, ∃! z, z ∈ m.zones ∧ z.range.start ≤ r.range.start ∧
    r.range.stop ≤ z.range.stop

@[simp] theorem segments_eraseStatus (seq : List MemoryRange) :
    segments (seq.map eraseStatus) = Segments.relabel (fun l => (l.1, .unknown)) (segments seq) := by
  rw [segments, List.map_map, Segments.relabel, segments, List.map_map]
  rfl

/-- Canonical lists that agree pointwise agree as lists. -/
theorem ZonesAgree.agrees (h : m.ZonesAgree) (hmemory : Canonical (segments m.memory))
    (hzones : Canonical (segments m.zones)) : m.Agrees := by
  have herased := hmemory.toProper.relabel fun l => (l.1, MemoryStatus.unknown)
  refine ⟨?_, h, fun r hr => ?_⟩
  · obtain ⟨out, hout, hsegments⟩ := compact_spec (m.memory.map eraseStatus)
    rw [segments_eraseStatus] at hsegments
    have hcanon : Canonical (segments out) := by
      rw [hsegments]
      exact Segments.canonical_merge herased.ordered herased.lt
    rw [hout]
    refine congrArg some (segments_injective (hcanon.eq_of_labelAt_eq hzones fun x => ?_))
    rw [hsegments, Segments.labelAt_merge herased.ordered, Segments.labelAt_relabel]
    exact (h x).symm
  · have hlt : r.range.start < r.range.stop := hmemory.lt _ (List.mem_map_of_mem hr)
    have hlabel : ∀ x, r.range.start ≤ x → x < r.range.stop →
        lookup m.zones x = some (r.memtype, .unknown) := by
      intro x hlo hhi
      rw [h x, lookup_of_mem hmemory hr hlo hhi]
      rfl
    obtain ⟨s, hs, hlo, hhi, _⟩ := hzones.exists_segment hlt hlabel
    obtain ⟨z, hz, rfl⟩ := List.mem_map.mp hs
    refine ⟨z, ⟨hz, hlo, hhi⟩, ?_⟩
    rintro y ⟨hy, hylo, hyhi⟩
    exact MemoryRange.segment_injective (hzones.ordered.eq_of_mem (List.mem_map_of_mem hy)
      (List.mem_map_of_mem hz) hylo (hlt.trans_le hyhi) hlo (hlt.trans_le hhi))

/-- What the search returns comes from the first candidate with room. -/
theorem findFreeMemoryLoop_find {size align : Nat} {mem : MemoryRange} :
    ∀ candidates, findFreeMemoryLoop size align candidates = some (some mem) →
      ∃ c start, candidates.find? (hasRoom size align) = some c ∧
        Numeric.alignUp c.range.start align = some start ∧
        Word64.add start size ≤ c.range.stop ∧
        mem = ⟨⟨start, Word64.add start size⟩, c.memtype, c.status⟩ := by
  intro candidates
  induction candidates with
  | nil =>
      intro h
      cases h
  | cons c rest ih =>
      intro h
      have later : hasRoom size align c = false →
          findFreeMemoryLoop size align rest = some (some mem) →
          ∃ c' start, (c :: rest).find? (hasRoom size align) = some c' ∧
            Numeric.alignUp c'.range.start align = some start ∧
            Word64.add start size ≤ c'.range.stop ∧
            mem = ⟨⟨start, Word64.add start size⟩, c'.memtype, c'.status⟩ := by
        intro hroom hrest
        obtain ⟨c', start, hfind, hc'⟩ := ih hrest
        exact ⟨c', start, by rw [List.find?_cons, hroom, hfind], hc'⟩
      rw [findFreeMemoryLoop] at h
      by_cases htype : c.memtype ≠ .regular
      · rw [if_pos htype] at h
        exact later (by simp [hasRoom, htype]) h
      · rw [if_neg htype] at h
        have htype := not_not.mp htype
        obtain ⟨start, hstart, h⟩ := Option.bind_eq_some_iff.mp h
        split at h
        next hover =>
          have hover := Nat.not_le_of_gt hover
          exact later (by simp [hasRoom, hstart, hover]) h
        next hover =>
          have hfits := Nat.le_of_not_lt hover
          refine ⟨c, start, ?_, hstart, hfits, ?_⟩
          · rw [List.find?_cons]
            simp [hasRoom, htype, hstart, hfits]
          · cases h
            rfl

/-- An allocation reserves registered addresses alone. -/
theorem allocateInRange_zonesAgree {limit : Range} {size align : Nat} {result : Option Nat}
    (hagree : m.ZonesAgree) (hmemory : Canonical (segments m.memory))
    (hinside : m.AlignsInside limit size align)
    (h : m.allocateInRange limit size align = some (result, m')) : m'.ZonesAgree := by
  rcases allocateInRange_cases h with ⟨_, _, rfl⟩ | ⟨mem, hfound, _, hzones, hcall⟩
  · exact hagree
  · obtain ⟨c, start, hfind, hstart, hfits, rfl⟩ := findFreeMemoryLoop_find _ hfound
    have hle := hinside c hfind start hstart
    obtain ⟨r, hr, _, rfl, _⟩ := mem_freeMemoryInRange.mp (List.mem_of_find?_eq_some hfind)
    simp only [overlap] at hle hfits
    intro x
    rw [hzones, lookup_of_addMemory hmemory hcall, hagree x]
    split
    next hx =>
      obtain ⟨hlo, hhi⟩ := Range.contains_iff.mp hx
      change start ≤ x at hlo
      change x < Word64.add start size at hhi
      rw [lookup_of_mem hmemory hr (by omega) (by omega)]
      rfl
    next => rfl

theorem Op.run_zonesAgree {op : Op} (hagree : m.ZonesAgree)
    (hmemory : Canonical (segments m.memory)) (hzones : Canonical (segments m.zones))
    (haccepted : op.Accepted m) (hinside : op.AlignsInside m) (h : op.run m = some m') :
    m'.ZonesAgree := by
  cases op with
  | addMemory range memtype =>
      obtain ⟨n, hcall⟩ := haccepted
      simp only [Op.run, hcall, Option.map_some, Option.some.injEq] at h
      exact addMemoryWith_zonesAgree hagree hmemory hzones (h ▸ hcall)
  | reserveMemory range memtype =>
      obtain ⟨n, hcall⟩ := haccepted
      simp only [Op.run, hcall, Option.map_some, Option.some.injEq] at h
      exact addMemoryWith_zonesAgree hagree hmemory hzones (h ▸ hcall)
  | allocate size align =>
      obtain ⟨⟨_, _⟩, hcall, rfl⟩ := Option.map_eq_some_iff.mp h
      exact allocateInRange_zonesAgree hagree hmemory hinside hcall
  | allocateWithHint hint size align =>
      obtain ⟨⟨_, _⟩, hcall, rfl⟩ := Option.map_eq_some_iff.mp h
      rcases allocateWithHint_cases hcall with hwithin | ⟨hnone, hanywhere⟩
      · exact allocateInRange_zonesAgree hagree hmemory hinside.1 hwithin
      · exact allocateInRange_zonesAgree hagree hmemory (hinside.2 hnone) hanywhere

theorem Reaches.reachable {P : Op → MemoryMap → Prop} (h : Reaches P m) : Reachable m := by
  induction h with
  | refl => exact .refl
  | tail _ hstep ih =>
      obtain ⟨op, _, hop⟩ := hstep
      exact ih.tail ⟨op, hop⟩

/-- In every run in which the registrations succeed and the searches do not wrap, the zones are the
memory without statuses: they label the same addresses with the same types, and every entry of the
memory lies in exactly one zone. -/
theorem reaches_agrees (h : Reaches (fun op m => op.Accepted m ∧ op.AlignsInside m) m) :
    m.Agrees := by
  have hagree : m.ZonesAgree := by
    induction h with
    | refl => exact fun _ => rfl
    | tail hrun hstep ih =>
        obtain ⟨op, ⟨haccepted, hinside⟩, hop⟩ := hstep
        have hcanon := (Reaches.reachable hrun).canonical
        exact op.run_zonesAgree ih hcanon.1 hcanon.2 haccepted hinside hop
  have hcanon := h.reachable.canonical
  exact hagree.agrees hcanon.1 hcanon.2

/-- One free range, before and after a block was allocated from it. -/
private def plain : MemoryMap := ⟨[⟨⟨0, 100⟩, .regular, .free⟩], [⟨⟨0, 100⟩, .regular, .unknown⟩]⟩

private def carvedFront : MemoryMap :=
  ⟨[⟨⟨0, 16⟩, .regular, .reserved⟩, ⟨⟨16, 100⟩, .regular, .free⟩], plain.zones⟩

theorem reaches_agrees_carved : ∃ m : MemoryMap, m.memory.length = 2 ∧ m.Agrees := by
  have hadd : new.addMemory ⟨0, 100⟩ .regular = some (.ok (), plain) := by decide +kernel
  have hfind : (plain.freeMemoryInRange ⟨0, 2 ^ 64 - 1⟩).find? (hasRoom 16 8) =
      some ⟨⟨0, 100⟩, .regular, .free⟩ := by decide +kernel
  refine ⟨carvedFront, rfl, reaches_agrees ((Relation.ReflTransGen.single (b := plain) ?_).tail ?_)⟩
  · exact ⟨.addMemory ⟨0, 100⟩ .regular, ⟨⟨plain, hadd⟩, trivial⟩, by rw [Op.run, hadd]; rfl⟩
  · refine ⟨.allocate 16 8, ⟨trivial, ?_⟩, by decide +kernel⟩
    intro c hc start _
    rw [hfind] at hc
    cases hc
    exact Nat.zero_le start

/-- Memory in the last page of the address space. -/
private def lastPage : MemoryMap :=
  ⟨[⟨⟨2 ^ 64 - 4096, 2 ^ 64 - 1⟩, .regular, .free⟩],
    [⟨⟨2 ^ 64 - 4096, 2 ^ 64 - 1⟩, .regular, .unknown⟩]⟩

/-- Aligning the start of the last page to a larger block gives address 0. -/
theorem reaches_agrees_fails : ¬ ∀ m : MemoryMap, Reaches Op.Accepted m → m.Agrees := by
  intro hclaim
  have hadd : new.addMemory ⟨2 ^ 64 - 4096, 2 ^ 64 - 1⟩ .regular = some (.ok (), lastPage) := by
    decide +kernel
  obtain ⟨m, hallocate, hmemory, hzones⟩ : ∃ m, (Op.allocate 16 8192).run lastPage = some m ∧
      lookup m.memory 0 = some (.regular, .reserved) ∧ lookup m.zones 0 = none :=
    ⟨⟨[⟨⟨0, 16⟩, .regular, .reserved⟩, ⟨⟨2 ^ 64 - 4096, 2 ^ 64 - 1⟩, .regular, .free⟩],
      lastPage.zones⟩, by decide +kernel, by decide, by decide⟩
  have hrun : Reaches Op.Accepted m := by
    refine (Relation.ReflTransGen.single (b := lastPage) ?_).tail ?_
    · exact ⟨.addMemory ⟨2 ^ 64 - 4096, 2 ^ 64 - 1⟩ .regular, ⟨lastPage, hadd⟩,
        by rw [Op.run, hadd]; rfl⟩
    · exact ⟨.allocate 16 8192, trivial, hallocate⟩
  have hzero := (hclaim m hrun).lookup_eq 0
  rw [hmemory, hzones] at hzero
  cases hzero

end MemoryMap

end Aarch64.Rust
