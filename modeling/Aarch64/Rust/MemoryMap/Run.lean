import Aarch64.Rust.MemoryMap.Refinement

/-!
# Runs of the Rust memory map

A range list is built by calls of `add_memory` from the empty list; a `MemoryMap`
by its four mutating methods. No call panics except for an alignment that is not a
power of two or an `unwrap` in `allocate_in_range`, and whatever a call returns
the lists it leaves behind are in canonical form.
-/

namespace Aarch64.Rust

open Segments (Canonical)

variable {seq seq' : List MemoryRange}

/-! ## Range lists -/

/-- One call of `add_memory` turns `seq` into `seq'`. -/
def Extends (seq seq' : List MemoryRange) : Prop :=
  ∃ mem result, addMemory seq mem = some (result, seq')

/-- The range lists that calls of `add_memory` make of the empty list. -/
def Built : List MemoryRange → Prop := Relation.ReflTransGen Extends []

theorem addMemory_canonical {mem : MemoryRange} {result : Except String Unit}
    (hseq : Canonical (segments seq)) (hcall : addMemory seq mem = some (result, seq')) :
    Canonical (segments seq') := by
  by_cases hempty : mem.range.isEmpty = true
  · rw [addMemory_of_isEmpty hempty] at hcall
    cases hcall
    exact hseq
  · obtain ⟨_, _, hcall', _, hcanon⟩ := addMemory_spec _ hseq (by simpa using hempty)
    rw [hcall] at hcall'
    cases hcall'
    exact hcanon

theorem Extends.canonical (h : Extends seq seq') (hseq : Canonical (segments seq)) :
    Canonical (segments seq') := by
  obtain ⟨mem, result, hcall⟩ := h
  exact addMemory_canonical hseq hcall

theorem Built.canonical (h : Built seq) : Canonical (segments seq) := by
  induction h with
  | refl => exact Canonical.nil
  | tail _ hstep ih => exact hstep.canonical ih

/-- A call with any range, inverted ones too, on any list that was built by calls. It returns: no
index is out of bounds and no loop goes on for ever. An empty range changes nothing. Any other range
is refused, and changes nothing, exactly if it meets an address that conflicts with it, and else all
of its addresses get its type and status and no other address changes. -/
theorem addMemory_of_built (hseq : Built seq) (mem : MemoryRange) :
    ∃ result seq', addMemory seq mem = some (result, seq') ∧
      (mem.range.isEmpty = true → result = .ok () ∧ seq' = seq) ∧
      (mem.range.isEmpty = false → Overwrites seq mem result seq') := by
  by_cases hempty : mem.range.isEmpty = true
  · refine ⟨.ok (), seq, addMemory_of_isEmpty hempty, fun _ => ⟨rfl, rfl⟩, fun h => ?_⟩
    rw [hempty] at h
    cases h
  · have hlt : mem.range.start < mem.range.stop := by simpa using hempty
    obtain ⟨result, seq', hcall, hover, _⟩ := addMemory_spec _ hseq.canonical hlt
    exact ⟨result, seq', hcall, fun h => absurd h hempty, fun _ => hover⟩

/-- Two calls that leave a reserved range next to a free one. -/
private theorem built_two : Built [⟨⟨0, 50⟩, .regular, .free⟩, ⟨⟨50, 150⟩, .regular, .reserved⟩] := by
  refine (Relation.ReflTransGen.single (b := [⟨⟨0, 100⟩, .regular, .free⟩]) ?_).tail ?_
  · exact ⟨⟨⟨0, 100⟩, .regular, .free⟩, .ok (), by decide +kernel⟩
  · exact ⟨⟨⟨50, 150⟩, .regular, .reserved⟩, .ok (), by decide +kernel⟩

theorem addMemory_of_built_two : ∃ result seq',
    addMemory [⟨⟨0, 50⟩, .regular, .free⟩, ⟨⟨50, 150⟩, .regular, .reserved⟩]
      ⟨⟨20, 60⟩, .regular, .free⟩ = some (result, seq') ∧
    Overwrites [⟨⟨0, 50⟩, .regular, .free⟩, ⟨⟨50, 150⟩, .regular, .reserved⟩]
      ⟨⟨20, 60⟩, .regular, .free⟩ result seq' := by
  obtain ⟨result, seq', hcall, _, hover⟩ :=
    addMemory_of_built built_two ⟨⟨20, 60⟩, .regular, .free⟩
  exact ⟨result, seq', hcall, hover (by decide)⟩

/-! ## Maps -/

namespace MemoryMap

variable {m m' : MemoryMap}

inductive Op
  | addMemory (range : Range) (memtype : MemoryType)
  | reserveMemory (range : Range) (memtype : MemoryType)
  | allocate (size align : Nat)
  | allocateWithHint (hint : Range) (size align : Nat)

/-- The map after a call, whatever the call returns. -/
def Op.run : Op → MemoryMap → Option MemoryMap
  | .addMemory range memtype, m => (m.addMemory range memtype).map Prod.snd
  | .reserveMemory range memtype, m => (m.reserveMemory range memtype).map Prod.snd
  | .allocate size align, m => (m.allocate size align).map Prod.snd
  | .allocateWithHint hint size align, m => (m.allocateWithHint hint size align).map Prod.snd

def Step (m m' : MemoryMap) : Prop := ∃ op : Op, op.run m = some m'

def Reachable : MemoryMap → Prop := Relation.ReflTransGen Step new

/-- Both lists are changed by calls of `add_memory` alone. -/
def Evolves (m m' : MemoryMap) : Prop :=
  Relation.ReflTransGen Extends m.memory m'.memory ∧ Relation.ReflTransGen Extends m.zones m'.zones

theorem Evolves.trans {m'' : MemoryMap} (h : Evolves m m') (h' : Evolves m' m'') :
    Evolves m m'' := ⟨h.1.trans h'.1, h.2.trans h'.2⟩

/-- What `add_memory` and `reserve_memory` do to the two lists. -/
theorem addMemoryWith_cases {range : Range} {memtype : MemoryType} {status : MemoryStatus}
    {result : Except String Unit}
    (h : m.addMemoryWith range memtype status = some (result, m')) :
    ∃ first second, Rust.addMemory m.memory ⟨range, memtype, status⟩ = some (first, m'.memory) ∧
      Rust.addMemory m.zones ⟨range, memtype, .unknown⟩ = some (second, m'.zones) ∧
      result = first.bind fun _ => second := by
  simp only [addMemoryWith, Option.bind_eq_bind, Option.bind_eq_some_iff] at h
  obtain ⟨⟨first, memory⟩, hfirst, ⟨second, zones⟩, hsecond, heq⟩ := h
  cases heq
  exact ⟨first, second, hfirst, hsecond, rfl⟩

/-- What `allocate_in_range` does: it finds nothing and changes nothing, or it
reserves what it found. -/
theorem allocateInRange_cases {limit : Range} {size align : Nat} {result : Option Nat}
    (h : m.allocateInRange limit size align = some (result, m')) :
    (m.findFreeMemoryInRange limit size align = some none ∧ result = none ∧ m' = m) ∨
      ∃ mem, m.findFreeMemoryInRange limit size align = some (some mem) ∧
        result = some mem.range.start ∧ m'.zones = m.zones ∧
        Rust.addMemory m.memory ⟨mem.range, mem.memtype, .reserved⟩ = some (.ok (), m'.memory) := by
  simp only [allocateInRange, Option.bind_eq_bind, Option.bind_eq_some_iff] at h
  obtain ⟨found, hfound, h⟩ := h
  cases found with
  | none =>
      cases h
      exact Or.inl ⟨hfound, rfl, rfl⟩
  | some mem =>
      simp only [Option.bind_eq_some_iff] at h
      obtain ⟨⟨called, memory⟩, hcall, h⟩ := h
      cases called with
      | error e => cases h
      | ok u =>
          cases h
          exact Or.inr ⟨mem, hfound, rfl, rfl, hcall⟩

/-- What `allocate_with_hint` does: it allocates within the hint, or finds nothing there
and allocates without limits. -/
theorem allocateWithHint_cases {hint : Range} {size align : Nat} {result : Option Nat}
    (h : m.allocateWithHint hint size align = some (result, m')) :
    m.allocateInRange hint size align = some (result, m') ∨
      m.findFreeMemoryInRange hint size align = some none ∧
        m.allocateInRange ⟨0, 2 ^ 64 - 1⟩ size align = some (result, m') := by
  simp only [allocateWithHint, Option.bind_eq_bind, Option.bind_eq_some_iff] at h
  obtain ⟨⟨first, m₁⟩, hfirst, h⟩ := h
  cases first with
  | some a =>
      cases h
      exact Or.inl hfirst
  | none =>
      rcases allocateInRange_cases hfirst with ⟨hnone, _, rfl⟩ | ⟨_, _, hsome, _⟩
      · exact Or.inr ⟨hnone, h⟩
      · cases hsome

/-- A hint within which nothing is found is no hint. -/
theorem allocateWithHint_of_none {hint : Range} {size align : Nat}
    (h : m.allocateInRange hint size align = some (none, m)) :
    m.allocateWithHint hint size align = m.allocateInRange ⟨0, 2 ^ 64 - 1⟩ size align := by
  rw [allocateWithHint, h]
  rfl

theorem addMemoryWith_evolves {range : Range} {memtype : MemoryType} {status : MemoryStatus}
    {result : Except String Unit}
    (h : m.addMemoryWith range memtype status = some (result, m')) : Evolves m m' := by
  obtain ⟨first, second, hfirst, hsecond, _⟩ := addMemoryWith_cases h
  exact ⟨.single ⟨_, _, hfirst⟩, .single ⟨_, _, hsecond⟩⟩

theorem allocateInRange_evolves {limit : Range} {size align : Nat} {result : Option Nat}
    (h : m.allocateInRange limit size align = some (result, m')) : Evolves m m' := by
  rcases allocateInRange_cases h with ⟨_, _, rfl⟩ | ⟨mem, _, _, hzones, hcall⟩
  · exact ⟨.refl, .refl⟩
  · exact ⟨.single ⟨_, _, hcall⟩, hzones ▸ .refl⟩

theorem Op.run_evolves {op : Op} (h : op.run m = some m') : Evolves m m' := by
  cases op with
  | addMemory range memtype =>
      obtain ⟨⟨_, _⟩, hcall, rfl⟩ := Option.map_eq_some_iff.mp h
      exact addMemoryWith_evolves hcall
  | reserveMemory range memtype =>
      obtain ⟨⟨_, _⟩, hcall, rfl⟩ := Option.map_eq_some_iff.mp h
      exact addMemoryWith_evolves hcall
  | allocate size align =>
      obtain ⟨⟨_, _⟩, hcall, rfl⟩ := Option.map_eq_some_iff.mp h
      exact allocateInRange_evolves hcall
  | allocateWithHint hint size align =>
      obtain ⟨⟨_, _⟩, hcall, rfl⟩ := Option.map_eq_some_iff.mp h
      rcases allocateWithHint_cases hcall with hwithin | ⟨_, hanywhere⟩
      · exact allocateInRange_evolves hwithin
      · exact allocateInRange_evolves hanywhere

theorem Reachable.evolves (h : Reachable m) : Evolves new m := by
  induction h with
  | refl => exact ⟨.refl, .refl⟩
  | tail _ hstep ih =>
      obtain ⟨op, hop⟩ := hstep
      exact ih.trans (Op.run_evolves hop)

theorem Reachable.canonical (h : Reachable m) :
    Canonical (segments m.memory) ∧ Canonical (segments m.zones) :=
  have hbuilt : Built m.memory ∧ Built m.zones := h.evolves
  ⟨hbuilt.1.canonical, hbuilt.2.canonical⟩

/-- In every reachable map both lists are canonical: sorted, disjoint, without empty ranges and
without neighbours that could be one range. A list is then determined by how it labels the
addresses, so maps that say the same of every address are the same, whatever the calls were that
made them. -/
theorem reachable_lists_canonical (h : Reachable m) :
    (Canonical (segments m.memory) ∧ Canonical (segments m.zones)) ∧
      ∀ m', Reachable m' → (∀ x, lookup m.memory x = lookup m'.memory x) →
        (∀ x, lookup m.zones x = lookup m'.zones x) → m = m' := by
  refine ⟨h.canonical, fun m' h' hmemory hzones => ?_⟩
  have hmem := h.canonical.1.eq_of_labelAt_eq h'.canonical.1 hmemory
  have hzon := h.canonical.2.eq_of_labelAt_eq h'.canonical.2 hzones
  exact MemoryMap.ext (segments_injective hmem) (segments_injective hzon)

private def carved : MemoryMap :=
  ⟨[⟨⟨0, 16⟩, .regular, .reserved⟩, ⟨⟨16, 100⟩, .regular, .free⟩],
    [⟨⟨0, 100⟩, .regular, .unknown⟩]⟩

theorem reachable_lists_canonical_carved :
    ∃ m : MemoryMap, m.memory.length = 2 ∧
      Canonical (segments m.memory) ∧ Canonical (segments m.zones) := by
  have hrun : Reachable carved := by
    refine (Relation.ReflTransGen.single (b := ⟨[⟨⟨0, 100⟩, .regular, .free⟩],
      [⟨⟨0, 100⟩, .regular, .unknown⟩]⟩) ?_).tail ?_
    · exact ⟨.addMemory ⟨0, 100⟩ .regular, by decide +kernel⟩
    · exact ⟨.allocate 16 8, by decide +kernel⟩
  exact ⟨carved, rfl, (reachable_lists_canonical hrun).1⟩

/-! ## Successful registration -/

/-- A call of `add_memory` or `reserve_memory` that returns `Ok`. -/
def Registers (m m' : MemoryMap) : Prop :=
  ∃ range memtype, m.addMemory range memtype = some (.ok (), m') ∨
    m.reserveMemory range memtype = some (.ok (), m')

/-- The maps that successful registrations make of the empty map. -/
def Registered : MemoryMap → Prop := Relation.ReflTransGen Registers new

/-- The zones cover the memory, with its types and without its statuses. -/
def ZonesAgree (m : MemoryMap) : Prop :=
  ∀ x, lookup m.zones x = (lookup m.memory x).map fun l => (l.1, .unknown)

theorem Registers.addMemoryWith (h : Registers m m') :
    ∃ range memtype status, m.addMemoryWith range memtype status = some (.ok (), m') := by
  obtain ⟨range, memtype, h | h⟩ := h
  · exact ⟨range, memtype, _, h⟩
  · exact ⟨range, memtype, _, h⟩

/-- A call that returns `Ok` has overwritten its range, even if the range is empty. -/
theorem lookup_of_addMemory {mem : MemoryRange} (hseq : Canonical (segments seq))
    (h : Rust.addMemory seq mem = some (.ok (), seq')) (x : Nat) :
    lookup seq' x =
      if mem.range.contains x then some (mem.memtype, mem.status) else lookup seq x := by
  by_cases hempty : mem.range.isEmpty = true
  · rw [addMemory_of_isEmpty hempty] at h
    cases h
    rw [Range.isEmpty_iff] at hempty
    rw [if_neg]
    rw [Range.contains_iff]
    omega
  · obtain ⟨result, _, hcall, hover, _⟩ := addMemory_spec _ hseq (by simpa using hempty)
    rw [h] at hcall
    cases hcall
    exact hover.lookup_eq rfl x

theorem Registered.canonical (h : Registered m) :
    Canonical (segments m.memory) ∧ Canonical (segments m.zones) := by
  induction h with
  | refl => exact ⟨Canonical.nil, Canonical.nil⟩
  | tail _ hstep ih =>
      obtain ⟨_, _, _, hcall⟩ := hstep.addMemoryWith
      obtain ⟨_, _, hfirst, hsecond, _⟩ := addMemoryWith_cases hcall
      exact ⟨addMemory_canonical ih.1 hfirst, addMemory_canonical ih.2 hsecond⟩

/-- A registration that returns `Ok` writes the same range into both lists. -/
theorem addMemoryWith_zonesAgree {range : Range} {memtype : MemoryType} {status : MemoryStatus}
    (hagree : m.ZonesAgree) (hmemory : Canonical (segments m.memory))
    (hzones : Canonical (segments m.zones))
    (h : m.addMemoryWith range memtype status = some (.ok (), m')) : m'.ZonesAgree := by
  obtain ⟨first, second, hfirst, hsecond, hresult⟩ := addMemoryWith_cases h
  obtain rfl : first = .ok () := by
    cases first with
    | ok u => rfl
    | error e => cases hresult
  obtain rfl : second = .ok () := hresult.symm
  intro x
  rw [lookup_of_addMemory hmemory hfirst, lookup_of_addMemory hzones hsecond, hagree x]
  split <;> rfl

theorem Registered.zonesAgree (h : Registered m) : m.ZonesAgree := by
  induction h with
  | refl => exact fun _ => rfl
  | tail hrun hstep ih =>
      obtain ⟨range, memtype, status, hcall⟩ := hstep.addMemoryWith
      have hcanon := Registered.canonical hrun
      exact addMemoryWith_zonesAgree ih hcanon.1 hcanon.2 hcall

end MemoryMap

end Aarch64.Rust
