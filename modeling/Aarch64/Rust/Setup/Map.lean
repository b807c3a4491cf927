import Aarch64.Rust.Setup.Termination

/-!
# What the memory map of a device tree says

Registering ranges one after the other never fails while everything is regular memory
and no reserved address is freed, and it relabels their union. The loops over the
device tree are such sequences of registrations as soon as the `reg` properties decode,
so the map depends only on which addresses the ranges cover.
-/

namespace Aarch64.Rust

open Segments (Canonical)

/-! ## Registering ranges -/

namespace MemoryMap

variable {m m' : MemoryMap} {status : MemoryStatus}

/-- Both lists are canonical, and they agree. -/
structure Sound (m : MemoryMap) : Prop where
  memory : Canonical (segments m.memory)
  zones : Canonical (segments m.zones)
  agree : m.ZonesAgree

theorem Sound.new : Sound new := ⟨Canonical.nil, Canonical.nil, fun _ => rfl⟩

/-- A map is known by what it says about the addresses. -/
theorem Sound.eq_of_lookup_eq (hm : m.Sound) (hm' : m'.Sound)
    (h : ∀ x, lookup m.memory x = lookup m'.memory x) : m = m' := by
  have hzones : ∀ x, lookup m.zones x = lookup m'.zones x := fun x => by
    rw [hm.agree x, hm'.agree x, h x]
  exact MemoryMap.ext (segments_injective (hm.memory.eq_of_labelAt_eq hm'.memory h))
    (segments_injective (hm.zones.eq_of_labelAt_eq hm'.zones hzones))

/-- All of the map is regular, and it is not to be freed where it is reserved. -/
def Accepts (m : MemoryMap) (status : MemoryStatus) : Prop :=
  ∀ x memtype status', lookup m.memory x = some (memtype, status') →
    memtype = .regular ∧ (status' = .reserved → status ≠ .free)

theorem addMemoryWith_of_accepts (hm : m.Sound) (haccepts : m.Accepts status) (range : Range) :
    ∃ m', m.addMemoryWith range .regular status = some (.ok (), m') ∧ m'.Sound ∧
      ∀ x, lookup m'.memory x =
        if range.contains x then some (.regular, status) else lookup m.memory x := by
  rcases addMemory_cases hm.memory ⟨range, .regular, status⟩ with
    ⟨⟨x, memtype, status', _, hlookup, hconflict⟩, _⟩ | ⟨_, memory, hfirst, _⟩
  · obtain ⟨htype, hstatus⟩ := haccepts x memtype status' hlookup
    rcases hconflict with hne | ⟨hreserved, hfree⟩
    · exact absurd htype hne
    · exact absurd hfree (hstatus hreserved)
  rcases addMemory_cases hm.zones ⟨range, .regular, .unknown⟩ with
    ⟨⟨x, memtype, status', _, hlookup, hconflict⟩, _⟩ | ⟨_, zones, hsecond, _⟩
  · rw [hm.agree x, Option.map_eq_some_iff] at hlookup
    obtain ⟨⟨memtype', status''⟩, hlookup, heq⟩ := hlookup
    obtain ⟨rfl, rfl⟩ := Prod.mk.inj heq
    rcases hconflict with hne | ⟨_, hfree⟩
    · exact absurd (haccepts x _ status'' hlookup).1 hne
    · cases hfree
  have hcall : m.addMemoryWith range .regular status = some (.ok (), ⟨memory, zones⟩) := by
    simp only [addMemoryWith, hfirst, hsecond, Option.bind_eq_bind, Option.bind_some]
    rfl
  refine ⟨_, hcall, ⟨addMemory_canonical hm.memory hfirst, addMemory_canonical hm.zones hsecond,
    addMemoryWith_zonesAgree hm.agree hm.memory hm.zones hcall⟩, ?_⟩
  exact lookup_of_addMemory hm.memory hfirst

end MemoryMap

/-- Ranges registered one after the other, each call unwrapped. -/
def registerAll (status : MemoryStatus) (ranges : List Range) (mmap : MemoryMap) :
    Option MemoryMap :=
  ranges.foldlM (fun mmap range => unwrapped (mmap.addMemoryWith range .regular status)) mmap

theorem registerAll_cons (status : MemoryStatus) (range : Range) (ranges : List Range)
    (mmap : MemoryMap) : registerAll status (range :: ranges) mmap =
      unwrapped (mmap.addMemoryWith range .regular status) >>= registerAll status ranges :=
  List.foldlM_cons ..

theorem registerAll_append (status : MemoryStatus) (ranges ranges' : List Range)
    (mmap : MemoryMap) : registerAll status (ranges ++ ranges') mmap =
      registerAll status ranges mmap >>= registerAll status ranges' :=
  List.foldlM_append ..

/-- Registering ranges labels their union. -/
theorem registerAll_spec {status : MemoryStatus} (ranges : List Range) {m : MemoryMap}
    (hm : m.Sound) (haccepts : m.Accepts status) :
    ∃ m', registerAll status ranges m = some m' ∧ m'.Sound ∧ ∀ x, lookup m'.memory x =
      if ∃ r ∈ ranges, r.contains x = true then some (.regular, status)
      else lookup m.memory x := by
  induction ranges generalizing m with
  | nil => exact ⟨m, rfl, hm, fun x => by rw [if_neg (by simp)]⟩
  | cons r ranges ih =>
      obtain ⟨m₁, hcall, hm₁, hlookup₁⟩ := m.addMemoryWith_of_accepts hm haccepts r
      have haccepts₁ : m₁.Accepts status := by
        intro x memtype status' hx
        rw [hlookup₁] at hx
        split at hx
        next =>
          cases hx
          exact ⟨rfl, fun h => h ▸ fun h => by cases h⟩
        next => exact haccepts x memtype status' hx
      obtain ⟨m', hrest, hm', hlookup⟩ := ih hm₁ haccepts₁
      refine ⟨m', ?_, hm', fun x => ?_⟩
      · rw [registerAll_cons, hcall]
        exact hrest
      · rw [hlookup, hlookup₁]
        by_cases hx : r.contains x = true
        · rw [if_pos hx, ite_self, if_pos ⟨r, List.mem_cons_self, hx⟩]
        · rw [if_neg hx]
          refine if_congr ⟨fun ⟨r', hr', h⟩ => ⟨r', List.mem_cons_of_mem r hr', h⟩, ?_⟩ rfl rfl
          rintro ⟨r', hr', h⟩
          rcases List.mem_cons.mp hr' with rfl | hr'
          · exact absurd h hx
          · exact ⟨r', hr', h⟩

/-! ## Decoding properties -/

/-- The ranges that the pairs of a value spell. -/
def regRanges (space : AddressSpace) (value : List UInt8) : List Range :=
  (Fdt.pairs space.addressCells space.sizeCells value).map rangeOf

/-- The loop gets to the end of the value. -/
def Decodes (space : AddressSpace) (value : List UInt8) : Prop :=
  Fdt.IsPairs space.addressCells space.sizeCells value ∧
    (value = [] ∨ space.addressCells ≤ 2 ∧ space.sizeCells ≤ 2)

variable {space : AddressSpace} {value : List UInt8}

theorem regRanges_of_le (hpos : 0 < space.addressCells + space.sizeCells)
    (hle : 4 * (space.addressCells + space.sizeCells) ≤ value.length) :
    regRanges space value =
      ⟨Bytes.toNat (value.take (4 * space.addressCells)),
          Word64.add (Bytes.toNat (value.take (4 * space.addressCells)))
            (Bytes.toNat ((value.drop (4 * space.addressCells)).take (4 * space.sizeCells)))⟩ ::
        regRanges space (value.drop (4 * (space.addressCells + space.sizeCells))) := by
  rw [regRanges, Fdt.pairs_of_le hpos hle]
  rfl

/-- If the loop ends, it has registered the pairs, or it panicked because they do not
decode. -/
theorem regLoop_result : ∀ (fuel off : Nat) (mmap : MemoryMap) (result : Option MemoryMap),
    off ≤ value.length → regLoop space fuel ⟨value, off⟩ mmap = some result →
    (Decodes space (value.drop off) →
        result = registerAll .free (regRanges space (value.drop off)) mmap) ∧
      (¬ Decodes space (value.drop off) → result = none) := by
  intro fuel
  induction fuel with
  | zero => exact fun _ _ _ _ h => by cases h
  | succ fuel ih =>
      intro off mmap result hoff h
      have hlen : (value.drop off).length = value.length - off := List.length_drop
      rw [regLoop] at h
      split at h
      swap
      next hend =>
        have hnil : value.drop off = [] := List.length_eq_zero_iff.mp (by
          rw [hlen]
          exact Nat.eq_zero_of_not_pos hend)
        cases h
        rw [hnil]
        refine ⟨fun _ => ?_, fun hnot => absurd ⟨Fdt.isPairs_nil _ _, Or.inl rfl⟩ hnot⟩
        rw [regRanges, Fdt.pairs_nil]
        rfl
      next hmore =>
        have hne : value.drop off ≠ [] := fun hnil => by
          rw [hnil] at hlen
          exact absurd hmore (by rw [Scanner.remains]; exact Nat.not_lt.mpr (Nat.le_of_eq hlen.symm))
        rcases regRound_cases space hoff mmap with ⟨ha, hs, hle, hround⟩ | ⟨hbad, hround⟩
        · -- a pair is there, or it takes no bytes and the same bytes are left
          have hle' : 4 * (space.addressCells + space.sizeCells) ≤ (value.drop off).length := by
            omega
          have hdrop : (value.drop off).drop (4 * (space.addressCells + space.sizeCells)) =
              value.drop (off + 4 * (space.addressCells + space.sizeCells)) := List.drop_drop
          have hiff : Decodes space
              (value.drop (off + 4 * (space.addressCells + space.sizeCells))) ↔
                Decodes space (value.drop off) := by
            rw [← hdrop, Decodes, Decodes, Fdt.isPairs_drop_iff hle']
            exact and_congr_right fun _ => iff_of_true (Or.inr ⟨ha, hs⟩) (Or.inr ⟨ha, hs⟩)
          rw [hround] at h
          constructor
          · intro hdec
            rw [regRanges_of_le (hdec.1.le_length hne).1 hle', registerAll_cons, hdrop]
            cases hcall : unwrapped (mmap.addMemory _ .regular) with
            | none =>
                rw [hcall] at h
                cases h
                change none = unwrapped (mmap.addMemory _ .regular) >>= _
                rw [hcall]
                rfl
            | some mmap' =>
                rw [hcall] at h
                have hrest := (ih _ mmap' result hle h).1 (hiff.mpr hdec)
                change result = unwrapped (mmap.addMemory _ .regular) >>= _
                rw [hcall]
                exact hrest
          · intro hdec
            cases hcall : unwrapped (mmap.addMemory _ .regular) with
            | none =>
                rw [hcall] at h
                cases h
                rfl
            | some mmap' =>
                rw [hcall] at h
                exact (ih _ mmap' result hle h).2 fun h => hdec (hiff.mp h)
        · rw [hround] at h
          cases h
          refine ⟨fun hdec => ?_, fun _ => rfl⟩
          have hcells := hdec.2.resolve_left hne
          have hle := (hdec.1.le_length hne).2
          omega

/-! ## Decoding nodes -/

/-- The `reg` properties of all memory nodes are there and decode. -/
def AllDecode (space : AddressSpace) (children : List (List UInt8 × DeviceTreeNode)) : Prop :=
  ∀ e ∈ children, IsMemory e.1 → ∃ value, e.2.reg = some value ∧ Decodes space value

/-- The ranges of all memory nodes. -/
def memoryRanges (space : AddressSpace) (children : List (List UInt8 × DeviceTreeNode)) :
    List Range :=
  children.flatMap fun e => if IsMemory e.1 then regRanges space (e.2.reg.getD []) else []

theorem childrenLoop_result {fuel : Nat} {children : List (List UInt8 × DeviceTreeNode)}
    {mmap : MemoryMap} {result : Option MemoryMap}
    (h : childrenLoop fuel space children mmap = some result) :
    (AllDecode space children →
        result = registerAll .free (memoryRanges space children) mmap) ∧
      (¬ AllDecode space children → result = none) := by
  induction children generalizing mmap with
  | nil =>
      cases h
      exact ⟨fun _ => rfl, fun hnot => absurd (fun e he => absurd he List.not_mem_nil) hnot⟩
  | cons e rest ih =>
      obtain ⟨unitname, node⟩ := e
      have hall : AllDecode space ((unitname, node) :: rest) ↔
          (IsMemory unitname → ∃ value, node.reg = some value ∧ Decodes space value) ∧
            AllDecode space rest := List.forall_mem_cons
      rw [hall, memoryRanges, List.flatMap_cons]
      by_cases hmemory : IsMemory unitname
      swap
      · rw [childrenLoop_of_other hmemory] at h
        rw [if_neg hmemory, List.nil_append]
        have hskip : (IsMemory unitname → ∃ value, node.reg = some value ∧ Decodes space value) :=
          fun h => absurd h hmemory
        rw [and_iff_right hskip]
        exact ih h
      rw [if_pos hmemory]
      cases hreg : node.reg with
      | none =>
          rw [childrenLoop_of_missing hmemory hreg] at h
          cases h
          refine ⟨fun hdec => ?_, fun _ => rfl⟩
          obtain ⟨value, hvalue, _⟩ := hdec.1 hmemory
          cases hvalue
      | some value =>
          have hsome : (IsMemory unitname → ∃ v, some value = some v ∧ Decodes space v) ↔
              Decodes space value := by simp [hmemory]
          rw [childrenLoop_of_reg hmemory hreg] at h
          rw [hsome, Option.getD_some, registerAll_append]
          cases hloop : regLoop space fuel ⟨value, 0⟩ mmap with
          | none =>
              rw [hloop] at h
              cases h
          | some first =>
              rw [hloop] at h
              obtain ⟨hgood, hbad⟩ := regLoop_result fuel 0 mmap first (Nat.zero_le _) hloop
              rw [List.drop_zero] at hgood hbad
              cases first with
              | none =>
                  cases h
                  refine ⟨fun hdec => ?_, fun _ => rfl⟩
                  rw [← hgood hdec.1]
                  rfl
              | some mmap' =>
                  have hdec : Decodes space value := by_contra fun h => by cases hbad h
                  rw [← hgood hdec]
                  simp only [hdec, true_and]
                  exact ih h

/-! ## The map -/

/-- An address that the memory nodes list. -/
def RamAt (dt : DeviceTree) (x : Nat) : Prop :=
  ∃ e ∈ dt.root.children, IsMemory e.1 ∧ ∃ value, e.2.reg = some value ∧
    ∃ r ∈ regRanges dt.root.addressSpace value, r.contains x = true

/-- An address in a range that the device tree or the bootstrap reserves. -/
def ReservedAt (dt : DeviceTree) (bootstrap : List Range) (x : Nat) : Prop :=
  ∃ r ∈ dt.reserved ++ bootstrap, r.contains x = true

variable {fuel : Nat} {dt : DeviceTree} {bootstrap : List Range} {x : Nat}

instance : Decidable (ReservedAt dt bootstrap x) :=
  inferInstanceAs (Decidable (∃ r ∈ _, Range.contains r x = true))

theorem ramAt_iff : RamAt dt x ↔
    ∃ r ∈ memoryRanges dt.root.addressSpace dt.root.children, r.contains x = true := by
  constructor
  · rintro ⟨e, he, hmemory, value, hreg, r, hr, hx⟩
    refine ⟨r, List.mem_flatMap.mpr ⟨e, he, ?_⟩, hx⟩
    rwa [if_pos hmemory, hreg, Option.getD_some]
  · rintro ⟨r, hr, hx⟩
    obtain ⟨e, he, hr⟩ := List.mem_flatMap.mp hr
    split at hr
    next hmemory =>
      cases hreg : e.2.reg with
      | none =>
          rw [hreg, Option.getD_none, regRanges, Fdt.pairs_nil] at hr
          cases hr
      | some value =>
          rw [hreg, Option.getD_some] at hr
          exact ⟨e, he, hmemory, value, hreg, r, hr, hx⟩
    next => cases hr

instance : Decidable (RamAt dt x) := decidable_of_iff _ ramAt_iff.symm

/-- What the map says about every address. -/
structure Maps (dt : DeviceTree) (bootstrap : List Range) (m : MemoryMap) : Prop where
  sound : m.Sound
  lookup_eq : ∀ x, lookup m.memory x =
    if ReservedAt dt bootstrap x then some (.regular, .reserved)
    else if RamAt dt x then some (.regular, .free) else none

theorem exists_maps (dt : DeviceTree) (bootstrap : List Range) :
    ∃ m, registerAll .free (memoryRanges dt.root.addressSpace dt.root.children) MemoryMap.new >>=
        registerAll .reserved (dt.reserved ++ bootstrap) = some m ∧ Maps dt bootstrap m := by
  have hnew : MemoryMap.Accepts MemoryMap.new .free := fun x memtype status h => by cases h
  obtain ⟨m₁, hfirst, hm₁, hlookup₁⟩ := registerAll_spec
    (memoryRanges dt.root.addressSpace dt.root.children) MemoryMap.Sound.new hnew
  have haccepts : m₁.Accepts .reserved := by
    intro x memtype status hx
    rw [hlookup₁] at hx
    split at hx
    next =>
      cases hx
      exact ⟨rfl, fun h => by cases h⟩
    next => cases hx
  obtain ⟨m, hsecond, hm, hlookup⟩ := registerAll_spec (dt.reserved ++ bootstrap) hm₁ haccepts
  refine ⟨m, by rw [hfirst]; exact hsecond, hm, fun x => ?_⟩
  rw [hlookup, hlookup₁]
  refine if_congr Iff.rfl rfl (if_congr ramAt_iff.symm rfl rfl)

/-- If the function ends, its map is the one described, or it panicked because of a
property that does not decode. -/
theorem mmapFromDevicetree_result {result : Option MemoryMap}
    (h : mmapFromDevicetree fuel dt bootstrap = some result) :
    (AllDecode dt.root.addressSpace dt.root.children →
        ∃ m, result = some m ∧ Maps dt bootstrap m) ∧
      (¬ AllDecode dt.root.addressSpace dt.root.children → result = none) := by
  obtain ⟨m, hm, hmaps⟩ := exists_maps dt bootstrap
  rw [mmapFromDevicetree] at h
  cases hloop : childrenLoop fuel dt.root.addressSpace dt.root.children MemoryMap.new with
  | none =>
      rw [hloop] at h
      cases h
  | some first =>
      rw [hloop] at h
      obtain ⟨hgood, hbad⟩ := childrenLoop_result hloop
      cases first with
      | none =>
          cases h
          refine ⟨fun hdec => ?_, fun _ => rfl⟩
          rw [← hgood hdec] at hm
          cases hm
      | some mmap =>
          cases h
          refine ⟨fun hdec => ⟨m, ?_, hmaps⟩, fun hdec => by cases hbad hdec⟩
          rw [← hgood hdec] at hm
          rw [← hm]
          exact (registerAll_append .reserved dt.reserved bootstrap mmap).symm

/-! ## Trees without wrapping ranges -/

/-- The memory nodes list whole pairs of addresses and sizes of one or two words each,
and no pair wraps around the address space. -/
structure ListsMemory (dt : DeviceTree) : Prop where
  address_cells : dt.root.addressSpace.addressCells = 1 ∨ dt.root.addressSpace.addressCells = 2
  size_cells : dt.root.addressSpace.sizeCells = 1 ∨ dt.root.addressSpace.sizeCells = 2
  reg : ∀ e ∈ dt.root.children, IsMemory e.1 → ∃ value, e.2.reg = some value ∧
    Fdt.IsPairs dt.root.addressSpace.addressCells dt.root.addressSpace.sizeCells value ∧
    ∀ p ∈ Fdt.pairs dt.root.addressSpace.addressCells dt.root.addressSpace.sizeCells value,
      p.1 + p.2 < 2 ^ 64

/-- A pair of a memory node covers the address. -/
def InMemory (dt : DeviceTree) (x : Nat) : Prop :=
  ∃ e ∈ dt.root.children, IsMemory e.1 ∧ ∃ value, e.2.reg = some value ∧
    ∃ p ∈ Fdt.pairs dt.root.addressSpace.addressCells dt.root.addressSpace.sizeCells value,
      p.1 ≤ x ∧ x < p.1 + p.2

theorem contains_rangeOf {p : Nat × Nat} (h : p.1 + p.2 < 2 ^ 64) :
    (rangeOf p).contains x = true ↔ p.1 ≤ x ∧ x < p.1 + p.2 := by
  rw [Range.contains_iff, rangeOf, Word64.add_of_lt h]

theorem ListsMemory.ramAt_iff (h : ListsMemory dt) : RamAt dt x ↔ InMemory dt x := by
  refine exists_congr fun e => and_congr_right fun he => and_congr_right fun hmemory => ?_
  refine exists_congr fun value => and_congr_right fun hreg => ?_
  obtain ⟨value', hreg', _, hpairs⟩ := h.reg e he hmemory
  obtain rfl : value' = value := Option.some.inj (hreg'.symm.trans hreg)
  constructor
  · rintro ⟨r, hr, hx⟩
    obtain ⟨p, hp, rfl⟩ := List.mem_map.mp hr
    exact ⟨p, hp, (contains_rangeOf (hpairs p hp)).mp hx⟩
  · rintro ⟨p, hp, hx⟩
    exact ⟨_, List.mem_map_of_mem hp, (contains_rangeOf (hpairs p hp)).mpr hx⟩

theorem ListsMemory.allDecode (h : ListsMemory dt) :
    AllDecode dt.root.addressSpace dt.root.children := by
  intro e he hmemory
  obtain ⟨value, hreg, hwhole, _⟩ := h.reg e he hmemory
  have ha := h.address_cells
  have hs := h.size_cells
  exact ⟨value, hreg, hwhole, Or.inr ⟨by omega, by omega⟩⟩

theorem ListsMemory.lookup_eq {m : MemoryMap} (h : ListsMemory dt) (hm : Maps dt bootstrap m)
    (x : Nat) :
    (lookup m.memory x = some (.regular, .reserved) ↔ ReservedAt dt bootstrap x) ∧
      (lookup m.memory x = some (.regular, .free) ↔
        InMemory dt x ∧ ¬ ReservedAt dt bootstrap x) ∧
      (lookup m.memory x = none ↔ ¬ InMemory dt x ∧ ¬ ReservedAt dt bootstrap x) := by
  rw [hm.lookup_eq x, ← h.ramAt_iff]
  by_cases hreserved : ReservedAt dt bootstrap x
  · simp [hreserved]
  · by_cases hram : RamAt dt x
    · simp [hreserved, hram]
    · simp [hreserved, hram]

/-- For every tree that lists its memory, the function returns a map that says of each address
whether it is reserved, free or neither, and a reservation wins over memory that is listed. The map
depends on the covered addresses only: trees that cover the same ones, cut into ranges or ordered in
another way, get the same map. -/
theorem mmapFromDevicetree_of_listsMemory (h : ListsMemory dt) (bootstrap : List Range) :
    ∃ m, (∃ n, ∀ fuel, n ≤ fuel → mmapFromDevicetree fuel dt bootstrap = some (some m)) ∧
      (∀ x, (lookup m.memory x = some (.regular, .reserved) ↔ ReservedAt dt bootstrap x) ∧
        (lookup m.memory x = some (.regular, .free) ↔
          InMemory dt x ∧ ¬ ReservedAt dt bootstrap x) ∧
        (lookup m.memory x = none ↔ ¬ InMemory dt x ∧ ¬ ReservedAt dt bootstrap x)) ∧
      ∀ dt' bootstrap' fuel' m', ListsMemory dt' →
        mmapFromDevicetree fuel' dt' bootstrap' = some (some m') →
        (∀ x, InMemory dt' x ↔ InMemory dt x) →
        (∀ x, ReservedAt dt' bootstrap' x ↔ ReservedAt dt bootstrap x) → m' = m := by
  obtain ⟨m, _, hm⟩ := exists_maps dt bootstrap
  obtain ⟨n, hn⟩ := exists_fuel dt.root.children
  have hpos : 0 < dt.root.addressSpace.addressCells + dt.root.addressSpace.sizeCells := by
    have := h.address_cells
    omega
  refine ⟨m, ⟨n, fun fuel hle => ?_⟩, h.lookup_eq hm, ?_⟩
  · have hne : mmapFromDevicetree fuel dt bootstrap ≠ none :=
      mmapFromDevicetree_ne_none_iff.mpr (childrenLoop_ne_none (Or.inl hpos)
        (fun e he value hreg => Nat.lt_of_lt_of_le (hn e he value hreg) hle) MemoryMap.new)
    obtain ⟨result, hresult⟩ := Option.ne_none_iff_exists'.mp hne
    obtain ⟨m', rfl, hm'⟩ := (mmapFromDevicetree_result hresult).1 h.allDecode
    rw [hresult, hm'.sound.eq_of_lookup_eq hm.sound fun x => by
      rw [hm'.lookup_eq, hm.lookup_eq]]
  · intro dt' bootstrap' fuel' m' h' hcall hmemory hreserved
    obtain ⟨m'', heq, hm'⟩ := (mmapFromDevicetree_result hcall).1 h'.allDecode
    obtain rfl := Option.some.inj heq
    refine hm'.sound.eq_of_lookup_eq hm.sound fun x => ?_
    rw [hm'.lookup_eq, hm.lookup_eq]
    refine if_congr (hreserved x) rfl (if_congr ?_ rfl rfl)
    rw [h'.ramAt_iff, h.ramAt_iff, hmemory x]

/-- A reservation that covers the first part of the only memory node. -/
theorem mmapFromDevicetree_of_listsMemory_one :
    ∃ m, (∃ n, ∀ fuel, n ≤ fuel → mmapFromDevicetree fuel
        ⟨[⟨0, 20⟩], ⟨[(Bytes.ofString "memory",
          ⟨[], [(Bytes.ofString "reg", Fdt.word 16 ++ Fdt.word 32)], ⟨1, 1⟩⟩)], [], ⟨1, 1⟩⟩, 16, 0⟩
        [] = some (some m)) ∧
      lookup m.memory 19 = some (.regular, .reserved) := by
  have h : ListsMemory ⟨[⟨0, 20⟩], ⟨[(Bytes.ofString "memory",
      ⟨[], [(Bytes.ofString "reg", Fdt.word 16 ++ Fdt.word 32)], ⟨1, 1⟩⟩)], [], ⟨1, 1⟩⟩, 16, 0⟩ := by
    refine ⟨Or.inl rfl, Or.inl rfl, fun e he _ => ?_⟩
    obtain rfl := List.mem_singleton.mp he
    exact ⟨Fdt.word 16 ++ Fdt.word 32, rfl, by decide +kernel, by decide +kernel⟩
  obtain ⟨m, hcall, hlookup, _⟩ := mmapFromDevicetree_of_listsMemory h []
  exact ⟨m, hcall, (hlookup 19).1.mpr ⟨⟨0, 20⟩, List.mem_cons_self, by decide⟩⟩

end Aarch64.Rust
