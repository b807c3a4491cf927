import Aarch64.Cxx.Bootstrap.Tree
import Aarch64.Cxx.Physical.Allocator

/-!
# Reserving memory

`MMapFromDTB` of `bootstrap/memory.cc` and `ReserveMemory` of `bootstrap/main.cc`. What the
device tree and the bootloader reserve is cut out of the map, range by range. Cutting a range
out of registered memory has no defined outcome, so both calls are sure to succeed only where
they change nothing.
-/

namespace Aarch64.Cxx.Bootstrap

open Aarch64.Fdt (Tok Header Items IsReservations reservations dword takePairs pairs length_dword)
open Aarch64.Cxx.Fdt (Scanner Span Blob)
open Aarch64.Cxx.Fdt.Scanner (Over)
open Segments (Proper)
open Zones (coveredBy)
open MemoryMap (Build)

/-! ## The calls -/

/-- `struct Data`: a module that the bootloader has put into memory. -/
structure Data where
  name : List UInt8
  begin : Nat
  stop : Nat
  deriving DecidableEq, Repr

def reserveMemory (build : Build) : List Data → MemoryMap → Option (Bool × MemoryMap)
  | [], mmap => some (true, mmap)
  | d :: data, mmap => do
      let (ok, mmap) ← mmap.reserve build d.begin d.stop
      if !ok then return (false, mmap)
      reserveMemory build data mmap

/-- The loop of `MMapFromDTB` over the reservations from `it` on. -/
def reservedLoop (buf : List UInt8) (build : Build) (reserved : Span) :
    (rounds it : Nat) → MemoryMap → Option (Outcome MemoryMap MemoryMap)
  | 0, _, mmap => some (.ok mmap)
  | rounds + 1, it, mmap =>
      match element buf 8 8 reserved it with
      | .ok (begin, size) =>
          match mmap.reserve build begin (Word64.add begin size) with
          | some (true, mmap) => reservedLoop buf build reserved rounds (it + 1) mmap
          | some (false, mmap) => some (.err mmap)
          | none => none
      | .err mmap => some (.err mmap)
      | .fault => some .fault

def mmapFromDTB (buf : List UInt8) (build : Build) (blob : Blob) (mmap : MemoryMap) :
    Option (Outcome MemoryMap MemoryMap) :=
  match registerMemory buf blob mmap with
  | .ok mmap => reservedLoop buf build blob.reserved blob.reserved.size 0 mmap
  | .err mmap => some (.err mmap)
  | .fault => some .fault

/-! ## Reserving ranges -/

/-- The loops of both calls. -/
def reserveAll (build : Build) : List (Nat × Nat) → MemoryMap → Option (Bool × MemoryMap)
  | [], mmap => some (true, mmap)
  | r :: rs, mmap => do
      let (ok, mmap) ← mmap.reserve build r.1 r.2
      if !ok then return (false, mmap)
      reserveAll build rs mmap

variable {m m' : MemoryMap} {fuel : Nat} {build : Build}

/-- A range meets an entry exactly if they share an address. -/
theorem meets_iff {begin stop : Nat} (hm : Proper m.segments) (hlt : begin < stop) :
    (∃ e ∈ m.ranges.items, e.start < stop ∧ begin < e.stop) ↔
      ¬ Disjoint (Set.Ico begin stop) (coveredBy m.ranges.items) := by
  rw [Set.not_disjoint_iff]
  constructor
  · rintro ⟨e, he, hstart, hstop⟩
    have hentry : e.start < e.stop := hm.lt _ (List.mem_map_of_mem he)
    exact ⟨max begin e.start, ⟨by omega, by omega⟩, e, he, by omega, by omega⟩
  · rintro ⟨x, ⟨hlo, hhi⟩, e, he, hstart, hstop⟩
    exact ⟨e, he, by omega, by omega⟩

/-- Ranges that meet no entry are reserved without a change, in every build. -/
theorem reserveAll_of_disjoint (hm : Proper m.segments) (build : Build) {rs : List (Nat × Nat)}
    (hrs : ∀ r ∈ rs, r.1 < r.2)
    (hdisjoint : ∀ r ∈ rs, Disjoint (Set.Ico r.1 r.2) (coveredBy m.ranges.items)) :
    reserveAll build rs m = some (true, m) := by
  induction rs with
  | nil => rfl
  | cons r rs ih =>
      obtain ⟨hr, hrs⟩ := List.forall_mem_cons.mp hrs
      obtain ⟨hfirst, hrest⟩ := List.forall_mem_cons.mp hdisjoint
      have hout := (meets_iff hm hr).not.mpr (not_not.mpr hfirst)
      have hreserve : m.reserve build r.1 r.2 = some (true, m) :=
        MemoryMap.setStatus_of_outside hm hr .reserved build hout
      rw [reserveAll, hreserve]
      exact ih hrs hrest

theorem reserveAll_eq_true_iff (hm : Proper m.segments) {rs : List (Nat × Nat)}
    (hrs : ∀ r ∈ rs, r.1 < r.2) : reserveAll (.asWritten fuel) rs m = some (true, m') ↔
      m' = m ∧ ∀ r ∈ rs, Disjoint (Set.Ico r.1 r.2) (coveredBy m.ranges.items) := by
  constructor
  · intro h
    induction rs with
    | nil =>
        cases h
        exact ⟨rfl, List.forall_mem_nil _⟩
    | cons r rs ih =>
        obtain ⟨hr, hrs⟩ := List.forall_mem_cons.mp hrs
        obtain ⟨⟨ok, m''⟩, hreserve, hrest⟩ := Option.bind_eq_some_iff.mp h
        cases ok with
        | false => cases hrest
        | true =>
            obtain ⟨rfl, hout⟩ :=
              (MemoryMap.setStatus_eq_true_iff hm hr .reserved fuel m'').mp hreserve
            rw [meets_iff hm hr, not_not] at hout
            obtain ⟨rfl, hdisjoint⟩ := ih hrs hrest
            exact ⟨rfl, List.forall_mem_cons.mpr ⟨hout, hdisjoint⟩⟩
  · rintro ⟨rfl, hdisjoint⟩
    exact reserveAll_of_disjoint hm _ hrs hdisjoint

theorem reserveMemory_eq (build : Build) (data : List Data) (mmap : MemoryMap) :
    reserveMemory build data mmap = reserveAll build (data.map fun d => (d.begin, d.stop)) mmap := by
  induction data generalizing mmap with
  | nil => rfl
  | cons d data ih => exact Option.bind_congr fun result _ => if_congr Iff.rfl rfl (ih result.2)

/-! ## The reservations of a blob -/

variable {buf bytes : List UInt8} {s : Scanner} {entries : List (Nat × Nat)}

/-- All reservations are counted. -/
theorem parseReservedLoop_of_reservations (data count : Nat) (h : Over buf s bytes)
    (hat : reservations entries <+: bytes.drop s.off) (hentries : IsReservations entries) :
    Cxx.Fdt.parseReservedLoop buf data s count =
      .ok (Span.new data (count + entries.length) 16) := by
  induction entries generalizing s count with
  | nil =>
      rw [Cxx.Fdt.parseReservedLoop_eq, Cxx.Fdt.Blob.consumeRange_of_dwords h hat, Outcome.ok_bind,
        if_pos ⟨Aarch64.Fdt.toNat_dword (by decide), Aarch64.Fdt.toNat_dword (by decide)⟩]
      rfl
  | cons e rest ih =>
      obtain ⟨⟨hne, hfst, hsnd⟩, hrest⟩ := List.forall_mem_cons.mp hentries
      rw [reservations, List.flatMap_cons, List.append_assoc] at hat
      have hnext := Bytes.prefix_append_right hat
      rw [List.length_append, length_dword, length_dword] at hnext
      rw [Cxx.Fdt.parseReservedLoop_eq,
        Cxx.Fdt.Blob.consumeRange_of_dwords h (Bytes.prefix_append_left hat), Outcome.ok_bind,
        Aarch64.Fdt.toNat_dword hfst, Aarch64.Fdt.toNat_dword hsnd,
        if_neg fun hzero => hne (Prod.ext hzero.1 hzero.2),
        ih (s := { s with off := s.off + 16 }) _ (h.of_sameWindow ⟨rfl, rfl⟩) hnext hrest,
        List.length_cons]
      congr 2
      omega

/-- The words of the reservations spell them. -/
theorem takePairs_reservations (hentries : IsReservations entries) (rest : List UInt8) :
    takePairs 2 2 entries.length (entries.flatMap (fun e => dword e.1 ++ dword e.2) ++ rest) =
      entries := by
  induction entries with
  | nil => rfl
  | cons e entries ih =>
      obtain ⟨⟨_, hfst, hsnd⟩, hrest⟩ := List.forall_mem_cons.mp hentries
      have hlen : (dword e.1 ++ dword e.2).length = 4 * (2 + 2) := by
        rw [List.length_append, length_dword, length_dword]
      rw [List.flatMap_cons, List.length_cons, takePairs, List.append_assoc,
        List.drop_left' hlen, ih hrest, List.append_assoc, List.take_left' (length_dword e.1),
        List.drop_left' (length_dword e.1), List.take_left' (length_dword e.2),
        Aarch64.Fdt.toNat_dword hfst, Aarch64.Fdt.toNat_dword hsnd]

/-- Where a pair of an address and a size ends. -/
def range (p : Nat × Nat) : Nat × Nat := (p.1, Word64.add p.1 p.2)

theorem reservedLoop_eq_ok_iff {value : List UInt8} {data count : Nat}
    (h : Over buf (Scanner.new data ((8 + 8) * count)) value) {rounds it : Nat}
    (hcount : it + rounds = count) :
    reservedLoop buf build (Span.new data count (8 + 8)) rounds it m = some (.ok m') ↔
      reserveAll build ((takePairs 2 2 rounds (value.drop (it * (8 + 8)))).map range) m =
        some (true, m') := by
  induction rounds generalizing it m with
  | zero => simp [reservedLoop, takePairs, reserveAll]
  | succ rounds ih =>
      have hnext : value.drop ((it + 1) * (8 + 8)) =
          (value.drop (it * (8 + 8))).drop (4 * (2 + 2)) := by
        rw [List.drop_drop, Nat.succ_mul]
      have hsize : value.drop (it * (8 + 8) + 8) = (value.drop (it * (8 + 8))).drop (4 * 2) :=
        List.drop_drop.symm
      have helement := element_of_le h (by omega : it < count)
      rw [hsize] at helement
      rw [reservedLoop, helement, takePairs, ← hnext, List.map_cons, reserveAll]
      dsimp only [range]
      cases MemoryMap.reserve build m _ _ with
      | none => simp
      | some result =>
          obtain ⟨ok, m''⟩ := result
          cases ok with
          | false => simp
          | true => exact ih (by omega)

variable {fdt structs strings : List UInt8} {h : Header} {blob : Blob}

/-- The span of a blob is its reservations. -/
theorem reserved_of_parse (hblob : Aarch64.Fdt.Blob fdt h entries structs strings)
    (hentries : IsReservations entries) (hparse : Blob.parse fdt = .ok blob) :
    blob.reserved = Span.new h.offMemRsvmap entries.length (8 + 8) ∧
      Over fdt (Scanner.new h.offMemRsvmap ((8 + 8) * entries.length))
        (entries.flatMap fun e => dword e.1 ++ dword e.2) := by
  have hlen : (entries.flatMap fun e => dword e.1 ++ dword e.2).length =
      (8 + 8) * entries.length := by
    simp [List.length_flatMap, length_dword, Nat.mul_comm]
  have hat := hblob.reserved_at
  refine ⟨?_, hlen.symm, (List.prefix_append _ _).trans hat⟩
  obtain ⟨header, hheader, hrest⟩ := Outcome.bind_eq_ok_iff.mp hparse
  obtain ⟨_, _, hrest⟩ := Outcome.bind_eq_ok_iff.mp hrest
  obtain ⟨reserved, hreserved, hrest⟩ := Outcome.bind_eq_ok_iff.mp hrest
  cases hrest
  have hcall := Cxx.Fdt.parseHeader_of_bytes hblob.words hblob.header_at
  rw [hheader] at hcall
  split at hcall
  next =>
    obtain rfl := Outcome.ok.inj hcall
    have htotal := hblob.totalsize
    have hle := hblob.reserved_le
    have hover : Over fdt (Scanner.new header.offMemRsvmap
        (header.totalsize - header.offMemRsvmap)) _ := Over.of_le (by
      change header.offMemRsvmap + (header.totalsize - header.offMemRsvmap) ≤ fdt.length
      omega)
    have hprefix : reservations entries <+: ((fdt.drop header.offMemRsvmap).take
        (header.totalsize - header.offMemRsvmap)).drop 0 := by
      rw [List.drop_zero, List.prefix_take_iff]
      exact ⟨hat, by omega⟩
    have hloop := parseReservedLoop_of_reservations header.offMemRsvmap 0 hover hprefix hentries
    rw [Nat.zero_add] at hloop
    exact Outcome.ok.inj (hreserved.symm.trans hloop)
  next => cases hcall

/-! ## What is registered -/

/-- A pair in the `reg` property of a child that the bootstrap takes for memory. -/
def ListsPair (address size : Nat) (items : Items) (p : Nat × Nat) : Prop :=
  ∃ e ∈ items.nodes, StartsMemory e.1 ∧ ∃ value, (Bytes.ofString "reg", value) ∈ e.2.props ∧
    p ∈ pairs address size value

variable {items : Items} {toks rest : List Tok} {address size : Nat} {P : MemoryMap → Prop}

theorem registerPairs_keeps {ps : List (Nat × Nat)}
    (hkeep : ∀ p ∈ ps, ∀ m m', P m → registerRange p.1 p.2 m = .ok m' → P m') (hm : P m)
    (h : registerPairs ps m = .ok m') : P m' := by
  induction ps generalizing m with
  | nil =>
      cases h
      exact hm
  | cons p ps ih =>
      obtain ⟨hp, hps⟩ := List.forall_mem_cons.mp hkeep
      obtain ⟨m'', hfirst, hrest⟩ := Outcome.bind_eq_ok_iff.mp h
      exact ih hps (hp m m'' hm hfirst) hrest

theorem child_keeps {name : List UInt8} {body : Items} (h : body.Flattens toks)
    (hwf : body.WellFormed)
    (hkeep : StartsMemory name → ∀ value, (Bytes.ofString "reg", value) ∈ body.props →
      ∀ p ∈ pairs address size value, ∀ m m', P m → registerRange p.1 p.2 m = .ok m' → P m')
    (hm : P m) (hchild : child address size name (toks ++ .endNode :: rest) m = .ok m') : P m' := by
  rw [child] at hchild
  split at hchild
  next hname =>
    rcases memoryNode_of_flattens h hchild with ⟨_, rfl⟩ | ⟨value, hvalue, hregister⟩
    · exact hm
    · rw [registerValue] at hregister
      split at hregister
      next =>
        exact registerPairs_keeps (hkeep hname value ((Items.lookup_props hwf _ _).mp hvalue)) hm
          hregister
      next => cases hregister
  next =>
    cases hchild
    exact hm

/-- The walk keeps what the registration of every pair keeps that the children list. -/
theorem walk_keeps (h : items.Flattens toks) (hwf : items.WellFormed) (hfirst : items.CellsFirst)
    (hkeep : ∀ p, ListsPair (items.cells (Bytes.ofString "#address-cells") address)
      (items.cells (Bytes.ofString "#size-cells") size) items p →
      ∀ m m', P m → registerRange p.1 p.2 m = .ok m' → P m')
    (hm : P m) (hwalk : walk 0 address size (toks ++ rest) m = .ok m') :
    ∃ m₁, P m₁ ∧ walk 0 (items.cells (Bytes.ofString "#address-cells") address)
      (items.cells (Bytes.ofString "#size-cells") size) rest m₁ = .ok m' := by
  induction h generalizing address size m with
  | nil => exact ⟨m, hm, hwalk⟩
  | nop h ih => exact ih hwf hfirst hkeep hm hwalk
  | prop h ih =>
      cases hwf with
      | prop hzero hname hfresh hcells hrest =>
          rw [Items.cells_prop _ hfresh, Items.cells_prop _ hfresh] at hkeep ⊢
          rw [List.cons_append, walk] at hwalk
          split at hwalk
          next => cases hwalk
          next => exact ih hrest hfirst hkeep hm hwalk
  | @node name body items toks toks' h hrest ih ihrest =>
      cases hwf with
      | node hzero hname hfresh hbody hwfrest =>
          obtain ⟨hnone, hfirst⟩ := hfirst
          have hcells : ∀ key default, Aarch64.Fdt.IsCells key →
              (Items.node name body items).cells key default = default ∧
                items.cells key default = default := fun key default hkey =>
            ⟨Items.cells_of_not_isCells hkey hnone default,
              Items.cells_of_not_isCells hkey hnone default⟩
          obtain ⟨ha, ha'⟩ := hcells (Bytes.ofString "#address-cells") address (Or.inr rfl)
          obtain ⟨hs, hs'⟩ := hcells (Bytes.ofString "#size-cells") size (Or.inl rfl)
          rw [ha, hs] at hkeep ⊢
          rw [List.cons_append, walk, List.append_assoc, List.cons_append] at hwalk
          obtain ⟨m₁, hchild, hwalk⟩ := Outcome.bind_eq_ok_iff.mp hwalk
          rw [walk_skip h 0, walk] at hwalk
          have hm₁ := child_keeps h hbody
            (fun hmemory value hvalue p hp => hkeep p ⟨_, List.mem_cons_self, hmemory, value,
              hvalue, hp⟩)
            hm hchild
          obtain ⟨m₂, hm₂, hwalk⟩ := ihrest hwfrest hfirst
            (by
              rw [ha', hs']
              intro p hp
              obtain ⟨e, he, hp⟩ := hp
              exact hkeep p ⟨e, List.mem_cons_of_mem _ he, hp⟩)
            hm₁ hwalk
          rw [ha', hs'] at hwalk
          exact ⟨m₂, hm₂, hwalk⟩

/-- `RegisterMemory` keeps what the registration of every pair keeps. -/
theorem registerMemory_keeps (hfdt : Aarch64.Fdt.Flattened fdt h entries items)
    (hwf : items.WellFormed) (hfirst : items.CellsFirst) (hparse : Blob.parse fdt = .ok blob)
    (hkeep : ∀ p, ListsPair (items.cells (Bytes.ofString "#address-cells") 2)
      (items.cells (Bytes.ofString "#size-cells") 2) items p →
      ∀ m m', P m → registerRange p.1 p.2 m = .ok m' → P m')
    (hm : P m) (hregister : registerMemory fdt blob m = .ok m') : P m' := by
  obtain ⟨hblob, htoks, hlexes, hend⟩ := hfdt
  have hsupported := Blob.lastCompVersion_le_of_parse hblob hparse
  cases htoks with
  | nop h =>
      cases hlexes with
      | cons hlex =>
          obtain ⟨name, hname⟩ := Blob.beginNode_of_parse hblob hlex hparse
          cases hname
  | @node _ _ _ toks toks' h hrest =>
      obtain ⟨blob', hparse', hroot, hstr, hlexes'⟩ := Blob.parse_of_lexes hblob hsupported hlexes
      obtain rfl : blob' = blob := Outcome.ok.inj (hparse'.symm.trans hparse)
      rw [registerMemory_of_lexes hlexes' hend hroot hstr] at hregister
      obtain ⟨m₁, hm₁, hwalk⟩ := walk_keeps h hwf hfirst hkeep hm hregister
      rw [walk, ← List.append_nil toks'] at hwalk
      obtain ⟨m₂, hm₂, hwalk⟩ := walk_keeps hrest .nil trivial
        (fun p hp => absurd hp.choose_spec.1 List.not_mem_nil) hm₁ hwalk
      cases hwalk
      exact hm₂

/-- The addresses that the bootstrap takes for memory. -/
def ram (items : Items) : Set Nat :=
  {x | items.Lists StartsMemory (items.cells (Bytes.ofString "#address-cells") 2)
    (items.cells (Bytes.ofString "#size-cells") 2) x}

/-- Memory is listed in pairs that are not empty, in the lower half of the address space. -/
def Regions (items : Items) : Prop :=
  ∀ p, ListsPair (items.cells (Bytes.ofString "#address-cells") 2)
    (items.cells (Bytes.ofString "#size-cells") 2) items p → 0 < p.2 ∧ p.1 + p.2 ≤ 2 ^ 63

theorem registerRange_low {p : Nat × Nat} (hpos : 0 < p.2) (hle : p.1 + p.2 ≤ 2 ^ 63)
    (hm : m.Low ∧ m.AllFree) (h : registerRange p.1 p.2 m = .ok m') : m'.Low ∧ m'.AllFree := by
  obtain ⟨hlow, hfree⟩ := hm
  have hlt : p.1 < p.1 + p.2 := Nat.lt_add_of_pos_right hpos
  rw [registerRange, Word64.add_of_lt (by omega)] at h
  obtain ⟨ok, m'', hcall, hanswer⟩ := MemoryMap.register_answers hlow.proper hlt .free
  obtain ⟨ok', m₃, hcall', _, hfree'⟩ :=
    MemoryMap.Tame.register (.inl hlt : m.Tame p.1 (p.1 + p.2)) hlow.proper hfree
  rw [hcall, Option.some.injEq, Prod.mk.injEq] at hcall'
  obtain ⟨rfl, rfl⟩ := hcall'
  rw [hcall] at h
  cases ok with
  | false => cases h
  | true =>
      cases h
      refine ⟨⟨hanswer.proper, fun e he => ?_⟩, hfree'⟩
      have hentry : e.start < e.stop := hanswer.proper.lt _ (List.mem_map_of_mem he)
      have hlast : m'.lookup (e.stop - 1) = some e.status :=
        hanswer.proper.ordered.labelAt_of_mem (List.mem_map_of_mem he)
          (Nat.le_sub_one_of_lt hentry) (Nat.sub_lt (Nat.zero_lt_of_lt hentry) Nat.one_pos)
      rw [hanswer.lookup_eq rfl] at hlast
      split at hlast
      next hin => omega
      next =>
        obtain ⟨s, hs, _, hhi, _⟩ := Segments.exists_mem_of_labelAt hlast
        obtain ⟨f, hf, rfl⟩ := List.mem_map.mp hs
        have hstop := hlow.stop_le f hf
        change e.stop - 1 < f.stop at hhi
        omega

/-- The map of a tree covers its memory. -/
theorem registerMemory_covers (hfdt : Aarch64.Fdt.Flattened fdt h entries items)
    (hwf : items.WellFormed) (hfirst : items.CellsFirst) (hregions : Regions items)
    (hparse : Blob.parse fdt = .ok blob) (hregister : registerMemory fdt blob .new = .ok m) :
    m.Low ∧ coveredBy m.ranges.items = ram items := by
  have hnew : MemoryMap.new.Low ∧ MemoryMap.new.AllFree :=
    ⟨⟨MemoryMap.new_proper, List.forall_mem_nil _⟩, List.forall_mem_nil _⟩
  obtain ⟨hlow, hfree⟩ := registerMemory_keeps (P := fun m => m.Low ∧ m.AllFree) hfdt hwf hfirst
    hparse (fun p hp m m' hm h => registerRange_low (hregions p hp).1 (hregions p hp).2 hm h) hnew
    hregister
  have hbounded : items.Bounded StartsMemory (items.cells (Bytes.ofString "#address-cells") 2)
      (items.cells (Bytes.ofString "#size-cells") 2) := fun e he hname value hvalue p hp =>
    Nat.lt_of_le_of_lt (hregions p ⟨e, he, hname, value, hvalue, hp⟩).2 (by decide)
  have hlookup := registerMemory_of_flattened hfdt hwf hfirst hbounded hparse hregister
  refine ⟨hlow, Set.ext fun x => Iff.trans ?_ (hlookup x)⟩
  constructor
  · rintro ⟨e, he, hlo, hhi⟩
    rw [← hfree e he]
    exact hlow.proper.ordered.labelAt_of_mem (List.mem_map_of_mem he) hlo hhi
  · intro hx
    obtain ⟨s, hs, hlo, hhi, _⟩ := Segments.exists_mem_of_labelAt hx
    obtain ⟨e, he, rfl⟩ := List.mem_map.mp hs
    exact ⟨e, he, hlo, hhi⟩

/-- Reservations and modules that are not empty and end in the address space. -/
def Upright (r : Nat × Nat) : Prop := r.1 < r.2 ∧ r.2 < 2 ^ 64

instance (r : Nat × Nat) : Decidable (Upright r) := inferInstanceAs (Decidable (_ ∧ _))

/-- The reservations of a blob are reserved one after the other. -/
theorem mmapFromDTB_eq_ok_iff_reserveAll (hfdt : Aarch64.Fdt.Flattened fdt h entries items)
    (hentries : IsReservations entries) (hupright : ∀ e ∈ entries, Upright (e.1, e.1 + e.2))
    (hparse : Blob.parse fdt = .ok blob) (hregister : registerMemory fdt blob .new = .ok m) :
    mmapFromDTB fdt build blob .new = some (.ok m') ↔
      reserveAll build (entries.map fun e => (e.1, e.1 + e.2)) m = some (true, m') := by
  obtain ⟨hblob, _, _, _⟩ := hfdt
  obtain ⟨hreserved, hover⟩ := reserved_of_parse hblob hentries hparse
  have hcount : (Span.new h.offMemRsvmap entries.length (8 + 8)).size = entries.length :=
    Nat.mul_div_cancel_left _ (by decide)
  have htake := takePairs_reservations hentries []
  rw [List.append_nil] at htake
  have hranges : ∀ e ∈ entries, range e = (e.1, e.1 + e.2) := fun e he =>
    Prod.ext rfl (Word64.add_of_lt (hupright e he).2)
  rw [mmapFromDTB, hregister]
  dsimp only
  rw [hreserved, hcount, reservedLoop_eq_ok_iff hover (Nat.zero_add _), Nat.zero_mul,
    List.drop_zero, htake, List.map_congr_left hranges]

/-- Every build has a map where no reservation meets memory, and then without any. -/
theorem mmapFromDTB_of_disjoint (hfdt : Aarch64.Fdt.Flattened fdt h entries items)
    (hentries : IsReservations entries) (hupright : ∀ e ∈ entries, Upright (e.1, e.1 + e.2))
    (hlow : m.Low) (hparse : Blob.parse fdt = .ok blob)
    (hregister : registerMemory fdt blob .new = .ok m) (build : Build)
    (hdisjoint : ∀ e ∈ entries, Disjoint (Set.Ico e.1 (e.1 + e.2)) (coveredBy m.ranges.items)) :
    mmapFromDTB fdt build blob .new = some (.ok m) :=
  (mmapFromDTB_eq_ok_iff_reserveAll hfdt hentries hupright hparse hregister).mpr
    (reserveAll_of_disjoint hlow.proper build
      (List.forall_mem_map.mpr fun e he => (hupright e he).1) (List.forall_mem_map.mpr hdisjoint))

/-- As it is written, the map is built exactly if no reservation meets memory. -/
theorem mmapFromDTB_eq_ok_iff (hfdt : Aarch64.Fdt.Flattened fdt h entries items)
    (hentries : IsReservations entries) (hupright : ∀ e ∈ entries, Upright (e.1, e.1 + e.2))
    (hlow : m.Low) (hparse : Blob.parse fdt = .ok blob)
    (hregister : registerMemory fdt blob .new = .ok m) :
    mmapFromDTB fdt (.asWritten fuel) blob .new = some (.ok m') ↔ m' = m ∧
      ∀ e ∈ entries, Disjoint (Set.Ico e.1 (e.1 + e.2)) (coveredBy m.ranges.items) := by
  rw [mmapFromDTB_eq_ok_iff_reserveAll hfdt hentries hupright hparse hregister,
    reserveAll_eq_true_iff hlow.proper, List.forall_mem_map]
  exact List.forall_mem_map.mpr fun e he => (hupright e he).1

end Aarch64.Cxx.Bootstrap
