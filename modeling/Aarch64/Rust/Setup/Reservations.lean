import Aarch64.Rust.Setup.Map

/-!
# Reservations in the memory map

The parser turns an entry of the reservation block into a range whose end wraps around
the address space. An entry whose end does not fit reserves an inverted range, which is
accepted and reserves nothing, so its addresses stay free where nothing else reserves
them.
-/

namespace Aarch64.Rust

open Fdt (Header IsReservations reservations)

variable {fdt : List UInt8} {h : Header} {entries : List (Nat × Nat)} {dt : DeviceTree}
  {bootstrap : List Range} {fuel : Nat} {m : MemoryMap}

/-- The reserved ranges of a parsed tree are made from the entries of the blob. -/
theorem reserved_of_parse (hwords : ∀ x ∈ h.words, x < 2 ^ 32) (hbytes : h.bytes <+: fdt)
    (hentries : IsReservations entries) (hat : reservations entries <+: fdt.drop h.offMemRsvmap)
    (hparse : parse fdt = .ok dt) : dt.reserved = entries.map rangeOf := by
  have hheader := parseHeader_of_bytes hwords hbytes
  simp only [parse, hheader, Outcome.ok_bind] at hparse
  split at hparse
  next => cases hparse
  split at hparse
  next => cases hparse
  split at hparse
  next => cases hparse
  obtain ⟨rsvmap, hrsvmap, hparse⟩ := Outcome.bind_eq_ok_iff.mp hparse
  obtain ⟨reserved, hreserved, hparse⟩ := Outcome.bind_eq_ok_iff.mp hparse
  obtain ⟨_, _, hparse⟩ := Outcome.bind_eq_ok_iff.mp hparse
  obtain ⟨_, _, hparse⟩ := Outcome.bind_eq_ok_iff.mp hparse
  obtain ⟨_, _, hparse⟩ := Outcome.bind_eq_ok_iff.mp hparse
  cases hparse
  have hle : h.offMemRsvmap ≤ fdt.length := Nat.le_of_not_lt fun hlt => by
    rw [slice_strings_of_lt hlt] at hrsvmap
    cases hrsvmap
  rw [slice_strings hle] at hrsvmap
  cases hrsvmap
  rw [parseReserved_of_entries hentries hat] at hreserved
  cases hreserved
  rfl

theorem ramAt_lt {x : Nat} (h : RamAt dt x) : x < 2 ^ 64 := by
  obtain ⟨_, _, _, _, _, r, hr, hx⟩ := h
  obtain ⟨p, _, rfl⟩ := List.mem_map.mp hr
  exact Nat.lt_trans (Range.contains_iff.mp hx).2 (Word64.add_lt _ _)

theorem Maps.free_iff (hm : Maps dt bootstrap m) (x : Nat) :
    (∃ memtype, lookup m.memory x = some (memtype, .free)) ↔
      RamAt dt x ∧ ¬ ReservedAt dt bootstrap x := by
  rw [hm.lookup_eq x]
  by_cases hreserved : ReservedAt dt bootstrap x
  · simp [hreserved]
  · by_cases hram : RamAt dt x
    · simp [hreserved, hram]
    · simp [hreserved, hram]

/-- No address of a reservation of the blob is free in the map, unless the end of the entry wraps
around and the memory from its start on is not reserved otherwise. The sum on the left is one of
numbers and the one on the right that of the parser, which is why the two sides differ. -/
theorem entry_not_free_iff (hwords : ∀ x ∈ h.words, x < 2 ^ 32) (hbytes : h.bytes <+: fdt)
    (hentries : IsReservations entries) (hat : reservations entries <+: fdt.drop h.offMemRsvmap)
    (hparse : parse fdt = .ok dt) (hmap : mmapFromDevicetree fuel dt bootstrap = some (some m))
    {e : Nat × Nat} (he : e ∈ entries) :
    (∀ a, e.1 ≤ a → a < e.1 + e.2 → ¬ ∃ memtype, lookup m.memory a = some (memtype, .free)) ↔
      (e.1 + e.2 < 2 ^ 64 ∨ ∀ a, e.1 ≤ a → RamAt dt a →
        (∃ e' ∈ entries, e'.1 ≤ a ∧ a < (e'.1 + e'.2) % 2 ^ 64) ∨
          ∃ r ∈ bootstrap, r.contains a = true) := by
  have hm : Maps dt bootstrap m := by
    obtain ⟨hgood, hbad⟩ := mmapFromDevicetree_result hmap
    by_cases hdec : AllDecode dt.root.addressSpace dt.root.children
    · obtain ⟨m', heq, hm⟩ := hgood hdec
      exact Option.some.inj heq ▸ hm
    · cases hbad hdec
  have hreserved : ∀ a, ReservedAt dt bootstrap a ↔
      (∃ e' ∈ entries, e'.1 ≤ a ∧ a < (e'.1 + e'.2) % 2 ^ 64) ∨
        ∃ r ∈ bootstrap, r.contains a = true := by
    intro a
    rw [ReservedAt, reserved_of_parse hwords hbytes hentries hat hparse]
    simp only [List.mem_append, or_and_right, exists_or, List.mem_map, exists_exists_and_eq_and,
      rangeOf, Range.contains_iff, Word64.add]
  simp only [hm.free_iff, hreserved]
  constructor
  · intro hnot
    refine or_iff_not_imp_left.mpr fun hwrap a hle hram => ?_
    have hlt := ramAt_lt hram
    exact by_contra fun hout => hnot a hle (by omega) ⟨hram, hout⟩
  · rintro (hfits | hcover) a hle hlt ⟨hram, hout⟩
    · refine hout (Or.inl ⟨e, he, hle, ?_⟩)
      rwa [Nat.mod_eq_of_lt hfits]
    · exact hout (hcover a hle hram)

/-- An entry for all addresses from 16 on, and memory up to 32. -/
private def wrapping : List UInt8 :=
  Fdt.assemble [(16, 2 ^ 64 - 1)]
    (Fdt.structBlock [(.beginNode [], 0), (.beginNode (Bytes.ofString "memory"), 0),
      (.prop (Bytes.ofString "reg") (Fdt.word 0 ++ Fdt.word 32), 0), (.endNode, 0), (.endNode, 0)])
    (Bytes.ofString "reg" ++ [0])

private def wrappingTree : DeviceTree :=
  ⟨[⟨16, 15⟩], ⟨[(Bytes.ofString "memory",
    ⟨[], [(Bytes.ofString "reg", Fdt.word 0 ++ Fdt.word 32)], ⟨1, 1⟩⟩)], [], ⟨1, 1⟩⟩, 16, 0⟩

private theorem parse_wrappingBlob : parse wrapping = .ok wrappingTree := by
  rw [wrapping]
  refine (parse_of_flattened (Fdt.flattened_assemble
    (.node (.node (.prop .nil) .nil) .nil) (by decide +kernel) (by decide +kernel))
    (by decide) (by decide) ?_).trans rfl
  refine .node (by decide) (by decide +kernel) (fun b => List.not_mem_nil) ?_ .nil
  exact .prop (by decide) (by decide +kernel) (fun v => List.not_mem_nil)
    (fun h => absurd h (by decide)) .nil

private theorem map_wrapping : mmapFromDevicetree 2 wrappingTree [] =
    some (some ⟨[⟨⟨0, 32⟩, .regular, .free⟩], [⟨⟨0, 32⟩, .regular, .unknown⟩]⟩) := by
  decide +kernel

theorem entry_not_free_iff_wrapping :
    (∀ a, 16 ≤ a → a < 16 + (2 ^ 64 - 1) → ¬ ∃ memtype,
      lookup [⟨⟨0, 32⟩, .regular, .free⟩] a = some (memtype, .free)) ↔
      (16 + (2 ^ 64 - 1) < 2 ^ 64 ∨ ∀ a, 16 ≤ a → RamAt wrappingTree a →
        (∃ e' ∈ [(16, 2 ^ 64 - 1)], e'.1 ≤ a ∧ a < (e'.1 + e'.2) % 2 ^ 64) ∨
          ∃ r ∈ ([] : List Range), r.contains a = true) := by
  have hblob : Fdt.Blob wrapping (Fdt.layout [(16, 2 ^ 64 - 1)] _ _) _ _ _ :=
    Fdt.blob_assemble (by decide +kernel)
  exact entry_not_free_iff hblob.words hblob.header_at (by decide) hblob.reserved_at parse_wrappingBlob
    map_wrapping (List.mem_singleton.mpr rfl)

/-- The addresses from 16 on stay free. -/
theorem entry_not_free_fails : ∃ dt m fuel, parse wrapping = .ok dt ∧
    mmapFromDevicetree fuel dt [] = some (some m) ∧
    16 < 16 + (2 ^ 64 - 1) ∧ lookup m.memory 16 = some (.regular, .free) :=
  ⟨wrappingTree, _, 2, parse_wrappingBlob, map_wrapping, by decide, by decide⟩

end Aarch64.Rust
