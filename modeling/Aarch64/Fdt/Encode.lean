import Aarch64.Fdt.Format

/-!
# Writing blobs

The usual layout of a blob: the blocks stand one behind the other, the padding is zero
and each property comes with the offset of its name. What is written so is a flattening
of the tree that the tokens spell.
-/

namespace Aarch64.Fdt

open Bytes (padding)

/-! ## The usual layout -/

/-- The header of a blob whose blocks stand one behind the other. -/
def layout (entries : List (Nat × Nat)) (structs strings : List UInt8) : Header where
  magic := 0xd00dfeed
  totalsize := 40 + (reservations entries).length + structs.length + strings.length
  offDtStruct := 40 + (reservations entries).length
  offDtStrings := 40 + (reservations entries).length + structs.length
  offMemRsvmap := 40
  version := 17
  lastCompVersion := 16
  bootCpuidPhys := 0
  sizeDtStrings := strings.length
  sizeDtStruct := structs.length

/-- A blob whose blocks stand one behind the other. -/
def assemble (entries : List (Nat × Nat)) (structs strings : List UInt8) : List UInt8 :=
  (layout entries structs strings).bytes ++ (reservations entries ++ (structs ++ strings))

theorem blob_assemble {entries : List (Nat × Nat)} {structs strings : List UInt8}
    (h : (assemble entries structs strings).length < 2 ^ 32) :
    Blob (assemble entries structs strings) (layout entries structs strings) entries structs
      strings := by
  have hlen : (assemble entries structs strings).length =
      40 + (reservations entries).length + structs.length + strings.length := by
    simp only [assemble, List.length_append, Header.length_bytes, Nat.add_assoc]
  have hrsv : reservations entries ++ (structs ++ strings) <+:
      (assemble entries structs strings).drop 40 :=
    List.drop_left' (Header.length_bytes _) ▸ List.prefix_refl _
  have hblocks := Bytes.prefix_append_right hrsv
  refine ⟨h, ?_, List.prefix_append _ _, rfl, Nat.le_of_eq hlen.symm,
    Bytes.prefix_append_left hrsv, ?_, Bytes.prefix_append_left hblocks, rfl, ?_,
    Bytes.prefix_append_right hblocks, rfl, Nat.le_refl _⟩
  · rw [hlen] at h
    simp only [Header.words, layout, List.forall_mem_cons]
    exact ⟨by decide, by omega, by omega, by omega, by decide, by decide, by decide, by decide,
      by omega, by omega, fun x hx => absurd hx List.not_mem_nil⟩
  · change 40 + _ ≤ 40 + _ + structs.length + strings.length
    omega
  · change 40 + _ + structs.length ≤ 40 + _ + structs.length + strings.length
    omega

/-! ## Tokens -/

namespace Tok

/-- The bytes of a token at a multiple of four. -/
def bytes (nameoff : Nat) : Tok → List UInt8
  | beginNode name => word 1 ++ (name ++ 0 :: List.replicate (padding 4 (name.length + 1)) 0)
  | endNode => word 2
  | prop _ value =>
      word 3 ++ (word value.length ++ (word nameoff ++
        (value ++ List.replicate (padding 4 value.length) 0)))
  | nop => word 4

/-- The token can be written, and its name stands at the offset. -/
def Fits (strings : List UInt8) (nameoff : Nat) : Tok → Prop
  | beginNode name => 0 ∉ name
  | prop name value =>
      value.length < 2 ^ 32 ∧ nameoff < 2 ^ 32 ∧ name ++ [0] <+: strings.drop nameoff ∧ 0 ∉ name
  | endNode => True
  | nop => True

instance (strings : List UInt8) (nameoff : Nat) : (tok : Tok) → Decidable (tok.Fits strings nameoff)
  | beginNode _ => inferInstanceAs (Decidable (_ ∉ _))
  | prop _ _ => inferInstanceAs (Decidable (_ ∧ _))
  | endNode => inferInstanceAs (Decidable True)
  | nop => inferInstanceAs (Decidable True)

theorem bytes_length_mod (nameoff : Nat) (tok : Tok) : (tok.bytes nameoff).length % 4 = 0 := by
  cases tok with
  | beginNode name =>
      have hpad : (name.length + 1 + padding 4 (name.length + 1)) % 4 = 0 :=
        Bytes.add_padding_mod (by decide)
      simp only [bytes, List.length_append, List.length_cons, List.length_replicate, length_word]
      omega
  | endNode => rw [bytes, length_word]
  | prop name value =>
      have hpad : (value.length + padding 4 value.length) % 4 = 0 :=
        Bytes.add_padding_mod (by decide)
      simp only [bytes, List.length_append, List.length_replicate, length_word]
      omega
  | nop => rw [bytes, length_word]

end Tok

variable {structs strings : List UInt8} {off nameoff : Nat} {tok : Tok}

/-- A written token can be read back. -/
theorem lex_bytes (hfits : tok.Fits strings nameoff) (hoff : off % 4 = 0)
    (h : tok.bytes nameoff <+: structs.drop off) :
    Lex structs strings off tok (off + (tok.bytes nameoff).length) := by
  have hpad : ∀ k n, (off + k) % 4 = 0 →
      (List.replicate (padding 4 n) (0 : UInt8)).length = padding 4 (off + k + n) :=
    fun k n hk => by rw [List.length_replicate, Bytes.padding_add_left hk]
  cases tok with
  | beginNode name =>
      have hlen : off + ((Tok.beginNode name).bytes nameoff).length = off + 4 + (name.length + 1) +
          (List.replicate (padding 4 (name.length + 1)) (0 : UInt8)).length := by
        simp only [Tok.bytes, List.length_append, List.length_cons, length_word]
        omega
      rw [hlen]
      exact .beginNode h hfits (hpad 4 _ (by omega))
  | endNode => exact .endNode h
  | prop name value =>
      obtain ⟨hvalue, hnameoff, hstring, hname⟩ := hfits
      have hlen : off + ((Tok.prop name value).bytes nameoff).length = off + 12 + value.length +
          (List.replicate (padding 4 value.length) (0 : UInt8)).length := by
        simp only [Tok.bytes, List.length_append, length_word]
        omega
      rw [hlen]
      exact .prop h hvalue hnameoff hstring hname (hpad 12 _ (by omega))
  | nop => exact .nop h

/-- The tokens, each with the offset of its name, and the word that ends them. -/
def structBlock (toks : List (Tok × Nat)) : List UInt8 :=
  toks.flatMap (fun t => t.1.bytes t.2) ++ word 9

theorem lexes_structBlock {toks : List (Tok × Nat)} (hfits : ∀ t ∈ toks, t.1.Fits strings t.2) :
    ∀ off, off % 4 = 0 → structBlock toks <+: structs.drop off →
      ∃ stop, Lexes structs strings off (toks.map Prod.fst) stop ∧ EndsAt structs stop := by
  induction toks with
  | nil => exact fun off _ h => ⟨off, .nil off, h⟩
  | cons t toks ih =>
      intro off hoff h
      obtain ⟨hfit, hfits⟩ := List.forall_mem_cons.mp hfits
      rw [structBlock, List.flatMap_cons, List.append_assoc] at h
      have hlex := lex_bytes hfit hoff (Bytes.prefix_append_left h)
      have hmod := Tok.bytes_length_mod t.2 t.1
      obtain ⟨stop, hrest, hend⟩ := ih hfits _ (by omega) (Bytes.prefix_append_right h)
      exact ⟨stop, .cons hlex hrest, hend⟩

/-- The tokens of a tree, written in the usual layout. -/
theorem flattened_assemble {entries : List (Nat × Nat)} {toks : List (Tok × Nat)} {items : Items}
    (htoks : (Items.node [] items .nil).Flattens (toks.map Prod.fst))
    (hfits : ∀ t ∈ toks, t.1.Fits strings t.2)
    (hsize : (assemble entries (structBlock toks) strings).length < 2 ^ 32) :
    Flattened (assemble entries (structBlock toks) strings)
      (layout entries (structBlock toks) strings) entries items := by
  obtain ⟨stop, hlexes, hend⟩ :=
    lexes_structBlock hfits 0 rfl (List.prefix_refl (structBlock toks))
  exact .intro (blob_assemble hsize) htoks hlexes hend

end Aarch64.Fdt
