import Aarch64.Cxx.Bootstrap.Basic
import Aarch64.Cxx.Fdt.Tokens

/-!
# The bootstrap reads tokens

What `RegisterMemory` does with a blob depends only on the tokens of its structure. The
walk is a recursion on the tokens: at depth zero they belong to the root, and below they
are skipped up to the end of a child.
-/

namespace Aarch64.Cxx.Bootstrap

open Aarch64.Fdt (Tok Lexes EndsAt IsCells IsPairs cellValue pairs takePairs)
open Aarch64.Cxx.Fdt (Scanner Property Span Blob)
open Aarch64.Cxx.Fdt.Scanner (Over)

/-! ## The walk -/

def registerPairs : List (Nat × Nat) → MemoryMap → Outcome MemoryMap MemoryMap
  | [], mmap => .ok mmap
  | p :: ps, mmap => do
      let mmap ← registerRange p.1 p.2 mmap
      registerPairs ps mmap

/-- One or two cells, for which there is a case. -/
def Supported (address size : Nat) : Prop :=
  (address = 1 ∨ address = 2) ∧ (size = 1 ∨ size = 2)

instance (address size : Nat) : Decidable (Supported address size) :=
  inferInstanceAs (Decidable (_ ∧ _))

def registerValue (address size : Nat) (value : List UInt8) (mmap : MemoryMap) :
    Outcome MemoryMap MemoryMap :=
  if Supported address size ∧ IsPairs address size value then
    registerPairs (pairs address size value) mmap
  else .err mmap

/-- The tokens of a child from its name on, up to its `reg` property or its end. -/
def memoryNode (address size : Nat) : List Tok → MemoryMap → Outcome MemoryMap MemoryMap
  | .prop name value :: toks, mmap =>
      if name = Bytes.ofString "reg" then registerValue address size value mmap
      else memoryNode address size toks mmap
  | .endNode :: _, mmap => .ok mmap
  | _, mmap => .err mmap

/-- The name that makes the bootstrap look into a child. -/
def StartsMemory (name : List UInt8) : Prop := Bytes.ofString "memory" <+: name

instance (name : List UInt8) : Decidable (StartsMemory name) :=
  inferInstanceAs (Decidable (_ <+: _))

/-- A child of the root with this name, of which the tokens are left. -/
def child (address size : Nat) (name : List UInt8) (toks : List Tok) (mmap : MemoryMap) :
    Outcome MemoryMap MemoryMap :=
  if StartsMemory name then memoryNode address size toks mmap else .ok mmap

def walk : (depth address size : Nat) → List Tok → MemoryMap → Outcome MemoryMap MemoryMap
  | 0, _, _, [], mmap => .ok mmap
  | 0, address, size, .prop name value :: toks, mmap =>
      if IsCells name ∧ value.length < 4 then .err mmap
      else
        walk 0 (if name = Bytes.ofString "#address-cells" then cellValue value else address)
          (if name = Bytes.ofString "#size-cells" then cellValue value else size) toks mmap
  | 0, address, size, .beginNode name :: toks, mmap => do
      let mmap ← child address size name toks mmap
      walk 1 address size toks mmap
  | 0, address, size, .endNode :: toks, mmap => walk 0 address size toks mmap
  | 0, address, size, .nop :: toks, mmap => walk 0 address size toks mmap
  | _ + 1, _, _, [], mmap => .err mmap
  | depth + 1, address, size, .beginNode _ :: toks, mmap => walk (depth + 2) address size toks mmap
  | depth + 1, address, size, .endNode :: toks, mmap => walk depth address size toks mmap
  | depth + 1, address, size, .prop _ _ :: toks, mmap => walk (depth + 1) address size toks mmap
  | depth + 1, address, size, .nop :: toks, mmap => walk (depth + 1) address size toks mmap

variable {buf structs strings : List UInt8} {blob : Blob} {toks : List Tok} {stop : Nat}

/-! ## Values -/

theorem element_of_le {value : List UInt8} {data count a n it : Nat}
    (h : Over buf (Scanner.new data ((a + n) * count)) value) (hit : it < count) :
    element buf a n (Span.new data count (a + n)) it =
      .ok (Bytes.toNat ((value.drop (it * (a + n))).take a),
        Bytes.toNat ((value.drop (it * (a + n) + a)).take n)) := by
  rw [element, Span.at_of_le h hit]

theorem regionsLoop_eq {value : List UInt8} {data count address size : Nat}
    (h : Over buf (Scanner.new data ((4 * address + 4 * size) * count)) value) :
    ∀ (rounds it : Nat) (mmap : MemoryMap), it + rounds = count →
    regionsLoop buf (4 * address) (4 * size)
        (Span.new data count (4 * address + 4 * size)) rounds it mmap =
      registerPairs (takePairs address size rounds
        (value.drop (it * (4 * address + 4 * size)))) mmap := by
  intro rounds
  induction rounds with
  | zero => exact fun it mmap _ => rfl
  | succ rounds ih =>
      intro it mmap hcount
      have hnext : value.drop ((it + 1) * (4 * address + 4 * size)) =
          (value.drop (it * (4 * address + 4 * size))).drop (4 * (address + size)) := by
        rw [List.drop_drop, Nat.succ_mul, Nat.mul_add 4]
      have hsize : value.drop (it * (4 * address + 4 * size) + 4 * address) =
          (value.drop (it * (4 * address + 4 * size))).drop (4 * address) := List.drop_drop.symm
      have hlt : it < count := by omega
      have helement := element_of_le h hlt
      rw [hsize] at helement
      rw [regionsLoop, helement, Outcome.ok_bind, takePairs, registerPairs, ← hnext]
      dsimp only
      rw [Outcome.ok_bind]
      dsimp only
      cases registerRange _ _ mmap with
      | ok mmap' => exact ih (it + 1) mmap' (by omega)
      | err mmap' => rfl
      | fault => rfl

theorem registerSpan_of_value {property : Property} {value : List UInt8}
    (h : property.Holds buf value) {address size : Nat} (hcells : Supported address size)
    (mmap : MemoryMap) : registerSpan buf property (4 * address) (4 * size) mmap =
      registerValue address size value mmap := by
  obtain ⟨ha, hs⟩ := hcells
  have hsize : property.size = value.length := h.size
  have hwire : 4 * address + 4 * size = 4 * (address + size) := (Nat.mul_add ..).symm
  have hiff : property.size % (4 * address + 4 * size) ≠ 0 ↔ ¬ IsPairs address size value := by
    rw [hsize, hwire, ne_eq, ← Nat.dvd_iff_mod_eq_zero]
    rfl
  rw [registerSpan, Property.valueAsSpan, registerValue]
  by_cases hpairs : IsPairs address size value
  · obtain ⟨count, hcount⟩ := hpairs
    have hpos : 0 < 4 * address + 4 * size := by omega
    have hdiv : property.size / (4 * address + 4 * size) = count := by
      rw [hsize, hcount, ← hwire, Nat.mul_div_cancel_left _ hpos]
    have hover : Over buf (Scanner.new property.data ((4 * address + 4 * size) * count)) value := by
      rw [hwire, ← hcount, ← hsize]
      exact h
    have hspan : (Span.new property.data count (4 * address + 4 * size)).size = count :=
      Nat.mul_div_cancel_left _ hpos
    rw [if_neg fun h => hiff.mp h ⟨count, hcount⟩, if_pos ⟨⟨ha, hs⟩, count, hcount⟩, hdiv]
    dsimp only
    rw [hspan, regionsLoop_eq hover count 0 mmap (Nat.zero_add _), Nat.zero_mul, List.drop_zero,
      pairs, hcount, Nat.mul_div_cancel_left _ (hwire ▸ hpos)]
  · rw [if_pos (hiff.mpr hpairs), if_neg fun h => hpairs h.2]

theorem registerRegions_of_value {property : Property} {value : List UInt8}
    (h : property.Holds buf value) (address size : Nat) (mmap : MemoryMap) :
    registerRegions buf property address size mmap = registerValue address size value mmap := by
  by_cases hcells : Supported address size
  · rw [← registerSpan_of_value h hcells]
    obtain ⟨rfl | rfl, rfl | rfl⟩ := hcells
    all_goals rfl
  · rw [registerValue, if_neg fun h => hcells h.1, registerRegions]
    unfold Supported at hcells
    rw [if_neg (by omega), if_neg (by omega), if_neg (by omega), if_neg (by omega)]

/-! ## The loops -/

theorem parseMemoryNode_eq (pos : Scanner) (address size : Nat) (mmap : MemoryMap) :
    parseMemoryNode buf blob pos address size mmap = (do
      let token ← (Blob.tokenAt buf pos).replaceErr mmap
      match token with
      | .prop => do
          let (property, pos) ← (Blob.consumeProperty buf blob pos).replaceErr mmap
          if StringView.eq property.name (Bytes.ofString "reg") then
            registerRegions buf property address size mmap
          else parseMemoryNode buf blob pos address size mmap
      | .endNode => .ok mmap
      | _ => .err mmap) := by
  rw [parseMemoryNode]
  cases Blob.tokenAt buf pos with
  | ok token =>
      cases token with
      | prop =>
          dsimp only
          split
          next h => rw [h]; rfl
          next h => rw [h]; rfl
          next h => rw [h]; rfl
      | beginNode => rfl
      | endNode => rfl
      | nop => rfl
      | stop => rfl
  | err e => rfl
  | fault => rfl

theorem registerLoop_eq (w : Walk) :
    registerLoop buf blob w = (registerRound buf blob w >>= fun r =>
      match r with
      | .inl mmap => .ok mmap
      | .inr w => registerLoop buf blob w) := by
  rw [registerLoop]
  split
  next h => rw [h, Outcome.ok_bind]
  next h => rw [h, Outcome.ok_bind]
  next h => rw [h, Outcome.err_bind]
  next h => rw [h, Outcome.fault_bind]

theorem zero_not_mem_of_lex {tok : Tok} {off next : Nat} {name : List UInt8}
    (h : Aarch64.Fdt.Lex structs strings off tok next)
    (htok : tok = .beginNode name ∨ ∃ value, tok = .prop name value) : 0 ∉ name := by
  rcases htok with rfl | ⟨value, rfl⟩
  · cases h
    assumption
  · cases h
    assumption

theorem parseMemoryNode_of_lexes {off : Nat} (hlexes : Lexes structs strings off toks stop)
    (hend : EndsAt structs stop) (hstr : Blob.StringsAt buf blob strings) {pos : Scanner}
    (hoff : pos.off = off) (h : Over buf pos structs) (address size : Nat) (mmap : MemoryMap) :
    parseMemoryNode buf blob pos address size mmap = memoryNode address size toks mmap := by
  induction hlexes generalizing pos with
  | nil off =>
      rw [parseMemoryNode_eq, Blob.tokenAt_of_endsAt h (hoff ▸ hend)]
      rfl
  | @cons off next stop tok toks hlex hrest ih =>
      subst hoff
      rw [parseMemoryNode_eq, Blob.tokenAt_of_lex h hlex]
      cases tok with
      | beginNode name => rfl
      | endNode => rfl
      | nop => rfl
      | prop name value =>
          obtain ⟨data, hcall, hholds⟩ := Blob.consumeProperty_of_lex h hstr hlex
          have hzero := zero_not_mem_of_lex hlex (Or.inr ⟨value, rfl⟩)
          change ((Blob.consumeProperty buf blob pos).replaceErr mmap >>= _) = _
          rw [hcall, memoryNode]
          exact if_congr (StringView.eq_iff hzero)
            (registerRegions_of_value hholds address size mmap)
            (ih hend rfl (h.of_sameWindow ⟨rfl, rfl⟩))

theorem readCells_of_value {property : Property} {value : List UInt8}
    (h : property.Holds buf value) (hzero : 0 ∉ property.name) (name : String) (cells : Nat)
    (mmap : MemoryMap) : readCells buf name property cells mmap =
      if property.name = Bytes.ofString name ∧ value.length < 4 then .err mmap
      else .ok (if property.name = Bytes.ofString name then cellValue value else cells) := by
  rw [readCells]
  by_cases hname : property.name = Bytes.ofString name
  · rw [if_pos ((StringView.eq_iff hzero).mpr hname), if_pos hname]
    rcases h.valueAsBe32 with ⟨hge, hcall⟩ | ⟨hlt, e, hcall⟩
    · rw [hcall, if_neg fun h => Nat.not_lt.mpr hge h.2]
      rfl
    · rw [hcall, if_pos ⟨hname, hlt⟩]
      rfl
  · rw [if_neg fun h => hname ((StringView.eq_iff hzero).mp h), if_neg hname,
      if_neg fun h => hname h.1]

theorem parseChild_of_lexes {off : Nat} (hlexes : Lexes structs strings off toks stop)
    (hend : EndsAt structs stop) (hstr : Blob.StringsAt buf blob strings) {pos : Scanner}
    (hoff : pos.off = off) (h : Over buf pos structs) {node : Aarch64.Cxx.Fdt.Node}
    (hzero : 0 ∉ node.name) (address size : Nat) (mmap : MemoryMap) :
    parseChild buf blob node pos address size mmap = child address size node.name toks mmap :=
  if_congr (StringView.startsWith_iff hzero)
    (parseMemoryNode_of_lexes hlexes hend hstr hoff h address size mmap) rfl

section Round

variable {w : Walk} {next : Nat} {name value : List UInt8}

theorem registerRound_of_endsAt (h : Over buf w.pos structs) (hend : EndsAt structs w.pos.off) :
    registerRound buf blob w = .ok (.inl w.mmap) := by
  rw [registerRound, Blob.tokenAt_of_endsAt h hend]
  rfl

theorem registerRound_of_nop (h : Over buf w.pos structs)
    (hlex : Aarch64.Fdt.Lex structs strings w.pos.off .nop next) :
    registerRound buf blob w = .ok (.inr { w with pos := { w.pos with off := next } }) := by
  rw [registerRound, Blob.tokenAt_of_lex h hlex]
  change (Blob.consumeNop buf w.pos).replaceErr w.mmap >>= _ = _
  rw [Blob.consumeNop_of_lex h hlex]
  rfl

theorem registerRound_of_endNode (h : Over buf w.pos structs)
    (hlex : Aarch64.Fdt.Lex structs strings w.pos.off .endNode next) :
    registerRound buf blob w = .ok (.inr { w with pos := { w.pos with off := next } }) := by
  rw [registerRound, Blob.tokenAt_of_lex h hlex]
  change (Blob.consumeEndNode buf w.pos).replaceErr w.mmap >>= _ = _
  rw [Blob.consumeEndNode_of_lex h hlex]
  rfl

/-- A property of the root sets the cells that it names. -/
theorem registerRound_of_prop (h : Over buf w.pos structs)
    (hstr : Blob.StringsAt buf blob strings)
    (hlex : Aarch64.Fdt.Lex structs strings w.pos.off (.prop name value) next) :
    registerRound buf blob w =
      if IsCells name ∧ value.length < 4 then .err w.mmap
      else .ok (.inr ⟨{ w.pos with off := next },
        if name = Bytes.ofString "#address-cells" then cellValue value else w.addressCells,
        if name = Bytes.ofString "#size-cells" then cellValue value else w.sizeCells,
        w.mmap⟩) := by
  obtain ⟨data, hcall, hholds⟩ := Blob.consumeProperty_of_lex h hstr hlex
  have hzero := zero_not_mem_of_lex hlex (Or.inr ⟨value, rfl⟩)
  rw [registerRound, Blob.tokenAt_of_lex h hlex]
  change (Blob.consumeProperty buf blob w.pos).replaceErr w.mmap >>= _ = _
  rw [hcall, Outcome.replaceErr_ok, Outcome.ok_bind]
  dsimp only
  rw [readCells_of_value hholds hzero, readCells_of_value hholds hzero]
  by_cases hshort : IsCells name ∧ value.length < 4
  · rw [if_pos hshort]
    rcases hshort.1 with hname | hname
    · rw [if_pos ⟨hname, hshort.2⟩]
      rfl
    · have hne : Bytes.ofString "#address-cells" ≠ Bytes.ofString "#size-cells" := by
        decide +kernel
      rw [if_neg fun h => hne (hname.symm.trans h.1), Outcome.ok_bind, if_pos ⟨hname, hshort.2⟩]
      rfl
  · rw [if_neg hshort, if_neg fun h => hshort ⟨Or.inl h.1, h.2⟩, Outcome.ok_bind,
      if_neg fun h => hshort ⟨Or.inr h.1, h.2⟩]
    rfl

/-- A child is registered if it is a memory node, and skipped from its name on. -/
theorem registerRound_of_beginNode (h : Over buf w.pos structs)
    (hstr : Blob.StringsAt buf blob strings) (hend : EndsAt structs stop)
    (hlex : Aarch64.Fdt.Lex structs strings w.pos.off (.beginNode name) next)
    (hrest : Lexes structs strings next toks stop) :
    registerRound buf blob w = (do
      let mmap ← child w.addressCells w.sizeCells name toks w.mmap
      let pos ← (blob.skipLoop buf { w.pos with off := next } 1).replaceErr mmap
      return .inr { w with pos, mmap }) := by
  have hnext : Over buf { w.pos with off := next } structs := h.of_sameWindow ⟨rfl, rfl⟩
  have hzero := zero_not_mem_of_lex hlex (Or.inl rfl)
  rw [registerRound, Blob.tokenAt_of_lex h hlex]
  change (Blob.consumeStartNode buf w.pos).replaceErr w.mmap >>= _ = _
  rw [Blob.consumeStartNode_of_lex h hlex, Outcome.replaceErr_ok, Outcome.ok_bind]
  dsimp only
  rw [parseChild_of_lexes hrest hend hstr rfl hnext hzero]
  congr 1
  funext mmap
  change (Outcome.replaceErr _ (blob.skipLoop buf _ 1)).replaceErr mmap >>= _ = _
  rw [Outcome.replaceErr_replaceErr]

end Round

/-- The loop at the root, and what is left of it while a child is skipped. -/
theorem walk_of_lexes {off : Nat} (hlexes : Lexes structs strings off toks stop)
    (hend : EndsAt structs stop) (hstr : Blob.StringsAt buf blob strings) {w : Walk}
    (hoff : w.pos.off = off) (h : Over buf w.pos structs) :
    registerLoop buf blob w = walk 0 w.addressCells w.sizeCells toks w.mmap ∧
      ∀ depth, ((blob.skipLoop buf w.pos (depth + 1)).replaceErr w.mmap >>= fun pos =>
        registerLoop buf blob { w with pos }) =
          walk (depth + 1) w.addressCells w.sizeCells toks w.mmap := by
  induction hlexes generalizing w with
  | nil off =>
      subst hoff
      constructor
      · rw [registerLoop_eq, registerRound_of_endsAt h hend]
        rfl
      · intro depth
        rw [Blob.skipLoop_eq, Blob.skipRound, Blob.tokenAt_of_endsAt h hend]
        rfl
  | @cons off next stop tok toks hlex hrest ih =>
      subst hoff
      have hnext : Over buf { w.pos with off := next } structs := h.of_sameWindow ⟨rfl, rfl⟩
      have hskip := Blob.skipRound_of_lex h hstr hlex
      have hgo := fun address size mmap =>
        ih hend (w := ⟨{ w.pos with off := next }, address, size, mmap⟩) rfl hnext
      cases tok with
      | beginNode name =>
          constructor
          · rw [registerLoop_eq, registerRound_of_beginNode h hstr hend hlex hrest, walk]
            cases child w.addressCells w.sizeCells name toks w.mmap with
            | ok mmap =>
                refine Eq.trans ?_ ((hgo w.addressCells w.sizeCells mmap).2 0)
                rw [Outcome.ok_bind]
                cases blob.skipLoop buf { w.pos with off := next } 1 with
                | ok pos => rfl
                | err e => rfl
                | fault => rfl
            | err mmap => rfl
            | fault => rfl
          · intro depth
            rw [Blob.skipLoop_eq, hskip]
            exact (hgo _ _ _).2 (depth + 1)
      | endNode =>
          constructor
          · rw [registerLoop_eq, registerRound_of_endNode h hlex]
            exact (hgo _ _ _).1
          · intro depth
            rw [Blob.skipLoop_eq, hskip, Blob.skipStep]
            cases depth with
            | zero => exact (hgo _ _ _).1
            | succ depth => exact (hgo _ _ _).2 depth
      | nop =>
          constructor
          · rw [registerLoop_eq, registerRound_of_nop h hlex]
            exact (hgo _ _ _).1
          · intro depth
            rw [Blob.skipLoop_eq, hskip]
            exact (hgo _ _ _).2 depth
      | prop name value =>
          constructor
          · rw [registerLoop_eq, registerRound_of_prop h hstr hlex, walk]
            by_cases hshort : IsCells name ∧ value.length < 4
            · rw [if_pos hshort, if_pos hshort]
              rfl
            · rw [if_neg hshort, if_neg hshort]
              exact (hgo _ _ _).1
          · intro depth
            rw [Blob.skipLoop_eq, hskip]
            exact (hgo _ _ _).2 depth

/-- The walk starts behind the first token and knows of no cells yet. -/
theorem registerMemory_of_lexes
    (hlexes : Lexes structs strings blob.root.offset.off toks stop) (hend : EndsAt structs stop)
    (hroot : Over buf blob.root.offset structs) (hstr : Blob.StringsAt buf blob strings)
    (mmap : MemoryMap) : registerMemory buf blob mmap = walk 0 2 2 toks mmap :=
  (walk_of_lexes hlexes hend hstr rfl hroot).1

end Aarch64.Cxx.Bootstrap
