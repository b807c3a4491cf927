import Aarch64.Fdt.Format

/-!
# The grammar of the structure

A structure is read by recursive descent: a sequence of items is a property, a NOP or a
node and then the rest, and the body of a node is a sequence of items up to its end. A
reading spells out tokens, and tokens in which every end of a node has its beginning
come from a reading.
-/

namespace Aarch64.Fdt

namespace Items

/-- The items that are read from `off` up to `stop`. -/
inductive Reads (structs strings : List UInt8) : (off : Nat) → Items → (stop : Nat) → Prop
  | done (off : Nat) : Reads structs strings off .nil off
  | nop {off next stop : Nat} {items : Items} (hlex : Lex structs strings off .nop next)
      (hrest : Reads structs strings next items stop) : Reads structs strings off items stop
  | prop {off next stop : Nat} {name value : List UInt8} {rest : Items}
      (hlex : Lex structs strings off (.prop name value) next)
      (hrest : Reads structs strings next rest stop) :
      Reads structs strings off (.prop name value rest) stop
  | node {off inner close next stop : Nat} {name : List UInt8} {body rest : Items}
      (hopen : Lex structs strings off (.beginNode name) inner)
      (hbody : Reads structs strings inner body close)
      (hclose : Lex structs strings close .endNode next)
      (hrest : Reads structs strings next rest stop) :
      Reads structs strings off (.node name body rest) stop

/-- All names are strings of the language. -/
def IsUtf8 : Items → Prop
  | nil => True
  | prop name _ rest => Bytes.isUtf8 name = true ∧ rest.IsUtf8
  | node name body rest => Bytes.isUtf8 name = true ∧ body.IsUtf8 ∧ rest.IsUtf8

/-- A number of cells is a word. -/
def Wide : Items → Prop
  | nil => True
  | prop name value rest => (IsCells name → 4 ≤ value.length) ∧ rest.Wide
  | node _ body rest => body.Wide ∧ rest.Wide

theorem WellFormed.wide {items : Items} (h : items.WellFormed) : items.Wide := by
  induction h with
  | nil => trivial
  | prop hzero hname hfresh hcells hrest ih => exact ⟨hcells, ih⟩
  | node hzero hname hfresh hbody hrest ihbody ih => exact ⟨ihbody, ih⟩

theorem WellFormed.isUtf8 {items : Items} (h : items.WellFormed) : items.IsUtf8 := by
  induction h with
  | nil => trivial
  | prop hzero hname hfresh hcells hrest ih => exact ⟨hname, ih⟩
  | node hzero hname hfresh hbody hrest ihbody ih => exact ⟨hname, ihbody, ih⟩

end Items

variable {structs strings : List UInt8} {off next stop : Nat} {toks toks' : List Tok}
variable {items : Items} {n : Nat}

theorem Lexes.append (h : Lexes structs strings off toks next)
    (h' : Lexes structs strings next toks' stop) : Lexes structs strings off (toks ++ toks') stop := by
  induction h with
  | nil => exact h'
  | cons hlex hrest ih => exact .cons hlex (ih h')

theorem Lexes.split (h : Lexes structs strings off (toks ++ toks') stop) :
    ∃ next, Lexes structs strings off toks next ∧ Lexes structs strings next toks' stop := by
  induction toks generalizing off with
  | nil => exact ⟨off, .nil off, h⟩
  | cons tok toks ih =>
      obtain _ | ⟨hlex, hrest⟩ := h
      obtain ⟨next, hfirst, hsecond⟩ := ih hrest
      exact ⟨next, .cons hlex hfirst, hsecond⟩

/-- A reading spells out the tokens of its items. -/
theorem Items.Reads.lexes (h : items.Reads structs strings off stop) :
    ∃ toks, items.Flattens toks ∧ Lexes structs strings off toks stop := by
  induction h with
  | done off => exact ⟨[], .nil, .nil off⟩
  | nop hlex hrest ih =>
      obtain ⟨toks, hflat, hlexes⟩ := ih
      exact ⟨_, .nop hflat, .cons hlex hlexes⟩
  | prop hlex hrest ih =>
      obtain ⟨toks, hflat, hlexes⟩ := ih
      exact ⟨_, .prop hflat, .cons hlex hlexes⟩
  | node hopen hbody hclose hrest ihbody ih =>
      obtain ⟨toks, hflat, hlexes⟩ := ihbody
      obtain ⟨toks', hflat', hlexes'⟩ := ih
      exact ⟨_, .node hflat hflat', .cons hopen (hlexes.append (.cons hclose hlexes'))⟩

theorem Items.Flattens.reads (h : items.Flattens toks) (hlexes : Lexes structs strings off toks stop) :
    items.Reads structs strings off stop := by
  induction h generalizing off stop with
  | nil =>
      cases hlexes
      exact .done off
  | nop h ih =>
      obtain _ | ⟨hlex, hrest⟩ := hlexes
      exact .nop hlex (ih hrest)
  | prop h ih =>
      obtain _ | ⟨hlex, hrest⟩ := hlexes
      exact .prop hlex (ih hrest)
  | node h hrest ih ihrest =>
      obtain _ | ⟨hopen, hlexes⟩ := hlexes
      obtain ⟨close, hbody, hlexes⟩ := hlexes.split
      obtain _ | ⟨hclose, hlexes⟩ := hlexes
      exact .node hopen (ih hbody) hclose (ihrest hlexes)

/-! ## Tokens that end open nodes -/

/-- The tokens complete `n` open nodes and then some items. -/
inductive Closes : Nat → List Tok → Prop
  | zero {items : Items} {toks : List Tok} (h : items.Flattens toks) : Closes 0 toks
  | succ {n : Nat} {items : Items} {toks rest : List Tok} (h : items.Flattens toks)
      (hrest : Closes n rest) : Closes (n + 1) (toks ++ .endNode :: rest)

theorem Closes.nop (h : Closes n toks) : Closes n (.nop :: toks) := by
  cases h with
  | zero h => exact .zero (.nop h)
  | succ h hrest => exact .succ (.nop h) hrest

theorem Closes.prop (name value : List UInt8) (h : Closes n toks) :
    Closes n (.prop name value :: toks) := by
  cases h with
  | zero h => exact .zero (.prop h)
  | succ h hrest => exact .succ (.prop h) hrest

theorem Closes.endNode (h : Closes n toks) : Closes (n + 1) (.endNode :: toks) :=
  .succ .nil h

/-- A node that opens takes what would have completed another one as its body. -/
theorem Closes.beginNode (name : List UInt8) (h : Closes (n + 1) toks) :
    Closes n (.beginNode name :: toks) := by
  obtain _ | ⟨hbody, hrest⟩ := h
  cases hrest with
  | zero h => exact .zero (.node hbody h)
  | @succ n items toks rest h hrest =>
      have hnode := @Items.Flattens.node name _ _ _ _ hbody h
      have hclose := Closes.succ hnode hrest
      simpa only [List.cons_append, List.append_assoc] using hclose

end Aarch64.Fdt
