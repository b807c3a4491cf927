import Aarch64.Cxx.Fdt.Tokens
import Aarch64.Rust.DeviceTree.Tokens

/-!
# Two scanners of one format

The bootstrap and the kernel scan device trees with scanners of their own. Run over the
same bytes, both do the same at each step, except for an alignment that ends exactly
behind the last byte: `align_forward` of the kernel refuses it.
-/

namespace Aarch64.Boot

open Bytes (isUtf8)
open Cxx.Fdt.Scanner (Over)

/-- The calls that both scanners have. Lengths and alignments are numbers of 32 bits and the
data is shorter than `2 ^ 32` bytes, so that no sum of either scanner wraps. -/
inductive ScanOp
  | be32
  | be64
  | cstr
  | bytes (n : Nat)
  | align (alignment : Nat)
  deriving DecidableEq, Repr

/-- What a call gives to its caller. -/
inductive ScanValue
  | number (x : Nat)
  | bytes (bytes : List UInt8)
  | unit
  deriving DecidableEq, Repr

/-- What can be seen of a call: its value, or that it failed, and the offset behind it. -/
structure Shown where
  value : Outcome Unit ScanValue
  offset : Nat
  deriving DecidableEq, Repr

namespace ScanOp

/-! ## The scanner of the kernel -/

def rustCall (s : Rust.Scanner) : ScanOp → Outcome String (ScanValue × Rust.Scanner)
  | be32 => do
      let (x, s) ← s.consumeBe32
      return (.number x, s)
  | be64 => do
      let (x, s) ← s.consumeBe64
      return (.number x, s)
  | cstr => do
      let (name, s) ← s.consumeCstr
      return (.bytes name, s)
  | bytes n => do
      let (value, s) ← s.consumeData n
      return (.bytes value, s)
  | align alignment => do
      let s ← s.alignForward alignment
      return (.unit, s)

/-- A call that fails leaves the scanner as it was. -/
def rustStep (op : ScanOp) (s : Rust.Scanner) : Shown × Rust.Scanner :=
  match op.rustCall s with
  | .ok (value, s') => (⟨.ok value, s'.offset⟩, s')
  | .err _ => (⟨.err (), s.offset⟩, s)
  | .fault => (⟨.fault, s.offset⟩, s)

def rustRun : List ScanOp → Rust.Scanner → List Shown
  | [], _ => []
  | op :: ops, s => (op.rustStep s).1 :: rustRun ops (op.rustStep s).2

/-! ## The scanner of the bootstrap -/

/-- The bytes of `ConsumeBytes` are those behind the pointer that it stores. -/
def cxxCall (buf : List UInt8) (s : Cxx.Fdt.Scanner) :
    ScanOp → Outcome Cxx.Fdt.Scanner (ScanValue × Cxx.Fdt.Scanner)
  | be32 => do
      let (x, s) ← s.consumeBe32 buf
      return (.number x, s)
  | be64 => do
      let (x, s) ← s.consumeBe64 buf
      return (.number x, s)
  | cstr => do
      let (name, s) ← s.consumeCstr buf
      return (.bytes name, s)
  | bytes n => do
      let (data, s) ← s.consumeBytes n
      return (.bytes ((buf.drop data).take n), s)
  | align alignment => do
      let s ← s.alignForward alignment
      return (.unit, s)

def cxxStep (buf : List UInt8) (op : ScanOp) (s : Cxx.Fdt.Scanner) : Shown × Cxx.Fdt.Scanner :=
  match op.cxxCall buf s with
  | .ok (value, s') => (⟨.ok value, s'.off⟩, s')
  | .err s' => (⟨.err (), s'.off⟩, s')
  | .fault => (⟨.fault, s.off⟩, s)

def cxxRun (buf : List UInt8) : List ScanOp → Cxx.Fdt.Scanner → List Shown
  | [], _ => []
  | op :: ops, s => (op.cxxStep buf s).1 :: cxxRun buf ops (op.cxxStep buf s).2

/-! ## Where they agree -/

/-- A string that the bootstrap reads in this step is UTF-8. -/
def ReadsUtf8 (buf : List UInt8) (op : ScanOp) (s : Cxx.Fdt.Scanner) : Prop :=
  op = cstr → ∀ name, (op.cxxStep buf s).1.value = .ok (.bytes name) → isUtf8 name = true

/-- The step would move the scanner, and exactly behind the last byte. -/
def AlignsToEnd (op : ScanOp) (s : Cxx.Fdt.Scanner) : Prop :=
  ∃ alignment, op = align alignment ∧ alignment ≠ 0 ∧ s.off % alignment ≠ 0 ∧
    s.off + (alignment - s.off % alignment) = s.size

/-- Each step of the bootstrap starts at a scanner with the property. -/
def Along (buf : List UInt8) (P : ScanOp → Cxx.Fdt.Scanner → Prop) :
    List ScanOp → Cxx.Fdt.Scanner → Prop
  | [], _ => True
  | op :: ops, s => P op s ∧ Along buf P ops (op.cxxStep buf s).2

variable {buf data : List UInt8} {p off : Nat}

/-- The calls either both fail or both give this value and move this far. -/
def Same (data : List UInt8) (p off : Nat) (op : ScanOp) (buf : List UInt8) : Prop :=
  (∃ value next, next ≤ data.length ∧ op.rustCall ⟨data, off⟩ = .ok (value, ⟨data, next⟩) ∧
      op.cxxCall buf ⟨p, data.length, off⟩ = .ok (value, ⟨p, data.length, next⟩)) ∨
    ((∃ e, op.rustCall ⟨data, off⟩ = .err e) ∧
      op.cxxCall buf ⟨p, data.length, off⟩ = .err ⟨p, data.length, off⟩)

theorem Same.steps {op : ScanOp} (h : Same data p off op buf) (hoff : off ≤ data.length) :
    ∃ next, next ≤ data.length ∧ (op.rustStep ⟨data, off⟩).2 = ⟨data, next⟩ ∧
      (op.cxxStep buf ⟨p, data.length, off⟩).2 = ⟨p, data.length, next⟩ ∧
      (op.rustStep ⟨data, off⟩).1 = (op.cxxStep buf ⟨p, data.length, off⟩).1 := by
  rw [rustStep, cxxStep]
  rcases h with ⟨value, next, hnext, hrust, hcxx⟩ | ⟨⟨e, hrust⟩, hcxx⟩
  · rw [hrust, hcxx]
    exact ⟨next, hnext, rfl, rfl, rfl⟩
  · rw [hrust, hcxx]
    exact ⟨off, hoff, rfl, rfl, rfl⟩

theorem add_le_of_prefix {l : List UInt8} (hoff : off ≤ data.length) (h : l <+: data.drop off) :
    off + l.length ≤ data.length := by
  have hle := h.length_le
  rw [List.length_drop] at hle
  omega

/-- The two ways to read a number agree. -/
theorem consumeBe_same (h : Over buf ⟨p, data.length, off⟩ data) (hoff : off ≤ data.length)
    (n : Nat) (mismatch : String) :
    (∃ x next, next ≤ data.length ∧
        (⟨data, off⟩ : Rust.Scanner).consumeBe n mismatch = .ok (x, ⟨data, next⟩) ∧
        Cxx.Fdt.Scanner.consumeBe buf n ⟨p, data.length, off⟩ =
          .ok (x, ⟨p, data.length, next⟩)) ∨
      ((∃ e, (⟨data, off⟩ : Rust.Scanner).consumeBe n mismatch = .err e) ∧
        Cxx.Fdt.Scanner.consumeBe buf n ⟨p, data.length, off⟩ = .err ⟨p, data.length, off⟩) := by
  rcases Rust.Scanner.consumeBe_cases ⟨data, off⟩ n mismatch with
    ⟨l, hlen, hl, hrust⟩ | ⟨hlt, hrust⟩
  · have hle : off + l.length ≤ data.length := add_le_of_prefix hoff hl
    rcases Cxx.Fdt.Scanner.consumeBe_cases h n with ⟨l', hlen', hl', hcxx⟩ | ⟨hlt, _⟩
    · have heq : l = l' := Bytes.prefix_unique hl hl' (hlen.trans hlen'.symm)
      rw [← heq] at hcxx
      exact .inl ⟨_, off + n, hlen ▸ hle, hrust, hcxx⟩
    · change data.length < off + n at hlt
      omega
  · change data.length < off + n at hlt
    rcases Cxx.Fdt.Scanner.consumeBe_cases h n with ⟨l', hlen', hl', _⟩ | ⟨_, hcxx⟩
    · have hle : off + l'.length ≤ data.length := add_le_of_prefix hoff hl'
      omega
    · exact .inr ⟨⟨_, hrust⟩, hcxx⟩

theorem same_be32 (h : Over buf ⟨p, data.length, off⟩ data) (hoff : off ≤ data.length) :
    Same data p off be32 buf := by
  rcases consumeBe_same h hoff 4 "Error while parsing 4-byte big-endian" with
    ⟨x, next, hnext, hrust, hcxx⟩ | ⟨⟨e, hrust⟩, hcxx⟩
  · exact .inl ⟨.number x, next, hnext, Outcome.bind_of_eq_ok hrust _,
      Outcome.bind_of_eq_ok hcxx _⟩
  · exact .inr ⟨⟨e, by rw [rustCall, Rust.Scanner.consumeBe32, hrust]; rfl⟩,
      by rw [cxxCall, Cxx.Fdt.Scanner.consumeBe32, hcxx]; rfl⟩

theorem same_be64 (h : Over buf ⟨p, data.length, off⟩ data) (hoff : off ≤ data.length) :
    Same data p off be64 buf := by
  rcases consumeBe_same h hoff 8 "Error while parsing 8-byte big-endian" with
    ⟨x, next, hnext, hrust, hcxx⟩ | ⟨⟨e, hrust⟩, hcxx⟩
  · exact .inl ⟨.number x, next, hnext, Outcome.bind_of_eq_ok hrust _,
      Outcome.bind_of_eq_ok hcxx _⟩
  · exact .inr ⟨⟨e, by rw [rustCall, Rust.Scanner.consumeBe64, hrust]; rfl⟩,
      by rw [cxxCall, Cxx.Fdt.Scanner.consumeBe64, hcxx]; rfl⟩

/-- A string that both can read is the same; one that only the kernel refuses is not UTF-8. -/
theorem same_cstr (h : Over buf ⟨p, data.length, off⟩ data) (hoff : off ≤ data.length)
    (hutf : ReadsUtf8 buf cstr ⟨p, data.length, off⟩) : Same data p off cstr buf := by
  rcases Cxx.Fdt.Scanner.consumeCstr_cases h hoff with ⟨name, hname, hzero, hcxx⟩ | ⟨hzero, hcxx⟩
  · have hcall : cstr.cxxCall buf ⟨p, data.length, off⟩ = .ok (.bytes name, _) :=
      Outcome.bind_of_eq_ok hcxx _
    have hutf8 : isUtf8 name = true := hutf rfl name (by rw [cxxStep, hcall])
    have hrust := Rust.Scanner.consumeCstr_of_prefix (s := ⟨data, off⟩) hname hzero hutf8
    have hle := Bytes.add_length_succ_le_of_prefix_drop hname
    exact .inl ⟨.bytes name, off + (name.length + 1), hle, Outcome.bind_of_eq_ok hrust _, hcall⟩
  · rcases Rust.Scanner.consumeCstr_cases (s := ⟨data, off⟩) hoff with
      ⟨name, hname, _, _, _⟩ | ⟨_, e, hrust⟩
    · refine absurd (hname.subset ?_) hzero
      exact List.mem_append_right _ (List.mem_singleton.mpr rfl)
    · exact .inr ⟨⟨e, by rw [rustCall, hrust]; rfl⟩, by rw [cxxCall, hcxx]; rfl⟩

theorem same_bytes (h : Over buf ⟨p, data.length, off⟩ data) (hoff : off ≤ data.length) (n : Nat) :
    Same data p off (bytes n) buf := by
  rcases Rust.Scanner.consumeData_cases ⟨data, off⟩ n with ⟨value, rfl, hvalue, hrust⟩ | ⟨hlt, hrust⟩
  · have hle : off + value.length ≤ data.length := add_le_of_prefix hoff hvalue
    have hcxx : Cxx.Fdt.Scanner.consumeBytes ⟨p, data.length, off⟩ value.length =
        .ok (p + off, ⟨p, data.length, off + value.length⟩) := if_neg (Nat.not_lt.mpr hle)
    have hbytes : (buf.drop (p + off)).take value.length = value :=
      (List.prefix_iff_eq_take.mp (h.prefix_drop hvalue)).symm
    refine .inl ⟨.bytes value, _, hle, Outcome.bind_of_eq_ok hrust _, ?_⟩
    rw [cxxCall, hcxx, Outcome.ok_bind]
    dsimp only
    rw [hbytes]
    rfl
  · have hcxx : Cxx.Fdt.Scanner.consumeBytes ⟨p, data.length, off⟩ n =
        .err ⟨p, data.length, off⟩ := if_pos hlt
    exact .inr ⟨⟨_, by rw [rustCall, hrust]; rfl⟩, by rw [cxxCall, hcxx]; rfl⟩

theorem alignsToEnd_iff {alignment : Nat} :
    AlignsToEnd (align alignment) ⟨p, data.length, off⟩ ↔ alignment ≠ 0 ∧ off % alignment ≠ 0 ∧
      off + (alignment - off % alignment) = data.length := by
  constructor
  · rintro ⟨_, ⟨⟩, h⟩
    exact h
  · exact fun h => ⟨alignment, rfl, h⟩

theorem same_align (hoff : off ≤ data.length) {alignment : Nat}
    (h : ¬ AlignsToEnd (align alignment) ⟨p, data.length, off⟩) :
    Same data p off (align alignment) buf := by
  rw [alignsToEnd_iff] at h
  by_cases hdone : alignment = 0 ∨ off % alignment = 0
  · have hrust : Rust.Scanner.alignForward ⟨data, off⟩ alignment = .ok ⟨data, off⟩ := if_pos hdone
    have hcxx : Cxx.Fdt.Scanner.alignForward ⟨p, data.length, off⟩ alignment =
        .ok ⟨p, data.length, off⟩ := if_pos hdone
    exact .inl ⟨.unit, off, hoff, Outcome.bind_of_eq_ok hrust _, Outcome.bind_of_eq_ok hcxx _⟩
  · have hrust : Rust.Scanner.alignForward ⟨data, off⟩ alignment =
        if off + (alignment - off % alignment) ≥ data.length then .err "Not enough data"
        else .ok ⟨data, off + (alignment - off % alignment)⟩ := if_neg hdone
    have hcxx : Cxx.Fdt.Scanner.alignForward ⟨p, data.length, off⟩ alignment =
        if off + (alignment - off % alignment) > data.length then .err ⟨p, data.length, off⟩
        else .ok ⟨p, data.length, off + (alignment - off % alignment)⟩ := if_neg hdone
    have hne : off + (alignment - off % alignment) ≠ data.length := fun heq =>
      h ⟨fun hzero => hdone (.inl hzero), fun hmod => hdone (.inr hmod), heq⟩
    rcases Nat.lt_or_gt_of_ne hne with hlt | hgt
    · rw [if_neg (Nat.not_le.mpr hlt)] at hrust
      rw [if_neg (Nat.not_lt.mpr hlt.le)] at hcxx
      exact .inl ⟨.unit, _, hlt.le, Outcome.bind_of_eq_ok hrust _, Outcome.bind_of_eq_ok hcxx _⟩
    · rw [if_pos hgt.le] at hrust
      rw [if_pos hgt] at hcxx
      exact .inr ⟨⟨_, by rw [rustCall, hrust]; rfl⟩, by rw [cxxCall, hcxx]; rfl⟩

/-- The kernel asks for a byte behind the padding, the bootstrap for none. -/
theorem steps_ne_of_alignsToEnd {op : ScanOp} (h : AlignsToEnd op ⟨p, data.length, off⟩) :
    (op.rustStep ⟨data, off⟩).1 ≠ (op.cxxStep buf ⟨p, data.length, off⟩).1 := by
  obtain ⟨alignment, rfl, hpos, hmod, hend⟩ := h
  change off % alignment ≠ 0 at hmod
  change off + (alignment - off % alignment) = data.length at hend
  have hdone : ¬ (alignment = 0 ∨ off % alignment = 0) := not_or.mpr ⟨hpos, hmod⟩
  have hrust : Rust.Scanner.alignForward ⟨data, off⟩ alignment = .err "Not enough data" :=
    (if_neg hdone).trans (if_pos hend.ge)
  have hcxx : Cxx.Fdt.Scanner.alignForward ⟨p, data.length, off⟩ alignment =
      .ok ⟨p, data.length, off + (alignment - off % alignment)⟩ :=
    (if_neg hdone).trans (if_neg (Nat.not_lt.mpr hend.le))
  rw [rustStep, cxxStep, rustCall, cxxCall, hrust, hcxx]
  intro heq
  cases congrArg Shown.value heq

theorem same_of_not_alignsToEnd {op : ScanOp} (h : Over buf ⟨p, data.length, off⟩ data)
    (hoff : off ≤ data.length) (hutf : ReadsUtf8 buf op ⟨p, data.length, off⟩)
    (hend : ¬ AlignsToEnd op ⟨p, data.length, off⟩) : Same data p off op buf := by
  cases op with
  | be32 => exact same_be32 h hoff
  | be64 => exact same_be64 h hoff
  | cstr => exact same_cstr h hoff hutf
  | bytes n => exact same_bytes h hoff n
  | align alignment => exact same_align hoff hend

/-- The runs agree from a common offset on. The induction is on the calls. -/
theorem runs_agree_iff (hat : data <+: buf.drop p) : ∀ (ops : List ScanOp) (off : Nat),
    off ≤ data.length → Along buf (ReadsUtf8 buf) ops ⟨p, data.length, off⟩ →
    (rustRun ops ⟨data, off⟩ = cxxRun buf ops ⟨p, data.length, off⟩ ↔
      Along buf (fun op s => ¬ AlignsToEnd op s) ops ⟨p, data.length, off⟩) := by
  intro ops
  induction ops with
  | nil => exact fun off _ _ => iff_of_true rfl trivial
  | cons op ops ih =>
      intro off hoff hutf
      obtain ⟨hfirst, hrest⟩ := hutf
      rw [rustRun, cxxRun, Along, List.cons.injEq]
      by_cases hend : AlignsToEnd op ⟨p, data.length, off⟩
      · exact iff_of_false (fun h => steps_ne_of_alignsToEnd hend h.1) fun h => h.1 hend
      · have hsame := same_of_not_alignsToEnd ⟨rfl, hat⟩ hoff hfirst hend
        obtain ⟨next, hnext, hrust, hcxx, hshown⟩ := hsame.steps hoff
        rw [hcxx] at hrest ⊢
        rw [hrust]
        exact and_congr (iff_of_true hshown hend) (ih next hnext hrest)

/-- Where the bootstrap reads UTF-8 only, the two scanners show the same at every step
exactly if no step aligns to the end of the data. -/
theorem scanners_agree_iff (hat : data <+: buf.drop p) (ops : List ScanOp)
    (hutf : Along buf (ReadsUtf8 buf) ops (Cxx.Fdt.Scanner.new p data.length)) :
    rustRun ops (Rust.Scanner.new data) = cxxRun buf ops (Cxx.Fdt.Scanner.new p data.length) ↔
      Along buf (fun op s => ¬ AlignsToEnd op s) ops (Cxx.Fdt.Scanner.new p data.length) :=
  runs_agree_iff hat ops 0 (Nat.zero_le _) hutf

/-- One byte and an alignment that stays inside. -/
theorem scanners_agree_inside :
    rustRun [.bytes 1, .align 2] (Rust.Scanner.new [1, 2, 3]) =
        cxxRun [1, 2, 3] [.bytes 1, .align 2] (Cxx.Fdt.Scanner.new 0 3) ↔
      Along [1, 2, 3] (fun op s => ¬ AlignsToEnd op s) [.bytes 1, .align 2]
        (Cxx.Fdt.Scanner.new 0 3) := by
  have hat : ([1, 2, 3] : List UInt8) <+: ([1, 2, 3] : List UInt8).drop 0 := List.prefix_refl _
  have hutf : Along [1, 2, 3] (ReadsUtf8 [1, 2, 3]) [.bytes 1, .align 2]
      (Cxx.Fdt.Scanner.new 0 3) := ⟨nofun, nofun, trivial⟩
  exact scanners_agree_iff hat _ hutf

/-- One byte and an alignment that ends with the data. -/
theorem scanners_agree_fails : ¬ ∀ (data : List UInt8) (ops : List ScanOp),
    Along data (ReadsUtf8 data) ops (Cxx.Fdt.Scanner.new 0 data.length) →
    rustRun ops (Rust.Scanner.new data) =
      cxxRun data ops (Cxx.Fdt.Scanner.new 0 data.length) := by
  intro h
  have hutf : Along [1, 2, 3, 4] (ReadsUtf8 [1, 2, 3, 4]) [.bytes 1, .align 4]
      (Cxx.Fdt.Scanner.new 0 4) := ⟨nofun, nofun, trivial⟩
  have hagree := h [1, 2, 3, 4] [.bytes 1, .align 4] hutf
  exact absurd hagree (by decide)

end ScanOp

end Aarch64.Boot
