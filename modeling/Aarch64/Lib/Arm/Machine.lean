import Aarch64.Lib.Arm.Memory
import Mathlib.Data.List.Pairwise

/-!
# Straight-line code of 64-bit Arm processors

The instructions that move words between registers and memory, and calls. A call runs
code that is not part of the program, so it is a function on states. Immediate values are
words, extended with their sign.
-/

namespace Arm

abbrev Gpr := Fin 31

instance neZero_gpr : @NeZero Nat Zero.ofOfNat0 31 := ⟨Nat.succ_ne_zero 30⟩

/-- A register that is moved, where number 31 reads as zero. -/
inductive Operand where
  | x (n : Gpr)
  | xzr
  deriving DecidableEq, Repr

/-- A register that holds an address, where number 31 is the stack pointer. -/
inductive Base where
  | x (n : Gpr)
  | sp
  deriving DecidableEq, Repr

inductive SysReg where
  | esr
  | far
  deriving DecidableEq, Repr

/-- `stpPre` writes the address back to its base. -/
inductive Instr where
  | stp (t t' : Operand) (n : Base) (imm : Word)
  | stpPre (t t' : Operand) (n : Base) (imm : Word)
  | ldp (t t' : Gpr) (n : Base) (imm : Word)
  | mov (d n : Base)
  | add (d n : Base) (imm : Word)
  | sub (d n : Base) (imm : Word)
  | and (d n : Base) (imm : Word)
  | mrs (t : Gpr) (r : SysReg)
  | bl
  | eret
  deriving DecidableEq, Repr

@[ext]
structure State where
  x : Gpr → Word
  sp : Word
  sys : SysReg → Word
  mem : Memory

namespace State

def read (s : State) : Operand → Word
  | .x n => s.x n
  | .xzr => 0

def addr (s : State) : Base → Word
  | .x n => s.x n
  | .sp => s.sp

def write (s : State) (v : Word) : Base → State
  | .x n => { s with x := Function.update s.x n v }
  | .sp => { s with sp := v }

end State

/-- What is called finds the return address in `x30`. -/
structure Callee where
  link : Word
  body : State → State

def Callee.enter (c : Callee) (s : State) : State := { s with x := Function.update s.x 30 c.link }

@[simp] theorem Callee.enter_sp (c : Callee) (s : State) : (c.enter s).sp = s.sp := rfl

@[simp] theorem Callee.enter_mem (c : Callee) (s : State) : (c.enter s).mem = s.mem := rfl

theorem Callee.enter_of_ne (c : Callee) (s : State) {r : Gpr} (h : r ≠ 30) :
    (c.enter s).x r = s.x r := by
  show Function.update s.x 30 c.link r = s.x r
  rw [Function.update_of_ne h]

/-- `eret` goes back to the code that was interrupted, with registers and memory as they are. -/
def exec (c : Callee) (s : State) : Instr → State
  | .stp t t' n imm => { s with mem := s.mem.storePair (s.addr n + imm) (s.read t) (s.read t') }
  | .stpPre t t' n imm =>
      { s with mem := s.mem.storePair (s.addr n + imm) (s.read t) (s.read t') }.write
        (s.addr n + imm) n
  | .ldp t t' n imm =>
      let v := s.mem.loadPair (s.addr n + imm)
      { s with x := Function.update (Function.update s.x t v.1) t' v.2 }
  | .mov d n => s.write (s.addr n) d
  | .add d n imm => s.write (s.addr n + imm) d
  | .sub d n imm => s.write (s.addr n - imm) d
  | .and d n imm => s.write (s.addr n &&& imm) d
  | .mrs t r => { s with x := Function.update s.x t (s.sys r) }
  | .bl => c.body (c.enter s)
  | .eret => s

def run (c : Callee) (s : State) (code : List Instr) : State := code.foldl (exec c) s

variable {c : Callee} {s : State}

@[simp] theorem run_append (c : Callee) (s : State) (code code' : List Instr) :
    run c s (code ++ code') = run c (run c s code) code' := List.foldl_append

@[simp] theorem run_cons (c : Callee) (s : State) (i : Instr) (code : List Instr) :
    run c s (i :: code) = run c (exec c s i) code := rfl

@[simp] theorem run_nil (c : Callee) (s : State) : run c s [] = s := rfl

/-! ## One instruction -/

section exec

variable (c : Callee) (s : State)

theorem exec_stp (t t' : Operand) (n : Base) (imm : Word) : exec c s (.stp t t' n imm) =
    { s with mem := s.mem.storePair (s.addr n + imm) (s.read t) (s.read t') } := by rw [exec]

theorem exec_stpPre (t t' : Operand) (n : Base) (imm : Word) : exec c s (.stpPre t t' n imm) =
    { s with mem := s.mem.storePair (s.addr n + imm) (s.read t) (s.read t') }.write
      (s.addr n + imm) n := by rw [exec]

theorem exec_ldp (t t' : Gpr) (n : Base) (imm : Word) : exec c s (.ldp t t' n imm) =
    { s with
      x := Function.update (Function.update s.x t (s.mem.loadPair (s.addr n + imm)).1) t'
        (s.mem.loadPair (s.addr n + imm)).2 } := by rw [exec]

@[simp] theorem exec_mov (d n : Base) : exec c s (.mov d n) = s.write (s.addr n) d := by rw [exec]

@[simp] theorem exec_add (d n : Base) (imm : Word) :
    exec c s (.add d n imm) = s.write (s.addr n + imm) d := by rw [exec]

@[simp] theorem exec_sub (d n : Base) (imm : Word) :
    exec c s (.sub d n imm) = s.write (s.addr n - imm) d := by rw [exec]

@[simp] theorem exec_and (d n : Base) (imm : Word) :
    exec c s (.and d n imm) = s.write (s.addr n &&& imm) d := by rw [exec]

@[simp] theorem exec_mrs (t : Gpr) (r : SysReg) :
    exec c s (.mrs t r) = { s with x := Function.update s.x t (s.sys r) } := by rw [exec]

@[simp] theorem exec_bl : exec c s .bl = c.body (c.enter s) := by rw [exec]

@[simp] theorem exec_eret : exec c s .eret = s := by rw [exec]

end exec

/-! ## Saving to the stack -/

/-- Pairs of words at offsets from `f`. -/
def storeAll (m : Memory) (f : Word) (l : List (Word × Word × Word)) : Memory :=
  l.foldl (fun m e => m.storePair (f + e.1) e.2.1 e.2.2) m

def stps (l : List (Operand × Operand × Word)) : List Instr :=
  l.map fun e => .stp e.1 e.2.1 .sp e.2.2

/-- Two pairs of words do not overlap. -/
def Apart (o o' : Word) : Prop := 16 ≤ (o - o').toNat ∧ 16 ≤ (o' - o).toNat

instance (o o' : Word) : Decidable (Apart o o') := inferInstanceAs (Decidable (_ ∧ _))

theorem run_stps (c : Callee) (l : List (Operand × Operand × Word)) (s : State) :
    run c s (stps l) =
      { s with mem := storeAll s.mem s.sp (l.map fun e => (e.2.2, s.read e.1, s.read e.2.1)) } := by
  induction l generalizing s with
  | nil => rfl
  | cons e l ih =>
      rw [stps, List.map_cons, run_cons]
      exact ih _

variable {m : Memory} {f o p : Word} {l : List (Word × Word × Word)}

theorem storeAll_cons (m : Memory) (f : Word) (e : Word × Word × Word)
    (l : List (Word × Word × Word)) :
    storeAll m f (e :: l) = storeAll (m.storePair (f + e.1) e.2.1 e.2.2) f l := rfl

@[simp] theorem storeAll_append (m : Memory) (f : Word) (l l' : List (Word × Word × Word)) :
    storeAll m f (l ++ l') = storeAll (storeAll m f l) f l' := List.foldl_append

theorem storeAll_of_le (h : ∀ e ∈ l, 16 ≤ (p - (f + e.1)).toNat) : storeAll m f l p = m p := by
  induction l generalizing m with
  | nil => rfl
  | cons e l ih =>
      obtain ⟨he, hl⟩ := List.forall_mem_cons.mp h
      exact (ih hl).trans (Memory.storePair_of_le he)

theorem loadPair_storeAll_of_apart (h : ∀ e ∈ l, Apart o e.1) :
    (storeAll m f l).loadPair (f + o) = m.loadPair (f + o) := by
  induction l generalizing m with
  | nil => rfl
  | cons e l ih =>
      obtain ⟨⟨he, he'⟩, hl⟩ := List.forall_mem_cons.mp h
      refine (ih hl).trans (Memory.loadPair_storePair_of_apart ?_ ?_)
      · have hsub : f + o - (f + e.1) = o - e.1 := by bv_omega
        rwa [hsub]
      · have hsub : f + e.1 - (f + o) = e.1 - o := by bv_omega
        rwa [hsub]

/-- What is stored at an offset is there when all has been stored. -/
theorem loadPair_storeAll (hl : l.Pairwise fun e e' => Apart e.1 e'.1) {e : Word × Word × Word}
    (he : e ∈ l) : (storeAll m f l).loadPair (f + e.1) = e.2 := by
  induction l generalizing m with
  | nil => cases he
  | cons e' l ih =>
      obtain ⟨hhead, htail⟩ := List.pairwise_cons.mp hl
      rcases List.mem_cons.mp he with rfl | he
      · refine (loadPair_storeAll_of_apart hhead).trans ?_
        exact Memory.loadPair_storePair_self m (f + e.1) e.2.1 e.2.2
      · exact ih htail he

/-! ## Loading from the stack -/

def ldps (l : List (Gpr × Gpr × Word)) : List Instr := l.map fun e => .ldp e.1 e.2.1 .sp e.2.2

/-- The registers that are loaded. -/
def loaded (l : List (Gpr × Gpr × Word)) : List Gpr := l.flatMap fun e => [e.1, e.2.1]

@[simp] theorem mem_loaded {l : List (Gpr × Gpr × Word)} {r : Gpr} :
    r ∈ loaded l ↔ ∃ e ∈ l, r = e.1 ∨ r = e.2.1 := by
  simp only [loaded, List.mem_flatMap, List.mem_cons, List.not_mem_nil, or_false]

/-- The registers that are not loaded stay, and the others get what lies at the offsets. -/
theorem run_ldps (c : Callee) (s : State) (l : List (Gpr × Gpr × Word)) :
    ∃ x, run c s (ldps l) = { s with x } ∧ (∀ r ∉ loaded l, x r = s.x r) ∧
      ((loaded l).Nodup → ∀ e ∈ l, (x e.1, x e.2.1) = s.mem.loadPair (s.sp + e.2.2)) := by
  induction l generalizing s with
  | nil => exact ⟨s.x, rfl, fun _ _ => rfl, fun _ e he => by cases he⟩
  | cons e l ih =>
      obtain ⟨x, hrun, hkept, hload⟩ := ih (exec c s (.ldp e.1 e.2.1 .sp e.2.2))
      refine ⟨x, hrun, fun r hr => ?_, fun hnodup e' he' => ?_⟩
      · obtain ⟨hfirst, hrest⟩ := not_or.mp (List.mem_cons.not.mp hr)
        obtain ⟨hsecond, hrest⟩ := not_or.mp (List.mem_cons.not.mp hrest)
        rw [hkept r hrest]
        exact (Function.update_of_ne hsecond _ _).trans (Function.update_of_ne hfirst _ _)
      · obtain ⟨hfirst, hrest⟩ := List.nodup_cons.mp hnodup
        obtain ⟨hsecond, hrest⟩ := List.nodup_cons.mp hrest
        obtain ⟨hne, hfirst⟩ := not_or.mp (List.mem_cons.not.mp hfirst)
        rcases List.mem_cons.mp he' with rfl | he'
        · refine Prod.ext ((hkept _ hfirst).trans ?_) ((hkept _ hsecond).trans ?_)
          · exact (Function.update_of_ne hne _ _).trans (Function.update_self _ _ _)
          · exact Function.update_self _ _ _
        · exact hload hrest e' he'

end Arm
