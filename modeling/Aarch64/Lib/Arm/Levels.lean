import Aarch64.Lib.Arm.Machine
import Mathlib.Algebra.Group.Nat.Defs
import Mathlib.Logic.Relation

/-!
# Exception levels of 64-bit Arm processors

Code that branches, reads and sets registers of the system and leaves a level with `eret`.
A register of the system belongs to a level, and below that level an access to it is not
defined. Code lies at an address, and a label names an address, also of code that is not
part of the program. Of exception returns, those from level 3 to levels 2 and 3 are
modelled: all others depend on more registers.
-/

namespace Arm.Levels

abbrev Level := Fin 4

instance neZero_level : @NeZero Nat Zero.ofOfNat0 4 := ⟨Nat.succ_ne_zero 3⟩

/-- Registers that hold what was stored in them. -/
inductive ControlReg where
  | scrEl3
  | spsrEl3
  | elrEl3
  | sctlrEl2
  | vbarEl2
  | hcrEl2
  deriving DecidableEq, Repr

/-- What `mrs` and `msr` can name. -/
inductive SysReg where
  | currentEL
  | spSel
  | spEl2
  | control (r : ControlReg)
  deriving DecidableEq, Repr

/-- The lowest level that can access a register. The stack pointer of a level can be named
only above that level. -/
def SysReg.least : SysReg → Level
  | .currentEL | .spSel => 1
  | .spEl2 => 3
  | .control r => match r with
    | .scrEl3 | .spsrEl3 | .elrEl3 => 3
    | .sctlrEl2 | .vbarEl2 | .hcrEl2 => 2

/-- Instructions that are followed by the next one. -/
inductive Op (σ : Type) where
  | adr (d : Gpr) (label : σ)
  | mov (d n : Base)
  | movi (d : Gpr) (imm : Word)
  | and (d n : Gpr) (imm : Word)
  | orr (d n : Gpr) (imm : Word)
  | sub (d n : Gpr) (imm : Word)
  | cmp (n : Gpr) (imm : Word)
  | mrs (t : Gpr) (r : SysReg)
  | msr (r : SysReg) (t : Gpr)
  | daifSet (imm : BitVec 4)
  deriving DecidableEq, Repr

inductive Instr (σ : Type) where
  | op (o : Op σ)
  | b (label : σ)
  | beq (label : σ)
  | blo (label : σ)
  | bl (label : σ)
  | eret
  deriving DecidableEq, Repr

/-- Each level has a stack pointer, and `spSel` says whether a level uses its own or that of
level 0. -/
@[ext]
structure State where
  pc : Word
  x : Gpr → Word
  el : Level
  spSel : Bool
  sps : Level → Word
  daif : BitVec 4
  zero : Bool
  carry : Bool
  control : ControlReg → Word
  mem : Memory

namespace State

/-- The level whose stack pointer is used. -/
def bank (s : State) : Level := if s.spSel then s.el else 0

def sp (s : State) : Word := s.sps s.bank

def setX (s : State) (d : Gpr) (v : Word) : State := { s with x := Function.update s.x d v }

def setSp (s : State) (v : Word) : State := { s with sps := Function.update s.sps s.bank v }

def setSpEl2 (s : State) (v : Word) : State := { s with sps := Function.update s.sps 2 v }

def setControl (s : State) (r : ControlReg) (v : Word) : State :=
  { s with control := Function.update s.control r v }

def addr (s : State) : Base → Word
  | .x n => s.x n
  | .sp => s.sp

def write (s : State) (v : Word) : Base → State
  | .x n => s.setX n v
  | .sp => s.setSp v

def readSys (s : State) : SysReg → Word
  | .currentEL => BitVec.ofNat 64 s.el.val <<< 2
  | .spSel => if s.spSel then 1 else 0
  | .spEl2 => s.sps 2
  | .control r => s.control r

/-- The current level cannot be written. -/
def writeSys (s : State) (v : Word) : SysReg → Option State
  | .currentEL => none
  | .spSel => some { s with spSel := v.getLsbD 0 }
  | .spEl2 => some (s.setSpEl2 v)
  | .control r => some (s.setControl r v)

@[simp] theorem setX_x_self (s : State) (d : Gpr) (v : Word) : (s.setX d v).x d = v := by
  show Function.update s.x d v d = v
  rw [Function.update_self]

@[simp] theorem setX_setX (s : State) (d : Gpr) (v w : Word) : (s.setX d v).setX d w = s.setX d w := by
  rw [setX, setX, setX, Function.update_idem]

theorem setX_comm (s : State) {d d' : Gpr} (v v' : Word) (h : d ≠ d') :
    (s.setX d v).setX d' v' = (s.setX d' v').setX d v := by
  show { s with x := Function.update (Function.update s.x d v) d' v' } = _
  rw [Function.update_comm h]
  rfl

@[simp] theorem setSp_sp (s : State) (v : Word) : (s.setSp v).sp = v := by
  show Function.update s.sps s.bank v s.bank = v
  rw [Function.update_self]

/-- The return takes the level, the choice of the stack pointer, the masks and the flags from
`SPSR_EL3`. Level 2 has to be there, in the non-secure state, and to run 64-bit code. -/
def eret (s : State) : Option State :=
  let spsr := s.control .spsrEl3
  let scr := s.control .scrEl3
  let target : Level := (spsr.extractLsb' 2 2).toFin
  if s.el = 3 ∧ spsr.getLsbD 4 = false ∧ spsr.getLsbD 1 = false ∧
      (target = 3 ∨ target = 2 ∧ scr.getLsbD 0 ∧ scr.getLsbD 10) then
    some { s with
      pc := s.control .elrEl3
      el := target
      spSel := spsr.getLsbD 0
      daif := spsr.extractLsb' 6 4
      zero := spsr.getLsbD 30
      carry := spsr.getLsbD 29 }
  else none

end State

variable {σ : Type}

/-- What an instruction does apart from the program counter, where it is defined. -/
def Op.exec (address : σ → Word) (s : State) : Op σ → Option State
  | .adr d label => some (s.setX d (address label))
  | .mov d n => some (s.write (s.addr n) d)
  | .movi d imm => some (s.setX d imm)
  | .and d n imm => some (s.setX d (s.x n &&& imm))
  | .orr d n imm => some (s.setX d (s.x n ||| imm))
  | .sub d n imm => some (s.setX d (s.x n - imm))
  | .cmp n imm => some { s with zero := s.x n == imm, carry := imm ≤ s.x n }
  | .mrs t r => if r.least ≤ s.el then some (s.setX t (s.readSys r)) else none
  | .msr r t => if r.least ≤ s.el then s.writeSys (s.x t) r else none
  | .daifSet imm => if 1 ≤ s.el then some { s with daif := s.daif ||| imm } else none

/-! ## Blocks -/

/-- What instructions in a row do apart from the program counter. -/
def block (address : σ → Word) (ops : List (Op σ)) (s : State) : Option State :=
  ops.foldlM (Op.exec address) s

theorem exec_setPc (address : σ → Word) (s : State) (pc : Word) (o : Op σ) :
    o.exec address { s with pc } = (o.exec address s).map fun t => { t with pc } := by
  cases o with
  | mov d n => cases d <;> cases n <;> rfl
  | mrs t r =>
      show (if r.least ≤ s.el then _ else _) = Option.map _ (if r.least ≤ s.el then _ else _)
      split
      · cases r <;> rfl
      · rfl
  | msr r t =>
      show (if r.least ≤ s.el then _ else _) = Option.map _ (if r.least ≤ s.el then _ else _)
      split
      · cases r <;> rfl
      · rfl
  | daifSet imm =>
      show (if 1 ≤ s.el then _ else _) = Option.map _ (if 1 ≤ s.el then _ else _)
      split <;> rfl
  | _ => rfl

theorem block_setPc (address : σ → Word) (ops : List (Op σ)) (s : State) (pc : Word) :
    block address ops { s with pc } = (block address ops s).map fun t => { t with pc } := by
  induction ops generalizing s with
  | nil => rfl
  | cons o ops ih =>
      rw [block, List.foldlM_cons, exec_setPc, block, List.foldlM_cons]
      cases o.exec address s with
      | none => rfl
      | some t => exact ih t

theorem block_append {address : σ → Word} {ops ops' : List (Op σ)} {s t u : State}
    (h : block address ops s = some t) (h' : block address ops' t = some u) :
    block address (ops ++ ops') s = some u := by
  rw [block, List.foldlM_append, ← block, h]
  exact h'

/-! ## Masks

A register of the system is changed bit by bit: it is read, masks are applied to what was
read, and the result is written back. -/

inductive Mask where
  | set (m : Word)
  | clear (m : Word)

def Mask.apply (v : Word) : Mask → Word
  | .set m => v ||| m
  | .clear m => v &&& ~~~m

def Mask.op (d : Gpr) : Mask → Op σ
  | .set m => .orr d d m
  | .clear m => .and d d (~~~m)

def masked (masks : List Mask) (v : Word) : Word := masks.foldl Mask.apply v

/-- The instructions that give a register of the system a value. -/
def assign (d : Gpr) (r : ControlReg) (v : Word) (masks : List Mask) : List (Op σ) :=
  .movi d v :: masks.map (Mask.op d) ++ [.msr (.control r) d]

/-- The instructions that change a register of the system. -/
def modify (d : Gpr) (r : ControlReg) (masks : List Mask) : List (Op σ) :=
  .mrs d (.control r) :: masks.map (Mask.op d) ++ [.msr (.control r) d]

/-- From `s` the instructions lead to `t`, apart from register `d`, in which they compute. -/
def Leads (address : σ → Word) (d : Gpr) (ops : List (Op σ)) (s t : State) : Prop :=
  ∀ v, ∃ w, block address ops (s.setX d v) = some (t.setX d w)

section Leads

variable {address : σ → Word} {d : Gpr} {s t u : State} {r : ControlReg} {ops ops' : List (Op σ)}

theorem Leads.append (h : Leads address d ops s t) (h' : Leads address d ops' t u) :
    Leads address d (ops ++ ops') s u := by
  intro v
  obtain ⟨w, hfirst⟩ := h v
  obtain ⟨w', hsecond⟩ := h' w
  exact ⟨w', block_append hfirst hsecond⟩

theorem Leads.block_eq (h : Leads address d ops s t) :
    ∃ w, block address ops s = some (t.setX d w) := by
  obtain ⟨w, hblock⟩ := h (s.x d)
  rw [State.setX, Function.update_eq_self] at hblock
  exact ⟨w, hblock⟩

theorem block_masks (masks : List Mask) (s : State) (v : Word) :
    block address (masks.map (Mask.op d)) (s.setX d v) = some (s.setX d (masked masks v)) := by
  have hexec (m : Mask) (v : Word) :
      (m.op d : Op σ).exec address (s.setX d v) = some (s.setX d (m.apply v)) := by
    cases m <;> simp only [Mask.op, Mask.apply, Op.exec, State.setX, Function.update_self,
      Function.update_idem]
  induction masks generalizing v with
  | nil => rfl
  | cons m masks ih =>
      rw [List.map_cons, block, List.foldlM_cons, hexec]
      exact ih (m.apply v)

theorem block_msr (hlevel : (SysReg.control r).least ≤ s.el) (v : Word) :
    block address [.msr (.control r) d] (s.setX d v) = some ((s.setControl r v).setX d v) := by
  have hlevel' : (SysReg.control r).least ≤ (s.setX d v).el := hlevel
  rw [block, List.foldlM_cons, Op.exec, if_pos hlevel', State.setX_x_self]
  rfl

theorem leads_assign (hlevel : (SysReg.control r).least ≤ s.el) (v : Word) (masks : List Mask) :
    Leads address d (assign d r v masks) s (s.setControl r (masked masks v)) := by
  intro v'
  have hmove : block address [.movi d v] (s.setX d v') = some (s.setX d v) :=
    congrArg some (s.setX_setX d v' v)
  exact ⟨_, block_append (block_append hmove (block_masks masks s v)) (block_msr hlevel _)⟩

theorem leads_modify (hlevel : (SysReg.control r).least ≤ s.el) (masks : List Mask) :
    Leads address d (modify d r masks) s (s.setControl r (masked masks (s.control r))) := by
  intro v
  have hread : block address [.mrs d (.control r)] (s.setX d v) =
      some (s.setX d (s.control r)) := by
    have hlevel' : (SysReg.control r).least ≤ (s.setX d v).el := hlevel
    rw [block, List.foldlM_cons, Op.exec, if_pos hlevel']
    exact congrArg some (s.setX_setX d v (s.control r))
  exact ⟨_, block_append (block_append hread (block_masks masks s _)) (block_msr hlevel _)⟩

theorem leads_adr (hlevel : (SysReg.control r).least ≤ s.el) (label : σ) :
    Leads address d [.adr d label, .msr (.control r) d] s (s.setControl r (address label)) := by
  intro v
  have hadr : block address [.adr d label] (s.setX d v) = some (s.setX d (address label)) :=
    congrArg some (s.setX_setX d v (address label))
  exact ⟨_, block_append hadr (block_msr hlevel _)⟩

theorem leads_spEl2 (hlevel : s.el = 3) :
    Leads address d [.mov (.x d) .sp, .msr .spEl2 d] s (s.setSpEl2 s.sp) := by
  intro v
  have hlevel' : SysReg.spEl2.least ≤ (s.setX d s.sp).el := hlevel ▸ Nat.le_refl 3
  have hmove : block address [.mov (.x d) .sp] (s.setX d v) = some (s.setX d s.sp) :=
    congrArg some (s.setX_setX d v s.sp)
  refine ⟨s.sp, block_append hmove ?_⟩
  rw [block, List.foldlM_cons, Op.exec, if_pos hlevel', State.setX_x_self]
  rfl

end Leads

/-! ## Programs -/

/-- Code at an address, and the addresses of all labels. -/
structure Program (σ : Type) where
  code : List (Instr σ)
  base : Word
  address : σ → Word

namespace Program

/-- An instruction takes four bytes. -/
def fetch (p : Program σ) (pc : Word) : Option (Instr σ) :=
  if (pc - p.base).toNat % 4 = 0 then p.code[(pc - p.base).toNat / 4]? else none

/-- Where the instruction with a number is. -/
def place (p : Program σ) (i : Nat) : Word := p.base + BitVec.ofNat 64 (4 * i)

def exec (p : Program σ) (s : State) : Instr σ → Option State
  | .op o => (o.exec p.address s).map fun t => { t with pc := s.pc + 4 }
  | .b label => some { s with pc := p.address label }
  | .beq label => some { s with pc := if s.zero then p.address label else s.pc + 4 }
  | .blo label => some { s with pc := if s.carry then s.pc + 4 else p.address label }
  | .bl label => some { s.setX 30 (s.pc + 4) with pc := p.address label }
  | .eret => s.eret

/-- There is no step outside the code and where an instruction is not defined. -/
def step (p : Program σ) (s : State) : Option State := (p.fetch s.pc).bind (p.exec s)

def Steps (p : Program σ) : State → State → Prop :=
  Relation.ReflTransGen fun s t => p.step s = some t

variable {p : Program σ} {s t u : State} {i : Nat}

theorem place_sub (hi : 4 * i < 2 ^ 64) : (p.place i - p.base).toNat = 4 * i := by
  rw [place, BitVec.add_comm, BitVec.add_sub_cancel, BitVec.toNat_ofNat, Nat.mod_eq_of_lt hi]

theorem fetch_place (hi : 4 * i < 2 ^ 64) : p.fetch (p.place i) = p.code[i]? := by
  have hmod : 4 * i % 4 = 0 := Nat.mul_mod_right 4 i
  have hdiv : 4 * i / 4 = i := Nat.mul_div_cancel_left i (by decide)
  rw [fetch, place_sub hi, if_pos hmod, hdiv]

@[simp] theorem place_zero (p : Program σ) : p.place 0 = p.base := BitVec.add_zero p.base

theorem place_succ (p : Program σ) (i : Nat) : p.place i + 4 = p.place (i + 1) := by
  have hword : BitVec.ofNat 64 (4 * (i + 1)) = BitVec.ofNat 64 (4 * i) + 4 :=
    BitVec.ofNat_add (4 * i) 4
  rw [place, place, hword, BitVec.add_assoc]

theorem step_eq {instr : Instr σ} (hcode : p.code[i]? = some instr)
    (hsize : 4 * p.code.length < 2 ^ 64) (hpc : s.pc = p.place i) :
    p.step s = p.exec s instr := by
  have hi : i < p.code.length := (List.getElem?_eq_some_iff.mp hcode).1
  rw [step, hpc, fetch_place (by omega), hcode]
  rfl

section branches

variable {l : σ} (hsize : 4 * p.code.length < 2 ^ 64) (hpc : s.pc = p.place i)
include hsize hpc

theorem step_b (hcode : p.code[i]? = some (.b l)) :
    p.step s = some { s with pc := p.address l } := by
  rw [step_eq hcode hsize hpc, exec]

theorem step_beq (hcode : p.code[i]? = some (.beq l)) {zero : Bool} (hzero : s.zero = zero) :
    p.step s = some { s with pc := if zero then p.address l else p.place (i + 1) } := by
  rw [step_eq hcode hsize hpc, exec, hpc, place_succ, ← hzero]

theorem step_blo (hcode : p.code[i]? = some (.blo l)) {carry : Bool}
    (hcarry : s.carry = carry) :
    p.step s = some { s with pc := if carry then p.place (i + 1) else p.address l } := by
  rw [step_eq hcode hsize hpc, exec, hpc, place_succ, ← hcarry]

theorem step_bl (hcode : p.code[i]? = some (.bl l)) :
    p.step s = some { s.setX 30 (p.place (i + 1)) with pc := p.address l } := by
  rw [step_eq hcode hsize hpc, exec, hpc, place_succ]

theorem step_eret (hcode : p.code[i]? = some .eret) : p.step s = s.eret := by
  rw [step_eq hcode hsize hpc, exec]

end branches

/-- Instructions that lie in a row are executed in a row. -/
theorem steps_block (ops : List (Op σ)) (hcode : ops.map .op <+: p.code.drop i)
    (hsize : 4 * p.code.length < 2 ^ 64) (hpc : s.pc = p.place i)
    (hblock : block p.address ops s = some t) :
    p.Steps s { t with pc := p.place (i + ops.length) } := by
  induction ops generalizing s t i with
  | nil =>
      cases hblock
      rw [List.length_nil, Nat.add_zero, ← hpc]
      exact .refl
  | cons o ops ih =>
      obtain ⟨rest, hrest⟩ := hcode
      have hhead : p.code[i]? = some (.op o) := by
        rw [← Nat.add_zero i, ← List.getElem?_drop, ← hrest]
        rfl
      have htail : ops.map Instr.op <+: p.code.drop (i + 1) := by
        refine ⟨rest, ?_⟩
        rw [← List.drop_drop, ← hrest]
        rfl
      obtain ⟨s', hexec, hblock⟩ := Option.bind_eq_some_iff.mp hblock
      have hstep : p.step s = some { s' with pc := p.place (i + 1) } := by
        rw [step_eq hhead hsize hpc, exec, hexec, hpc, place_succ]
        rfl
      have hnext : block p.address ops { s' with pc := p.place (i + 1) } =
          some { t with pc := p.place (i + 1) } := by
        rw [block_setPc, block, hblock]
        rfl
      have hlength : i + 1 + ops.length = i + (o :: ops).length := by
        rw [List.length_cons]
        omega
      have hsteps := ih htail rfl hnext
      rw [hlength] at hsteps
      exact .head hstep hsteps

/-! ## Runs -/

/-- All that is reached before a state at which the processor stays leads to this state. -/
theorem Steps.of_loop (hloop : p.step u = some u) (h : p.Steps s u) (ht : p.Steps s t) :
    p.Steps t u := by
  have hunique : Relator.RightUnique fun s t => p.step s = some t := fun _ _ _ h h' =>
    Option.some.inj (h.symm.trans h')
  have hstay : ∀ v, p.Steps u v → v = u := by
    intro v hv
    induction hv with
    | refl => rfl
    | tail _ hstep ih =>
        rw [ih, hloop] at hstep
        exact (Option.some.inj hstep).symm
  rcases Relation.ReflTransGen.total_of_right_unique hunique h ht with hut | htu
  · exact hstay t hut ▸ .refl
  · exact htu

/-- A processor that gets to a loop of one instruction never leaves the code. -/
theorem Steps.fetch_isSome (hloop : p.step u = some u) (h : p.Steps s u) (ht : p.Steps s t) :
    (p.fetch t.pc).isSome := by
  have hsome : ∀ v, (∃ w, p.step v = some w) → (p.fetch v.pc).isSome := by
    rintro v ⟨w, hstep⟩
    obtain ⟨instr, hfetch, -⟩ := Option.bind_eq_some_iff.mp hstep
    exact Option.isSome_iff_exists.mpr ⟨instr, hfetch⟩
  rcases (Steps.of_loop hloop h ht).cases_head with rfl | ⟨w, hstep, -⟩
  · exact hsome t ⟨t, hloop⟩
  · exact hsome t ⟨w, hstep⟩

end Program

end Arm.Levels
