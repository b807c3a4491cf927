import Aarch64.Lib.Arm.Levels

/-!
# From the loader to the kernel

`bootstrap/start.S`. The code is entered at any exception level from 1 to 3 and prepares
level 2: its own stack, masked interrupts, the vector table, the routing of interrupts and
no address translation. Then it calls `__relocate`, `__constructors` and `kernel`.
-/

namespace Aarch64.Boot.Start

open Arm (Word)
open Arm.Levels

/-- The labels of the code, and what the linker script and other files define. -/
inductive Symbol where
  | start
  | inEl3
  | inEl2
  | inEl1
  | stackTop
  | vectorTable
  | imageStart
  | relaBegin
  | relaEnd
  | initBegin
  | initEnd
  | relocate
  | constructors
  | kernel
  deriving DecidableEq, Repr

def SCR_EL3_RW : Word := 1 <<< 10
def SCR_EL3_EA : Word := 1 <<< 3
def SCR_EL3_FIQ : Word := 1 <<< 2
def SCR_EL3_IRQ : Word := 1 <<< 1
def SCR_EL3_NS : Word := 1 <<< 0

def SPSR_EL3_D : Word := 1 <<< 9
def SPSR_EL3_A : Word := 1 <<< 8
def SPSR_EL3_I : Word := 1 <<< 7
def SPSR_EL3_F : Word := 1 <<< 6
def SPSR_EL3_M_AARCH64_EL2 : Word := 0b01000
def SPSR_EL3_M_SPSEL : Word := 1 <<< 0

def SCTLR_EL2_EE : Word := 1 <<< 25
def SCTLR_EL2_I : Word := 1 <<< 12
def SCTLR_EL2_SA : Word := 1 <<< 3
def SCTLR_EL2_C : Word := 1 <<< 2
def SCTLR_EL2_M : Word := 1 <<< 0

def HCR_EL2_E2H : Word := 1 <<< 34
def HCR_EL2_TGE : Word := 1 <<< 27
def HCR_EL2_AMO : Word := 1 <<< 5
def HCR_EL2_IMO : Word := 1 <<< 4
def HCR_EL2_FMO : Word := 1 <<< 3

/-! ## The code -/

def entry : List (Op Symbol) := [
  .adr 19 .stackTop,
  .mov .sp (.x 19),
  .mov (.x 19) (.x 0),
  .mov (.x 20) (.x 1),
  .mrs 0 .currentEL,
  .cmp 0 0b1000]

def secure : List (Op Symbol) := [
  .mrs 0 (.control .scrEl3),
  .and 0 0 (~~~SCR_EL3_EA),
  .and 0 0 (~~~SCR_EL3_FIQ),
  .and 0 0 (~~~SCR_EL3_IRQ),
  .orr 0 0 SCR_EL3_RW,
  .orr 0 0 SCR_EL3_NS,
  .msr (.control .scrEl3) 0,
  .movi 0 0,
  .orr 0 0 SPSR_EL3_D,
  .orr 0 0 SPSR_EL3_A,
  .orr 0 0 SPSR_EL3_I,
  .orr 0 0 SPSR_EL3_F,
  .orr 0 0 SPSR_EL3_M_AARCH64_EL2,
  .orr 0 0 SPSR_EL3_M_SPSEL,
  .msr (.control .spsrEl3) 0,
  .mov (.x 0) .sp,
  .msr .spEl2 0,
  .adr 0 .inEl2,
  .msr (.control .elrEl3) 0,
  .mrs 0 (.control .sctlrEl2),
  .orr 0 0 SCTLR_EL2_I,
  .orr 0 0 SCTLR_EL2_C,
  .and 0 0 (~~~SCTLR_EL2_EE),
  .and 0 0 (~~~SCTLR_EL2_SA),
  .and 0 0 (~~~SCTLR_EL2_M),
  .msr (.control .sctlrEl2) 0]

def prepare : List (Op Symbol) := [
  .daifSet 0b1111,
  .adr 0 .vectorTable,
  .msr (.control .vbarEl2) 0,
  .mov (.x 0) .sp,
  .movi 1 0b1,
  .msr .spSel 1,
  .mov .sp (.x 0),
  .mrs 0 (.control .hcrEl2),
  .orr 0 0 HCR_EL2_AMO,
  .orr 0 0 HCR_EL2_IMO,
  .orr 0 0 HCR_EL2_FMO,
  .and 0 0 (~~~HCR_EL2_E2H),
  .and 0 0 (~~~HCR_EL2_TGE),
  .msr (.control .hcrEl2) 0,
  .mrs 0 (.control .sctlrEl2),
  .orr 0 0 SCTLR_EL2_I,
  .orr 0 0 SCTLR_EL2_C,
  .and 0 0 (~~~SCTLR_EL2_EE),
  .and 0 0 (~~~SCTLR_EL2_SA),
  .and 0 0 (~~~SCTLR_EL2_M),
  .msr (.control .sctlrEl2) 0,
  .adr 0 .imageStart,
  .sub 0 0 0x1000,
  .adr 1 .relaBegin,
  .adr 2 .relaEnd]

def construct : List (Op Symbol) := [
  .adr 0 .initBegin,
  .adr 1 .initEnd]

def pass : List (Op Symbol) := [
  .mov (.x 0) (.x 19),
  .mov (.x 1) (.x 20)]

/-- From `start` to the end of the file, with `in_el3`, `in_el2` and `in_el1` in this order. -/
def code : List (Instr Symbol) :=
  entry.map .op ++ [.beq .inEl2, .blo .inEl1] ++
    (secure.map .op ++ [.eret]) ++
    (prepare.map .op ++ .bl .relocate :: construct.map .op ++ .bl .constructors ::
      pass.map .op ++ [.bl .kernel]) ++
    [.b .inEl1]

/-- Where the linker put the symbols. The labels are at their places in the code, and the
linker script puts the image at 0x1000. -/
structure Linked (link : Symbol → Word) : Prop where
  inEl2 : link .inEl2 = link .start + 4 * 35
  inEl1 : link .inEl1 = link .start + 4 * 67
  imageStart : link .imageStart = 0x1000

/-- The code in an image that was loaded `bias` bytes behind its place. -/
def program (link : Symbol → Word) (bias : Word) : Program Symbol where
  code := code
  base := link .start + bias
  address f := link f + bias

variable {link : Symbol → Word} {bias : Word} {s t : State}

theorem four_mul_length_code : 4 * code.length < 2 ^ 64 := by decide

/-! ## The blocks -/

theorem currentEL_eq_iff : ∀ el : Level,
    (BitVec.ofNat 64 el.val <<< 2 == 0b1000) = decide (el = 2) ∧
      decide ((0b1000 : Word) ≤ BitVec.ofNat 64 el.val <<< 2) = decide (2 ≤ el) := by decide

theorem eq_or_eq_of_two_le : ∀ el : Level, 2 ≤ el → el = 2 ∨ el = 3 := by decide

theorem block_entry (address : Symbol → Word) (hlevel : 1 ≤ s.el) :
    ∃ t, block address entry s = some t ∧ t.sp = address .stackTop ∧
      t.x 19 = s.x 0 ∧ t.x 20 = s.x 1 ∧ t.el = s.el ∧ t.control = s.control ∧ t.mem = s.mem ∧
      t.zero = decide (s.el = 2) ∧ t.carry = decide (2 ≤ s.el) := by
  obtain ⟨hzero, hcarry⟩ := currentEL_eq_iff s.el
  let u := (((s.setX 19 (address .stackTop)).setSp (address .stackTop)).setX 19 (s.x 0)).setX 20
    (s.x 1)
  have hfirst : block address [.adr 19 .stackTop, .mov .sp (.x 19), .mov (.x 19) (.x 0),
      .mov (.x 20) (.x 1)] s = some u := rfl
  have hleast : SysReg.currentEL.least ≤ u.el := hlevel
  have hrest : block address [.mrs 0 .currentEL, .cmp 0 0b1000] u =
      some { u.setX 0 (BitVec.ofNat 64 s.el.val <<< 2) with
        zero := decide (s.el = 2), carry := decide (2 ≤ s.el) } := by
    rw [block, List.foldlM_cons, Op.exec, if_pos hleast, ← hzero, ← hcarry]
    rfl
  refine ⟨_, block_append hfirst hrest, ?_, rfl, rfl, rfl, rfl, rfl, rfl, rfl⟩
  exact State.setSp_sp (s.setX 19 (address .stackTop)) (address .stackTop)

/-! ## Changes of the registers of the system -/

/-- Levels below 3 are not secure and run 64-bit code, and level 3 takes no interrupt. -/
def configureScr (v : Word) : Word :=
  (v &&& ~~~(SCR_EL3_EA ||| SCR_EL3_FIQ ||| SCR_EL3_IRQ)) ||| (SCR_EL3_RW ||| SCR_EL3_NS)

/-- Level 2 gets all interrupts and does not host another system. -/
def configureHcr (v : Word) : Word :=
  (v ||| (HCR_EL2_AMO ||| HCR_EL2_IMO ||| HCR_EL2_FMO)) &&& ~~~(HCR_EL2_E2H ||| HCR_EL2_TGE)

/-- Little-endian data, caches, no check of the stack pointer and no address translation. -/
def configureSctlr (v : Word) : Word :=
  (v ||| (SCTLR_EL2_I ||| SCTLR_EL2_C)) &&& ~~~(SCTLR_EL2_EE ||| SCTLR_EL2_SA ||| SCTLR_EL2_M)

def scrMasks : List Mask :=
  [.clear SCR_EL3_EA, .clear SCR_EL3_FIQ, .clear SCR_EL3_IRQ, .set SCR_EL3_RW, .set SCR_EL3_NS]

def hcrMasks : List Mask :=
  [.set HCR_EL2_AMO, .set HCR_EL2_IMO, .set HCR_EL2_FMO, .clear HCR_EL2_E2H, .clear HCR_EL2_TGE]

def sctlrMasks : List Mask :=
  [.set SCTLR_EL2_I, .set SCTLR_EL2_C, .clear SCTLR_EL2_EE, .clear SCTLR_EL2_SA,
    .clear SCTLR_EL2_M]

@[simp] theorem masked_scrMasks (v : Word) : masked scrMasks v = configureScr v := by
  simp only [configureScr, BitVec.not_or, ← BitVec.and_assoc, ← BitVec.or_assoc]
  rfl

@[simp] theorem masked_hcrMasks (v : Word) : masked hcrMasks v = configureHcr v := by
  simp only [configureHcr, BitVec.not_or, ← BitVec.and_assoc, ← BitVec.or_assoc]
  rfl

@[simp] theorem masked_sctlrMasks (v : Word) : masked sctlrMasks v = configureSctlr v := by
  simp only [configureSctlr, BitVec.not_or, ← BitVec.and_assoc, ← BitVec.or_assoc]
  rfl

@[simp] theorem configureSctlr_idem (v : Word) :
    configureSctlr (configureSctlr v) = configureSctlr v := by
  refine BitVec.eq_of_getLsbD_eq fun i hi => ?_
  simp only [configureSctlr, BitVec.getLsbD_and, BitVec.getLsbD_or, BitVec.getLsbD_not, hi,
    decide_true, Bool.true_and]
  cases v.getLsbD i <;> cases (SCTLR_EL2_I.getLsbD i || SCTLR_EL2_C.getLsbD i) <;>
    cases (SCTLR_EL2_EE.getLsbD i || SCTLR_EL2_SA.getLsbD i || SCTLR_EL2_M.getLsbD i) <;> rfl

theorem configureScr_bits (v : Word) :
    (configureScr v).getLsbD 0 = true ∧ (configureScr v).getLsbD 10 = true := by
  simp only [configureScr, BitVec.getLsbD_or]
  exact ⟨Bool.or_true _, Bool.or_true _⟩

/-! ## Leaving level 3 -/

/-- What the code leaves in `SPSR_EL3`: level 2 with its own stack pointer, all masked. -/
def spsr : Word :=
  SPSR_EL3_D ||| SPSR_EL3_A ||| SPSR_EL3_I ||| SPSR_EL3_F ||| SPSR_EL3_M_AARCH64_EL2 |||
    SPSR_EL3_M_SPSEL

def spsrMasks : List Mask :=
  [.set SPSR_EL3_D, .set SPSR_EL3_A, .set SPSR_EL3_I, .set SPSR_EL3_F,
    .set SPSR_EL3_M_AARCH64_EL2, .set SPSR_EL3_M_SPSEL]

@[simp] theorem masked_spsrMasks : masked spsrMasks 0 = spsr := by decide

/-- Each register is changed on its own. -/
def secured (address : Symbol → Word) (s : State) : State :=
  ((((s.setControl .scrEl3 (configureScr (s.control .scrEl3))).setControl .spsrEl3 spsr).setSpEl2
    s.sp).setControl .elrEl3 (address .inEl2)).setControl .sctlrEl2
      (configureSctlr (s.control .sctlrEl2))

theorem leads_secure (address : Symbol → Word) (hlevel : s.el = 3) :
    Leads address 0 secure s (secured address s) := by
  have hleast {u : State} (hu : u.el = 3) (r : SysReg) : r.least ≤ u.el := hu ▸ Fin.le_last _
  rw [secured, ← masked_scrMasks, ← masked_spsrMasks, ← masked_sctlrMasks]
  have hscr : Leads address 0 _ s _ :=
    leads_modify (s := s) (hleast hlevel (.control .scrEl3)) scrMasks
  let s₁ := s.setControl .scrEl3 (masked scrMasks (s.control .scrEl3))
  have hspsr : Leads address 0 _ s₁ _ :=
    leads_assign (s := s₁) (hleast hlevel (.control .spsrEl3)) 0 spsrMasks
  let s₂ := s₁.setControl .spsrEl3 (masked spsrMasks 0)
  have hsp : Leads address 0 _ s₂ _ := leads_spEl2 (s := s₂) hlevel
  have helr : Leads address 0 _ (s₂.setSpEl2 s.sp) _ :=
    leads_adr (s := s₂.setSpEl2 s.sp) (hleast hlevel (.control .elrEl3)) .inEl2
  let s₃ := (s₂.setSpEl2 s.sp).setControl .elrEl3 (address .inEl2)
  have hsctlr : Leads address 0 _ s₃ _ :=
    leads_modify (s := s₃) (hleast hlevel (.control .sctlrEl2)) sctlrMasks
  exact hscr.append (hspsr.append (hsp.append (helr.append hsctlr)))

/-- All masks are set, level 2 uses its own stack pointer, and the flags are clear. -/
theorem eret_spsr {v : Word} (hlevel : s.el = 3) (hspsr : s.control .spsrEl3 = spsr)
    (hscr : s.control .scrEl3 = configureScr v) : s.eret = some { s with
      pc := s.control .elrEl3, el := 2, spSel := true, daif := 0b1111, zero := false
      carry := false } := by
  obtain ⟨hns, hrw⟩ := configureScr_bits v
  simp only [State.eret, hspsr, hscr]
  exact if_pos ⟨hlevel, rfl, rfl, .inr ⟨rfl, hns, hrw⟩⟩

/-! ## Preparing level 2 -/

/-- The stack pointer stays when level 2 turns to its own. -/
theorem leads_select (address : Symbol → Word) (hlevel : 1 ≤ s.el) :
    Leads address 0 [.mov (.x 0) .sp, .movi 1 0b1, .msr .spSel 1, .mov .sp (.x 0)] s
      (({ s with spSel := true }.setX 1 0b1).setSp s.sp) := by
  intro v
  have hread : block address [.mov (.x 0) .sp, .movi 1 0b1] (s.setX 0 v) =
      some ((s.setX 0 s.sp).setX 1 0b1) :=
    congrArg (fun u : State => some (u.setX 1 0b1)) (s.setX_setX 0 v s.sp)
  have hselect : block address [.msr .spSel 1] ((s.setX 0 s.sp).setX 1 0b1) =
      some ({ s with spSel := true }.setX 1 0b1 |>.setX 0 s.sp) := by
    have hlevel' : SysReg.spSel.least ≤ ((s.setX 0 s.sp).setX 1 0b1).el := hlevel
    rw [block, List.foldlM_cons, Op.exec, if_pos hlevel', State.setX_x_self,
      s.setX_comm _ _ (by decide)]
    rfl
  exact ⟨s.sp, block_append hread (block_append hselect rfl)⟩

/-- Interrupts are masked before the vector table and the stack pointer change. -/
def prepared (address : Symbol → Word) (s : State) : State :=
  (((({ s with daif := 0b1111, spSel := true }.setX 1 0b1).setSp s.sp).setControl .vbarEl2
    (address .vectorTable)).setControl .hcrEl2 (configureHcr (s.control .hcrEl2))).setControl
      .sctlrEl2 (configureSctlr (s.control .sctlrEl2))

theorem leads_prepare (address : Symbol → Word) (hlevel : s.el = 2) :
    Leads address 0 (prepare.take 21) s (prepared address s) := by
  have hleast {u : State} (hu : u.el = 2) (r : SysReg) (hr : r.least ≤ 2) : r.least ≤ u.el :=
    hu ▸ hr
  have hmask : Leads address 0 [.daifSet 0b1111] s { s with daif := 0b1111 } := by
    intro v
    have hpos : 1 ≤ (s.setX 0 v).el := hleast hlevel .spSel (by decide)
    have hall : ∀ d : BitVec 4, d ||| 0b1111 = 0b1111 := by decide
    refine ⟨v, ?_⟩
    rw [block, List.foldlM_cons, Op.exec, if_pos hpos, hall]
    rfl
  let s₁ : State := { s with daif := 0b1111 }
  have hvbar : Leads address 0 _ s₁ _ :=
    leads_adr (s := s₁) (hleast hlevel (.control .vbarEl2) (by decide)) .vectorTable
  let s₂ := s₁.setControl .vbarEl2 (address .vectorTable)
  have hselect : Leads address 0 _ s₂ _ :=
    leads_select (s := s₂) address (hleast hlevel .spSel (by decide))
  let s₃ := ({ s₂ with spSel := true }.setX 1 0b1).setSp s₂.sp
  have hhcr : Leads address 0 _ s₃ _ :=
    leads_modify (s := s₃) (hleast hlevel (.control .hcrEl2) (by decide)) hcrMasks
  let s₄ := s₃.setControl .hcrEl2 (masked hcrMasks (s₃.control .hcrEl2))
  have hsctlr : Leads address 0 _ s₄ _ :=
    leads_modify (s := s₄) (hleast hlevel (.control .sctlrEl2) (by decide)) sctlrMasks
  rw [prepared, ← masked_hcrMasks, ← masked_sctlrMasks]
  exact hmask.append (hvbar.append (hselect.append (hhcr.append hsctlr)))

theorem block_prepare (address : Symbol → Word) (hlevel : s.el = 2) :
    block address prepare s = some ((((prepared address s).setX 0
      (address .imageStart - 0x1000)).setX 1 (address .relaBegin)).setX 2 (address .relaEnd)) := by
  obtain ⟨w, hblock⟩ := (leads_prepare address hlevel).block_eq
  have hadr (u : State) : block address [.adr 0 .imageStart] (u.setX 0 w) =
      some (u.setX 0 (address .imageStart)) := congrArg some (u.setX_setX 0 w _)
  have hsub (u : State) (v : Word) : block address [.sub 0 0 0x1000] (u.setX 0 v) =
      some (u.setX 0 (v - 0x1000)) := by
    rw [block, List.foldlM_cons, Op.exec, State.setX_x_self, State.setX_setX]
    rfl
  exact block_append hblock (block_append (hadr _) (block_append (hsub _ _) rfl))

@[simp] theorem prepared_sp (address : Symbol → Word) (s : State) : (prepared address s).sp = s.sp := by
  let u : State := { s with daif := 0b1111, spSel := true }
  exact (u.setX 1 0b1).setSp_sp s.sp

/-! ## Runs -/

/-- The stack of the image is used, and the arguments of the loader are where calls keep them. -/
structure Entered (link : Symbol → Word) (bias : Word) (s t : State) : Prop where
  sp : t.sp = link .stackTop + bias
  first : t.x 19 = s.x 0
  second : t.x 20 = s.x 1

/-- What holds when code of other files is called after a start in state `s`. -/
structure Prepared (link : Symbol → Word) (bias : Word) (s t : State) : Prop
    extends Entered link bias s t where
  el : t.el = 2
  spSel : t.spSel = true
  daif : t.daif = 0b1111
  vbar : t.control .vbarEl2 = link .vectorTable + bias
  hcr : t.control .hcrEl2 = configureHcr (s.control .hcrEl2)
  sctlr : t.control .sctlrEl2 = configureSctlr (s.control .sctlrEl2)
  scr : t.control .scrEl3 =
    if s.el = 3 then configureScr (s.control .scrEl3) else s.control .scrEl3

/-- What a function in C keeps when it returns. -/
structure Returned (s t : State) : Prop where
  pc : t.pc = s.x 30
  kept : ∀ r : Arm.Gpr, 19 ≤ r.val → r.val < 30 → t.x r = s.x r
  el : t.el = s.el
  spSel : t.spSel = s.spSel
  sps : t.sps = s.sps
  daif : t.daif = s.daif
  control : t.control = s.control

theorem Prepared.congr {s₀ : State} (h : Prepared link bias s₀ s) (hfirst : t.x 19 = s.x 19)
    (hsecond : t.x 20 = s.x 20) (hel : t.el = s.el) (hspSel : t.spSel = s.spSel)
    (hsps : t.sps = s.sps) (hdaif : t.daif = s.daif) (hcontrol : t.control = s.control) :
    Prepared link bias s₀ t where
  sp := by
    have hbank : t.bank = s.bank := by rw [State.bank, State.bank, hspSel, hel]
    rw [State.sp, hsps, hbank]
    exact h.sp
  first := hfirst.trans h.first
  second := hsecond.trans h.second
  el := hel.trans h.el
  spSel := hspSel.trans h.spSel
  daif := hdaif.trans h.daif
  vbar := hcontrol ▸ h.vbar
  hcr := hcontrol ▸ h.hcr
  sctlr := hcontrol ▸ h.sctlr
  scr := hcontrol ▸ h.scr

theorem Returned.prepared {s₀ : State} (h : Returned s t) (hs : Prepared link bias s₀ s) :
    Prepared link bias s₀ t :=
  hs.congr (h.kept 19 (by decide) (by decide)) (h.kept 20 (by decide) (by decide)) h.el h.spSel
    h.sps h.daif h.control

theorem Linked.address_inEl2 (h : Linked link) (bias : Word) :
    (program link bias).address .inEl2 = (program link bias).place 35 := by
  show link .inEl2 + bias = link .start + bias + _
  rw [h.inEl2, BitVec.add_assoc, BitVec.add_comm _ bias, ← BitVec.add_assoc]
  rfl

theorem Linked.address_inEl1 (h : Linked link) (bias : Word) :
    (program link bias).address .inEl1 = (program link bias).place 67 := by
  show link .inEl1 + bias = link .start + bias + _
  rw [h.inEl1, BitVec.add_assoc, BitVec.add_comm _ bias, ← BitVec.add_assoc]
  rfl

theorem steps_entry (hpc : s.pc = (program link bias).place 0) (hlevel : 1 ≤ s.el) :
    ∃ t, (program link bias).Steps s t ∧ t.pc = (program link bias).place 6 ∧
      Entered link bias s t ∧ t.el = s.el ∧ t.control = s.control ∧ t.mem = s.mem ∧
      t.zero = decide (s.el = 2) ∧ t.carry = decide (2 ≤ s.el) := by
  obtain ⟨t, hblock, hsp, hfirst, hsecond, hel, hcontrol, hmem, hzero, hcarry⟩ :=
    block_entry (program link bias).address hlevel
  have hsteps := Program.steps_block _ ⟨_, rfl⟩ four_mul_length_code hpc hblock
  exact ⟨_, hsteps, rfl, ⟨hsp, hfirst, hsecond⟩, hel, hcontrol, hmem, hzero, hcarry⟩

/-- Level 1 is where the code stays. -/
theorem steps_loop (h : Linked link) (hpc : s.pc = (program link bias).place 0)
    (hlevel : s.el = 1) :
    ∃ t, (program link bias).Steps s t ∧ (program link bias).step t = some t ∧
      t.control = s.control ∧ t.mem = s.mem := by
  obtain ⟨t, hsteps, ht, -, -, hcontrol, hmem, hzero, hcarry⟩ :=
    steps_entry hpc (Nat.le_of_eq (congrArg Fin.val hlevel.symm))
  rw [hlevel] at hzero hcarry
  have hbeq := Program.step_beq four_mul_length_code ht (l := .inEl2) rfl hzero
  let u : State := { t with pc := (program link bias).place 7 }
  have hblo := Program.step_blo (s := u) four_mul_length_code rfl (l := .inEl1) rfl hcarry
  let v : State := { u with pc := (program link bias).address .inEl1 }
  have hloop := Program.step_b (s := v) four_mul_length_code (h.address_inEl1 bias) (l := .inEl1)
    rfl
  exact ⟨v, (hsteps.tail hbeq).tail hblo, hloop, hcontrol, hmem⟩

/-- Both ways to `in_el2`. -/
theorem steps_inEl2 (h : Linked link) (hpc : s.pc = (program link bias).place 0)
    (hlevel : 2 ≤ s.el) :
    ∃ t, (program link bias).Steps s t ∧ t.pc = (program link bias).place 35 ∧ t.el = 2 ∧
      Entered link bias s t ∧ t.mem = s.mem ∧
      t.control .hcrEl2 = s.control .hcrEl2 ∧
      configureSctlr (t.control .sctlrEl2) = configureSctlr (s.control .sctlrEl2) ∧
      t.control .scrEl3 =
        if s.el = 3 then configureScr (s.control .scrEl3) else s.control .scrEl3 := by
  obtain ⟨t, hsteps, ht, hentered, hel, hcontrol, hmem, hzero, hcarry⟩ :=
    steps_entry hpc (Nat.le_of_succ_le hlevel)
  cases eq_or_eq_of_two_le s.el hlevel with
  | inl htwo =>
      have hbeq := Program.step_beq four_mul_length_code ht (l := .inEl2) rfl
        (hzero.trans (decide_eq_true htwo))
      refine ⟨_, hsteps.tail hbeq, h.address_inEl2 bias, hel.trans htwo, ⟨hentered.sp,
        hentered.first, hentered.second⟩, hmem, congrFun hcontrol _,
        congrArg configureSctlr (congrFun hcontrol _), ?_⟩
      rw [htwo]
      exact congrFun hcontrol _
  | inr hthree =>
      rw [hthree] at hzero hcarry
      have hbeq := Program.step_beq four_mul_length_code ht (l := .inEl2) rfl hzero
      let u : State := { t with pc := (program link bias).place 7 }
      have hblo := Program.step_blo (s := u) four_mul_length_code rfl (l := .inEl1) rfl hcarry
      let v : State := { u with pc := (program link bias).place 8 }
      have hv : v.el = 3 := hel.trans hthree
      obtain ⟨w, hblock⟩ := (leads_secure (program link bias).address hv).block_eq
      have hsecure := Program.steps_block _ ⟨_, rfl⟩ four_mul_length_code (s := v) rfl hblock
      let z : State := { (secured (program link bias).address v).setX 0 w with
        pc := (program link bias).place 34 }
      have hret : (program link bias).step z = z.eret :=
        Program.step_eret four_mul_length_code (i := 34) rfl rfl
      rw [eret_spsr (s := z) (v := v.control .scrEl3) hv rfl rfl] at hret
      refine ⟨_, (((hsteps.tail hbeq).tail hblo).trans hsecure).tail hret, h.address_inEl2 bias,
        rfl, ⟨hentered.sp, hentered.first, hentered.second⟩, hmem, congrFun hcontrol _, ?_, ?_⟩
      · show configureSctlr (configureSctlr (t.control .sctlrEl2)) = _
        rw [configureSctlr_idem, hcontrol]
      · show configureScr (t.control .scrEl3) = _
        rw [hcontrol, hthree]
        rfl

/-- The call of `__relocate` gets how far the image was moved, and the array of relocations. -/
theorem steps_relocate (h : Linked link) (hpc : s.pc = (program link bias).place 0)
    (hlevel : 2 ≤ s.el) :
    ∃ t, (program link bias).Steps s t ∧ t.pc = link .relocate + bias ∧ t.x 0 = bias ∧
      t.x 1 = link .relaBegin + bias ∧ t.x 2 = link .relaEnd + bias ∧
      t.x 30 = (program link bias).place 61 ∧ t.mem = s.mem ∧ Prepared link bias s t := by
  obtain ⟨t, hsteps, ht, hel, hentered, hmem, hhcr, hsctlr, hscr⟩ := steps_inEl2 h hpc hlevel
  have hprepare := Program.steps_block _ ⟨_, rfl⟩ four_mul_length_code ht
    (block_prepare (program link bias).address hel)
  let u := (((prepared (program link bias).address t).setX 0
    ((program link bias).address .imageStart - 0x1000)).setX 1
      ((program link bias).address .relaBegin)).setX 2 ((program link bias).address .relaEnd)
  have hcall := Program.step_bl (s := { u with pc := (program link bias).place 60 })
    four_mul_length_code rfl (l := .relocate) rfl
  have hbias : link .imageStart + bias - 0x1000 = bias := by
    rw [h.imageStart, BitVec.add_comm, BitVec.add_sub_cancel]
  refine ⟨_, (hsteps.trans hprepare).tail hcall, rfl, hbias, rfl, rfl, rfl, hmem, ?_⟩
  have hsp : u.sp = t.sp := prepared_sp (program link bias).address t
  exact {
    sp := hsp.trans hentered.sp
    first := hentered.first
    second := hentered.second
    el := hel
    spSel := rfl
    daif := rfl
    vbar := rfl
    hcr := congrArg configureHcr hhcr
    sctlr := hsctlr
    scr := hscr }

theorem steps_constructors (hpc : s.pc = (program link bias).place 61) :
    ∃ t, (program link bias).Steps s t ∧ t.pc = link .constructors + bias ∧
      t.x 0 = link .initBegin + bias ∧ t.x 1 = link .initEnd + bias ∧
      t.x 30 = (program link bias).place 64 ∧ t.mem = s.mem ∧
      ∀ s₀, Prepared link bias s₀ s → Prepared link bias s₀ t := by
  let u := (s.setX 0 ((program link bias).address .initBegin)).setX 1
    ((program link bias).address .initEnd)
  have hconstruct := Program.steps_block (t := u) construct ⟨_, rfl⟩ four_mul_length_code hpc
    rfl
  have hcall := Program.step_bl (s := { u with pc := (program link bias).place 63 })
    four_mul_length_code rfl (l := .constructors) rfl
  exact ⟨_, hconstruct.tail hcall, rfl, rfl, rfl, rfl, rfl, fun s₀ hs =>
    hs.congr rfl rfl rfl rfl rfl rfl rfl⟩

theorem steps_kernel (hpc : s.pc = (program link bias).place 64) :
    ∃ t, (program link bias).Steps s t ∧ t.pc = link .kernel + bias ∧ t.x 0 = s.x 19 ∧
      t.x 1 = s.x 20 ∧ t.x 30 = (program link bias).place 67 ∧ t.mem = s.mem ∧
      ∀ s₀, Prepared link bias s₀ s → Prepared link bias s₀ t := by
  let u := (s.setX 0 (s.x 19)).setX 1 (s.x 20)
  have hpass := Program.steps_block (t := u) pass ⟨_, rfl⟩ four_mul_length_code hpc rfl
  have hcall := Program.step_bl (s := { u with pc := (program link bias).place 66 })
    four_mul_length_code rfl (l := .kernel) rfl
  exact ⟨_, hpass.tail hcall, rfl, rfl, rfl, rfl, rfl, fun s₀ hs =>
    hs.congr rfl rfl rfl rfl rfl rfl rfl⟩

theorem step_inEl1 (h : Linked link) (hpc : s.pc = (program link bias).place 67) :
    (program link bias).step s = some s := by
  rw [Program.step_b four_mul_length_code hpc (l := .inEl1) rfl, h.address_inEl1, ← hpc]

/-- Started at level 1 the code loops and changes nothing outside the general registers and the
stack pointer. Started above, it calls `__relocate`, `__constructors` and `kernel` one after the
other, each when the one before has returned, with level 2 prepared and with their arguments.
A return of `kernel` leads to the loop. -/
theorem start_prepares (h : Linked link) (hpc : s.pc = link .start + bias) :
    (s.el = 1 →
      (∃ t, (program link bias).Steps s t ∧ (program link bias).step t = some t ∧
        t.control = s.control ∧ t.mem = s.mem) ∧
      ∀ t, (program link bias).Steps s t → ((program link bias).fetch t.pc).isSome) ∧
    (2 ≤ s.el →
      ∃ t, (program link bias).Steps s t ∧ t.pc = link .relocate + bias ∧
        (t.x 0 = bias ∧ t.x 1 = link .relaBegin + bias ∧ t.x 2 = link .relaEnd + bias) ∧
        t.mem = s.mem ∧ Prepared link bias s t ∧
      ∀ t', Returned t t' → ∃ u, (program link bias).Steps t' u ∧
        u.pc = link .constructors + bias ∧
        (u.x 0 = link .initBegin + bias ∧ u.x 1 = link .initEnd + bias) ∧
        u.mem = t'.mem ∧ Prepared link bias s u ∧
      ∀ u', Returned u u' → ∃ k, (program link bias).Steps u' k ∧ k.pc = link .kernel + bias ∧
        (k.x 0 = s.x 0 ∧ k.x 1 = s.x 1) ∧ k.mem = u'.mem ∧ Prepared link bias s k ∧
      ∀ k', Returned k k' → (program link bias).step k' = some k') := by
  have hplace : s.pc = (program link bias).place 0 :=
    hpc.trans (Program.place_zero (program link bias)).symm
  refine ⟨fun hlevel => ?_, fun hlevel => ?_⟩
  · obtain ⟨t, hsteps, hloop, hcontrol, hmem⟩ := steps_loop h hplace hlevel
    exact ⟨⟨t, hsteps, hloop, hcontrol, hmem⟩, fun u hu => hsteps.fetch_isSome hloop hu⟩
  · obtain ⟨t, hsteps, ht, hbias, hbegin, hend, hlink, hmem, hprepared⟩ :=
      steps_relocate h hplace hlevel
    refine ⟨t, hsteps, ht, ⟨hbias, hbegin, hend⟩, hmem, hprepared, fun t' ht' => ?_⟩
    obtain ⟨u, hsteps, hu, hbegin, hend, hlink, hmem, hkeeps⟩ :=
      steps_constructors (ht'.pc.trans hlink)
    refine ⟨u, hsteps, hu, ⟨hbegin, hend⟩, hmem, hkeeps s (ht'.prepared hprepared),
      fun u' hu' => ?_⟩
    obtain ⟨k, hsteps, hk, hfirst, hsecond, hlink, hmem, hkeeps'⟩ :=
      steps_kernel (hu'.pc.trans hlink)
    have hcalled := hu'.prepared (hkeeps s (ht'.prepared hprepared))
    exact ⟨k, hsteps, hk, ⟨hfirst.trans hcalled.first, hsecond.trans hcalled.second⟩, hmem,
      hkeeps' s hcalled, fun k' hk' => step_inEl1 h (hk'.pc.trans hlink)⟩

/-- An image whose code starts at its beginning. -/
def smallLink : Symbol → Word
  | .start => 0x1000
  | .inEl3 => 0x1000 + 4 * 8
  | .inEl2 => 0x1000 + 4 * 35
  | .inEl1 => 0x1000 + 4 * 67
  | .imageStart => 0x1000
  | .vectorTable => 0x1800
  | .relocate => 0x2000
  | .constructors => 0x2100
  | .kernel => 0x3000
  | .initBegin | .initEnd => 0x4000
  | .relaBegin => 0x5000
  | .relaEnd => 0x5018
  | .stackTop => 0xA000

/-- The image was loaded at 0x40001000, and the processor is at level 3 with the stack pointer of
level 0. -/
def loaded : State where
  pc := 0x40001000
  x := Function.update (Function.update (fun _ => 0) 0 0x7000) 1 0x8000
  el := 3
  spSel := false
  sps := fun _ => 0
  daif := 0
  zero := false
  carry := false
  control := fun _ => 0xFFFFFFFF
  mem := fun _ => 0

theorem start_prepares_loaded : ∃ t, (program smallLink 0x40000000).Steps loaded t ∧
    t.pc = 0x40002000 ∧ t.x 0 = 0x40000000 ∧ t.x 1 = 0x40005000 ∧ t.x 2 = 0x40005018 ∧
    t.sp = 0x4000A000 ∧ t.control .sctlrEl2 = 0xFDFFFFF6 := by
  have hlink : Linked smallLink := ⟨rfl, rfl, rfl⟩
  have hpc : loaded.pc = smallLink .start + 0x40000000 := by decide
  obtain ⟨t, hsteps, ht, ⟨hbias, hbegin, hend⟩, -, hprepared, -⟩ :=
    (start_prepares hlink hpc).2 (by decide)
  exact ⟨t, hsteps, ht, hbias, hbegin, hend, hprepared.sp, hprepared.sctlr⟩

end Aarch64.Boot.Start
