import Aarch64.Lib.Arm.Machine
import Aarch64.Lib.Word

/-!
# Entry of interrupts and exceptions

`bootstrap/interrupts.S`. Both entries save the registers that a call may change in a
frame on the stack, which `InterruptFrame` of `kernel/interrupt` describes, call a handler
and restore the registers. The stack pointer may have any alignment: it is not checked
when it is the base of an access.
-/

namespace Aarch64.Boot

open Arm

/-- Which of the two entries is taken. -/
inductive Entry where
  | interrupt
  | exception
  deriving DecidableEq, Repr

namespace Entry

/-- The code in front of the call. -/
def save : Entry → List Instr
  | interrupt => [
      .stpPre (.x 20) (.x 21) .sp (-16),
      .mov (.x 21) .sp,
      .sub (.x 20) .sp 192,
      .and .sp (.x 20) (~~~0b1111),
      .stp (.x 0) (.x 1) .sp 0,
      .mov (.x 0) .sp,
      .add (.x 1) (.x 21) 16,
      .ldp 20 21 (.x 21) 0,
      .stp (.x 2) (.x 3) .sp 16,
      .stp (.x 4) (.x 5) .sp 32,
      .stp (.x 6) (.x 7) .sp 48,
      .stp (.x 8) (.x 9) .sp 64,
      .stp (.x 10) (.x 11) .sp 80,
      .stp (.x 12) (.x 13) .sp 96,
      .stp (.x 14) (.x 15) .sp 112,
      .stp (.x 16) (.x 17) .sp 128,
      .stp (.x 18) (.x 29) .sp 144,
      .stp (.x 30) (.x 1) .sp 160,
      .stp .xzr .xzr .sp 176]
  | exception => [
      .stpPre (.x 20) (.x 21) .sp (-16),
      .mov (.x 21) .sp,
      .sub (.x 20) .sp 192,
      .and .sp (.x 20) (~~~0b1111),
      .stp (.x 0) (.x 1) .sp 0,
      .add (.x 1) (.x 21) 16,
      .ldp 20 21 (.x 21) 0,
      .stp (.x 2) (.x 3) .sp 16,
      .stp (.x 4) (.x 5) .sp 32,
      .stp (.x 6) (.x 7) .sp 48,
      .stp (.x 8) (.x 9) .sp 64,
      .stp (.x 10) (.x 11) .sp 80,
      .stp (.x 12) (.x 13) .sp 96,
      .stp (.x 14) (.x 15) .sp 112,
      .stp (.x 16) (.x 17) .sp 128,
      .stp (.x 18) (.x 29) .sp 144,
      .stp (.x 30) (.x 1) .sp 160,
      .mrs 0 .esr,
      .mrs 1 .far,
      .stp (.x 0) (.x 1) .sp 176,
      .mov (.x 0) .sp]

/-- The code behind the call, which is the same for both. -/
def restore : List Instr := [
  .ldp 2 3 .sp 16,
  .ldp 4 5 .sp 32,
  .ldp 6 7 .sp 48,
  .ldp 8 9 .sp 64,
  .ldp 10 11 .sp 80,
  .ldp 12 13 .sp 96,
  .ldp 14 15 .sp 112,
  .ldp 16 17 .sp 128,
  .ldp 18 29 .sp 144,
  .ldp 30 0 .sp 160,
  .mov (.x 1) .sp,
  .mov .sp (.x 0),
  .ldp 0 1 (.x 1) 0,
  .eret]

/-- `interrupt_entry` and `exception_entry`. -/
def code (entry : Entry) : List Instr := entry.save ++ .bl :: restore

/-- The two words at the end of the frame. -/
def syndrome (entry : Entry) (s : State) : Word × Word :=
  match entry with
  | interrupt => (0, 0)
  | exception => (s.sys .esr, s.sys .far)

end Entry

/-- `InterruptFrame`, whose fields are words that lie one after the other. -/
structure InterruptFrame where
  x0 : Word
  x1 : Word
  x2 : Word
  x3 : Word
  x4 : Word
  x5 : Word
  x6 : Word
  x7 : Word
  x8 : Word
  x9 : Word
  x10 : Word
  x11 : Word
  x12 : Word
  x13 : Word
  x14 : Word
  x15 : Word
  x16 : Word
  x17 : Word
  x18 : Word
  fp : Word
  lr : Word
  sp : Word
  esr : Word
  far : Word
  deriving DecidableEq, Repr

namespace InterruptFrame

def load (m : Memory) (frame : Word) : InterruptFrame where
  x0 := m.load frame
  x1 := m.load (frame + 8)
  x2 := m.load (frame + 16)
  x3 := m.load (frame + 24)
  x4 := m.load (frame + 32)
  x5 := m.load (frame + 40)
  x6 := m.load (frame + 48)
  x7 := m.load (frame + 56)
  x8 := m.load (frame + 64)
  x9 := m.load (frame + 72)
  x10 := m.load (frame + 80)
  x11 := m.load (frame + 88)
  x12 := m.load (frame + 96)
  x13 := m.load (frame + 104)
  x14 := m.load (frame + 112)
  x15 := m.load (frame + 120)
  x16 := m.load (frame + 128)
  x17 := m.load (frame + 136)
  x18 := m.load (frame + 144)
  fp := m.load (frame + 152)
  lr := m.load (frame + 160)
  sp := m.load (frame + 168)
  esr := m.load (frame + 176)
  far := m.load (frame + 184)

/-- The registers of a state. -/
def ofState (s : State) (syndrome : Word × Word) : InterruptFrame where
  x0 := s.x 0
  x1 := s.x 1
  x2 := s.x 2
  x3 := s.x 3
  x4 := s.x 4
  x5 := s.x 5
  x6 := s.x 6
  x7 := s.x 7
  x8 := s.x 8
  x9 := s.x 9
  x10 := s.x 10
  x11 := s.x 11
  x12 := s.x 12
  x13 := s.x 13
  x14 := s.x 14
  x15 := s.x 15
  x16 := s.x 16
  x17 := s.x 17
  x18 := s.x 18
  fp := s.x 29
  lr := s.x 30
  sp := s.sp
  esr := syndrome.1
  far := syndrome.2

end InterruptFrame

/-! ## The frame -/

namespace Entry

variable {entry : Entry} {c : Callee} {s : State}

/-- Where the frame lies. -/
def frame (s : State) : Word := (s.sp + -16 - 192) &&& ~~~0b1111

theorem toNat_frame (h : 208 ≤ s.sp.toNat) :
    (frame s).toNat = (s.sp.toNat - 208) / 16 * 16 := by
  have hbase : (s.sp + -16 - 192).toNat = s.sp.toNat - 208 := by bv_omega
  rw [frame, BitVec.toNat_and, hbase]
  exact Word64.and_high_mask (by omega) (by decide : 4 ≤ 64)

/-- The two registers that are needed to find the frame are kept below the stack pointer. -/
def spill (s : State) : Memory := s.mem.storePair (s.sp + -16) (s.x 20) (s.x 21)

theorem loadPair_spill (h : 208 ≤ s.sp.toNat) (v v' : Word) :
    ((spill s).storePair (frame s + 0) v v').loadPair (s.sp + -16 + 0) = (s.x 20, s.x 21) := by
  have hframe := toNat_frame h
  have hspill : s.sp + -16 + 0 = s.sp + -16 := BitVec.add_zero _
  rw [hspill, Memory.loadPair_storePair_of_apart (by bv_omega) (by bv_omega)]
  exact Memory.loadPair_storePair_self _ _ _ _

/-- The registers that are restored with `ldp` as they were saved with `stp`. -/
def pairs : List (Gpr × Gpr × Word) :=
  [(2, 3, 16), (4, 5, 32), (6, 7, 48), (8, 9, 64), (10, 11, 80), (12, 13, 96), (14, 15, 112),
    (16, 17, 128), (18, 29, 144)]

/-- What the frame holds. -/
def words (entry : Entry) (s : State) : List (Word × Word × Word) :=
  (0, s.x 0, s.x 1) :: ((pairs.map fun e => (e.2.2, s.x e.1, s.x e.2.1)) ++
    [(160, s.x 30, s.sp), (176, entry.syndrome s)])

/-- The state when the frame is there and holds the first two registers. -/
def framed (s : State) : State where
  x := Function.update s.x 1 s.sp
  sp := frame s
  sys := s.sys
  mem := (spill s).storePair (frame s + 0) (s.x 0) (s.x 1)

theorem framed_one (s : State) : (framed s).x 1 = s.sp := by
  show Function.update s.x 1 s.sp 1 = s.sp
  rw [Function.update_self]

theorem framed_of_ne {r : Gpr} (h : r ≠ 1) : (framed s).x r = s.x r := by
  show Function.update s.x 1 s.sp r = s.x r
  rw [Function.update_of_ne h]

/-- The stack pointer is aligned and the first two registers are saved. -/
theorem run_align (entry : Entry) (c : Callee) (s : State) :
    run c s (entry.save.take 5) = {
      x := Function.update (Function.update s.x 21 (s.sp + -16)) 20 (s.sp + -16 - 192)
      sp := frame s
      sys := s.sys
      mem := (spill s).storePair (frame s + 0) (s.x 0) (s.x 1) } := by
  have htake : entry.save.take 5 = [.stpPre (.x 20) (.x 21) .sp (-16), .mov (.x 21) .sp,
      .sub (.x 20) .sp 192, .and .sp (.x 20) (~~~0b1111), .stp (.x 0) (.x 1) .sp 0] := by
    cases entry <;> rfl
  rw [htake]
  simp only [run_cons, run_nil, exec_stpPre, exec_mov, exec_sub, exec_and, exec_stp, State.write,
    State.addr, State.read, Function.update_self, Function.update_of_ne, ne_eq, Fin.reduceEq,
    not_false_eq_true]
  rw [spill, frame]

/-- The spilled registers are read back, whatever has been written since. -/
theorem run_unspill {t : State} (h : 208 ≤ s.sp.toNat) {v v' : Word}
    (hsp : t.x 21 = s.sp + -16) (hmem : t.mem = (spill s).storePair (frame s + 0) v v')
    {y : Gpr → Word} (hy : y 20 = s.x 20 ∧ y 21 = s.x 21)
    (hx : ∀ r, r ≠ 20 → r ≠ 21 → t.x r = y r) :
    run c t [.add (.x 1) (.x 21) 16, .ldp 20 21 (.x 21) 0] =
      { t with x := Function.update y 1 s.sp } := by
  have hload := loadPair_spill h v v'
  have hbase : s.sp + -16 + 16 = s.sp := by bv_omega
  rw [run_cons, run_cons, run_nil, exec_add, exec_ldp]
  simp only [State.write, State.addr, hsp, hbase, hmem,
    Function.update_of_ne (by decide : (21 : Gpr) ≠ 1), hload]
  congr 1
  funext r
  by_cases h21 : r = 21
  · rw [h21, Function.update_self, Function.update_of_ne (by decide), hy.2]
  · rw [Function.update_of_ne h21]
    by_cases h20 : r = 20
    · rw [h20, Function.update_self, Function.update_of_ne (by decide), hy.1]
    · rw [Function.update_of_ne h20]
      by_cases h1 : r = 1
      · rw [h1, Function.update_self, Function.update_self]
      · rw [Function.update_of_ne h1, Function.update_of_ne h1, hx r h20 h21]

theorem run_framed_interrupt (c : Callee) (h : 208 ≤ s.sp.toNat) :
    run c s (interrupt.save.take 8) =
      { framed s with x := Function.update (framed s).x 0 (frame s) } := by
  have htake : interrupt.save.take 8 = interrupt.save.take 5 ++
      (.mov (.x 0) .sp :: [.add (.x 1) (.x 21) 16, .ldp 20 21 (.x 21) 0]) := rfl
  have hkept : ∀ r, r ≠ 20 → r ≠ 21 →
      Function.update (Function.update (Function.update s.x 21 (s.sp + -16)) 20
        (s.sp + -16 - 192)) 0 (frame s) r = Function.update s.x 0 (frame s) r := by
    intro r h20 h21
    by_cases h0 : r = 0
    · rw [h0, Function.update_self, Function.update_self]
    · rw [Function.update_of_ne h0, Function.update_of_ne h0, Function.update_of_ne h20,
        Function.update_of_ne h21]
  have hcomm := Function.update_comm (by decide : (0 : Gpr) ≠ 1) (frame s) s.sp s.x
  rw [htake, run_append, run_align, run_cons, exec_mov, State.write, State.addr,
    run_unspill h ?_ rfl ⟨?_, ?_⟩ hkept, hcomm]
  · rfl
  · simp
  · simp
  · simp

theorem run_framed_exception (c : Callee) (h : 208 ≤ s.sp.toNat) :
    run c s (exception.save.take 7) = framed s := by
  have htake : exception.save.take 7 = exception.save.take 5 ++
      [.add (.x 1) (.x 21) 16, .ldp 20 21 (.x 21) 0] := rfl
  have hkept : ∀ r, r ≠ 20 → r ≠ 21 → Function.update (Function.update s.x 21 (s.sp + -16)) 20
      (s.sp + -16 - 192) r = s.x r := by
    intro r h20 h21
    rw [Function.update_of_ne h20, Function.update_of_ne h21]
  rw [htake, run_append, run_align, run_unspill h ?_ rfl ⟨rfl, rfl⟩ hkept]
  · rfl
  · simp

def operands : List (Operand × Operand × Word) := pairs.map fun e => (.x e.1, .x e.2.1, e.2.2)

theorem read_operands {t : State} (h : ∀ r, r ≠ 0 → r ≠ 1 → t.x r = s.x r) :
    (operands.map fun e => (e.2.2, t.read e.1, t.read e.2.1)) =
      pairs.map fun e => (e.2.2, s.x e.1, s.x e.2.1) := by
  rw [operands, List.map_map]
  refine List.map_congr_left fun e he => ?_
  have hne : ∀ r ∈ loaded pairs, r ≠ 0 ∧ r ≠ 1 := by decide
  obtain ⟨h0, h1⟩ := hne e.1 (mem_loaded.mpr ⟨e, he, .inl rfl⟩)
  obtain ⟨h0', h1'⟩ := hne e.2.1 (mem_loaded.mpr ⟨e, he, .inr rfl⟩)
  simp only [Function.comp_apply, State.read, h _ h0 h1, h _ h0' h1']

/-- The other words of the frame are stored behind the first two. -/
theorem storeAll_words (entry : Entry) (s : State) :
    storeAll (storeAll (framed s).mem (frame s)
        ((pairs.map fun e => (e.2.2, s.x e.1, s.x e.2.1)) ++ [(160, s.x 30, s.sp)]))
      (frame s) [(176, entry.syndrome s)] = storeAll (spill s) (frame s) (entry.words s) := by
  rw [← storeAll_append, List.append_assoc, words, storeAll_cons]
  rfl

theorem run_save_interrupt (c : Callee) (h : 208 ≤ s.sp.toNat) :
    run c s interrupt.save = { framed s with
      x := Function.update (framed s).x 0 (frame s)
      mem := storeAll (spill s) (frame s) (interrupt.words s) } := by
  have hsplit : interrupt.save = interrupt.save.take 8 ++
      stps (operands ++ [(.x 30, .x 1, 160), (.xzr, .xzr, 176)]) := rfl
  have hkept : ∀ r, r ≠ 0 → r ≠ 1 →
      Function.update (framed s).x 0 (frame s) r = s.x r := by
    intro r h0 h1
    rw [Function.update_of_ne h0, framed_of_ne h1]
  have hsp : Function.update (framed s).x 0 (frame s) 1 = s.sp := by
    rw [Function.update_of_ne (by decide : (1 : Gpr) ≠ 0), framed_one]
  have hread := read_operands (s := s)
    (t := { framed s with x := Function.update (framed s).x 0 (frame s) }) hkept
  rw [hsplit, run_append, run_framed_interrupt c h, run_stps, List.map_append, hread,
    ← storeAll_words, ← storeAll_append, List.append_assoc, List.map_cons, List.map_cons,
    List.map_nil]
  simp only [State.read, hkept 30 (by decide) (by decide), hsp]
  rfl

theorem run_save_exception (c : Callee) (h : 208 ≤ s.sp.toNat) :
    run c s exception.save = { framed s with
      x := Function.update (Function.update (Function.update (framed s).x 0 (s.sys .esr)) 1
        (s.sys .far)) 0 (frame s)
      mem := storeAll (spill s) (frame s) (exception.words s) } := by
  have hsplit : exception.save = exception.save.take 7 ++
      (stps (operands ++ [(.x 30, .x 1, 160)]) ++
        [.mrs 0 .esr, .mrs 1 .far, .stp (.x 0) (.x 1) .sp 176, .mov (.x 0) .sp]) := rfl
  have hread := read_operands (s := s) (t := framed s) fun r _ h1 => framed_of_ne h1
  rw [hsplit, run_append, run_framed_exception c h, run_append, run_stps, List.map_append, hread,
    ← storeAll_words]
  rw [run_cons, run_cons, run_cons, run_cons, run_nil, exec_mrs, exec_mrs, exec_stp, exec_mov]
  rfl

/-- The state in front of the call. -/
theorem run_save (entry : Entry) (c : Callee) (h : 208 ≤ s.sp.toNat) :
    (run c s entry.save).x 0 = frame s ∧ (run c s entry.save).sp = frame s ∧
      (∀ r : Gpr, 19 ≤ r → r ≤ 28 → (run c s entry.save).x r = s.x r) ∧
      (run c s entry.save).mem = storeAll (spill s) (frame s) (entry.words s) := by
  have hne : ∀ r : Gpr, 19 ≤ r → r ≠ 0 ∧ r ≠ 1 := by decide
  cases entry with
  | interrupt =>
      rw [run_save_interrupt c h]
      refine ⟨?_, rfl, fun r hr _ => ?_, rfl⟩
      · show Function.update (framed s).x 0 (frame s) 0 = frame s
        rw [Function.update_self]
      · obtain ⟨h0, h1⟩ := hne r hr
        show Function.update (framed s).x 0 (frame s) r = s.x r
        rw [Function.update_of_ne h0]
        exact framed_of_ne h1
  | exception =>
      rw [run_save_exception c h]
      refine ⟨?_, rfl, fun r hr _ => ?_, rfl⟩
      · show Function.update (Function.update (Function.update (framed s).x 0 (s.sys .esr)) 1
          (s.sys .far)) 0 (frame s) 0 = frame s
        rw [Function.update_self]
      · obtain ⟨h0, h1⟩ := hne r hr
        show Function.update (Function.update (Function.update (framed s).x 0 (s.sys .esr)) 1
          (s.sys .far)) 0 (frame s) r = s.x r
        rw [Function.update_of_ne h0, Function.update_of_ne h1, Function.update_of_ne h0]
        exact framed_of_ne h1

/-! ## The registers that are restored -/

theorem restore_eq : restore = ldps (pairs ++ [(30, 0, 160)]) ++
    [.mov (.x 1) .sp, .mov .sp (.x 0), .ldp 0 1 (.x 1) 0, .eret] := rfl

theorem mem_pairs (r : Gpr) : r = 0 ∨ r = 1 ∨ r = 30 ∨ (19 ≤ r ∧ r ≤ 28) ∨
    ∃ e ∈ pairs, r = e.1 ∨ r = e.2.1 := by
  have hall : ∀ r : Gpr, r = 0 ∨ r = 1 ∨ r = 30 ∨ (19 ≤ r ∧ r ≤ 28) ∨ r ∈ loaded pairs := by decide
  rw [← mem_loaded]
  exact hall r

/-- The frame lies at the stack pointer, and the registers that are not in it are there. -/
theorem run_restore {t : State} (hfirst : t.mem.loadPair (t.sp + 0) = (s.x 0, s.x 1))
    (hpairs : ∀ e ∈ pairs, t.mem.loadPair (t.sp + e.2.2) = (s.x e.1, s.x e.2.1))
    (hlast : t.mem.loadPair (t.sp + 160) = (s.x 30, s.sp))
    (hkept : ∀ r : Gpr, 19 ≤ r → r ≤ 28 → t.x r = s.x r) :
    run c t restore = { t with x := s.x, sp := s.sp } := by
  obtain ⟨x, hrun, hother, hload⟩ := run_ldps c t (pairs ++ [(30, 0, 160)])
  have hnodup : (loaded (pairs ++ [(30, 0, 160)])).Nodup := by decide
  have hx : ∀ e ∈ pairs, x e.1 = s.x e.1 ∧ x e.2.1 = s.x e.2.1 := by
    intro e he
    have hpair := (hload hnodup e (List.mem_append_left _ he)).trans (hpairs e he)
    exact ⟨congrArg Prod.fst hpair, congrArg Prod.snd hpair⟩
  have hlink : (x 30, x 0) = (s.x 30, s.sp) :=
    (hload hnodup _ (List.mem_append_right _ List.mem_cons_self)).trans hlast
  have hone : Function.update x 1 t.sp 1 = t.sp := Function.update_self _ _ _
  have hzero : Function.update x 1 t.sp 0 = s.sp := by
    rw [Function.update_of_ne (by decide : (0 : Gpr) ≠ 1)]
    exact congrArg Prod.snd hlink
  have hall : Function.update (Function.update (Function.update x 1 t.sp) 0 (s.x 0)) 1 (s.x 1) =
      s.x := by
    funext r
    by_cases h1 : r = 1
    · rw [h1, Function.update_self]
    · rw [Function.update_of_ne h1]
      by_cases h0 : r = 0
      · rw [h0, Function.update_self]
      · rw [Function.update_of_ne h0, Function.update_of_ne h1]
        rcases mem_pairs r with h | h | rfl | ⟨hr, hr'⟩ | ⟨e, he, rfl | rfl⟩
        · exact absurd h h0
        · exact absurd h h1
        · exact congrArg Prod.fst hlink
        · have hmem : r ∉ loaded (pairs ++ [(30, 0, 160)]) := by
            clear * - hr hr'
            revert r
            decide
          rw [hother r hmem, hkept r hr hr']
        · exact (hx e he).1
        · exact (hx e he).2
  rw [restore_eq, run_append, hrun, run_cons, run_cons, run_cons, run_cons, run_nil, exec_mov,
    exec_mov, exec_ldp, exec_eret]
  simp only [State.write, State.addr, hone, hzero, hfirst, hall]

end Entry

/-! ## The handler -/

/-- What the handler, called in the given state with the frame at the stack pointer, has to
leave as it is. -/
structure Preserves (c : Callee) (t : State) : Prop where
  x : ∀ r : Gpr, 19 ≤ r → r ≤ 28 → (c.body t).x r = t.x r
  sp : (c.body t).sp = t.sp
  mem : ∀ a : Word, t.sp.toNat ≤ a.toNat → (c.body t).mem a = t.mem a

namespace Entry

variable {entry : Entry} {c : Callee} {s : State}

/-- Where the pairs of words lie in the frame. -/
def offsets : List Word := [0, 16, 32, 48, 64, 80, 96, 112, 128, 144, 160, 176]

theorem map_fst_words (entry : Entry) (s : State) : (entry.words s).map Prod.fst = offsets := by
  simp only [words, pairs, offsets, List.map_cons, List.map_nil, List.cons_append, List.nil_append]

theorem pairwise_words (entry : Entry) (s : State) :
    (entry.words s).Pairwise fun e e' => Apart e.1 e'.1 := by
  have hoffsets : offsets.Pairwise Apart := by decide
  rw [← map_fst_words entry s] at hoffsets
  exact List.pairwise_map.mp hoffsets

theorem words_le {e : Word × Word × Word} (he : e ∈ entry.words s) : e.1.toNat ≤ 176 := by
  have hle : ∀ o ∈ offsets, o.toNat ≤ 176 := by simp [offsets]
  refine hle e.1 ?_
  rw [← map_fst_words entry s]
  exact List.mem_map_of_mem he

/-- A word of the frame is there until the handler returns. -/
theorem loadPair_frame (h : 208 ≤ s.sp.toNat) {m : Memory}
    (hm : ∀ a : Word, (frame s).toNat ≤ a.toNat →
      m a = storeAll (spill s) (frame s) (entry.words s) a)
    {e : Word × Word × Word} (he : e ∈ entry.words s) : m.loadPair (frame s + e.1) = e.2 := by
  have hframe := toNat_frame h
  have hle := words_le he
  refine (Memory.loadPair_congr fun p hp => hm p ?_).trans
    (loadPair_storeAll (pairwise_words entry s) he)
  bv_omega

/-- The frame and the spilled registers lie below the stack pointer. -/
theorem storeAll_spill_of_le (h : 208 ≤ s.sp.toNat) {a : Word} (ha : s.sp.toNat ≤ a.toNat) :
    storeAll (spill s) (frame s) (entry.words s) a = s.mem a := by
  have hframe := toNat_frame h
  refine (storeAll_of_le fun e he => ?_).trans (Memory.storePair_of_le ?_)
  · have hle := words_le he
    bv_omega
  · bv_omega

/-- The frame as the handler reads it. -/
theorem load_frame (h : 208 ≤ s.sp.toNat) {m : Memory}
    (hm : m = storeAll (spill s) (frame s) (entry.words s)) :
    InterruptFrame.load m (frame s) = InterruptFrame.ofState s (entry.syndrome s) := by
  have hwords : ∀ e ∈ entry.words s, m.loadPair (frame s + e.1) = e.2 := fun e he =>
    loadPair_frame h (fun a _ => congrFun hm a) he
  simp only [words, pairs, List.map_cons, List.map_nil, List.cons_append, List.nil_append,
    List.forall_mem_cons, Memory.loadPair, Prod.ext_iff, BitVec.add_assoc] at hwords
  simpa [InterruptFrame.load, InterruptFrame.ofState, and_assoc] using hwords

/-- The handler is called with the registers saved, and they are restored from what it
leaves. -/
theorem run_restore_of_saved {t : State} (h : 208 ≤ s.sp.toNat) (hsp : t.sp = frame s)
    (hkept : ∀ r : Gpr, 19 ≤ r → r ≤ 28 → t.x r = s.x r)
    (hmem : t.mem = storeAll (spill s) (frame s) (entry.words s))
    (hc : Preserves c (c.enter t)) :
    run c (c.body (c.enter t)) restore = { c.body (c.enter t) with x := s.x, sp := s.sp } ∧
      ∀ a : Word, s.sp.toNat ≤ a.toNat → (c.body (c.enter t)).mem a = s.mem a := by
  obtain ⟨hx, hsp', hmem'⟩ := hc
  rw [Callee.enter_sp, hsp] at hsp' hmem'
  rw [Callee.enter_mem, hmem] at hmem'
  have hload : ∀ e ∈ entry.words s,
      (c.body (c.enter t)).mem.loadPair ((c.body (c.enter t)).sp + e.1) = e.2 := by
    intro e he
    rw [hsp']
    exact loadPair_frame h hmem' he
  refine ⟨run_restore ?_ ?_ ?_ ?_, fun a ha => ?_⟩
  · exact hload (0, s.x 0, s.x 1) List.mem_cons_self
  · intro e he
    refine hload (e.2.2, s.x e.1, s.x e.2.1) (List.mem_cons_of_mem _ (List.mem_append_left _ ?_))
    exact List.mem_map_of_mem (f := fun e => (e.2.2, s.x e.1, s.x e.2.1)) he
  · refine hload (160, s.x 30, s.sp) (List.mem_cons_of_mem _ (List.mem_append_right _ ?_))
    exact List.mem_cons_self
  · intro r hr hr'
    have hne : r ≠ 30 := by
      clear * - hr'
      revert r
      decide
    rw [hx r hr hr', Callee.enter_of_ne c t hne, hkept r hr hr']
  · have hframe := toNat_frame h
    rw [hmem' a (by omega)]
    exact storeAll_spill_of_le h ha

/-- An interrupt is not seen by the code that is interrupted: its registers, its stack pointer,
which may have any alignment, and all memory above it are as they were, as long as the handler keeps
to the rules for calls (`Preserves`). The handler is given an aligned frame with the registers of
that code. Both entries are the same code but for the routine that they call. -/
theorem code_transparent (entry : Entry) (c : Callee) (s : State) (h : 208 ≤ s.sp.toNat)
    (hc : Preserves c (c.enter (run c s entry.save))) :
    (run c s entry.code).x = s.x ∧ (run c s entry.code).sp = s.sp ∧
      (∀ a : Word, s.sp.toNat ≤ a.toNat → (run c s entry.code).mem a = s.mem a) ∧
      ((c.enter (run c s entry.save)).x 0).toNat % 16 = 0 ∧
      InterruptFrame.load (c.enter (run c s entry.save)).mem ((c.enter (run c s entry.save)).x 0) =
        InterruptFrame.ofState s (entry.syndrome s) := by
  obtain ⟨hfirst, hsp, hkept, hsaved⟩ := run_save entry c h
  have hcode : run c s entry.code = run c (c.body (c.enter (run c s entry.save))) restore := by
    rw [code, run_append, run_cons, exec_bl]
  rw [hcode]
  generalize run c s entry.save = t at *
  obtain ⟨hrun, hmem⟩ := run_restore_of_saved h hsp hkept hsaved hc
  have hframe := toNat_frame h
  rw [hrun, Callee.enter_of_ne c t (by decide), hfirst, Callee.enter_mem]
  exact ⟨rfl, rfl, hmem, by omega, load_frame h hsaved⟩

/-- The stack pointer is not aligned, and the handler changes the registers it may change. -/
theorem code_transparent_unaligned :
    (run ⟨0x80, fun t => { t with x := fun r => if r < 19 then 7 else t.x r }⟩
        ⟨fun r => BitVec.ofNat 64 r, 0x1003, fun _ => 5, fun _ => 0⟩ exception.code).x =
      (fun r : Gpr => BitVec.ofNat 64 r) ∧
    (run ⟨0x80, fun t => { t with x := fun r => if r < 19 then 7 else t.x r }⟩
        ⟨fun r => BitVec.ofNat 64 r, 0x1003, fun _ => 5, fun _ => 0⟩ exception.code).sp =
      0x1003 := by
  have hc : ∀ t, Preserves
      ⟨0x80, fun t => { t with x := fun r => if r < 19 then 7 else t.x r }⟩ t := by
    intro t
    refine ⟨fun r hr _ => ?_, rfl, fun _ _ => rfl⟩
    show (if r < 19 then 7 else t.x r) = t.x r
    exact if_neg (Fin.not_lt.mpr hr)
  have h := code_transparent exception _
    ⟨fun r => BitVec.ofNat 64 r, 0x1003, fun _ => 5, fun _ => 0⟩ (by decide) (hc _)
  exact ⟨h.1, h.2.1⟩

end Entry

end Aarch64.Boot
