import Aarch64.Lib.Bytes
import Aarch64.Lib.Mmio
import Aarch64.Lib.Word
import Mathlib.Tactic.IntervalCases

/-!
# The serial line of the Rust kernel

`PL011` of `kernel/pl011/src/lib.rs`, the sink of `kernel/kernel/src/setup.rs` that logs on
it and the logger of `kernel/log/src/lib.rs`. A driver that panics stops, as one that waits
does.
-/

namespace Aarch64.Rust

open Mmio (Driver Event Bus crlf words)

structure PL011 where
  baseAddress : Nat
  baseClock : BitVec 32
  baudrate : BitVec 32
  dataBits : BitVec 32
  stopBits : BitVec 32

namespace PL011

inductive Register
  | UARTDR | UARTFR | UARTIBRD | UARTFBRD | UARTLCR | UARTCR | UARTIMSC | UARTICR | UARTDMACR
  deriving DecidableEq

def Register.toNat : Register → Nat
  | UARTDR => 0x000
  | UARTFR => 0x018
  | UARTIBRD => 0x024
  | UARTFBRD => 0x028
  | UARTLCR => 0x02c
  | UARTCR => 0x030
  | UARTIMSC => 0x038
  | UARTICR => 0x044
  | UARTDMACR => 0x048

def UARTFR_BUSY : BitVec 32 := 1 <<< 3
def UARTLCR_STP2 : BitVec 32 := 1 <<< 3
def UARTLCR_FEN : BitVec 32 := 1 <<< 4
def UARTCR_EN : BitVec 32 := 1 <<< 0
def UARTCR_TXEN : BitVec 32 := 1 <<< 8

open Register

def address (dev : PL011) (r : Register) : Nat := Word64.add dev.baseAddress r.toNat

def load (dev : PL011) (r : Register) : Driver (BitVec 32) (BitVec 32) := Mmio.load (dev.address r)

def store (dev : PL011) (r : Register) (value : BitVec 32) : Driver (BitVec 32) Unit :=
  Mmio.store (dev.address r) value

/-- The answer of `UARTFR` that ends a wait. -/
def idle (fr : BitVec 32) : Bool := fr &&& UARTFR_BUSY == 0

def waitTxComplete (dev : PL011) : Driver (BitVec 32) Unit := Mmio.poll (dev.address UARTFR) idle

/-- Division by zero is a panic. -/
def calculateDivisors (dev : PL011) : Option (BitVec 32 × BitVec 32) :=
  if 2 * dev.baudrate = 0 then none
  else
    let div := (8 * dev.baseClock + dev.baudrate) / (2 * dev.baudrate)
    some ((div >>> 6) &&& 0xffff, div &&& 0x3f)

def frame (dev : PL011) : BitVec 32 :=
  let lcr := ((dev.dataBits - 1) &&& 0x3) <<< 5
  if dev.stopBits = 2 then lcr ||| UARTLCR_STP2 else lcr

def reset (dev : PL011) : Driver (BitVec 32) Unit := do
  let cr ← dev.load UARTCR
  let lcr ← dev.load UARTLCR
  dev.store UARTCR (cr &&& ~~~UARTCR_EN)
  dev.waitTxComplete
  dev.store UARTLCR (lcr &&& ~~~UARTLCR_FEN)
  dev.store UARTIMSC 0x7ff
  dev.store UARTICR 0x7ff
  dev.store UARTDMACR 0x0
  let (ibrd, fbrd) ← Driver.get dev.calculateDivisors
  dev.store UARTIBRD ibrd
  dev.store UARTFBRD fbrd
  dev.store UARTLCR dev.frame
  dev.store UARTCR UARTCR_TXEN
  dev.store UARTCR (UARTCR_TXEN ||| UARTCR_EN)

def new (baseAddress : Nat) (baseClock : BitVec 32) : Driver (BitVec 32) PL011 := do
  let dev : PL011 := ⟨baseAddress, baseClock, 115200, 8, 1⟩
  dev.waitTxComplete
  dev.reset
  return dev

/-- The loop over the bytes of a text. -/
def sendLoop (dev : PL011) : List UInt8 → Driver (BitVec 32) Unit
  | [] => pure ()
  | b :: rest => do
      if b = '\n'.toUInt8 then do
        dev.store UARTDR (BitVec.ofNat 32 '\r'.toUInt8.toNat)
        dev.waitTxComplete
      dev.store UARTDR (BitVec.ofNat 32 b.toNat)
      dev.waitTxComplete
      dev.sendLoop rest

def send (dev : PL011) (data : List UInt8) : Driver (BitVec 32) Unit := do
  dev.waitTxComplete
  dev.sendLoop data

/-! ## Sending a text -/

theorem toNat_injective {r r' : Register} (h : r.toNat = r'.toNat) : r = r' := by
  cases r <;> cases r' <;> first | rfl | cases h

theorem address_injective (dev : PL011) {r r' : Register} (h : dev.address r = dev.address r') :
    r = r' := by
  have hlt : ∀ r : Register, r.toNat < 0x4c := by
    intro r
    cases r <;> decide
  have hr := hlt r
  have hr' := hlt r'
  refine toNat_injective ?_
  simp only [address, Word64.add] at h
  omega

theorem sendLoop_eq (dev : PL011) (data : List UInt8) :
    dev.sendLoop data =
      Mmio.putAll (dev.address UARTFR) (dev.address UARTDR) idle (words (crlf data)) := by
  induction data with
  | nil => rfl
  | cons b rest ih =>
      by_cases hb : b = '\n'.toUInt8
      · subst hb
        rw [sendLoop, ih]
        rfl
      · rw [sendLoop, ih, Mmio.crlf_cons hb, if_neg hb]
        rfl

theorem send_eq (dev : PL011) (data : List UInt8) :
    dev.send data =
      Mmio.sendAll (dev.address UARTFR) (dev.address UARTDR) idle (words (crlf data)) := by
  rw [send, sendLoop_eq]
  rfl

/-- `SerialSink::log`, which is what the logger does. -/
def log (dev : PL011) (msg : List UInt8) : Driver (BitVec 32) Unit := do
  dev.send msg
  dev.send (Bytes.ofString "\n")

/-- The stores of `reset` behind its wait. -/
def settings (dev : PL011) (lcr ibrd fbrd : BitVec 32) : List (Event (BitVec 32)) :=
  [.store (dev.address UARTLCR) (lcr &&& ~~~UARTLCR_FEN), .store (dev.address UARTIMSC) 0x7ff,
    .store (dev.address UARTICR) 0x7ff, .store (dev.address UARTDMACR) 0x0,
    .store (dev.address UARTIBRD) ibrd, .store (dev.address UARTFBRD) fbrd,
    .store (dev.address UARTLCR) dev.frame, .store (dev.address UARTCR) UARTCR_TXEN,
    .store (dev.address UARTCR) (UARTCR_TXEN ||| UARTCR_EN)]

/-- The accesses of `reset` in front of its wait. -/
def stopping (dev : PL011) (cr lcr : BitVec 32) : List (Event (BitVec 32)) :=
  [.load (dev.address UARTCR) cr, .load (dev.address UARTLCR) lcr,
    .store (dev.address UARTCR) (cr &&& ~~~UARTCR_EN)]

variable {dev : PL011} {ibrd fbrd : BitVec 32}

@[simp] theorem address_eq_iff {r r' : Register} : dev.address r = dev.address r' ↔ r = r' :=
  ⟨dev.address_injective, fun h => h ▸ rfl⟩

theorem reset_eq (hdiv : dev.calculateDivisors = some (ibrd, fbrd)) (cr lcr : BitVec 32)
    (rest : List (BitVec 32)) (trace : List (Event (BitVec 32))) :
    dev.reset ⟨cr :: lcr :: rest, trace⟩ =
      match dev.waitTxComplete ⟨rest, trace ++ dev.stopping cr lcr⟩ with
      | (some (), bus) => (some (), { bus with trace := bus.trace ++ dev.settings lcr ibrd fbrd })
      | (none, bus) => (none, bus) := by
  have htrace : trace ++ [.load (dev.address UARTCR) cr] ++ [.load (dev.address UARTLCR) lcr] ++
      [.store (dev.address UARTCR) (cr &&& ~~~UARTCR_EN)] = trace ++ dev.stopping cr lcr := by
    simp [stopping]
  rw [← htrace]
  rcases hwait : dev.waitTxComplete _ with ⟨_ | _, bus⟩
  · exact Driver.bind_of_none hwait _
  · refine (Driver.bind_of_some hwait _).trans ?_
    rw [hdiv]
    simp only [store, Mmio.store_bind, Mmio.get_bind, Mmio.store_apply, settings, List.append_assoc,
      List.cons_append, List.nil_append]

/-- The registers that configure the device. -/
def Register.setting : Register → Bool
  | UARTIBRD | UARTFBRD | UARTLCR | UARTIMSC | UARTICR | UARTDMACR => true
  | UARTDR | UARTFR | UARTCR => false

/-- The device was disabled, and found idle since. -/
def Stopped (dev : PL011) (trace : List (Event (BitVec 32))) : Prop :=
  ∃ before cr after fr, trace = before ++ .store (dev.address UARTCR) cr :: after ∧
    cr &&& UARTCR_EN = 0 ∧ (∀ v, .store (dev.address UARTCR) v ∉ after) ∧
    .load (dev.address UARTFR) fr ∈ after ∧ idle fr = true

/-- The device is only configured while it is stopped. -/
def Guarded (dev : PL011) : List (Event (BitVec 32)) → Prop :=
  Mmio.Always fun before e => ∀ r v, r.setting = true → e = .store (dev.address r) v →
    dev.Stopped before

variable {trace : List (Event (BitVec 32))}

theorem Stopped.concat {e : Event (BitVec 32)} (h : dev.Stopped trace)
    (he : ∀ v, e ≠ .store (dev.address UARTCR) v) : dev.Stopped (trace ++ [e]) := by
  obtain ⟨before, cr, after, fr, rfl, hcr, hafter, hfr, hidle⟩ := h
  refine ⟨before, cr, after ++ [e], fr, by simp, hcr, fun v hv => ?_, by simp [hfr], hidle⟩
  rcases List.mem_append.mp hv with hv | hv
  · exact hafter v hv
  · exact he v (List.mem_singleton.mp hv).symm

/-- Settings made one after the other on a stopped device. -/
theorem Guarded.settings (settings : List (Register × BitVec 32))
    (hsetting : ∀ s ∈ settings, s.1.setting = true) (h : dev.Guarded trace)
    (hstopped : dev.Stopped trace) :
    dev.Guarded (trace ++ settings.map fun s => .store (dev.address s.1) s.2) := by
  induction settings generalizing trace with
  | nil => simpa using h
  | cons s rest ih =>
      obtain ⟨hs, hrest⟩ := List.forall_mem_cons.mp hsetting
      have hone : dev.Guarded (trace ++ [.store (dev.address s.1) s.2]) :=
        h.concat fun _ _ _ _ => hstopped
      have hstill : dev.Stopped (trace ++ [.store (dev.address s.1) s.2]) := by
        refine hstopped.concat fun v hv => ?_
        rw [dev.address_injective (Event.store.inj hv).1] at hs
        cases hs
      have hall := ih hrest hone hstill
      rwa [List.append_assoc] at hall

/-- An access to no setting. -/
theorem Guarded.other {e : Event (BitVec 32)} (h : dev.Guarded trace)
    (he : ∀ r v, r.setting = true → e ≠ .store (dev.address r) v) : dev.Guarded (trace ++ [e]) :=
  h.concat fun r v hr hv => absurd hv (he r v hr)

theorem Guarded.control (h : dev.Guarded trace) (v : BitVec 32) :
    dev.Guarded (trace ++ [.store (dev.address UARTCR) v]) := by
  refine h.other fun r w hr hw => ?_
  rw [← dev.address_injective (Event.store.inj hw).1] at hr
  cases hr

theorem Guarded.loads (h : dev.Guarded trace) (addr : Nat) (answers : List (BitVec 32)) :
    dev.Guarded (trace ++ answers.map (.load addr)) :=
  Mmio.Always.loads h (fun _ _ _ _ _ hv => by cases hv) answers

/-- What a wait leaves behind. -/
theorem waitTxComplete_cases (dev : PL011) (bus : Bus (BitVec 32)) :
    (∃ waits v rest, bus.answers = waits ++ v :: rest ∧ (∀ w ∈ waits, idle w = false) ∧
      idle v = true ∧ dev.waitTxComplete bus = (some (), ⟨rest,
        bus.trace ++ (waits ++ [v]).map (.load (dev.address UARTFR))⟩)) ∨
    ((∀ w ∈ bus.answers, idle w = false) ∧ dev.waitTxComplete bus =
      (none, ⟨[], bus.trace ++ bus.answers.map (.load (dev.address UARTFR))⟩)) := by
  have hcases := Mmio.pollLoop_cases (dev.address UARTFR) idle bus.answers bus.trace
  simpa [waitTxComplete, Mmio.poll] using hcases

/-- The device is idle at some answer behind the first two. -/
def Resets (answers : List (BitVec 32)) : Prop :=
  ∃ cr lcr rest, answers = cr :: lcr :: rest ∧ ∃ fr ∈ rest, idle fr = true

/-- The wait of `reset` finds the device disabled, so what is stored behind it is stored
while the device is stopped. -/
theorem guarded_settings {answers : List (BitVec 32)} {v cr lcr : BitVec 32} (hv : idle v = true)
    (hv' : v ∈ answers) (h : dev.Guarded (trace ++ dev.stopping cr lcr)) :
    dev.Guarded (trace ++ dev.stopping cr lcr ++ answers.map (.load (dev.address UARTFR)) ++
      dev.settings lcr ibrd fbrd) := by
  have hstopped : dev.Stopped (trace ++ dev.stopping cr lcr ++
      answers.map (.load (dev.address UARTFR))) := by
    refine ⟨trace ++ [.load (dev.address UARTCR) cr, .load (dev.address UARTLCR) lcr],
      cr &&& ~~~UARTCR_EN, answers.map (.load (dev.address UARTFR)), v, ?_, ?_, ?_, ?_, hv⟩
    · simp [stopping]
    · simp [BitVec.and_assoc]
    · simp
    · exact List.mem_map_of_mem hv'
  have hset := (h.loads (dev.address UARTFR) answers).settings
    [(UARTLCR, lcr &&& ~~~UARTLCR_FEN), (UARTIMSC, 0x7ff), (UARTICR, 0x7ff), (UARTDMACR, 0x0),
      (UARTIBRD, ibrd), (UARTFBRD, fbrd), (UARTLCR, dev.frame)]
    (by simp [Register.setting]) hstopped
  have hlast := (hset.control UARTCR_TXEN).control (UARTCR_TXEN ||| UARTCR_EN)
  simpa [settings] using hlast

/-- The bytes that were sent. -/
def sent (dev : PL011) (trace : List (Event (BitVec 32))) : List (BitVec 32) :=
  Mmio.written (dev.address UARTDR) trace

@[simp] theorem sent_loads (trace : List (Event (BitVec 32))) (addr : Nat) (answers : List (BitVec 32)) :
    dev.sent (trace ++ answers.map (.load addr)) = dev.sent trace := by
  rw [sent, Mmio.written_append, Mmio.written_loads, List.append_nil, sent]

@[simp] theorem sent_stopping (trace : List (Event (BitVec 32))) (cr lcr : BitVec 32) :
    dev.sent (trace ++ dev.stopping cr lcr) = dev.sent trace := by
  simp [sent, Mmio.written, stopping, address_eq_iff]

@[simp] theorem sent_settings (trace : List (Event (BitVec 32))) (lcr : BitVec 32) :
    dev.sent (trace ++ dev.settings lcr ibrd fbrd) = dev.sent trace := by
  simp [sent, Mmio.written, settings, address_eq_iff]

theorem reset_cases (hdiv : dev.calculateDivisors = some (ibrd, fbrd)) (bus : Bus (BitVec 32)) :
    (Resets bus.answers ∧ ∃ rest before lcr, dev.reset bus =
        (some (), ⟨rest, before ++ dev.settings lcr ibrd fbrd⟩) ∧
          dev.sent before = dev.sent bus.trace ∧
        (dev.Guarded bus.trace → dev.Guarded (before ++ dev.settings lcr ibrd fbrd))) ∨
      (¬ Resets bus.answers ∧ ∃ after, dev.reset bus = (none, after) ∧
        dev.sent after.trace = dev.sent bus.trace ∧
        (dev.Guarded bus.trace → dev.Guarded after.trace)) := by
  obtain ⟨answers, trace⟩ := bus
  rcases answers with _ | ⟨cr, _ | ⟨lcr, answers⟩⟩
  · refine Or.inr ⟨fun hresets => ?_, _, rfl, rfl, id⟩
    obtain ⟨_, _, _, heq, _⟩ := hresets
    cases heq
  · refine Or.inr ⟨fun hresets => ?_, _, rfl, sent_loads trace (dev.address UARTCR) [cr],
      fun h => h.loads (dev.address UARTCR) [cr]⟩
    obtain ⟨_, _, _, heq, _⟩ := hresets
    cases heq
  have hstopping (h : dev.Guarded trace) : dev.Guarded (trace ++ dev.stopping cr lcr) := by
    have hall := ((h.loads (dev.address UARTCR) [cr]).loads (dev.address UARTLCR) [lcr]).control
      (cr &&& ~~~UARTCR_EN)
    simpa [stopping] using hall
  rw [reset_eq hdiv]
  rcases dev.waitTxComplete_cases ⟨answers, trace ++ dev.stopping cr lcr⟩ with
    ⟨waits, v, rest, hanswers, hwaits, hv, hcall⟩ | ⟨hall, hcall⟩
  · rw [hcall]
    refine Or.inl ⟨⟨cr, lcr, _, rfl, v, ?_, hv⟩, rest, _, lcr, rfl, ?_, fun h => ?_⟩
    · rw [show answers = _ from hanswers]
      simp
    · exact (sent_loads _ _ _).trans (sent_stopping trace cr lcr)
    · exact guarded_settings hv (by simp) (hstopping h)
  · rw [hcall]
    refine Or.inr ⟨fun hresets => ?_, _, rfl, ?_, fun h => (hstopping h).loads _ _⟩
    swap
    · exact (sent_loads _ _ _).trans (sent_stopping trace cr lcr)
    obtain ⟨cr', lcr', rest, heq, fr, hfr, hidle⟩ := hresets
    obtain ⟨rfl, rfl, rfl⟩ : cr = cr' ∧ lcr = lcr' ∧ answers = rest := by simpa using heq
    exact absurd hidle (by simp [hall fr hfr])

/-- What the device is left with: the last value that was stored in each register. -/
structure Programmed (dev : PL011) (ibrd fbrd : BitVec 32) (trace : List (Event (BitVec 32))) :
    Prop where
  integer : (Mmio.written (dev.address UARTIBRD) trace).getLast? = some ibrd
  fraction : (Mmio.written (dev.address UARTFBRD) trace).getLast? = some fbrd
  line : (Mmio.written (dev.address UARTLCR) trace).getLast? = some dev.frame
  interrupts : (Mmio.written (dev.address UARTIMSC) trace).getLast? = some 0x7ff
  dma : (Mmio.written (dev.address UARTDMACR) trace).getLast? = some 0
  control : (Mmio.written (dev.address UARTCR) trace).getLast? = some (UARTCR_TXEN ||| UARTCR_EN)

theorem programmed_settings (before : List (Event (BitVec 32))) (lcr : BitVec 32) :
    dev.Programmed ibrd fbrd (before ++ dev.settings lcr ibrd fbrd) := by
  constructor <;>
    simp [Mmio.written, settings, address_eq_iff]

/-! ## The baud rate -/

/-- `d` is the quotient of `n` by `m` rounded to the nearest number, a half upwards. -/
def Nearest (n m d : Nat) : Prop := 2 * m * d ≤ 2 * n + m ∧ 2 * n + m < 2 * m * (d + 1)

/-- The number of 64ths that the two registers hold. -/
def divisor (ibrd fbrd : BitVec 32) : Nat := 64 * ibrd.toNat + fbrd.toNat

/-- The two parts of a divisor make it up. -/
@[simp] theorem divisor_split (d : BitVec 32) : divisor (d >>> 6) (d &&& 0x3f) = d.toNat := by
  have hinteger : (d >>> 6).toNat = d.toNat / 64 := by
    rw [BitVec.toNat_ushiftRight, Nat.shiftRight_eq_div_pow]
  have hfraction : (d &&& 0x3f).toNat = d.toNat % 2 ^ 6 := by
    rw [BitVec.toNat_and]
    exact Nat.and_two_pow_sub_one_eq_mod _ 6
  rw [divisor, hinteger, hfraction]
  omega

/-- The mask of the integer part cuts nothing off. -/
theorem calculateDivisors_eq (dev : PL011) (hrate : dev.baudrate = 115200) :
    ∃ d : BitVec 32, dev.calculateDivisors = some (d >>> 6, d &&& 0x3f) ∧
      d.toNat = (8 * dev.baseClock.toNat + 115200) % 2 ^ 32 / 230400 := by
  have hrate2 : (2 : BitVec 32) * 115200 = 230400 := by decide
  refine ⟨(8 * dev.baseClock + 115200) / 230400, ?_, ?_⟩
  · generalize hdiv : (8 * dev.baseClock + 115200) / (230400 : BitVec 32) = d
    have hcut : (d >>> 6) &&& (0xffff : BitVec 32) = d >>> 6 := by
      refine BitVec.eq_of_toNat_eq ?_
      rw [BitVec.toNat_and, BitVec.toNat_ushiftRight, Nat.shiftRight_eq_div_pow]
      refine (Nat.and_two_pow_sub_one_eq_mod _ 16).trans (Nat.mod_eq_of_lt ?_)
      have hlt := (8 * dev.baseClock + 115200).isLt
      rw [← hdiv, BitVec.toNat_udiv]
      change _ / 230400 / 2 ^ 6 < 2 ^ 16
      omega
    rw [calculateDivisors, hrate, hrate2, if_neg (by decide)]
    dsimp only
    rw [hdiv, hcut]
  · simp [BitVec.toNat_add, BitVec.toNat_mul]

/-- The divisor is as near as it can be, unless the computation leaves the 32 bits. -/
theorem calculateDivisors_spec (dev : PL011) (hrate : dev.baudrate = 115200) :
    ∃ ibrd fbrd, dev.calculateDivisors = some (ibrd, fbrd) ∧
      (Nearest (4 * dev.baseClock.toNat) 115200 (divisor ibrd fbrd) ↔
        8 * dev.baseClock.toNat + 115200 < 2 ^ 32) := by
  obtain ⟨d, hcalc, hd⟩ := dev.calculateDivisors_eq hrate
  refine ⟨_, _, hcalc, ?_⟩
  rw [divisor_split, hd, Nearest]
  omega

/-- The device is idle at some answer, and `reset` gets what it waits for behind the first
such answer. -/
def Starts (answers : List (BitVec 32)) : Prop :=
  ∃ waits v rest, answers = waits ++ v :: rest ∧ (∀ w ∈ waits, idle w = false) ∧ idle v = true ∧
    Resets rest

/-- The first idle answer is where it is. -/
theorem starts_iff {waits rest : List (BitVec 32)} {v : BitVec 32}
    (hwaits : ∀ w ∈ waits, idle w = false) (hv : idle v = true) :
    Starts (waits ++ v :: rest) ↔ Resets rest := by
  refine ⟨?_, fun h => ⟨waits, v, rest, rfl, hwaits, hv, h⟩⟩
  rintro ⟨waits', v', rest', heq, hwaits', hv', hresets⟩
  have hdrop : ∀ (waits rest : List (BitVec 32)) (v : BitVec 32), (∀ w ∈ waits, idle w = false) →
      idle v = true → (waits ++ v :: rest).dropWhile (fun w => ! idle w) = v :: rest := by
    intro waits rest v hwaits hv
    rw [List.dropWhile_append_of_pos fun w hw => by simp [hwaits w hw]]
    simp [hv]
  have hrest := hdrop waits rest v hwaits hv
  rw [heq, hdrop waits' rest' v' hwaits' hv'] at hrest
  rwa [(List.cons.inj hrest).2] at hresets

/-- The driver that `new` returns. -/
def fresh (baseAddress : Nat) (baseClock : BitVec 32) : PL011 :=
  ⟨baseAddress, baseClock, 115200, 8, 1⟩

theorem new_cases (baseAddress : Nat) (baseClock : BitVec 32) (bus : Bus (BitVec 32))
    (hdev : dev = fresh baseAddress baseClock)
    (hdiv : dev.calculateDivisors = some (ibrd, fbrd)) :
    (Starts bus.answers ∧ ∃ rest before lcr, new baseAddress baseClock bus =
        (some dev, ⟨rest, before ++ dev.settings lcr ibrd fbrd⟩) ∧
        dev.sent before = dev.sent bus.trace ∧
        (dev.Guarded bus.trace → dev.Guarded (before ++ dev.settings lcr ibrd fbrd))) ∨
      (¬ Starts bus.answers ∧ ∃ after, new baseAddress baseClock bus = (none, after) ∧
        dev.sent after.trace = dev.sent bus.trace ∧
        (dev.Guarded bus.trace → dev.Guarded after.trace)) := by
  have hnew : new baseAddress baseClock = (do
      dev.waitTxComplete
      dev.reset
      return dev) := by
    rw [hdev]
    rfl
  rw [hnew]
  rcases dev.waitTxComplete_cases bus with
    ⟨waits, v, rest, hanswers, hwaits, hv, hcall⟩ | ⟨hall, hcall⟩
  · rw [Driver.bind_of_some hcall, hanswers, starts_iff hwaits hv]
    rcases reset_cases hdiv ⟨rest, _⟩ with
      ⟨hresets, rest', before, lcr, hreset, hsent, hguarded⟩ |
      ⟨hresets, after, hreset, hsent, hguarded⟩
    · rw [Driver.bind_of_some hreset, Driver.pure_apply]
      exact .inl ⟨hresets, rest', before, lcr, rfl, hsent.trans (sent_loads _ _ _),
        fun h => hguarded (h.loads _ _)⟩
    · rw [Driver.bind_of_none hreset]
      exact .inr ⟨hresets, after, rfl, hsent.trans (sent_loads _ _ _),
        fun h => hguarded (h.loads _ _)⟩
  · rw [Driver.bind_of_none hcall]
    have hnot : ¬ Starts bus.answers := by
      rintro ⟨waits, v, rest, heq, _, hv, _⟩
      exact absurd hv (by simp [hall v (by simp [heq])])
    exact .inr ⟨hnot, _, rfl, sent_loads _ _ _, fun h => h.loads _ _⟩

theorem new_eq_some_iff (baseAddress : Nat) (baseClock : BitVec 32) (bus : Bus (BitVec 32)) :
    (new baseAddress baseClock bus).1 = some dev ↔
      dev = fresh baseAddress baseClock ∧ Starts bus.answers := by
  obtain ⟨_, hdiv, _⟩ := (fresh baseAddress baseClock).calculateDivisors_eq rfl
  rcases new_cases baseAddress baseClock bus rfl hdiv with
    ⟨hstarts, _, _, _, hcall, _⟩ | ⟨hstarts, _, hcall, _⟩
  · rw [hcall]
    exact ⟨fun h => ⟨(Option.some.inj h).symm, hstarts⟩, fun h => congrArg some h.1.symm⟩
  · rw [hcall]
    exact iff_of_false (fun h => by cases h) fun h => hstarts h.2

theorem sent_new (baseAddress : Nat) (baseClock : BitVec 32) (bus : Bus (BitVec 32)) :
    (fresh baseAddress baseClock).sent (new baseAddress baseClock bus).2.trace =
      (fresh baseAddress baseClock).sent bus.trace := by
  obtain ⟨_, hdiv, _⟩ := (fresh baseAddress baseClock).calculateDivisors_eq rfl
  rcases new_cases baseAddress baseClock bus rfl hdiv with
    ⟨_, _, _, _, hcall, hsent, _⟩ | ⟨_, _, hcall, hsent, _⟩
  · rw [hcall]
    exact (sent_settings _ _).trans hsent
  · rw [hcall]
    exact hsent

/-- What `new` does to any device, at any address and clock and with any answers. It sends nothing
and never configures a device that may be transmitting. It returns as soon as the device has been
idle before and after it was disabled, and then every register is programmed. The divisor is the
nearest one exactly if the sum that rounds it does not wrap. -/
theorem new_programs (baseAddress : Nat) (baseClock : BitVec 32) (bus : Bus (BitVec 32)) :
    ∃ dev ibrd fbrd, dev = fresh baseAddress baseClock ∧
      (Nearest (4 * baseClock.toNat) 115200 (divisor ibrd fbrd) ↔
        8 * baseClock.toNat + 115200 < 2 ^ 32) ∧
      ((new baseAddress baseClock bus).1 = some dev ↔ Starts bus.answers) ∧
      (Starts bus.answers → dev.Programmed ibrd fbrd (new baseAddress baseClock bus).2.trace) ∧
      dev.sent (new baseAddress baseClock bus).2.trace = dev.sent bus.trace ∧
      (dev.Guarded bus.trace → dev.Guarded (new baseAddress baseClock bus).2.trace) := by
  obtain ⟨ibrd, fbrd, hdiv, hnearest⟩ := calculateDivisors_spec (fresh baseAddress baseClock) rfl
  refine ⟨_, ibrd, fbrd, rfl, hnearest, ?_, ?_, sent_new baseAddress baseClock bus, ?_⟩
  · rw [new_eq_some_iff]
    exact and_iff_right rfl
  all_goals
    rcases new_cases baseAddress baseClock bus rfl hdiv with
      ⟨hstarts, _, before, lcr, hcall, _, hguarded⟩ | ⟨hstarts, _, hcall, _, hguarded⟩
    all_goals rw [hcall]
  · exact fun _ => programmed_settings before lcr
  · exact fun h => absurd h hstarts
  · exact hguarded
  · exact hguarded

end PL011

end Aarch64.Rust
