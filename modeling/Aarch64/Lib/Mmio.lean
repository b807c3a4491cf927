import Mathlib.Data.List.Basic
import Mathlib.Data.BitVec

/-!
# Drivers of memory-mapped devices

What a driver does to a device is a sequence of loads and stores. Nothing is known about
what the device answers to a load, so the answers are given: a list of those to the next
loads. A driver that needs one more answer is still waiting, and what it has done so far
stands in the trace. A list of answers is the beginning of what any device can do, so a
fact about every list is a fact about every device.
-/

namespace Mmio

variable {V α β : Type}

inductive Event (V : Type) where
  | load (addr : Nat) (value : V)
  | store (addr : Nat) (value : V)
  deriving DecidableEq, Repr

/-- The answers to come, and the accesses so far, the latest last. -/
structure Bus (V : Type) where
  answers : List V
  trace : List (Event V)

/-- What the driver returns, unless it waits or stops, and the bus afterwards. -/
def Driver (V α : Type) : Type := Bus V → Option α × Bus V

namespace Driver

instance : Monad (Driver V) where
  pure a := fun bus => (some a, bus)
  bind d f := fun bus =>
    match d bus with
    | (some a, bus) => f a bus
    | (none, bus) => (none, bus)

@[simp] theorem pure_apply (a : α) (bus : Bus V) : (pure a : Driver V α) bus = (some a, bus) := rfl

theorem bind_of_some {d : Driver V α} {bus bus' : Bus V} {a : α} (h : d bus = (some a, bus'))
    (f : α → Driver V β) : (d >>= f) bus = f a bus' := by
  change (match d bus with | (some a, bus) => f a bus | (none, bus) => (none, bus)) = _
  rw [h]

theorem bind_of_none {d : Driver V α} {bus bus' : Bus V} (h : d bus = (none, bus'))
    (f : α → Driver V β) : (d >>= f) bus = (none, bus') := by
  change (match d bus with | (some a, bus) => f a bus | (none, bus) => (none, bus)) = _
  rw [h]

/-- A sequence returns if both drivers do. -/
theorem bind_fst_eq_some_iff {d : Driver V α} {f : α → Driver V β} {bus : Bus V} {b : β} :
    ((d >>= f) bus).1 = some b ↔ ∃ a after, d bus = (some a, after) ∧ (f a after).1 = some b := by
  rcases h : d bus with ⟨_ | a, after⟩
  · rw [bind_of_none h]
    constructor
    · intro hnone
      cases hnone
    · rintro ⟨a, after', heq, _⟩
      cases heq
  · rw [bind_of_some h]
    constructor
    · exact fun hb => ⟨a, after, rfl, hb⟩
    · rintro ⟨a', after', heq, hb⟩
      cases heq
      exact hb

/-- Go on with a value, and stop where there is none. -/
def get : Option α → Driver V α
  | some a => pure a
  | none => fun bus => (none, bus)

@[simp] theorem get_apply (o : Option α) (bus : Bus V) : get o bus = (o, bus) := by
  cases o with
  | none => rfl
  | some a => rfl

end Driver

def load (addr : Nat) : Driver V V := fun bus =>
  match bus.answers with
  | [] => (none, bus)
  | v :: rest => (some v, ⟨rest, bus.trace ++ [.load addr v]⟩)

def store (addr : Nat) (v : V) : Driver V Unit := fun bus =>
  (some (), { bus with trace := bus.trace ++ [.store addr v] })

def pollLoop (addr : Nat) (done : V → Bool) : List V → List (Event V) → Option Unit × Bus V
  | [], trace => (none, ⟨[], trace⟩)
  | v :: rest, trace =>
      if done v then (some (), ⟨rest, trace ++ [.load addr v]⟩)
      else pollLoop addr done rest (trace ++ [.load addr v])

/-- Load until the answer is as wanted. -/
def poll (addr : Nat) (done : V → Bool) : Driver V Unit := fun bus =>
  pollLoop addr done bus.answers bus.trace

/-- The loop as it is written. -/
theorem poll_eq (addr : Nat) (done : V → Bool) :
    poll addr done = (do
      let v ← load addr
      if done v then pure () else poll addr done) := by
  funext bus
  obtain ⟨answers, trace⟩ := bus
  cases answers with
  | nil => rfl
  | cons v rest =>
      change pollLoop addr done (v :: rest) trace = (if done v then pure () else poll addr done :
        Driver V Unit) ⟨rest, trace ++ [.load addr v]⟩
      rw [pollLoop]
      split <;> rfl

@[simp] theorem store_apply (addr : Nat) (v : V) (bus : Bus V) :
    store addr v bus = (some (), { bus with trace := bus.trace ++ [.store addr v] }) := rfl

@[simp] theorem store_bind (addr : Nat) (v : V) (f : Unit → Driver V β) (bus : Bus V) :
    (store addr v >>= f) bus = f () { bus with trace := bus.trace ++ [.store addr v] } := rfl

@[simp] theorem get_bind (a : α) (f : α → Driver V β) (bus : Bus V) :
    (Driver.get (some a) >>= f) bus = f a bus := rfl

theorem pollLoop_cases (addr : Nat) (done : V → Bool) (answers : List V) :
    ∀ trace : List (Event V),
    (∃ waits v rest, answers = waits ++ v :: rest ∧ (∀ w ∈ waits, done w = false) ∧
      done v = true ∧ pollLoop addr done answers trace =
        (some (), ⟨rest, trace ++ waits.map (.load addr) ++ [.load addr v]⟩)) ∨
    ((∀ w ∈ answers, done w = false) ∧
      pollLoop addr done answers trace = (none, ⟨[], trace ++ answers.map (.load addr)⟩)) := by
  induction answers with
  | nil => exact fun trace => Or.inr ⟨by simp, by simp [pollLoop]⟩
  | cons v rest ih =>
      intro trace
      by_cases hv : done v = true
      · exact Or.inl ⟨[], v, rest, rfl, by simp, hv, by simp [pollLoop, hv]⟩
      have hloop : pollLoop addr done (v :: rest) trace =
          pollLoop addr done rest (trace ++ [.load addr v]) := by
        rw [pollLoop, if_neg hv]
      rw [Bool.not_eq_true] at hv
      rw [hloop]
      rcases ih (trace ++ [.load addr v]) with ⟨waits, w, rest', rfl, hwaits, hw, hcall⟩ |
        ⟨hall, hcall⟩
      · refine Or.inl ⟨v :: waits, w, rest', rfl, List.forall_mem_cons.mpr ⟨hv, hwaits⟩, hw, ?_⟩
        rw [hcall]
        simp
      · refine Or.inr ⟨List.forall_mem_cons.mpr ⟨hv, hall⟩, ?_⟩
        rw [hcall]
        simp

/-! ## What is stored, and when -/

/-- The values stored at an address, in order. -/
def written (addr : Nat) (trace : List (Event V)) : List V :=
  trace.filterMap fun
    | .load _ _ => none
    | .store a v => if a = addr then some v else none

@[simp] theorem written_append (addr : Nat) (trace trace' : List (Event V)) :
    written addr (trace ++ trace') = written addr trace ++ written addr trace' :=
  List.filterMap_append

@[simp] theorem written_loads (addr addr' : Nat) (answers : List V) :
    written addr (answers.map (.load addr')) = [] := by
  rw [written, List.filterMap_map]
  exact List.filterMap_eq_nil_iff.mpr fun _ _ => rfl

@[simp] theorem written_store_self (addr : Nat) (v : V) : written addr [.store addr v] = [v] := by
  simp [written]

theorem written_store_ne {addr addr' : Nat} (h : addr' ≠ addr) (v : V) :
    written addr [.store addr' v] = [] := by
  simp [written, h]

/-- Each access satisfies `P` with what went before it. -/
def Always (P : List (Event V) → Event V → Prop) (trace : List (Event V)) : Prop :=
  ∀ before e after, trace = before ++ e :: after → P before e

namespace Always

variable {P : List (Event V) → Event V → Prop} {trace : List (Event V)}

/-- An access more needs a look at this access alone. -/
theorem concat {e : Event V} (h : Always P trace) (he : P trace e) : Always P (trace ++ [e]) := by
  intro before e' after heq
  rcases List.eq_nil_or_concat after with rfl | ⟨after, e'', rfl⟩
  · obtain ⟨rfl, hlast⟩ := List.append_inj' heq rfl
    rwa [← List.singleton_inj.mp hlast]
  · rw [List.concat_eq_append, ← List.cons_append, ← List.append_assoc] at heq
    exact h before e' after (List.append_inj' heq rfl).1

theorem loads {addr : Nat} (h : Always P trace) (hP : ∀ before v, P before (.load addr v))
    (answers : List V) : Always P (trace ++ answers.map (.load addr)) := by
  induction answers generalizing trace with
  | nil =>
      rw [List.map_nil, List.append_nil]
      exact h
  | cons v rest ih =>
      have hrest := ih (h.concat (hP trace v))
      rwa [List.append_assoc] at hrest

end Always

section Paced

/-! A device that can take one value at a time says at one address whether it is idle and
takes the values at another. -/

variable (status data : Nat) (idle : V → Bool)

/-- The last access found the device idle. -/
def Ready (trace : List (Event V)) : Prop :=
  ∃ before w, trace = before ++ [.load status w] ∧ idle w = true

/-- Every value is stored right after the device was found idle. -/
def Paced : List (Event V) → Prop :=
  Always fun before e => ∀ v, e = .store data v → Ready status idle before

/-- Store values one after the other, and wait behind each of them. -/
def putAll : List V → Driver V Unit
  | [] => pure ()
  | v :: rest => do
      store data v
      poll status idle
      putAll rest

/-- Wait before the first value as well. -/
def sendAll (values : List V) : Driver V Unit := do
  poll status idle
  putAll status data idle values

variable {status data : Nat} {idle : V → Bool}

theorem Paced.loads {trace : List (Event V)} (h : Paced status data idle trace) (addr : Nat)
    (answers : List V) : Paced status data idle (trace ++ answers.map (.load addr)) :=
  Always.loads h (fun _ _ _ hv => by cases hv) answers

/-- A wait that ends finds the device idle, and stores nothing. -/
theorem poll_cases (status : Nat) (idle : V → Bool) (bus : Bus V) :
    (∃ after, poll status idle bus = (some (), after) ∧ Ready status idle after.trace ∧
      bus.answers.countP idle = after.answers.countP idle + 1 ∧
      (∀ addr, written addr after.trace = written addr bus.trace) ∧
      ∀ data, Paced status data idle bus.trace → Paced status data idle after.trace) ∨
    ∃ after, poll status idle bus = (none, after) ∧ bus.answers.countP idle = 0 ∧
      (∀ addr, written addr after.trace = written addr bus.trace) ∧
      ∀ data, Paced status data idle bus.trace → Paced status data idle after.trace := by
  rcases pollLoop_cases status idle bus.answers bus.trace with
    ⟨waits, v, rest, hanswers, hwaits, hv, hcall⟩ | ⟨hall, hcall⟩
  · refine Or.inl ⟨_, hcall, ⟨_, v, rfl, hv⟩, ?_, fun addr => ?_, fun data h => ?_⟩
    · have hzero : waits.countP idle = 0 := List.countP_eq_zero.mpr fun w hw => by simp [hwaits w hw]
      rw [hanswers, List.countP_append, hzero, Nat.zero_add, List.countP_cons_of_pos hv]
    · rw [List.append_assoc, written_append, written_append, written_loads, List.nil_append]
      exact List.append_nil _
    · exact (h.loads status waits).concat fun w hw => by cases hw
  · refine Or.inr ⟨_, hcall, ?_, fun addr => ?_, fun data h => h.loads status bus.answers⟩
    · exact List.countP_eq_zero.mpr fun w hw => by simp [hall w hw]
    · rw [written_append, written_loads, List.append_nil]

/-- What waiting and putting `values` does on a bus: the device gets as many values as it is
found idle, and the driver returns when it is found idle once more. -/
structure Sends (status data : Nat) (idle : V → Bool) (values : List V) (bus : Bus V)
    (result : Option Unit × Bus V) : Prop where
  written : Mmio.written data result.2.trace =
    Mmio.written data bus.trace ++ values.take (bus.answers.countP idle)
  elsewhere : ∀ addr, addr ≠ data →
    Mmio.written addr result.2.trace = Mmio.written addr bus.trace
  paced : Paced status data idle bus.trace → Paced status data idle result.2.trace
  returns : result.1 = some () ↔ values.length < bus.answers.countP idle
  left : result.1 = some () →
    bus.answers.countP idle = result.2.answers.countP idle + (values.length + 1)

@[simp] theorem sendAll_nil : sendAll status data idle [] = poll status idle := by
  funext bus
  rcases poll_cases status idle bus with ⟨after, hcall, _⟩ | ⟨after, hcall, _⟩
  · rw [hcall]
    exact Driver.bind_of_some hcall _
  · rw [hcall]
    exact Driver.bind_of_none hcall _

/-- Behind the first value the driver goes on as if it had just begun. -/
theorem sendAll_cons (v : V) (values : List V) :
    sendAll status data idle (v :: values) = (do
      poll status idle
      store data v
      sendAll status data idle values) := rfl

theorem sendAll_spec (status data : Nat) (idle : V → Bool) (values : List V) (bus : Bus V) :
    Sends status data idle values bus (sendAll status data idle values bus) := by
  induction values generalizing bus with
  | nil =>
      rw [sendAll_nil]
      rcases poll_cases status idle bus with
        ⟨after, hcall, _, hcount, hwritten, hpaced⟩ | ⟨after, hcall, hcount, hwritten, hpaced⟩
      · rw [hcall]
        refine ⟨?_, fun addr _ => hwritten addr, hpaced data, ?_, fun _ => hcount⟩
        · rw [List.take_nil, List.append_nil, hwritten]
        · simp [hcount]
      · rw [hcall]
        refine ⟨?_, fun addr _ => hwritten addr, hpaced data, ?_, fun h => by cases h⟩
        · rw [List.take_nil, List.append_nil, hwritten]
        · simp [hcount]
  | cons v values ih =>
      rw [sendAll_cons]
      rcases poll_cases status idle bus with
        ⟨after, hcall, hready, hcount, hwritten, hpaced⟩ | ⟨after, hcall, hcount, hwritten, hpaced⟩
      · have hstored := ih { after with trace := after.trace ++ [.store data v] }
        rw [Driver.bind_of_some hcall, store_bind]
        refine ⟨?_, fun addr haddr => ?_, fun h => ?_, ?_, fun h => ?_⟩
        · rw [hstored.written, written_append, written_store_self, hwritten, hcount,
            List.take_succ_cons, List.append_assoc]
          rfl
        · rw [hstored.elsewhere addr haddr, written_append, written_store_ne haddr.symm,
            List.append_nil, hwritten]
        · exact hstored.paced ((hpaced data h).concat fun _ _ => hready)
        · rw [hstored.returns, hcount, List.length_cons]
          exact Nat.succ_lt_succ_iff.symm
        · rw [hcount, List.length_cons]
          have hleft := hstored.left h
          dsimp only at hleft
          omega
      · rw [Driver.bind_of_none hcall]
        refine ⟨?_, fun addr _ => hwritten addr, hpaced data, ?_, fun h => by cases h⟩
        · rw [hcount, List.take_zero, List.append_nil, hwritten]
        · simp [hcount]

/-- Messages sent one after the other. -/
def sendEach (status data : Nat) (idle : V → Bool) : List (List V) → Driver V Unit
  | [] => pure ()
  | values :: rest => do
      sendAll status data idle values
      sendEach status data idle rest

/-- The idle answers that messages take: one for each value, and one more for each message. -/
def answersFor (messages : List (List V)) : Nat := (messages.map fun values => values.length + 1).sum

/-- What sending `messages` does on a bus. -/
structure SendsEach (status data : Nat) (idle : V → Bool) (messages : List (List V)) (bus : Bus V)
    (result : Option Unit × Bus V) : Prop where
  written : ∃ sent, sent <+: messages.flatten ∧
    Mmio.written data result.2.trace = Mmio.written data bus.trace ++ sent ∧
    (result.1 = some () → sent = messages.flatten)
  elsewhere : ∀ addr, addr ≠ data →
    Mmio.written addr result.2.trace = Mmio.written addr bus.trace
  paced : Paced status data idle bus.trace → Paced status data idle result.2.trace
  returns : result.1 = some () ↔ answersFor messages ≤ bus.answers.countP idle

theorem sendEach_spec (status data : Nat) (idle : V → Bool) (messages : List (List V))
    (bus : Bus V) :
    SendsEach status data idle messages bus (sendEach status data idle messages bus) := by
  induction messages generalizing bus with
  | nil =>
      refine ⟨⟨[], List.nil_prefix, (List.append_nil _).symm, fun _ => rfl⟩, fun _ _ => rfl, id, ?_⟩
      exact iff_of_true rfl (Nat.zero_le _)
  | cons values rest ih =>
      have hfirst := sendAll_spec status data idle values bus
      have hneeds : answersFor (values :: rest) = values.length + 1 + answersFor rest := rfl
      rcases hcall : sendAll status data idle values bus with ⟨_ | _, after⟩
      · rw [hcall] at hfirst
        rw [sendEach, Driver.bind_of_none hcall]
        refine ⟨⟨_, ?_, hfirst.written, fun h => by cases h⟩, hfirst.elsewhere, hfirst.paced, ?_⟩
        · exact (List.take_prefix _ _).trans (List.prefix_append _ _)
        · refine iff_of_false (fun h => by cases h) fun hle => ?_
          have hnone := hfirst.returns.mpr (by omega)
          cases hnone
      · rw [hcall] at hfirst
        rw [sendEach, Driver.bind_of_some hcall]
        have hlt := hfirst.returns.mp rfl
        have hleft := hfirst.left rfl
        have hthen := ih after
        obtain ⟨sent, hsent, hwritten, hall⟩ := hthen.written
        refine ⟨⟨values ++ sent, ?_, ?_, fun h => by rw [hall h]; rfl⟩, fun addr haddr => ?_,
          fun h => hthen.paced (hfirst.paced h), ?_⟩
        · exact (List.prefix_append_right_inj values).mpr hsent
        · rw [hwritten, hfirst.written, List.take_of_length_le (Nat.le_of_lt hlt),
            List.append_assoc]
        · rw [hthen.elsewhere addr haddr, hfirst.elsewhere addr haddr]
        · rw [hthen.returns, hneeds]
          dsimp only at hleft
          omega

end Paced

/-! ## Texts -/

/-- The bytes that the device gets for a text: a carriage return before every newline. -/
def crlf (data : List UInt8) : List UInt8 :=
  data.flatMap fun b => if b = '\n'.toUInt8 then ['\r'.toUInt8, b] else [b]

@[simp] theorem crlf_append (data data' : List UInt8) : crlf (data ++ data') = crlf data ++ crlf data' :=
  List.flatMap_append

/-- The values that are stored for bytes. -/
def words (data : List UInt8) : List (BitVec 32) := data.map fun b => BitVec.ofNat 32 b.toNat

theorem crlf_cons {b : UInt8} (hb : b ≠ '\n'.toUInt8) (data : List UInt8) :
    crlf (b :: data) = b :: crlf data := by
  rw [crlf, List.flatMap_cons, if_neg hb]
  rfl

@[simp] theorem words_append (data data' : List UInt8) :
    words (data ++ data') = words data ++ words data' :=
  List.map_append

end Mmio
