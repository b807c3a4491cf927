import Aarch64.Cxx.Pl011
import Aarch64.Cxx.Stream
import Aarch64.Lib.Bytes

/-!
# Logging

The operators of `common/stream.cc`, the sink of `common/logging.cc`, and the stream on the
serial line of `bootstrap/pl011.cc`. What a statement logs is a list of insertions. A string
is given without the zero that ends it.
-/

namespace Aarch64.Cxx

open Mmio (Driver Bus crlf words)

/-- An operand of `<<`. The other integer types are converted to one of the two. -/
inductive Insertion
  | char (c : UInt8)
  | signed (x : Int)
  | unsigned (x : Nat)
  | string (str : List UInt8)
  | pointer (x : Nat)

namespace OutputStream

variable {σ : Type}

/-- `operator<<(OutputStream&, long long)`. The least number has no negation. -/
def insertSigned (out : OutputStream σ) (s : σ) (buffer : List UInt8) (x : Int) (fuel : Nat) :
    Option σ :=
  if x < 0 then
    if x = -2 ^ 63 then none
    else do
      let s ← out.write s (Bytes.ofString "-") 0 fuel
      out.insertUnsigned s buffer (-x).toNat fuel
  else out.insertUnsigned s buffer x.toNat fuel

/-- The overloads of `<<`. The buffer of a number has any contents at first. -/
def insert (out : OutputStream σ) (buffer : List UInt8) (fuel : Nat) (s : σ) :
    Insertion → Option σ
  | .char c => some (out.put s c).2
  | .signed x => out.insertSigned s buffer x fuel
  | .unsigned x => out.insertUnsigned s buffer x fuel
  | .string str => out.write s str 0 fuel
  | .pointer x => out.insertPointer s x fuel

/-- A statement `out << a << b`. -/
def insertAll (out : OutputStream σ) (buffer : List UInt8) (fuel : Nat) (s : σ)
    (items : List Insertion) : Option σ :=
  items.foldlM (out.insert buffer fuel) s

/-- `NoopSink`. -/
def noop : OutputStream σ := ⟨fun s _ => (0, s), fun s data => (data.length, s)⟩

end OutputStream

/-- `Log`, with the sink that was registered last. -/
def log {σ : Type} (sink : Option (OutputStream σ)) : OutputStream σ := sink.getD .noop

/-- The stream on the serial line. A call behind one that did not return does nothing. -/
def PL011.stream (dev : PL011) : OutputStream (Option Unit × Bus (BitVec 32)) where
  put s c :=
    match s with
    | (some (), bus) => (1, (dev.put c bus).map (Option.map fun _ => ()) id)
    | (none, bus) => (1, none, bus)
  putN s data :=
    match s with
    | (some (), bus) => (data.length, (dev.putN data bus).map (Option.map fun _ => ()) id)
    | (none, bus) => (data.length, none, bus)

/-! ## What a statement logs -/

/-- The text of an operand. -/
def Insertion.text : Insertion → List UInt8
  | .char c => [c]
  | .signed x =>
      if x < 0 then Bytes.ofString "-" ++ Numeral.ofNat digit 10 (-x).toNat
      else Numeral.ofNat digit 10 x.toNat
  | .unsigned x => Numeral.ofNat digit 10 x
  | .string str => str
  | .pointer x => Bytes.ofString "0x" ++ Numeral.ofNat digit 16 x

/-- The calls of `PutN` for an operand. -/
def Insertion.calls : Insertion → List (List UInt8)
  | .char c => [[c]]
  | .signed x =>
      if x < 0 then [Bytes.ofString "-", Numeral.ofNat digit 10 (-x).toNat]
      else [Numeral.ofNat digit 10 x.toNat]
  | .unsigned x => [Numeral.ofNat digit 10 x]
  | .string str => if str = [] then [] else [str]
  | .pointer x => [Bytes.ofString "0x" ++ Numeral.ofNat digit 16 x]

@[simp] theorem Insertion.flatten_calls (i : Insertion) : i.calls.flatten = i.text := by
  cases i with
  | char c => rfl
  | signed x =>
      rw [calls, text]
      split
      · simp
      · simp
  | unsigned x => simp [calls, text]
  | string str =>
      rw [calls, text]
      split
      next h => rw [h, List.flatten_nil]
      next => simp
  | pointer x => simp [calls, text]

/-- The numbers fit their types, the least number is not among them, and the length of a
string is an `int`. -/
def Insertion.Fits : Insertion → Prop
  | .char _ => True
  | .string str => str.length < 2 ^ 31
  | .signed x => -2 ^ 63 < x ∧ x < 2 ^ 63
  | .unsigned x | .pointer x => x < 2 ^ 64

namespace OutputStream

variable {σ : Type} {out : OutputStream σ}

/-- The stream always takes all characters. -/
structure Greedy (out : OutputStream σ) : Prop where
  putN_fst : ∀ s data, (out.putN s data).1 = data.length
  put_snd : ∀ s c, (out.put s c).2 = (out.putN s [c]).2

theorem greedy_noop : (noop : OutputStream σ).Greedy := ⟨fun _ _ => rfl, fun _ _ => rfl⟩

/-- One call is enough. -/
theorem Greedy.write (h : out.Greedy) (s : σ) {data : List UInt8} (hint : data.length < 2 ^ 31)
    {fuel : Nat} (hfuel : 2 ≤ fuel) :
    out.write s data 0 fuel = some (if data = [] then s else (out.putN s data).2) := by
  obtain ⟨fuel, rfl⟩ := Nat.exists_eq_add_of_le' hfuel
  cases data with
  | nil => rfl
  | cons c data =>
      have hput : out.putN s ((c :: data).drop 0) =
          (((c :: data).length : Int), (out.putN s (c :: data)).2) :=
        Prod.ext (h.putN_fst s (c :: data)) rfl
      rw [write_of_lt (by simp) hint hput, if_neg (by omega), Int.toNat_natCast, Nat.zero_add,
        OutputStream.write, if_neg (Nat.lt_irrefl _), if_neg (List.cons_ne_nil c data)]

/-- The state behind calls of `PutN`. -/
def putAll (out : OutputStream σ) (s : σ) (calls : List (List UInt8)) : σ :=
  calls.foldl (fun s data => (out.putN s data).2) s

@[simp] theorem putAll_append (out : OutputStream σ) (s : σ) (calls calls' : List (List UInt8)) :
    out.putAll s (calls ++ calls') = out.putAll (out.putAll s calls) calls' :=
  List.foldl_append

theorem ofNat_ne_nil {base : Nat} (hlo : 1 < base) (hhi : base ≤ digit.length) (x : Nat) :
    Numeral.ofNat digit base x ≠ [] := by
  intro hnil
  have hlen := (Numeral.writes_ofNat hlo hhi x).length_eq
  rw [hnil] at hlen
  exact Numeral.digits_ne_nil (List.eq_nil_of_length_eq_zero hlen.symm)

theorem length_ofNat_le {base x : Nat} (hlo : 1 < base) (hhi : base ≤ digit.length)
    (hx : x < 2 ^ 64) : (Numeral.ofNat digit base x).length ≤ 64 :=
  Numeral.length_ofNat_le hlo hhi (by decide) (hx.trans_le (Nat.pow_le_pow_left hlo 64))

variable {buffer : List UInt8} {fuel : Nat}

theorem Greedy.insertUnsigned (h : out.Greedy) (s : σ) (hbuffer : buffer.length = 128)
    (hfuel : 2 ≤ fuel) {x : Nat} (hx : x < 2 ^ 64) :
    out.insertUnsigned s buffer x fuel = some (out.putN s (Numeral.ofNat digit 10 x)).2 := by
  have hlen : 10 ≤ digit.length := by decide
  have hshort := length_ofNat_le (by decide) hlen hx
  rw [OutputStream.insertUnsigned, formatNumber_eq (by decide) hlen (by omega), Option.bind_eq_bind,
    Option.bind_some, List.take_zero, List.nil_append, Nat.zero_add]
  dsimp only
  rw [List.take_left, h.write _ (by omega) hfuel, if_neg (ofNat_ne_nil (by decide) hlen x)]

theorem Greedy.insertPointer (h : out.Greedy) (s : σ) (hfuel : 2 ≤ fuel) {x : Nat}
    (hx : x < 2 ^ 64) : out.insertPointer s x fuel =
      some (out.putN s (Bytes.ofString "0x" ++ Numeral.ofNat digit 16 x)).2 := by
  have hlen : 16 ≤ digit.length := by decide
  have hshort := length_ofNat_le (by decide) hlen hx
  have hprefix : (Bytes.ofString "0x").length = 2 := by decide
  have hdata : (Bytes.ofString "0x" ++ Numeral.ofNat digit 16 x).length =
      2 + (Numeral.ofNat digit 16 x).length := by rw [List.length_append, hprefix]
  have hroom : 2 + (Numeral.ofNat digit 16 x).length ≤
      (Bytes.ofString "0x" ++ List.replicate 126 0).length := by
    rw [List.length_append, hprefix, List.length_replicate]
    omega
  rw [OutputStream.insertPointer]
  dsimp only
  rw [formatNumber_eq (by decide) hlen hroom, Option.bind_eq_bind, Option.bind_some,
    List.take_left' hprefix, ← List.append_assoc, ← hdata, List.take_left, h.write _ (by omega) hfuel,
    if_neg (List.append_ne_nil_of_right_ne_nil _ (ofNat_ne_nil (by decide) hlen x))]

/-- An operand is its calls of `PutN`, one after the other. -/
theorem Greedy.insert (h : out.Greedy) (s : σ) (hbuffer : buffer.length = 128) (hfuel : 2 ≤ fuel)
    {i : Insertion} (hi : i.Fits) :
    out.insert buffer fuel s i = some (out.putAll s i.calls) := by
  cases i with
  | char c => exact congrArg some (h.put_snd s c)
  | signed x =>
      obtain ⟨hlo, hhi⟩ := hi
      rw [OutputStream.insert, OutputStream.insertSigned, Insertion.calls]
      by_cases hneg : x < 0
      · rw [if_pos hneg, if_neg hlo.ne', if_pos hneg, h.write _ (by decide) hfuel, if_neg (by decide),
          Option.bind_eq_bind, Option.bind_some,
          h.insertUnsigned _ hbuffer hfuel (by omega : (-x).toNat < 2 ^ 64)]
        rfl
      · rw [if_neg hneg, if_neg hneg,
          h.insertUnsigned _ hbuffer hfuel (by omega : x.toNat < 2 ^ 64)]
        rfl
  | unsigned x => exact h.insertUnsigned s hbuffer hfuel hi
  | string str =>
      rw [OutputStream.insert, h.write _ hi hfuel, Insertion.calls]
      split
      next => rfl
      next => rfl
  | pointer x => exact h.insertPointer s hfuel hi

theorem Greedy.insertAll (h : out.Greedy) (hbuffer : buffer.length = 128) (hfuel : 2 ≤ fuel)
    (items : List Insertion) (hitems : ∀ i ∈ items, i.Fits) (s : σ) :
    out.insertAll buffer fuel s items = some (out.putAll s (items.flatMap Insertion.calls)) := by
  induction items generalizing s with
  | nil => rfl
  | cons i rest ih =>
      obtain ⟨hi, hrest⟩ := List.forall_mem_cons.mp hitems
      rw [OutputStream.insertAll, List.foldlM_cons, h.insert s hbuffer hfuel hi,
        Option.bind_eq_bind, Option.bind_some, List.flatMap_cons, putAll_append]
      exact ih hrest _

/-- Nothing is logged while there is no sink. -/
theorem insertAll_noop (hbuffer : buffer.length = 128) (hfuel : 2 ≤ fuel) {items : List Insertion}
    (hitems : ∀ i ∈ items, i.Fits) (s : σ) :
    (log none).insertAll buffer fuel s items = some s := by
  have hput : ∀ calls : List (List UInt8), (noop : OutputStream σ).putAll s calls = s := by
    intro calls
    induction calls with
    | nil => rfl
    | cons _ _ ih => exact ih
  exact (greedy_noop.insertAll hbuffer hfuel items hitems s).trans (congrArg some (hput _))

end OutputStream

/-! ## On the serial line -/

namespace PL011

variable (dev : PL011)

theorem stream_putN (bus : Bus (BitVec 32)) (data : List UInt8) :
    (dev.stream.putN (some (), bus) data).2 = dev.send data bus := by
  change (dev.putN data bus).map (Option.map fun _ => ()) id = _
  rcases hcall : dev.send data bus with ⟨_ | _, after⟩
  · rw [putN, Driver.bind_of_none hcall]
    rfl
  · rw [putN, Driver.bind_of_some hcall]
    rfl

theorem greedy_stream : dev.stream.Greedy where
  putN_fst s data := by
    obtain ⟨_ | _, bus⟩ := s
    · rfl
    · rfl
  put_snd s c := by
    obtain ⟨_ | _, bus⟩ := s
    · rfl
    · rfl

/-- The messages of calls of `PutN`. -/
def messages (calls : List (List UInt8)) : List (List (BitVec 32)) :=
  calls.map fun data => words (crlf data)

theorem putAll_stream (calls : List (List UInt8)) (bus : Bus (BitVec 32)) :
    dev.stream.putAll (some (), bus) calls =
      Mmio.sendEach (register dev.registers FR) (register dev.registers DR) notBusy
        (messages calls) bus := by
  have hstuck : ∀ (calls : List (List UInt8)) (bus : Bus (BitVec 32)),
      dev.stream.putAll (none, bus) calls = (none, bus) := by
    intro calls bus
    induction calls with
    | nil => rfl
    | cons data rest ih => exact ih
  induction calls generalizing bus with
  | nil => rfl
  | cons data rest ih =>
      rw [OutputStream.putAll, List.foldl_cons, stream_putN, messages, List.map_cons, Mmio.sendEach]
      rcases hcall : dev.send data bus with ⟨_ | _, after⟩
      · rw [send_eq] at hcall
        rw [Driver.bind_of_none hcall]
        exact hstuck rest after
      · rw [send_eq] at hcall
        rw [Driver.bind_of_some hcall]
        exact ih after

@[simp] theorem flatten_messages (calls : List (List UInt8)) :
    (messages calls).flatten = words (crlf calls.flatten) := by
  induction calls with
  | nil => rfl
  | cons data rest ih =>
      rw [messages, List.map_cons, List.flatten_cons, List.flatten_cons, Mmio.crlf_append,
        Mmio.words_append, ← ih]
      rfl

theorem answersFor_messages (calls : List (List UInt8)) :
    Mmio.answersFor (messages calls) = (crlf calls.flatten).length + calls.length := by
  induction calls with
  | nil => rfl
  | cons data rest ih =>
      have hcons : Mmio.answersFor (messages (data :: rest)) =
          (words (crlf data)).length + 1 + Mmio.answersFor (messages rest) := rfl
      rw [hcons, ih, List.flatten_cons, Mmio.crlf_append, List.length_append, words,
        List.length_map, List.length_cons]
      omega

end PL011

/-- What reaches the serial line of a statement that logs: nothing without a sink, and else
nothing but its text, in order and with a carriage return before each newline, each character
when the device is idle. All of it does, and the statement is done, if the device is found
idle once for each character and once more for each call of `PutN`. -/
theorem log_spec (dev : PL011) {buffer : List UInt8} {fuel : Nat} (hbuffer : buffer.length = 128)
    (hfuel : 2 ≤ fuel) {items : List Insertion} (hitems : ∀ i ∈ items, i.Fits)
    (bus : Bus (BitVec 32)) :
    (log none).insertAll buffer fuel (some (), bus) items = some (some (), bus) ∧
    ∃ returned after,
      (log (some dev.stream)).insertAll buffer fuel (some (), bus) items = some (returned, after) ∧
      (∃ sent, sent <+: words (crlf (items.flatMap Insertion.text)) ∧
        Mmio.written (PL011.register dev.registers PL011.DR) after.trace =
          Mmio.written (PL011.register dev.registers PL011.DR) bus.trace ++ sent ∧
        (returned = some () → sent = words (crlf (items.flatMap Insertion.text)))) ∧
      (Mmio.Paced (PL011.register dev.registers PL011.FR) (PL011.register dev.registers PL011.DR)
          PL011.notBusy bus.trace →
        Mmio.Paced (PL011.register dev.registers PL011.FR) (PL011.register dev.registers PL011.DR)
          PL011.notBusy after.trace) ∧
      (returned = some () ↔ (crlf (items.flatMap Insertion.text)).length +
        (items.flatMap Insertion.calls).length ≤ bus.answers.countP PL011.notBusy) := by
  have htext : (items.flatMap Insertion.calls).flatten = items.flatMap Insertion.text := by
    rw [← List.flatMap_id, List.flatMap_assoc]
    exact List.flatMap_congr fun i _ => List.flatMap_id.trans i.flatten_calls
  have hrun := dev.greedy_stream.insertAll hbuffer hfuel items hitems (some (), bus)
  rw [dev.putAll_stream] at hrun
  have hsends := Mmio.sendEach_spec (PL011.register dev.registers PL011.FR)
    (PL011.register dev.registers PL011.DR) PL011.notBusy
    (PL011.messages (items.flatMap Insertion.calls)) bus
  have hwritten := hsends.written
  have hreturns := hsends.returns
  rw [PL011.flatten_messages, htext] at hwritten
  rw [PL011.answersFor_messages, htext] at hreturns
  exact ⟨OutputStream.insertAll_noop hbuffer hfuel hitems _, _, _, hrun, hwritten, hsends.paced,
    hreturns⟩

/-- The least number that is printed right, and a line end, on a device that is always idle. -/
theorem log_spec_signed : ∃ after,
    (log (some (PL011.stream ⟨0x9000000, 833⟩))).insertAll (List.replicate 128 0) 2
      (some (), ⟨List.replicate 40 0, []⟩) [.signed (-2 ^ 63 + 1), .string (Bytes.ofString "\n")] =
      some (some (), after) ∧
    Mmio.written 0x9000000 after.trace = words (Bytes.ofString "-9223372036854775807\r\n") := by
  have hfits : ∀ i ∈ [Insertion.signed (-2 ^ 63 + 1), .string (Bytes.ofString "\n")], i.Fits := by
    refine List.forall_mem_cons.mpr ⟨?_, List.forall_mem_singleton.mpr ?_⟩
    · exact ⟨by decide, by decide⟩
    · change (Bytes.ofString "\n").length < 2 ^ 31
      decide
  obtain ⟨-, returned, after, hrun, ⟨sent, -, hwritten, hsent⟩, -, hreturns⟩ :=
    log_spec ⟨0x9000000, 833⟩ (List.length_replicate) (Nat.le_refl 2) hfits
      ⟨List.replicate 40 0, []⟩
  have hdone := hreturns.mpr (by decide +kernel)
  subst hdone
  refine ⟨after, hrun, hwritten.trans ?_⟩
  rw [hsent rfl]
  decide +kernel

end Aarch64.Cxx
