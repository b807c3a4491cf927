import Aarch64.Cxx.Pl011
import Aarch64.Rust.Pl011

/-!
# Two drivers of one serial line

The bootstrap and the kernel drive the same device. They send a text by the same accesses,
and they reset the device by the same accesses wherever their divisors agree: the kernel
rounds the divisor and the bootstrap cuts it off.
-/

namespace Aarch64.Boot

open Mmio (Driver Event Bus)
open Rust.PL011 (idle)
open Rust.PL011.Register

variable {dev : Rust.PL011} {dev' : Cxx.PL011}

@[simp] theorem notBusy_eq : Cxx.PL011.notBusy = idle := by
  funext fr
  exact Bool.not_not _

/-- Both send a text by the same accesses. -/
theorem send_eq (hbase : dev'.registers = dev.baseAddress) (data : List UInt8) :
    dev'.send data = dev.send data := by
  rw [Cxx.PL011.send_eq, Rust.PL011.send_eq, notBusy_eq, hbase]
  rfl

/-- The bootstrap resets the device as the kernel does, with its own divisor. -/
theorem reset_eq (hbase : dev'.registers = dev.baseAddress)
    (hframe : dev.dataBits = 8 ∧ dev.stopBits = 1)
    (hdiv : dev.calculateDivisors = some (dev'.divisor >>> 6, dev'.divisor &&& 0x3F)) :
    dev'.reset = dev.reset := by
  have hline : dev.frame = ((Cxx.PL011.kDataBits - 1) &&& 0x3) <<< 5 := by
    rw [Rust.PL011.frame, hframe.1, hframe.2]
    rfl
  rw [Cxx.PL011.reset, Rust.PL011.reset, hdiv, hline, Cxx.PL011.waitTxComplete, notBusy_eq, hbase]
  rfl

/-- An idle device shows which divisor is programmed. -/
theorem divisors_eq_of_reset_eq {ibrd fbrd : BitVec 32}
    (hdiv : dev.calculateDivisors = some (ibrd, fbrd)) (h : dev'.reset = dev.reset) :
    ibrd = dev'.divisor >>> 6 ∧ fbrd = dev'.divisor &&& 0x3F := by
  have htrace := congrArg (fun d => (d ⟨[0, 0, 0], []⟩).2.trace) h
  rw [Rust.PL011.reset_eq hdiv] at htrace
  have hcxx : (dev'.reset ⟨[0, 0, 0], []⟩).2.trace[8]? =
      some (.store (Cxx.PL011.register dev'.registers Cxx.PL011.IBRD) (dev'.divisor >>> 6)) := rfl
  have hcxx' : (dev'.reset ⟨[0, 0, 0], []⟩).2.trace[9]? =
      some (.store (Cxx.PL011.register dev'.registers Cxx.PL011.FBRD) (dev'.divisor &&& 0x3F)) :=
        rfl
  rw [htrace] at hcxx hcxx'
  exact ⟨(Event.store.inj (Option.some.inj hcxx)).2, (Event.store.inj (Option.some.inj hcxx')).2⟩

/-- The divisors of both drivers. -/
theorem divisors_eq_iff (dev : Rust.PL011) (dev' : Cxx.PL011) {clock : BitVec 32}
    (hclock : 8 * clock.toNat + 115200 < 2 ^ 32)
    (hdev : dev.baseClock = clock ∧ dev.baudrate = 115200)
    (hdev' : dev'.divisor = Cxx.PL011.divisorOf (clock.setWidth 64) Cxx.PL011.kBaudrate) :
    dev.calculateDivisors = some (dev'.divisor >>> 6, dev'.divisor &&& 0x3F) ↔
      2 * (4 * clock.toNat % 115200) < 115200 := by
  have hcxx : dev'.divisor.toNat = 4 * clock.toNat / 115200 := by
    have hclock' : (clock.setWidth 64).toNat = clock.toNat := by
      rw [BitVec.toNat_setWidth, Nat.mod_eq_of_lt]
      exact clock.isLt.trans (by decide)
    rw [hdev', Cxx.PL011.divisorOf, BitVec.toNat_setWidth, BitVec.toNat_udiv, BitVec.toNat_mul,
      hclock']
    change 4 * clock.toNat % 2 ^ 64 / 115200 % 2 ^ 32 = _
    omega
  obtain ⟨d, hcalc, hd⟩ := dev.calculateDivisors_eq hdev.2
  rw [hdev.1, Nat.mod_eq_of_lt hclock] at hd
  have hiff : 2 * (4 * clock.toNat % 115200) < 115200 ↔ d.toNat = dev'.divisor.toNat := by
    rw [hd, hcxx]
    omega
  rw [hcalc, hiff]
  refine ⟨fun h => ?_, fun h => by rw [BitVec.eq_of_toNat_eq h]⟩
  obtain ⟨hinteger, hfraction⟩ := Prod.mk.inj (Option.some.inj h)
  rw [← Rust.PL011.divisor_split d, hinteger, hfraction, Rust.PL011.divisor_split]

/-- The bootstrap and the kernel, on one device with one clock, send every text by the same
accesses, so a log has no seam between the two. They reset the device by the same accesses exactly
if the exact divisor is less than one half above a whole number, since the kernel rounds and the
bootstrap cuts off. The bound on the clock is that of the kernel's sum. -/
theorem drivers_agree {base : Nat} {clock : BitVec 32} (hclock : 8 * clock.toNat + 115200 < 2 ^ 32)
    (hdev : dev = ⟨base, clock, 115200, 8, 1⟩)
    (hdev' : dev' = ⟨base, Cxx.PL011.divisorOf (clock.setWidth 64) Cxx.PL011.kBaudrate⟩) :
    (∀ data, dev'.send data = dev.send data) ∧
      (dev'.reset = dev.reset ↔ 2 * (4 * clock.toNat % 115200) < 115200) := by
  subst hdev hdev'
  refine ⟨send_eq rfl, ?_⟩
  have hiff := divisors_eq_iff ⟨base, clock, 115200, 8, 1⟩
    ⟨base, Cxx.PL011.divisorOf (clock.setWidth 64) Cxx.PL011.kBaudrate⟩ hclock ⟨rfl, rfl⟩ rfl
  refine ⟨fun h => hiff.mp ?_, fun h => reset_eq rfl ⟨rfl, rfl⟩ (hiff.mpr h)⟩
  obtain ⟨d, hcalc, -⟩ := Rust.PL011.calculateDivisors_eq ⟨base, clock, 115200, 8, 1⟩ rfl
  obtain ⟨hinteger, hfraction⟩ := divisors_eq_of_reset_eq hcalc h
  rw [hcalc, hinteger, hfraction]

/-- The clock that both programs give their drivers. -/
theorem drivers_agree_board :
    (⟨0x9000000, Cxx.PL011.divisorOf ((24000000 : BitVec 32).setWidth 64) Cxx.PL011.kBaudrate⟩ :
        Cxx.PL011).reset =
      (⟨0x9000000, 24000000, 115200, 8, 1⟩ : Rust.PL011).reset :=
  (drivers_agree (by decide) rfl rfl).2.mpr (by decide)

end Aarch64.Boot
