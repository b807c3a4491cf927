import Aarch64.Lib.Mmio
import Aarch64.Lib.Word

/-!
# The serial line of the bootstrap

`bootstrap/pl011.cc`. The registers are an array of words at the base address. `Serial` only
waits for the device, and `Reset` has no caller.
-/

namespace Aarch64.Cxx

open Mmio (Driver Bus crlf words)

structure PL011 where
  registers : Nat
  divisor : BitVec 32

namespace PL011

def DR : Nat := 0x000 / 4
def FR : Nat := 0x018 / 4
def IBRD : Nat := 0x024 / 4
def FBRD : Nat := 0x028 / 4
def LCR : Nat := 0x02c / 4
def CR : Nat := 0x030 / 4
def IMSC : Nat := 0x038 / 4
def ICR : Nat := 0x044 / 4
def DMACR : Nat := 0x048 / 4

def CR_TXEN : BitVec 32 := 1 <<< 8
def CR_UARTEN : BitVec 32 := 1 <<< 0
def FR_BUSY : BitVec 32 := 1 <<< 3
def LCR_FEN : BitVec 32 := 1 <<< 4

def kBaudrate : BitVec 32 := 115200
def kDataBits : BitVec 32 := 8

/-- The address of `regs[i]`. -/
def register (regs i : Nat) : Nat := Word64.add regs (4 * i)

/-- The loop ends when the device is not busy. -/
def notBusy (fr : BitVec 32) : Bool := ! (fr &&& FR_BUSY != 0)

def waitTxComplete (frReg : Nat) : Driver (BitVec 32) Unit := Mmio.poll frReg notBusy

/-- `Divisor`, whose result is cut to 32 bits. -/
def divisorOf (baseClock : BitVec 64) (baudrate : BitVec 32) : BitVec 32 :=
  (4 * baseClock / baudrate.setWidth 64).setWidth 32

def serial (baseAddress : Nat) (baseClock : BitVec 64) : Driver (BitVec 32) PL011 := do
  let divisor := divisorOf baseClock kBaudrate
  waitTxComplete (register baseAddress FR)
  return ⟨baseAddress, divisor⟩

def reset (dev : PL011) : Driver (BitVec 32) Unit := do
  let cr ← Mmio.load (register dev.registers CR)
  let lcr ← Mmio.load (register dev.registers LCR)
  Mmio.store (register dev.registers CR) (cr &&& ~~~CR_UARTEN)
  waitTxComplete (register dev.registers FR)
  Mmio.store (register dev.registers LCR) (lcr &&& ~~~LCR_FEN)
  Mmio.store (register dev.registers IMSC) 0x7ff
  Mmio.store (register dev.registers ICR) 0x7ff
  Mmio.store (register dev.registers DMACR) 0x0
  Mmio.store (register dev.registers IBRD) (dev.divisor >>> 6)
  Mmio.store (register dev.registers FBRD) (dev.divisor &&& 0x3F)
  Mmio.store (register dev.registers LCR) (((kDataBits - 1) &&& 0x3) <<< 5)
  Mmio.store (register dev.registers CR) CR_TXEN
  Mmio.store (register dev.registers CR) (CR_TXEN ||| CR_UARTEN)

def sendLoop (dev : PL011) : List UInt8 → Driver (BitVec 32) Unit
  | [] => pure ()
  | c :: rest => do
      if c = '\n'.toUInt8 then do
        Mmio.store (register dev.registers DR) (BitVec.ofNat 32 '\r'.toUInt8.toNat)
        waitTxComplete (register dev.registers FR)
      Mmio.store (register dev.registers DR) (BitVec.ofNat 32 c.toNat)
      waitTxComplete (register dev.registers FR)
      dev.sendLoop rest

def send (dev : PL011) (data : List UInt8) : Driver (BitVec 32) Unit := do
  waitTxComplete (register dev.registers FR)
  dev.sendLoop data

/-- `PL011OutputStream::PutN` returns the number of characters. -/
def putN (dev : PL011) (data : List UInt8) : Driver (BitVec 32) Int := do
  dev.send data
  return data.length

def put (dev : PL011) (c : UInt8) : Driver (BitVec 32) Int := dev.putN [c]

theorem sendLoop_eq (dev : PL011) (data : List UInt8) :
    dev.sendLoop data = Mmio.putAll (register dev.registers FR) (register dev.registers DR) notBusy
      (words (crlf data)) := by
  induction data with
  | nil => rfl
  | cons c rest ih =>
      by_cases hc : c = '\n'.toUInt8
      · subst hc
        rw [sendLoop, ih]
        rfl
      · rw [sendLoop, ih, Mmio.crlf_cons hc, if_neg hc]
        rfl

theorem send_eq (dev : PL011) (data : List UInt8) :
    dev.send data = Mmio.sendAll (register dev.registers FR) (register dev.registers DR) notBusy
      (words (crlf data)) := by
  rw [send, sendLoop_eq]
  rfl

end PL011

end Aarch64.Cxx
