import LimeSdrQpcie.Nios.Lms64c

/-!
# The state of the firmware and its drivers

What the firmware keeps, its accesses to the two packets and its transfers to the peripherals. An access to a
data field outside its 56 bytes is a fault, where the code would go on into the memory behind the buffer.
-/

namespace LimeSdrQpcie

namespace Nios

open Prog

/-- An index beyond the data field of the packet received or of the packet to transmit. -/
inductive Fault where
  | rx (i : Nat)
  | tx (i : Nat)
  deriving DecidableEq, Repr

/-! ## Peripherals -/

inductive SpiBase where
  | fpgaSpi0
  | dacSpi1
  deriving DecidableEq, Repr

def spiNrLms7002m0 : Nat := 0
def spiNrLms7002m1 : Nat := 1
def spiNrTcxoAdf4002 : Nat := 2
def spiNrTcxoDac : Nat := 0
def spiNrPot : Nat := 4
def spiNrFpga : Nat := 6

def si5351I2cAddr : BitVec 7 := 0x60
def lm75I2cAddr : BitVec 7 := 0x48

/-- One transfer to a peripheral, and whether it stayed without an acknowledge. -/
inductive DevOp where
  | spi (base : SpiBase) (slave : Nat) (wr : List Byte) (rd : Nat)
  | i2cStart (addr : BitVec 7) (read noack : Bool)
  | i2cWrite (data : Byte) (last noack : Bool)
  | i2cRead (last : Bool)
  deriving DecidableEq, Repr

/-- What a peripheral does in one transfer: the acknowledge bit and the bytes it gives back. -/
structure DevResp where
  noack : Bool
  rxr : BitVec 32
  spiRd : Nat → Byte

/-- What the peripherals do while a packet is processed: in block `b`, the `k`-th transfer of the block. -/
abbrev Dev := Nat → Nat → DevResp

/-! ## State -/

structure Fw where
  rx : CtrlPacket
  tx : CtrlPacket
  cmdErrors : Byte
  dacVal : BitVec 16
  convertedVal : BitVec 16
  wiperPos : Fin 2 → BitVec 16
  vctcxoTrimDacValue : BitVec 16
  ops : List DevOp

abbrev FwCmd := Cmd Fw Fault

/-- `LMS_Ctrl_Packet_Rx->Data_field[i]`. -/
def rdRx (i : Nat) : FwCmd Byte := do
  let s ← get
  if i < dataFieldSize then pure (s.rx.field i) else throw (.rx i)

/-- The bytes at `&LMS_Ctrl_Packet_Rx->Data_field[i]`. -/
def rdRxBytes (i : Nat) : Nat → FwCmd (List Byte)
  | 0 => pure []
  | n + 1 => do
    let bs ← rdRxBytes i n
    let b ← rdRx (i + n)
    pure (bs ++ [b])

def CtrlPacket.setField (p : CtrlPacket) (i : Nat) (v : Byte) : CtrlPacket :=
  { p with dataField := fun j => if j.val = i then v else p.dataField j }

/-- `LMS_Ctrl_Packet_Rx->Data_field[i] = v`. -/
def wrRx (i : Nat) (v : Byte) : FwCmd Unit :=
  if i < dataFieldSize then modify fun s => { s with rx := s.rx.setField i v } else throw (.rx i)

/-- `LMS_Ctrl_Packet_Tx->Data_field[i] = v`. -/
def wrTx (i : Nat) (v : Byte) : FwCmd Unit :=
  if i < dataFieldSize then modify fun s => { s with tx := s.tx.setField i v } else throw (.tx i)

/-- `LMS_Ctrl_Packet_Tx->Header.Status = v`. -/
def setStatus (v : Byte) : FwCmd Unit :=
  modify fun s => { s with tx := { s.tx with header := { s.tx.header with status := v } } }

/-- `cmd_errors += n`. -/
def addErrors (n : Byte) : FwCmd Unit := modify fun s => { s with cmdErrors := s.cmdErrors + n }

/-! ## Drivers -/

def logOp (op : DevOp) : FwCmd Unit := modify fun s => { s with ops := s.ops ++ [op] }

/-- `alt_avalon_spi_command`, which has no way to fail. -/
def altAvalonSpiCommand (base : SpiBase) (slave : Nat) (wr : List Byte) (rd : Nat) (r : DevResp) :
    FwCmd (Nat → Byte) := do
  logOp (.spi base slave wr rd)
  pure r.spiRd

/-- `I2C_ACK` and `I2C_NOACK`. -/
def i2cResult (r : DevResp) : Byte := if r.noack then 1 else 0

def i2cStart (addr : BitVec 7) (read : Bool) (r : DevResp) : FwCmd Byte := do
  logOp (.i2cStart addr read r.noack)
  pure (i2cResult r)

def i2cWrite (data : Byte) (last : Bool) (r : DevResp) : FwCmd Byte := do
  logOp (.i2cWrite data last r.noack)
  pure (i2cResult r)

def i2cRead (last : Bool) (r : DevResp) : FwCmd (BitVec 32) := do
  logOp (.i2cRead last)
  pure r.rxr

/-- `sbi(_, 7)`. -/
def sbi7 (v : Byte) : Byte := v ||| 0x80

/-- `cbi(_, 7)`. -/
def cbi7 (v : Byte) : Byte := v &&& 0x7f

/-- The MSB and the LSB byte of a 16 bit value. -/
def hiByte (v : BitVec 16) : Byte := (v >>> 8).setWidth 8
def loByte (v : BitVec 16) : Byte := v.setWidth 8

/-- `(hi << 8) + lo`. -/
def word16 (hi lo : Byte) : BitVec 16 := (hi.setWidth 16 <<< 8) + lo.setWidth 16

/-- The response of a peripheral that gives nothing back. -/
def noResp : DevResp := ⟨false, 0, fun _ => 0⟩

/-- `Control_TCXO_DAC`; `none` is the call with `oe` zero. -/
def controlTCXODAC : Option (BitVec 16) → FwCmd Unit
  | none => do
    let _ ← altAvalonSpiCommand .dacSpi1 spiNrTcxoDac [0x03, 0x00, 0x00] 0 noResp
  | some data => do
    modify fun s => { s with vctcxoTrimDacValue := data }
    let _ ← altAvalonSpiCommand .dacSpi1 spiNrTcxoDac [0x00, hiByte data, loByte data] 0 noResp

/-- The four blocks of `ADF_data`. -/
def adfData : List (List Byte) :=
  [[0x1f, 0x81, 0xf3], [0x1f, 0x81, 0xf2], [0x00, 0x01, 0xf4], [0x01, 0x80, 0x01]]

/-- `Control_TCXO_ADF`; `none` is the call with `oe` zero. -/
def controlTCXOADF : Option (List Byte) → FwCmd Unit
  | none => each (fun adfBlock => do
      let _ ← altAvalonSpiCommand .fpgaSpi0 spiNrTcxoAdf4002 (adfData.getD adfBlock []) 0 noResp) 4
  | some data => do
    let _ ← altAvalonSpiCommand .fpgaSpi0 spiNrTcxoAdf4002 data 0 noResp

/-- `Modify_BRDSPI16_Reg_bits`. -/
def modifyBRDSPI16RegBits (addr : BitVec 16) (msbBit lsbBit : Nat) (newBitsData : BitVec 16) (r : DevResp) :
    FwCmd Unit := do
  let bitsNumber := msbBit - lsbBit + 1
  let mask : BitVec 16 := (0xFFFF#16 <<< (16 - bitsNumber)) >>> (16 - bitsNumber)
  let rdBuff ← altAvalonSpiCommand .fpgaSpi0 spiNrFpga [cbi7 (hiByte addr), loByte addr] 2 r
  let data := (word16 (rdBuff 0) (rdBuff 1) &&& ~~~(mask <<< lsbBit)) ||| ((newBitsData &&& mask) <<< lsbBit)
  let _ ← altAvalonSpiCommand .fpgaSpi0 spiNrFpga
    [sbi7 (hiByte addr), loByte addr, hiByte data, loByte data] 0 noResp

end Nios

end LimeSdrQpcie
