import LimeSdrQpcie.Nios.Drivers

/-!
# The command switch of the main loop

What the main loop does between the last word of a command packet and the first word of its reply.
-/

namespace LimeSdrQpcie

namespace Nios

open Prog

/-! ## Checks -/

/-- `Check_many_blocks`: true when the blocks do not fit. -/
def checkManyBlocks (blockSize : Nat) : FwCmd Bool := do
  let s ← get
  if s.rx.blocks > dataFieldSize / blockSize then
    setStatus statusBlocksErrorCmd
    pure true
  else pure false

/-- `Check_Periph_ID`: true when the peripheral is valid. -/
def checkPeriphID (maxPeriphID : Byte) : FwCmd Bool := do
  let s ← get
  if s.rx.header.periphID > maxPeriphID then
    setStatus statusInvalidPeriphIdCmd
    pure false
  else pure true

/-- `if (cmd_errors) Status = err; else Status = STATUS_COMPLETED_CMD`. -/
def statusOfErrors (err : Byte) : FwCmd Unit := do
  let s ← get
  if s.cmdErrors ≠ 0 then setStatus err else setStatus statusCompletedCmd

/-- `for (block = 0; block < Data_blocks; block++)`. -/
def eachBlock (body : Nat → FwCmd Unit) : FwCmd Unit := do
  let s ← get
  each body s.rx.blocks

/-! ## Commands -/

def fwVer : Byte := 2
def devType : Byte := 16
def lmsProtocolVer : Byte := 1
def hwVer : Byte := 0
def expBoard : Byte := 1

def maxIdLms7 : Byte := 1

def brdSpiRegLms1Lms2Ctrl : BitVec 16 := 0x13
def lms1Reset : Nat := 1
def lms2Reset : Nat := 9

/-- `CMD_GET_INFO`. -/
def getInfo : FwCmd Unit := do
  wrTx 0 fwVer
  wrTx 1 devType
  wrTx 2 lmsProtocolVer
  wrTx 3 hwVer
  wrTx 4 expBoard
  setStatus statusCompletedCmd

/-- The reset bit of the peripheral in the register `0x13`. -/
def lmsResetBit (periphID : Byte) : Nat := if periphID = 1 then lms2Reset else lms1Reset

/-- `CMD_LMS_RST`. -/
def lmsRst (dev : Dev) : FwCmd Unit := do
  if ← checkPeriphID maxIdLms7 then
    let op ← rdRx 0
    let bit := lmsResetBit (← get).rx.header.periphID
    if op = lmsRstDeactivate then
      modifyBRDSPI16RegBits brdSpiRegLms1Lms2Ctrl bit bit 1 (dev 0 0)
    else if op = lmsRstActivate then
      modifyBRDSPI16RegBits brdSpiRegLms1Lms2Ctrl bit bit 0 (dev 0 0)
    else if op = lmsRstPulse then
      modifyBRDSPI16RegBits brdSpiRegLms1Lms2Ctrl bit bit 0 (dev 0 0)
      modifyBRDSPI16RegBits brdSpiRegLms1Lms2Ctrl bit bit 1 (dev 0 1)
    else addErrors 1
    setStatus statusCompletedCmd

/-- The SPI slave of an LMS7002. -/
def lms7002Slave (periphID : Byte) : Nat := if periphID = 1 then spiNrLms7002m1 else spiNrLms7002m0

/-- One block of a register write: four bytes with the write bit set. -/
def spi16WrBlock (slave b : Nat) : FwCmd Unit := do
  wrRx (0 + b * 4) (sbi7 (← rdRx (0 + b * 4)))
  let wr ← rdRxBytes (0 + b * 4) 4
  let _ ← altAvalonSpiCommand .fpgaSpi0 slave wr 0 noResp

/-- One block of a register read: two bytes with the write bit cleared, two bytes back. -/
def spi16RdBlock (dev : Dev) (slave b : Nat) : FwCmd Unit := do
  wrRx (0 + b * 2) (cbi7 (← rdRx (0 + b * 2)))
  let wr ← rdRxBytes (0 + b * 2) 2
  let rd ← altAvalonSpiCommand .fpgaSpi0 slave wr 2 (dev b 0)
  wrTx (2 + b * 4) (rd 0)
  wrTx (2 + b * 4 + 1) (rd 1)

/-- `CMD_LMS7002_WR`. -/
def lms7002Wr : FwCmd Unit := do
  if ← checkPeriphID maxIdLms7 then
    unless ← checkManyBlocks 4 do
      eachBlock fun b => do spi16WrBlock (lms7002Slave (← get).rx.header.periphID) b
      setStatus statusCompletedCmd

/-- `CMD_LMS7002_RD`. -/
def lms7002Rd (dev : Dev) : FwCmd Unit := do
  unless ← checkManyBlocks 4 do
    eachBlock fun b => do spi16RdBlock dev (lms7002Slave (← get).rx.header.periphID) b
    setStatus statusCompletedCmd

/-- `CMD_BRDSPI16_WR`. -/
def brdspi16Wr : FwCmd Unit := do
  unless ← checkManyBlocks 4 do
    eachBlock (spi16WrBlock spiNrFpga)
    setStatus statusCompletedCmd

/-- `CMD_BRDSPI16_RD`. -/
def brdspi16Rd (dev : Dev) : FwCmd Unit := do
  unless ← checkManyBlocks 4 do
    eachBlock (spi16RdBlock dev spiNrFpga)
    setStatus statusCompletedCmd

/-- `CMD_ADF4002_WR`. -/
def adf4002Wr : FwCmd Unit := do
  unless ← checkManyBlocks 3 do
    controlTCXODAC none
    eachBlock fun b => do controlTCXOADF (some (← rdRxBytes (0 + b * 3) 3))
    statusOfErrors statusInvalidPeriphIdCmd

/-- The four bytes of an analog value in the reply: channel, unit and power, value. -/
def wrAnalogVal (b : Nat) (unit : Byte) (v : BitVec 16) : FwCmd Unit := do
  wrTx (0 + b * 4) (← rdRx b)
  wrTx (1 + b * 4) unit
  wrTx (2 + b * 4) (hiByte v)
  wrTx (3 + b * 4) (loByte v)

/-- The temperature in tenths of a degree from the two bytes of the LM75. -/
def lm75Val (hi lo : BitVec 32) : BitVec 16 :=
  let v := 10 * ((hi.setWidth 16 <<< 8).sshiftRight 8)
  if lo &&& 0x80 ≠ 0 then v + 5 else v

/-- The reading of the LM75; what its acknowledge bits say is not looked at. -/
def readTemperature (dev : Dev) (b : Nat) : FwCmd Unit := do
  let _ ← i2cStart lm75I2cAddr false (dev b 0)
  let _ ← i2cWrite 0x00 true (dev b 1)
  let _ ← i2cStart lm75I2cAddr true (dev b 2)
  let hi ← i2cRead false (dev b 3)
  let lo ← i2cRead true (dev b 4)
  modify fun s => { s with convertedVal := lm75Val hi lo }

/-- The channels of the analog values. -/
def chTcxoDac : Byte := 0
def chTemperature : Byte := 1
def chWiper0 : Byte := 2
def chWiper1 : Byte := 3

/-- One block of `CMD_ANALOG_VAL_RD`. -/
def analogValRdBlock (dev : Dev) (b : Nat) : FwCmd Unit := do
  let ch ← rdRx (0 + b)
  if ch = chTcxoDac then
    wrAnalogVal b 0x00 (← get).dacVal
  else if ch = chTemperature then
    readTemperature dev b
    wrAnalogVal b 0x50 (← get).convertedVal
  else if ch = chWiper0 then
    wrAnalogVal b 0x00 ((← get).wiperPos 0)
  else if ch = chWiper1 then
    wrAnalogVal b 0x00 ((← get).wiperPos 1)
  else addErrors 1

/-- `CMD_ANALOG_VAL_RD`, which has no check of the number of blocks. -/
def analogValRd (dev : Dev) : FwCmd Unit := do
  eachBlock (analogValRdBlock dev)
  setStatus statusCompletedCmd

/-- The two bytes that set wiper `k` of the MCP4261. -/
def mcpData (k : Fin 2) (pos : BitVec 16) : List Byte :=
  [(BitVec.ofNat 8 k.val <<< 4) ||| (if pos > 255 then 0x01 else 0x00), loByte pos]

/-- The branch of wiper `k`: the position is stored before the range is looked at. -/
def wiperWr (k : Fin 2) (b : Nat) : FwCmd Unit := do
  if (← rdRx (1 + b * 4)) = 0 then
    let v := word16 (← rdRx (2 + b * 4)) (← rdRx (3 + b * 4))
    modify fun s => { s with wiperPos := fun j => if j = k then v else s.wiperPos j }
    if v ≤ 256 then
      let _ ← altAvalonSpiCommand .fpgaSpi0 spiNrPot (mcpData k v) 0 noResp
    else addErrors 1
  else addErrors 1

/-- The branch of the TCXO DAC. -/
def tcxoDacWr (b : Nat) : FwCmd Unit := do
  if (← rdRx (1 + b * 4)) = 0 then
    controlTCXOADF none
    let v := word16 (← rdRx (2 + b * 4)) (← rdRx (3 + b * 4))
    modify fun s => { s with dacVal := v }
    controlTCXODAC (some v)
  else addErrors 1

/-- One block of `CMD_ANALOG_VAL_WR`. -/
def analogValWrBlock (b : Nat) : FwCmd Unit := do
  let ch ← rdRx (0 + b * 4)
  if ch = chTcxoDac then tcxoDacWr b
  else if ch = chWiper0 then wiperWr 0 b
  else if ch = chWiper1 then wiperWr 1 b
  else addErrors 1

/-- `CMD_ANALOG_VAL_WR`. -/
def analogValWr : FwCmd Unit := do
  unless ← checkManyBlocks 4 do
    eachBlock analogValWrBlock
    statusOfErrors statusErrorCmd

/-- One block of `CMD_SI5351_WR`. -/
def si5351WrBlock (dev : Dev) (b : Nat) : FwCmd Unit := do
  addErrors (← i2cStart si5351I2cAddr false (dev b 0))
  addErrors (← i2cWrite (← rdRx (b * 2)) false (dev b 1))
  addErrors (← i2cWrite (← rdRx (b * 2 + 1)) true (dev b 2))

/-- `CMD_SI5351_WR`. -/
def si5351Wr (dev : Dev) : FwCmd Unit := do
  unless ← checkManyBlocks 2 do
    eachBlock (si5351WrBlock dev)
    statusOfErrors statusErrorCmd

/-- One block of `CMD_SI5351_RD`. -/
def si5351RdBlock (dev : Dev) (b : Nat) : FwCmd Unit := do
  addErrors (← i2cStart si5351I2cAddr false (dev b 0))
  addErrors (← i2cWrite (← rdRx b) true (dev b 1))
  addErrors (← i2cStart si5351I2cAddr true (dev b 2))
  wrTx (b * 2) (← rdRx b)
  wrTx (b * 2 + 1) ((← i2cRead true (dev b 3)).setWidth 8)

/-- `CMD_SI5351_RD`. -/
def si5351Rd (dev : Dev) : FwCmd Unit := do
  unless ← checkManyBlocks 2 do
    eachBlock (si5351RdBlock dev)
    statusOfErrors statusErrorCmd

/-! ## The switch -/

/-- The branch of a command. -/
def runCommand (dev : Dev) : Command → FwCmd Unit
  | .getInfo => getInfo
  | .lmsRst => lmsRst dev
  | .lms7002Wr => lms7002Wr
  | .lms7002Rd => lms7002Rd dev
  | .brdspi16Wr => brdspi16Wr
  | .brdspi16Rd => brdspi16Rd dev
  | .adf4002Wr => adf4002Wr
  | .analogValRd => analogValRd dev
  | .analogValWr => analogValWr
  | .si5351Wr => si5351Wr dev
  | .si5351Rd => si5351Rd dev

/-- The header of the reply before the switch. -/
def replyHeader (rx : CtrlHeader) : CtrlHeader := ⟨rx.command, statusBusyCmd, rx.dataBlocks, rx.periphID⟩

/-- The state in front of the switch: the packet received, the reply cleared but for its header, no error
counted. -/
def Fw.received (s : Fw) (pkt : CtrlPacket) : Fw :=
  { s with rx := pkt, tx := { CtrlPacket.zero with header := replyHeader pkt.header }, cmdErrors := 0 }

/-- `switch (LMS_Ctrl_Packet_Rx->Header.Command)`. -/
def commandSwitch (dev : Dev) : FwCmd Unit := do
  match (← get).rx.cmd with
  | some c => runCommand dev c
  | none => setStatus statusUnknownCmd

/-- One turn of the main loop with a command packet. -/
def processPacket (dev : Dev) (pkt : CtrlPacket) : FwCmd Unit := do
  modify fun s => s.received pkt
  commandSwitch dev

/-! ## Start -/

/-- The variables before `main` runs. -/
def powerOn : Fw := ⟨.zero, .zero, 0, 30714, 300, fun _ => 0, 0x77FA, []⟩

/-- What `main` does to the DAC and the wipers before its loop. -/
def startup : FwCmd Unit := do
  controlTCXOADF none
  modify fun s => { s with dacVal := 30714 }
  controlTCXODAC (some 30714)
  modify fun s => { s with wiperPos := fun _ => 0x80 }

end Nios

end LimeSdrQpcie
