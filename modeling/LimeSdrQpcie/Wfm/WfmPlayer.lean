import LimeSdrQpcie.Hdl.Signal

/-!
# The waveform player

`edge_pulse` and `wfm_player`. The command generator is outside: it takes a command exactly when it is ready
and asks for the words of the write commands with `wdata_req`. The unpacker behind the read data is
`bit_unpack_64`, which does not act on the commands.
-/

namespace LimeSdrQpcie

open Hdl

/-! ## edge_pulse -/

/-- The registers of `edge_pulse` in its architecture for rising edges. -/
structure EdgePulse where
  sigInReg0 : Bool
  sigInReg1 : Bool
  sigInRising : Bool
  deriving DecidableEq, Repr

namespace EdgePulse

def reset : EdgePulse := ⟨false, false, false⟩

def next (s : EdgePulse) (sigIn : Bool) : EdgePulse := ⟨sigIn, s.sigInReg0, s.sigInReg0 && !s.sigInReg1⟩

def pulseOut (s : EdgePulse) : Bool := s.sigInRising

end EdgePulse

/-! ## wfm_player -/

/-- The widths and the limit that the generics of `wfm_player` give. -/
structure WfmGenerics where
  avlAddrWidth : Nat
  burstCntWidth : Nat
  wfmOutfifoWrwordsLimit : Nat

inductive WfmState where
  | idle
  | checkWfmInfifo
  | doWrite
  | doBurstWrite
  | doWriteIdle
  | checkWfmOutfifo
  | doRead
  deriving DecidableEq, Repr

/-- The registers of `wfm_player`. -/
structure WfmPlayer where
  currentState : WfmState
  inst3 : EdgePulse
  inst2WriteAddr : Nat
  writeMaxWords : Nat
  burstCntMax : Nat
  burstWrCnt : Nat
  doWriteIdleCnt : Nat
  inst2ReadAddrResetN : Bool
  readMaxAddr : Nat
  readBurstMaxAddr : Nat
  inst2ReadAddr : Nat
  deriving DecidableEq, Repr

structure WfmPlayerIn where
  wfmLoad : Bool
  wfmPlayStop : Bool
  inst2Ready : Bool
  inst2WdataReq : Bool
  wfmInfifoRdempty : Bool
  wfmInfifoRdusedw : Nat
  wfmOutfifoWrusedw : Nat

/-- A command to the command generator. -/
structure AvlCmd where
  addr : Nat
  burstcount : Nat
  deriving DecidableEq, Repr

namespace AvlCmd

/-- The addresses of a command, one for each word of its burst. -/
def addrs (c : AvlCmd) : List Nat := List.range' c.addr c.burstcount

end AvlCmd

namespace WfmPlayer

def reset : WfmPlayer :=
  { currentState := .idle, inst3 := EdgePulse.reset, inst2WriteAddr := 0, writeMaxWords := 0, burstCntMax := 0,
    burstWrCnt := 0, doWriteIdleCnt := 0, inst2ReadAddrResetN := false, readMaxAddr := 0, readBurstMaxAddr := 0,
    inst2ReadAddr := 0 }

/-- `avl_max_burst_count`; only 2 is for now. -/
def avlMaxBurstCount : Nat := 2

def wfmLoadRising (s : WfmPlayer) : Bool := s.inst3.pulseOut

def inst2WriteBurstcount (s : WfmPlayer) : Nat := if s.currentState = .doBurstWrite then avlMaxBurstCount else 1

def inst2DoWrite (s : WfmPlayer) (i : WfmPlayerIn) : Bool :=
  (s.currentState == .doWrite || s.currentState == .doBurstWrite) && i.inst2Ready

def inst2DoRead (s : WfmPlayer) (i : WfmPlayerIn) : Bool := s.currentState == .doRead && i.inst2Ready

/-- With an odd number of words the last read has a burst count of one. -/
def inst2ReadBurstcount (s : WfmPlayer) : Nat :=
  if s.inst2ReadAddr = s.readMaxAddr ∧ s.writeMaxWords % 2 = 1 then 1 else avlMaxBurstCount

def nextState (g : WfmGenerics) (s : WfmPlayer) (i : WfmPlayerIn) : WfmState :=
  match s.currentState with
  | .idle =>
      if i.wfmLoad ∨ i.wfmInfifoRdempty = false then .checkWfmInfifo
      else if i.wfmPlayStop then .checkWfmOutfifo
      else .idle
  | .checkWfmInfifo =>
      if i.wfmInfifoRdempty = false ∧ i.inst2Ready then
        if s.burstCntMax > 0 then .doBurstWrite else .doWrite
      else .idle
  | .doBurstWrite =>
      if i.inst2Ready then
        if s.burstWrCnt < (s.burstCntMax + 2 ^ g.burstCntWidth - 1) % 2 ^ g.burstCntWidth then .doBurstWrite
        else .doWriteIdle
      else .doBurstWrite
  | .doWrite => .doWriteIdle
  | .doWriteIdle => if s.doWriteIdleCnt > 3 then .checkWfmInfifo else .doWriteIdle
  | .checkWfmOutfifo =>
      if i.wfmOutfifoWrusedw < g.wfmOutfifoWrwordsLimit ∧ i.inst2Ready then .doRead else .idle
  | .doRead =>
      if i.wfmLoad ∨ i.wfmPlayStop = false then .idle
      else if i.wfmOutfifoWrusedw < g.wfmOutfifoWrwordsLimit ∧ i.inst2Ready then .doRead
      else .checkWfmOutfifo

/-- `inst2_read_addr` after a clock edge; its reset is asynchronous, so that it acts in the cycle in which it
falls. -/
def nextReadAddr (g : WfmGenerics) (s : WfmPlayer) (i : WfmPlayerIn) : Nat :=
  if s.wfmLoadRising ∨ s.inst2ReadAddrResetN = false then 0
  else if i.wfmPlayStop = false then 0
  else if s.inst2DoRead i then
    if s.inst2ReadAddr < s.readBurstMaxAddr then (s.inst2ReadAddr + 2) % 2 ^ g.avlAddrWidth else 0
  else s.inst2ReadAddr

def next (g : WfmGenerics) (s : WfmPlayer) (i : WfmPlayerIn) : WfmPlayer :=
  { currentState := s.nextState g i
    inst3 := s.inst3.next i.wfmLoad
    inst2WriteAddr :=
      if s.wfmLoadRising then 0
      else if s.inst2DoWrite i then (s.inst2WriteAddr + s.inst2WriteBurstcount) % 2 ^ g.avlAddrWidth
      else s.inst2WriteAddr
    writeMaxWords :=
      if s.wfmLoadRising then 0
      else if i.inst2WdataReq then (s.writeMaxWords + 1) % 2 ^ g.avlAddrWidth
      else s.writeMaxWords
    burstCntMax := i.wfmInfifoRdusedw % 2 ^ g.burstCntWidth / 2
    burstWrCnt :=
      if s.currentState = .doBurstWrite then
        if i.inst2Ready then (s.burstWrCnt + 1) % 2 ^ g.burstCntWidth else s.burstWrCnt
      else 0
    doWriteIdleCnt := if s.currentState = .doWriteIdle then (s.doWriteIdleCnt + 1) % 2 ^ 8 else 0
    inst2ReadAddrResetN := !s.wfmLoadRising
    readMaxAddr := (s.writeMaxWords + 2 ^ g.avlAddrWidth - 1) % 2 ^ g.avlAddrWidth
    readBurstMaxAddr := (s.writeMaxWords + 2 ^ g.avlAddrWidth - 2) % 2 ^ g.avlAddrWidth
    inst2ReadAddr := s.nextReadAddr g i }

def circuit (g : WfmGenerics) : Circuit WfmPlayer WfmPlayerIn := ⟨reset, next g⟩

/-- The read command that the command generator takes. -/
def readCmd (s : WfmPlayer) (i : WfmPlayerIn) : Option AvlCmd :=
  if s.inst2DoRead i then some ⟨s.inst2ReadAddr, s.inst2ReadBurstcount⟩ else none

end WfmPlayer

end LimeSdrQpcie
