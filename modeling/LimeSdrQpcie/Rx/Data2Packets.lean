import LimeSdrQpcie.Hdl.Fifo
import LimeSdrQpcie.Rx.BitPack
import LimeSdrQpcie.SampleWidth

/-!
# Forming packets from samples

`data2packets_fsm`, `data2packets` and `data2packets_top` of the receive path. Counts of the source are
`unsigned` vectors; they are numbers here, and where a sum or a difference can leave the range of its vector
it is taken modulo the power of two. `w` is the generic `pct_buff_wrusedw_w`.
-/

namespace LimeSdrQpcie

open Hdl

/-! ## data2packets_fsm -/

inductive Data2PacketsFsmState where
  | idle
  | checkPctBuff
  | rdSmplBuff
  | waitData2packetsDone
  deriving DecidableEq, Repr

/-- The registers of `data2packets_fsm`. -/
structure Data2PacketsFsm where
  currentState : Data2PacketsFsmState
  smplBuffRdDone : Bool
  smplBuffRdCnt : Nat
  smplBuffRdCntMax : Nat
  pctBuffWrDis : Bool
  deriving DecidableEq

namespace Data2PacketsFsm

def reset : Data2PacketsFsm := ⟨.idle, false, 0, 0, false⟩

def smplBuffRdreq (s : Data2PacketsFsm) : Bool := s.currentState == .rdSmplBuff

def nextState (s : Data2PacketsFsm) (smplBuffRdy data2packetsDone : Bool) : Data2PacketsFsmState :=
  match s.currentState with
  | .idle => if smplBuffRdy then .checkPctBuff else .idle
  | .checkPctBuff => .rdSmplBuff
  | .rdSmplBuff => if s.smplBuffRdDone = false then .rdSmplBuff else .waitData2packetsDone
  | .waitData2packetsDone => if data2packetsDone then .idle else .waitData2packetsDone

def next (s : Data2PacketsFsm) (pctBuffRdy : Bool) (smplRdSize : Nat) (smplBuffRdy data2packetsDone : Bool) :
    Data2PacketsFsm :=
  { currentState := s.nextState smplBuffRdy data2packetsDone
    smplBuffRdDone := if s.smplBuffRdCnt < s.smplBuffRdCntMax then false else true
    smplBuffRdCnt := if s.currentState = .rdSmplBuff then (s.smplBuffRdCnt + 1) % 2 ^ 12 else 0
    smplBuffRdCntMax := (smplRdSize + 2 ^ 12 - 2) % 2 ^ 12
    pctBuffWrDis := if s.currentState = .checkPctBuff then pctBuffRdy else s.pctBuffWrDis }

end Data2PacketsFsm

/-! ## data2packets -/

inductive Data2PacketsState where
  | idle
  | s0
  | s1
  | s2
  | s3
  deriving DecidableEq, Repr

/-- The registers of `data2packets`. -/
structure Data2Packets where
  currentState : Data2PacketsState
  reg0 : BitVec 64
  reg1 : BitVec 64
  reg2 : BitVec 64
  pctDataWrCnt : Nat
  pctDataWrCntMax : Nat
  pctEndCnt : Nat
  pctWrreqInt : Bool
  deriving DecidableEq

namespace Data2Packets

def reset : Data2Packets := ⟨.idle, 0, 0, 0, 0, 0, 0, false⟩

def nextState (s : Data2Packets) (pctDataWrreq : Bool) : Data2PacketsState :=
  match s.currentState with
  | .idle => if pctDataWrreq then .s0 else .idle
  | .s0 => if s.pctDataWrCnt = s.pctDataWrCntMax ∧ pctDataWrreq then .s1 else .s0
  | .s1 => if pctDataWrreq then .s2 else .s1
  | .s2 => if s.pctEndCnt = 0 then .idle else .s2
  | .s3 => .idle

/-- `"00"` idle, `"01"` data capture, `"10"` last packet word accepted, `"11"` busy. -/
def pctState (s : Data2Packets) (pctDataWrreq : Bool) : BitVec 2 :=
  match s.currentState with
  | .idle => 0b00
  | .s0 => 0b01
  | .s1 => if pctDataWrreq then 0b10 else 0b01
  | .s2 => 0b11
  | .s3 => 0b11

def next (w : Nat) (s : Data2Packets) (pctSize : Nat) (pctHdr0 pctHdr1 : BitVec 64) (pctData : Port (BitVec 64)) :
    Data2Packets :=
  let regLd := s.currentState = .idle ∧ pctData.valid
  let regEn := s.currentState = .s2 ∨ pctData.valid
  { currentState := s.nextState pctData.valid
    reg0 := if regLd then pctHdr0 else if regEn then s.reg1 else s.reg0
    reg1 := if regLd then pctHdr1 else if regEn then s.reg2 else s.reg1
    reg2 := if pctData.valid then pctData.data else s.reg2
    pctDataWrCnt :=
      if s.currentState = .s1 then 0
      else if pctData.valid then (s.pctDataWrCnt + 1) % 2 ^ w
      else s.pctDataWrCnt
    pctDataWrCntMax := (pctSize + 2 ^ w - 4) % 2 ^ w
    pctEndCnt := if s.currentState = .s2 then (s.pctEndCnt + 2 ^ 8 - 1) % 2 ^ 8 else 1
    pctWrreqInt := if pctData.valid ∨ s.currentState = .s2 then true else false }

def pctQ (s : Data2Packets) : Port (BitVec 64) := ⟨s.pctWrreqInt, s.reg0⟩

/-- The inputs of `data2packets` when the packet size is constant. -/
structure In where
  pctHdr0 : BitVec 64
  pctHdr1 : BitVec 64
  pctData : Port (BitVec 64)

def circuit (w pctSize : Nat) : Circuit Data2Packets In :=
  ⟨reset, fun s i => s.next w pctSize i.pctHdr0 i.pctHdr1 i.pctData⟩

end Data2Packets

/-! ## data2packets_top -/

/-- The registers of `data2packets_top`. The output register that gates the writes is called
`smpl_buff_rdreq_reg` in the source. -/
structure Data2PacketsTop where
  smplBuffRdusedwReg : Nat
  inst2PctSize : Nat
  pctBuffWrusedwMaxLimit : Nat
  inst0PctBuffRdy : Bool
  smplBuffRdusedwMin : Nat
  inst0SmplBuffRdy : Bool
  inst0Data2packetsDone : Bool
  pctHdrCaptured : Bool
  inst0SmplRdSize : Nat
  inst0 : Data2PacketsFsm
  inst1DataInValid : Bool
  inst1 : BitPack
  inst2 : Data2Packets
  pctBuffWrdataReg : BitVec 64
  smplBuffRdreqReg : Bool

/-- The inputs of `data2packets_top`. -/
structure Data2PacketsTopIn where
  pctHdr0 : BitVec 64
  pctHdr1 : BitVec 64
  pctBuffWrusedw : Nat
  smplBuffRdusedw : Nat
  smplBuffRddata : BitVec 64

namespace Data2PacketsTop

def reset : Data2PacketsTop :=
  { smplBuffRdusedwReg := 0, inst2PctSize := 0, pctBuffWrusedwMaxLimit := 0, inst0PctBuffRdy := false,
    smplBuffRdusedwMin := 0, inst0SmplBuffRdy := false, inst0Data2packetsDone := false,
    pctHdrCaptured := false, inst0SmplRdSize := 0, inst0 := Data2PacketsFsm.reset, inst1DataInValid := false,
    inst1 := BitPack.reset, inst2 := Data2Packets.reset, pctBuffWrdataReg := 0, smplBuffRdreqReg := false }

/-- The packet size in 64-bit words. -/
def pctSizeOf (w : Nat) (sampleWidth : BitVec 2) : Nat :=
  if sampleWidth = 0b01 then 128 % 2 ^ w else 512 % 2 ^ w

/-- The sample words to read for a packet. -/
def smplRdSizeOf (sampleWidth : BitVec 2) : Nat :=
  if sampleWidth = 0b10 then 680 else if sampleWidth = 0b01 then 144 else 510

/-- `pct_buff_wrusedw_max_words`. -/
def pctBuffWrusedwMaxWords (w : Nat) : Nat := 2 ^ (w - 1)

/-- The word from the sample buffer on the input of `bit_pack`. -/
def inst1DataIn (s : Data2PacketsTop) (i : Data2PacketsTopIn) : Port (BitVec 64) :=
  ⟨s.inst1DataInValid, i.smplBuffRddata⟩

def next (w : Nat) (sampleWidth : BitVec 2) (s : Data2PacketsTop) (i : Data2PacketsTopIn) : Data2PacketsTop :=
  let inst2PctState := s.inst2.pctState s.inst1.dataOut.valid
  { smplBuffRdusedwReg := i.smplBuffRdusedw
    inst2PctSize := pctSizeOf w sampleWidth
    pctBuffWrusedwMaxLimit := (pctBuffWrusedwMaxWords w + 2 ^ w - s.inst2PctSize) % 2 ^ w
    inst0PctBuffRdy := if i.pctBuffWrusedw ≥ s.pctBuffWrusedwMaxLimit then false else true
    smplBuffRdusedwMin := smplRdSizeOf sampleWidth
    inst0SmplBuffRdy := if s.smplBuffRdusedwReg > s.smplBuffRdusedwMin then true else false
    inst0Data2packetsDone := if inst2PctState = 0b00 then true else false
    pctHdrCaptured := if inst2PctState = 0b01 then true else false
    inst0SmplRdSize := smplRdSizeOf sampleWidth
    inst0 := s.inst0.next s.inst0PctBuffRdy s.inst0SmplRdSize s.inst0SmplBuffRdy s.inst0Data2packetsDone
    inst1DataInValid := s.inst0.smplBuffRdreq
    inst1 := s.inst1.next sampleWidth (s.inst1DataIn i)
    inst2 := s.inst2.next w s.inst2PctSize i.pctHdr0 i.pctHdr1 s.inst1.dataOut
    pctBuffWrdataReg := s.inst2.pctQ.data
    smplBuffRdreqReg := s.inst2.pctQ.valid && s.inst0.pctBuffWrDis }

def smplBuffRdreq (s : Data2PacketsTop) : Bool := s.inst0.smplBuffRdreq

/-- The write port to the packet FIFO. -/
def pctBuffWr (s : Data2PacketsTop) : Port (BitVec 64) := ⟨s.smplBuffRdreqReg, s.pctBuffWrdataReg⟩

def pctHdrCap (s : Data2PacketsTop) : Bool := s.pctHdrCaptured

end Data2PacketsTop

/-! ## The FIFOs on both sides -/

/-- The width of the packet FIFO's word count. The FIFO holds at least one whole packet. -/
structure PctBuffWidth where
  w : Nat
  le : 10 ≤ w

/-- `data2packets_top` between its two FIFOs: the sample FIFO with its output register, and the packet
FIFO. -/
structure Data2PacketsRig (pw : PctBuffWidth) where
  top : Data2PacketsTop
  smplFifo : Fifo (BitVec 64) 1024
  smplFifoQ : BitVec 64
  pctFifo : Fifo (BitVec 64) (2 ^ (pw.w - 1))

/-- What the surroundings do in one cycle. A word count is what the FIFO holds or a value further on the safe
side. -/
structure Data2PacketsRigIn where
  pctHdr0 : BitVec 64
  pctHdr1 : BitVec 64
  smplFifoWr : Option (BitVec 64)
  smplFifoRdusedwAtMost : Nat
  pctFifoRd : Nat
  pctFifoWrusedwAtLeast : Nat

namespace Data2PacketsRig

variable {pw : PctBuffWidth}

def reset : Data2PacketsRig pw := ⟨Data2PacketsTop.reset, Fifo.empty, 0, Fifo.empty⟩

def smplFifoRdusedw (s : Data2PacketsRig pw) (i : Data2PacketsRigIn) : Nat :=
  min i.smplFifoRdusedwAtMost s.smplFifo.usedw

def pctFifoWrusedw (s : Data2PacketsRig pw) (i : Data2PacketsRigIn) : Nat :=
  max i.pctFifoWrusedwAtLeast s.pctFifo.usedw

def topIn (s : Data2PacketsRig pw) (i : Data2PacketsRigIn) : Data2PacketsTopIn :=
  { pctHdr0 := i.pctHdr0
    pctHdr1 := i.pctHdr1
    pctBuffWrusedw := s.pctFifoWrusedw i
    smplBuffRdusedw := s.smplFifoRdusedw i
    smplBuffRddata := s.smplFifoQ }

def next (sampleWidth : BitVec 2) (s : Data2PacketsRig pw) (i : Data2PacketsRigIn) : Data2PacketsRig pw :=
  { top := s.top.next pw.w sampleWidth (s.topIn i)
    smplFifo := s.smplFifo.next i.smplFifoWr (if s.top.smplBuffRdreq then 1 else 0)
    smplFifoQ := if s.top.smplBuffRdreq then s.smplFifo.store.head?.getD s.smplFifoQ else s.smplFifoQ
    pctFifo := s.pctFifo.next s.top.pctBuffWr.word i.pctFifoRd }

def circuit (pw : PctBuffWidth) (sampleWidth : BitVec 2) : Circuit (Data2PacketsRig pw) Data2PacketsRigIn :=
  ⟨reset, next sampleWidth⟩

end Data2PacketsRig

end LimeSdrQpcie
