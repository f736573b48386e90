import LimeSdrQpcie.Rx.Data2Packets
import LimeSdrQpcie.SyncReg

/-!
# The receive path and its sample counters

`smpl_cnt` and `rx_path_top`. The sample width and the channel mode do not change during a run; `mimoEn` and
`chEn` are their synchronised values.
-/

namespace LimeSdrQpcie

open Hdl

/-! ## smpl_cnt -/

structure SmplCnt where
  shiftCntOut : Bool
  inst0Q : BitVec 64
  cntMux : BitVec 64
  deriving DecidableEq

structure SmplCntIn where
  mimoEn : Bool
  chEn : BitVec 2
  sclr : Bool
  sload : Bool
  data : BitVec 64
  cntEn : Bool

namespace SmplCnt

def reset : SmplCnt := ⟨false, 0, 0⟩

/-- Whether a word carries two samples of the only channel in use. -/
def shiftOf (mimoEn : Bool) (chEn : BitVec 2) : Bool :=
  let oneCh := chEn.getLsbD 1 ^^ chEn.getLsbD 0
  (mimoEn && oneCh) || !mimoEn

def next (s : SmplCnt) (i : SmplCntIn) : SmplCnt :=
  { shiftCntOut := shiftOf i.mimoEn i.chEn
    inst0Q :=
      if i.sclr then 0
      else if i.sload then i.data
      else if i.cntEn then s.inst0Q + 1
      else s.inst0Q
    cntMux := if s.shiftCntOut then s.inst0Q.extractLsb 62 0 ++ 0#1 else s.inst0Q }

def q (s : SmplCnt) : BitVec 64 := s.cntMux

end SmplCnt

/-! ## rx_path_top -/

/-- The settings that stay as they are during a run. -/
structure RxMode where
  sampleWidth : SampleWidth
  mimoEn : Bool
  chEn : BitVec 2

/-- The registers of `rx_path_top`, with the packet FIFO behind its packet port. -/
structure RxPathTop (pw : PctBuffWidth) where
  inst2 : Data2PacketsRig pw
  inst3 : SmplCnt
  inst4 : SmplCnt
  delayChain : Fin 6 → BitVec 64
  txPctLossSync : SyncReg Bool
  clrSmplNrSync : SyncReg Bool
  ldSmplNrSync : SyncReg Bool
  smplNrInSync : SyncReg (BitVec 64)

structure RxPathTopIn where
  smplFifoWr : Option (BitVec 64)
  smplFifoRdusedwAtMost : Nat
  pctFifoRd : Nat
  pctFifoWrusedwAtLeast : Nat
  clrSmplNr : Bool
  ldSmplNr : Bool
  smplNrIn : BitVec 64
  txPctLoss : Bool

namespace RxPathTop

variable {pw : PctBuffWidth}

def reset : RxPathTop pw :=
  { inst2 := Data2PacketsRig.reset, inst3 := SmplCnt.reset, inst4 := SmplCnt.reset, delayChain := fun _ => 0,
    txPctLossSync := ⟨false, false⟩, clrSmplNrSync := ⟨false, false⟩, ldSmplNrSync := ⟨false, false⟩,
    smplNrInSync := ⟨0, 0⟩ }

/-- `inst2_pct_hdr_0`: from the low end three bits of the word count of the packet FIFO, `tx_pct_loss`, zeros
and the constants. -/
def pctHdr0 (pw : PctBuffWidth) (txPctLossSync : Bool) (pctFifoWusedw : Nat) : BitVec 64 :=
  0x060504030201#48 ++ (0#12 ++ BitVec.ofBool txPctLossSync ++ BitVec.ofNat 3 (pctFifoWusedw / 2 ^ (pw.w - 3)))

def pctFifoWusedw (s : RxPathTop pw) (i : RxPathTopIn) : Nat :=
  max i.pctFifoWrusedwAtLeast s.inst2.pctFifo.usedw

def inst2In (s : RxPathTop pw) (i : RxPathTopIn) : Data2PacketsRigIn :=
  { pctHdr0 := pctHdr0 pw s.txPctLossSync.syncOut (s.pctFifoWusedw i)
    pctHdr1 := s.delayChain 5
    smplFifoWr := i.smplFifoWr
    smplFifoRdusedwAtMost := i.smplFifoRdusedwAtMost
    pctFifoRd := i.pctFifoRd
    pctFifoWrusedwAtLeast := i.pctFifoWrusedwAtLeast }

def smplCntIn (mode : RxMode) (s : RxPathTop pw) (cntEn : Bool) : SmplCntIn :=
  { mimoEn := mode.mimoEn
    chEn := mode.chEn
    sclr := s.clrSmplNrSync.syncOut
    sload := s.ldSmplNrSync.syncOut
    data := s.smplNrInSync.syncOut
    cntEn := cntEn }

def next (mode : RxMode) (s : RxPathTop pw) (i : RxPathTopIn) : RxPathTop pw :=
  { inst2 := s.inst2.next mode.sampleWidth.code (s.inst2In i)
    inst3 := s.inst3.next (s.smplCntIn mode s.inst2.top.smplBuffRdreq)
    inst4 := s.inst4.next (s.smplCntIn mode i.smplFifoWr.isSome)
    delayChain := fun k => if k = 0 then s.inst3.q else s.delayChain (k - 1)
    txPctLossSync := s.txPctLossSync.next i.txPctLoss
    clrSmplNrSync := s.clrSmplNrSync.next i.clrSmplNr
    ldSmplNrSync := s.ldSmplNrSync.next i.ldSmplNr
    smplNrInSync := s.smplNrInSync.next i.smplNrIn }

/-- The inputs as `rxtx_top` wires them: no sample number is ever loaded. -/
def inst5In (x : Nat → RxPathTopIn) : Nat → RxPathTopIn := fun n => { x n with ldSmplNr := false, smplNrIn := 0 }

def pctHdrCap (s : RxPathTop pw) : Bool := s.inst2.top.pctHdrCap

def smplNrCnt (s : RxPathTop pw) : BitVec 64 := s.inst4.q

def circuit (pw : PctBuffWidth) (mode : RxMode) : Circuit (RxPathTop pw) RxPathTopIn := ⟨reset, next mode⟩

end RxPathTop

end LimeSdrQpcie
