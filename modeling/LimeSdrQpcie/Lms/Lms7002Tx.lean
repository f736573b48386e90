import LimeSdrQpcie.Rx.Diq2Fifo
import LimeSdrQpcie.SyncReg

/-!
# The transmit interface to the transceiver

`lms7002_tx`: the reading sides of its two sample FIFOs, `txiq` behind the one that is selected, and `txiqmux` with
its two test sources. `fidm` and the widths are fixed by the instance, the mode settings do not change during a run.
-/

namespace LimeSdrQpcie

open Hdl

/-- The two halves of a cycle on the transmit side. -/
structure TxDiq where
  diqH : Diq
  diqL : Diq

namespace TxDiq

def zero : TxDiq := ⟨Diq.zero, Diq.zero⟩

end TxDiq

/-! ## fifo_inst -/

/-- The reading side of a `fifo_inst` with `show_ahead` off: the words it knows of, the oldest first, and its
output. -/
structure FifoInstRd where
  known : List (BitVec 64)
  q : BitVec 64

namespace FifoInstRd

def reset : FifoInstRd := ⟨[], 0⟩

def rdempty (s : FifoInstRd) : Bool := s.known.isEmpty

/-- A cycle in which the words `come` become known. An empty FIFO is not read. -/
def next (s : FifoInstRd) (rdreq : Bool) (come : List (BitVec 64)) : FifoInstRd :=
  { known := (if rdreq then s.known.tail else s.known) ++ come
    q := if rdreq then s.known.headD s.q else s.q }

end FifoInstRd

/-! ## txiq_tst_ptrn -/

structure TxiqTstPtrn where
  fidmSync : SyncReg Bool
  ptrnISync : BusSynch (BitVec 16)
  ptrnQSync : BusSynch (BitVec 16)
  fsyncInt : Bool

structure TxiqTstPtrnIn where
  fidm : Bool
  ptrnI : BitVec 16
  ptrnQ : BitVec 16

namespace TxiqTstPtrn

def reset : TxiqTstPtrn := ⟨⟨false, false⟩, ⟨0, 0, 0⟩, ⟨0, 0, 0⟩, true⟩

def next (s : TxiqTstPtrn) (i : TxiqTstPtrnIn) : TxiqTstPtrn :=
  { fidmSync := s.fidmSync.next i.fidm
    ptrnISync := s.ptrnISync.next i.ptrnI
    ptrnQSync := s.ptrnQSync.next i.ptrnQ
    fsyncInt := !s.fsyncInt }

def fsyncExt (s : TxiqTstPtrn) : Bool := if s.fidmSync.syncOut then s.fsyncInt else !s.fsyncInt

def diq (s : TxiqTstPtrn) : TxDiq :=
  { diqH := ⟨s.fsyncExt, s.ptrnISync.signalSinch.extractLsb 11 0⟩
    diqL := ⟨s.fsyncExt, s.ptrnQSync.signalSinch.extractLsb 11 0⟩ }

end TxiqTstPtrn

/-! ## txiqmux -/

structure Txiqmux where
  testPtrnEnSync : SyncReg Bool
  muxSelSync : SyncReg Bool
  tstPtrnInst0 : TxiqTstPtrn
  testDataDdInst1 : TestDataDd
  mux0DiqReg : TxDiq
  mux1DiqReg : TxDiq
  mux2DiqReg : TxDiq

structure TxiqmuxIn where
  testPtrnEn : Bool
  testPtrnFidm : Bool
  testPtrnI : BitVec 16
  testPtrnQ : BitVec 16
  testDataEn : Bool
  muxSel : Bool
  txDiq : TxDiq
  wfmDiq : TxDiq

namespace Txiqmux

/-- The synchronisers have no reset: the switches were off before. -/
def reset : Txiqmux :=
  { testPtrnEnSync := ⟨false, false⟩, muxSelSync := ⟨false, false⟩, tstPtrnInst0 := TxiqTstPtrn.reset,
    testDataDdInst1 := TestDataDd.reset, mux0DiqReg := TxDiq.zero, mux1DiqReg := TxDiq.zero,
    mux2DiqReg := TxDiq.zero }

def mux0Diq (s : Txiqmux) (i : TxiqmuxIn) : TxDiq := if s.muxSelSync.syncOut = false then i.txDiq else i.wfmDiq

def mux1Diq (s : Txiqmux) : TxDiq := if s.testPtrnEnSync.syncOut = false then s.mux0DiqReg else s.tstPtrnInst0.diq

/-- The high half takes `data_l` of the test data, and the low half `data_h`. -/
def mux2Diq (s : Txiqmux) (i : TxiqmuxIn) : TxDiq :=
  if i.testDataEn = false then s.mux1DiqReg
  else
    let data := s.testDataDdInst1.data i.testPtrnFidm
    ⟨data.diqL, data.diqH⟩

def next (s : Txiqmux) (i : TxiqmuxIn) : Txiqmux :=
  { testPtrnEnSync := s.testPtrnEnSync.next i.testPtrnEn
    muxSelSync := s.muxSelSync.next i.muxSel
    tstPtrnInst0 := s.tstPtrnInst0.next ⟨i.testPtrnFidm, i.testPtrnI, i.testPtrnQ⟩
    testDataDdInst1 := s.testDataDdInst1.next
    mux0DiqReg := s.mux0Diq i
    mux1DiqReg := s.mux1Diq
    mux2DiqReg := s.mux2Diq i }

def diq (s : Txiqmux) : TxDiq := s.mux2DiqReg

def circuit : Circuit Txiqmux TxiqmuxIn := ⟨reset, next⟩

end Txiqmux

/-! ## lms7002_tx -/

/-- `inst4_fifo_q`: the upper twelve bits of each sixteen. -/
def inst4FifoQ (q : BitVec 64) : BitVec 48 :=
  q.extractLsb 63 52 ++ q.extractLsb 47 36 ++ q.extractLsb 31 20 ++ q.extractLsb 15 4

structure Lms7002Tx where
  inst0 : FifoInstRd
  inst1 : FifoInstRd
  /-- `txiq` of `fifo2diq`. -/
  inst4 : Txiq
  inst5 : Txiqmux

/-- Inputs of a cycle, with the words that become known to the reading sides of the FIFOs. -/
structure Lms7002TxIn where
  testPtrnEn : Bool
  testPtrnI : BitVec 16
  testPtrnQ : BitVec 16
  testCntEn : Bool
  txSrcSel : Bool
  fifo0Come : List (BitVec 64)
  fifo1Come : List (BitVec 64)

/-- The tests are off and FIFO 0 is the source. -/
def Lms7002TxIn.Plain (i : Lms7002TxIn) : Prop :=
  i.testPtrnEn = false ∧ i.testCntEn = false ∧ i.txSrcSel = false

namespace Lms7002Tx

def reset : Lms7002Tx := ⟨FifoInstRd.reset, FifoInstRd.reset, Txiq.reset, Txiqmux.reset⟩

/-- The FIFO that is selected. -/
def fifo (s : Lms7002Tx) (txSrcSel : Bool) : FifoInstRd := if txSrcSel = false then s.inst0 else s.inst1

def fifoRdreq (s : Lms7002Tx) (txSrcSel : Bool) : Bool := s.inst4.fifoRdreq (s.fifo txSrcSel).rdempty

def next (m : IqMode) (s : Lms7002Tx) (i : Lms7002TxIn) : Lms7002Tx :=
  { inst0 := s.inst0.next (s.fifoRdreq i.txSrcSel && !i.txSrcSel) i.fifo0Come
    inst1 := s.inst1.next (s.fifoRdreq i.txSrcSel && i.txSrcSel) i.fifo1Come
    inst4 := s.inst4.next m
      { en := true
        fifoRdempty := (s.fifo i.txSrcSel).rdempty
        fifoQ := inst4FifoQ (s.fifo i.txSrcSel).q }
    inst5 := s.inst5.next
      { testPtrnEn := i.testPtrnEn
        testPtrnFidm := false
        testPtrnI := i.testPtrnI
        testPtrnQ := i.testPtrnQ
        testDataEn := i.testCntEn
        muxSel := false
        txDiq := ⟨s.inst4.diqH, s.inst4.diqL⟩
        wfmDiq := TxDiq.zero } }

def circuit (m : IqMode) : Circuit Lms7002Tx Lms7002TxIn := ⟨reset, next m⟩

/-- The halves at the double data rate cells. -/
def diq (s : Lms7002Tx) : TxDiq := s.inst5.diq

/-- The word that is read from the FIFO in a cycle. -/
def readWord (s : Lms7002Tx) (txSrcSel : Bool) : Option (BitVec 64) :=
  if s.fifoRdreq txSrcSel then (s.fifo txSrcSel).known.head? else none

/-- The word of a read slot: the one that is read, or zero when there is none. -/
def slot (s : Lms7002Tx) (txSrcSel : Bool) : Option (BitVec 48) :=
  if s.fifoRdreq txSrcSel then (s.readWord txSrcSel).map inst4FifoQ
  else if s.inst4.currentState = .zeroSamples then some 0
  else none

end Lms7002Tx

end LimeSdrQpcie
