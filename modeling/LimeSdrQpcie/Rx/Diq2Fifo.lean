import LimeSdrQpcie.Iq.Rxiq
import LimeSdrQpcie.Rx.RxPath

/-!
# From the IQ interface to the receive path

`test_data_dd`, `diq2fifo` and the way its words take to `rx_path_top`. Both run on the same clock, each under a
reset of its own. `fifo_wfull` of `diq2fifo` is tied low.
-/

namespace LimeSdrQpcie

open Hdl

/-! ## test_data_dd -/

structure TestDataDd where
  cntH : BitVec 12
  cntL : BitVec 12
  iqSel : Bool

namespace TestDataDd

def reset : TestDataDd := ⟨1, 0, false⟩

def next (s : TestDataDd) : TestDataDd :=
  { cntH := if s.iqSel then s.cntH else s.cntH + 2
    cntL := if s.iqSel then s.cntL else s.cntL + 2
    iqSel := !s.iqSel }

def iqSelOut (frStart : Bool) (s : TestDataDd) : Bool := if frStart then !s.iqSel else s.iqSel

/-- `data_h` and `data_l`. -/
def data (frStart : Bool) (s : TestDataDd) : RxDiq :=
  { diqH := ⟨s.iqSelOut frStart, s.cntH⟩, diqL := ⟨s.iqSelOut frStart, s.cntL⟩ }

def circuit : Circuit TestDataDd Unit := ⟨reset, fun s _ => s.next⟩

end TestDataDd

/-! ## diq2fifo -/

structure Diq2Fifo where
  mux0DiqReg : RxDiq
  inst1 : Rxiq
  inst2 : TestDataDd

/-- `test_ptrn_en`, and the halves that `lms7002_ddin` puts out. -/
structure Diq2FifoIn where
  testPtrnEn : Bool
  inst0DiqOut : RxDiq

namespace Diq2Fifo

def reset : Diq2Fifo := ⟨⟨Diq.zero, Diq.zero⟩, Rxiq.reset, TestDataDd.reset⟩

def mux0Diq (m : IqMode) (s : Diq2Fifo) (i : Diq2FifoIn) : RxDiq :=
  if i.testPtrnEn then s.inst2.data m.fidm else i.inst0DiqOut

def next (m : IqMode) (s : Diq2Fifo) (i : Diq2FifoIn) : Diq2Fifo :=
  { mux0DiqReg := s.mux0Diq m i
    inst1 := s.inst1.next m { diq := s.mux0DiqReg, fifoWfull := false }
    inst2 := s.inst2.next }

def fifoWr (s : Diq2Fifo) : Port (BitVec 48) := s.inst1.fifoWr false

def circuit (m : IqMode) : Circuit Diq2Fifo Diq2FifoIn := ⟨reset, next m⟩

end Diq2Fifo

/-! ## Both parts -/

/-- `inst2_smpl_buff_rddata`: each of the four samples at the top of 16 bits. -/
def smplBuffRddata (inst1Q : BitVec 48) : BitVec 64 :=
  inst1Q.extractLsb 47 36 ++ 0#4 ++ inst1Q.extractLsb 35 24 ++ 0#4 ++ inst1Q.extractLsb 23 12 ++ 0#4 ++
    inst1Q.extractLsb 11 0 ++ 0#4

/-- `diq2fifo` leaves its reset in cycle `diq2fifoUp` of the clock, and `rx_path_top` in cycle `rxPathUp`. -/
structure RxResets where
  diq2fifoUp : Nat
  rxPathUp : Nat

/-- What comes to `rx_path_top` in each cycle since its reset: the words that `diq2fifo` writes meanwhile, and what
`x` says about the rest. -/
def rxPathIn (m : IqMode) (r : RxResets) (y : Nat → Diq2FifoIn) (x : Nat → RxPathTopIn) : Nat → RxPathTopIn :=
  fun n =>
    { x n with
      smplFifoWr :=
        delay r.diq2fifoUp (fun k => ((Diq2Fifo.circuit m).run y k).fifoWr.word.map smplBuffRddata)
          (n + r.rxPathUp) }

/-- The settings of `rx_path_top`, the ones of the interface among them. -/
def IqMode.rxMode (m : IqMode) (sampleWidth : SampleWidth) : RxMode := ⟨sampleWidth, m.mimoEn, m.chEn⟩

end LimeSdrQpcie
