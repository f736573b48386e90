import LimeSdrQpcie.DynPs.PllPsFsm
import LimeSdrQpcie.DynPs.SmplCmp
import LimeSdrQpcie.SyncReg

/-!
# The closed loop of the phase search

`pll_ps_fsm` in `rx_pll_top_cyc5` and the sample comparator of `diq2fifo` in `lms7002_top`, with the synchronisers
between their clocks: `free_running_clk` of the PLL and `MCLK2` of the samples. The samples depend on the phase that
the search has set. The other PLL on the same comparator is not searching.
-/

namespace LimeSdrQpcie

open Hdl

structure PhaseLoop (smplWidth : Nat) where
  /-- `pll_ps_fsm_inst1` of `pll_ps_top`. -/
  search : PhaseSearch
  /-- `sync_reg3` of `rx_pll_top_cyc5`. -/
  smplCmpDoneSync : SyncReg Bool
  /-- `sync_reg4` of `rx_pll_top_cyc5`. -/
  smplCmpErrorSync : SyncReg Bool
  /-- `sync_reg1` of `lms7002_top`. -/
  rxSmplCmpStartSync : SyncReg Bool
  /-- `inst3_smpl_cmp` of `diq2fifo`. -/
  inst3 : SmplCmp smplWidth
  /-- The edges of `MCLK2` so far, and those at which the comparator took a sample since it left its reset. -/
  mclk2Edges : Nat
  taken : Nat

/-- What happens from one edge of `free_running_clk` to the next: edges of `MCLK2`, and the inputs at the edge. -/
structure PhaseLoopIn where
  mclk2Edges : Nat
  psEn : Bool
  psResetAtStart : Bool
  psMode : Bool
  psUpdwn : Bool
  psStepSize : BitVec 10
  pllLocked : Bool
  psCtrlBusy : Bool

/-- The halves `diq_h` and `diq_l` that come at an edge of `MCLK2`, by the position of the phase and the number of the
edge. -/
def Capture (smplWidth : Nat) : Type := Int → Nat → BitVec (smplWidth + 1) × BitVec (smplWidth + 1)

/-- The inputs of the comparator out of reset: `fidm` is tied low, and the start that is its reset is high. -/
def Capture.smplCmpIn {smplWidth : Nat} (cap : Capture smplWidth) (p : Int) (k : Nat) : SmplCmpIn smplWidth :=
  { fidm := false, cmpStart := true, diqH := (cap p k).1, diqL := (cap p k).2 }

namespace PhaseLoop

variable {smplWidth : Nat} (c : SmplCmpCfg smplWidth) (cap : Capture smplWidth)

/-- A search that begins with the registers `fsm`, the comparator and the synchronisers at rest. -/
def start (fsm : PllPsFsm) : PhaseLoop smplWidth :=
  { search := PhaseSearch.start fsm, smplCmpDoneSync := ⟨false, false⟩, smplCmpErrorSync := ⟨false, false⟩,
    rxSmplCmpStartSync := ⟨false, false⟩, inst3 := SmplCmp.reset, mclk2Edges := 0, taken := 0 }

/-- An edge of `MCLK2`. The synchronised start is the asynchronous reset of the comparator too. -/
def mclk2Edge (s : PhaseLoop smplWidth) : PhaseLoop smplWidth :=
  let rxSmplCmpStartSync := s.rxSmplCmpStartSync.next s.search.fsm.smplCmpEnReg
  let running := s.rxSmplCmpStartSync.syncOut && rxSmplCmpStartSync.syncOut
  { s with
    rxSmplCmpStartSync := rxSmplCmpStartSync
    inst3 := if running then s.inst3.next c (cap.smplCmpIn s.search.position s.mclk2Edges) else SmplCmp.reset
    mclk2Edges := s.mclk2Edges + 1
    taken := if running then s.taken + 1 else 0 }

def mclk2Run : Nat → PhaseLoop smplWidth → PhaseLoop smplWidth
  | 0, s => s
  | k + 1, s => (mclk2Run k s).mclk2Edge c cap

def fsmIn (s : PhaseLoop smplWidth) (i : PhaseLoopIn) : PllPsFsmIn :=
  { psEn := i.psEn, psResetAtStart := i.psResetAtStart, psMode := i.psMode, psUpdwn := i.psUpdwn,
    psStepSize := i.psStepSize, pllLocked := i.pllLocked, psCtrlBusy := i.psCtrlBusy
    smplCmpDone := s.smplCmpDoneSync.syncOut, smplCmpError := s.smplCmpErrorSync.syncOut }

/-- An edge of `free_running_clk`. -/
def freeRunningEdge (s : PhaseLoop smplWidth) (i : PhaseLoopIn) : PhaseLoop smplWidth :=
  { s with
    search := s.search.next (s.fsmIn i)
    smplCmpDoneSync := s.smplCmpDoneSync.next s.inst3.cmpDoneReg
    smplCmpErrorSync := s.smplCmpErrorSync.next s.inst3.cmpErrorReg }

def next (s : PhaseLoop smplWidth) (i : PhaseLoopIn) : PhaseLoop smplWidth :=
  (mclk2Run c cap i.mclk2Edges s).freeRunningEdge i

def circuit (fsm : PllPsFsm) : Circuit (PhaseLoop smplWidth) PhaseLoopIn := ⟨start fsm, next c cap⟩

end PhaseLoop

end LimeSdrQpcie
