import LimeSdrQpcie.Hdl.Signal

/-!
# The automatic phase search

`pll_ps_fsm` in automatic mode: it shifts the phase of a PLL in steps, compares samples after every shift and
goes back to the middle of the phases at which the comparison passed. What serves manual mode only is left out.
-/

namespace LimeSdrQpcie

open Hdl

inductive PllPsState where
  | idle
  | rstPll
  | waitPllLock
  | checkCmpStatus
  | cmpSmpls
  | minFound
  | maxFound
  | checkMaxSteps
  | phShift
  | waitAfterPhShift
  | endSrch
  | prepPhase
  deriving DecidableEq, Repr

structure PllPsFsm where
  psCtrlBusyReg : Bool
  psEnReg : Bool
  psUpdwnReg : Bool
  psStepSizeReg : BitVec 10
  stepCntMaxReg : BitVec 10
  currentState : PllPsState
  findMin : Bool
  findMax : Bool
  stepCntMin : BitVec 10
  stepCntMax : BitVec 10
  stepCnt : BitVec 10
  prepPhaseCnt : BitVec 4
  waitAfterPhShiftCnt : BitVec 8
  pllResetReqReg : Bool
  smplCmpEnReg : Bool
  psCtrlEnReg : Bool
  psCtrlPhaseReg : BitVec 10
  psCtrlUpdwnReg : Bool
  psDoneReg : Bool
  psStatusReg : Bool
  stepCntDiff : BitVec 10
  stepCntMiddle : BitVec 10
  stepCntReverse : BitVec 10
  deriving DecidableEq, Repr

structure PllPsFsmIn where
  psEn : Bool
  psResetAtStart : Bool
  psMode : Bool
  psUpdwn : Bool
  psStepSize : BitVec 10
  pllLocked : Bool
  psCtrlBusy : Bool
  smplCmpDone : Bool
  smplCmpError : Bool

namespace PllPsFsm

/-- `ps_ctrl_updwn_reg` has no reset value. -/
def reset : PllPsFsm :=
  { psCtrlBusyReg := false, psEnReg := false, psUpdwnReg := false, psStepSizeReg := 0,
    stepCntMaxReg := BitVec.allOnes 10, currentState := .idle, findMin := true, findMax := true, stepCntMin := 0,
    stepCntMax := BitVec.allOnes 10, stepCnt := 0, prepPhaseCnt := 0, waitAfterPhShiftCnt := 0,
    pllResetReqReg := false, smplCmpEnReg := false, psCtrlEnReg := false, psCtrlPhaseReg := 0,
    psCtrlUpdwnReg := false, psDoneReg := false, psStatusReg := false, stepCntDiff := 0, stepCntMiddle := 0,
    stepCntReverse := 0 }

def stepCntMaxConstant : BitVec 10 := BitVec.allOnes 10

/-- The rising edge of `ps_en`. -/
def psEnRising (s : PllPsFsm) (i : PllPsFsmIn) : Bool := i.psEn && !s.psEnReg

/-- The falling edge of `ps_ctrl_busy`. -/
def psCtrlBusyFalling (s : PllPsFsm) (i : PllPsFsmIn) : Bool := s.psCtrlBusyReg && !i.psCtrlBusy

def nextState (s : PllPsFsm) (i : PllPsFsmIn) : PllPsState :=
  match s.currentState with
  | .idle =>
      if s.psEnRising i = true ∧ i.psMode = true then
        if i.psResetAtStart then .rstPll else .waitPllLock
      else .idle
  | .rstPll => if i.pllLocked = false then .waitPllLock else .rstPll
  | .waitPllLock =>
      if i.pllLocked then
        if s.findMin = true ∨ s.findMax = true then .checkCmpStatus else .phShift
      else .waitPllLock
  | .checkCmpStatus => if i.smplCmpDone = false then .cmpSmpls else .checkCmpStatus
  | .cmpSmpls =>
      if i.smplCmpDone then
        if s.findMin then
          if i.smplCmpError = false ∧ s.stepCnt > 2 then .minFound else .checkMaxSteps
        else if s.findMax then
          if i.smplCmpError then .maxFound else .checkMaxSteps
        else .endSrch
      else .cmpSmpls
  | .minFound => .checkMaxSteps
  | .maxFound => .prepPhase
  | .checkMaxSteps =>
      if s.stepCnt < s.stepCntMaxReg then .phShift
      else if s.findMin = false then .prepPhase else .endSrch
  | .phShift => if s.psCtrlBusyFalling i then .waitAfterPhShift else .phShift
  | .waitAfterPhShift => if s.waitAfterPhShiftCnt > 0xFD then .checkCmpStatus else .waitAfterPhShift
  | .prepPhase => if s.prepPhaseCnt > 2 then .phShift else .prepPhase
  | .endSrch => .idle

def next (s : PllPsFsm) (i : PllPsFsmIn) : PllPsFsm :=
  { psCtrlBusyReg := i.psCtrlBusy
    psEnReg := i.psEn
    psUpdwnReg := if s.psEnRising i then i.psUpdwn else s.psUpdwnReg
    psStepSizeReg := if s.psEnRising i then i.psStepSize else s.psStepSizeReg
    stepCntMaxReg := stepCntMaxConstant - s.psStepSizeReg
    currentState := s.nextState i
    findMin :=
      if s.currentState = .idle then true else if s.currentState = .minFound then false else s.findMin
    findMax :=
      if s.currentState = .idle then true
      else if s.currentState = .maxFound ∨ s.currentState = .prepPhase then false
      else s.findMax
    stepCntMin :=
      if s.currentState = .minFound then s.stepCnt else if s.currentState = .idle then 0 else s.stepCntMin
    stepCntMax :=
      if s.currentState = .maxFound then s.stepCnt - s.psStepSizeReg
      else if s.currentState = .idle then stepCntMaxConstant
      else s.stepCntMax
    stepCnt :=
      if s.currentState = .checkMaxSteps then s.stepCnt + s.psStepSizeReg
      else if s.currentState = .idle then 0
      else s.stepCnt
    prepPhaseCnt := if s.currentState = .prepPhase then s.prepPhaseCnt + 1 else 0
    waitAfterPhShiftCnt := if s.currentState = .waitAfterPhShift then s.waitAfterPhShiftCnt + 1 else 0
    pllResetReqReg := decide (s.currentState = .rstPll)
    smplCmpEnReg := decide (s.currentState = .cmpSmpls)
    psCtrlEnReg := decide (s.currentState = .phShift)
    psCtrlPhaseReg :=
      if s.currentState = .idle then i.psStepSize
      else if s.currentState = .prepPhase then s.stepCntReverse
      else s.psCtrlPhaseReg
    psCtrlUpdwnReg :=
      if s.currentState = .idle then i.psUpdwn
      else if s.currentState = .prepPhase then !s.psUpdwnReg
      else s.psCtrlUpdwnReg
    psDoneReg := if i.psEn = false then false else if s.currentState = .endSrch then true else s.psDoneReg
    psStatusReg :=
      if i.psEn = false then false
      else if s.currentState = .endSrch then i.smplCmpError
      else s.psStatusReg
    stepCntDiff := s.stepCntMax - s.stepCntMin
    stepCntMiddle := (s.stepCntDiff >>> 1) + s.stepCntMin
    stepCntReverse := s.stepCnt - s.stepCntMiddle }

end PllPsFsm

/-! ## A search -/

/-- The state machine and what an observer notes during a search. -/
structure PhaseSearch where
  fsm : PllPsFsm
  /-- How far the completed shift commands have moved the phase in the direction of the search. -/
  position : Int
  compareCnt : Nat
  /-- Where a lower edge was accepted. -/
  posMin : Option Int
  /-- The last position at which a comparison passed, before the final shift. -/
  posMax : Option Int
  /-- Whether the step counter has wrapped around. -/
  wrapped : Bool
  deriving DecidableEq

namespace PhaseSearch

/-- What a shift command that completes in this cycle adds to the position. -/
def shift (s : PhaseSearch) (i : PllPsFsmIn) : Int :=
  if s.fsm.currentState = .phShift ∧ s.fsm.psCtrlBusyFalling i = true then
    if s.fsm.psCtrlUpdwnReg = s.fsm.psUpdwnReg then s.fsm.psCtrlPhaseReg.toNat else -s.fsm.psCtrlPhaseReg.toNat
  else 0

/-- A comparison is answered in this cycle. -/
def compared (s : PhaseSearch) (i : PllPsFsmIn) : Bool :=
  decide (s.fsm.currentState = .cmpSmpls) && i.smplCmpDone

def next (s : PhaseSearch) (i : PllPsFsmIn) : PhaseSearch :=
  { fsm := s.fsm.next i
    position := s.position + s.shift i
    compareCnt := s.compareCnt + (s.compared i).toNat
    posMin := if s.fsm.currentState = .minFound then some s.position else s.posMin
    posMax :=
      if s.compared i = true ∧ i.smplCmpError = false ∧ (s.fsm.findMin = true ∨ s.fsm.findMax = true) then
        some s.position
      else s.posMax
    wrapped := s.wrapped ||
      decide (s.fsm.currentState = .checkMaxSteps ∧ 2 ^ 10 ≤ s.fsm.stepCnt.toNat + s.fsm.psStepSizeReg.toNat) }

/-- A search that begins with the registers of `fsm`. -/
def start (fsm : PllPsFsm) : PhaseSearch := ⟨fsm, 0, 0, none, none, false⟩

def circuit (fsm : PllPsFsm) : Circuit PhaseSearch PllPsFsmIn := ⟨start fsm, next⟩

end PhaseSearch

end LimeSdrQpcie
