import LimeSdrQpcie.DynPs.PllPsFsm

/-!
# The phase shift controller

`pll_ps_av` shifts the phase of a PLL through the registers of its reconfiguration core, which it reaches by an Avalon
bus; `pll_ps_top` joins it to the automatic phase search, and can repeat the search as a test.
-/

namespace LimeSdrQpcie

open Hdl

/-- The states of `pll_ps_av` in the order of their codes, from `0000` to `1000`. -/
inductive PllPsAvState where
  | idle
  | writeMode
  | setDps
  | writeDps
  | setStart
  | writeStart
  | setStatus
  | readStatus
  | last
  deriving DecidableEq, Repr

structure PllPsAv where
  enReg : Bool
  state : PllPsAvState
  writeCount : BitVec 4
  mgmtRead : Bool
  mgmtWrite : Bool
  mgmtAddress : BitVec 6
  mgmtWritedata : BitVec 32
  busy : Bool
  deriving DecidableEq, Repr

structure PllPsAvIn where
  en : Bool
  phase : BitVec 16
  cnt : BitVec 5
  updown : Bool
  mgmtReaddata : BitVec 32
  mgmtWaitrequest : Bool

/-- The data of the DPS register: the direction, the counter and the number of shifts. -/
def dpsWord (updown : Bool) (cnt : BitVec 5) (phase : BitVec 16) : BitVec 32 :=
  (0 : BitVec 10) ++ BitVec.ofBool updown ++ cnt ++ phase

/-- The states that wait for a write. -/
def PllPsAvState.writes : PllPsAvState → Bool
  | .writeMode | .writeDps | .writeStart => true
  | _ => false

namespace PllPsAv

def reset : PllPsAv :=
  { enReg := false, state := .idle, writeCount := 0, mgmtRead := false, mgmtWrite := false, mgmtAddress := 0,
    mgmtWritedata := 0, busy := true }

def nextState (s : PllPsAv) (i : PllPsAvIn) : PllPsAvState :=
  match s.state with
  | .idle => if i.en = true ∧ s.enReg = false then .writeMode else .idle
  | .writeMode => if s.writeCount = 1 then .setDps else .writeMode
  | .setDps => .writeDps
  | .writeDps => if s.writeCount = 1 then .setStart else .writeDps
  | .setStart => .writeStart
  | .writeStart => if s.writeCount = 1 then .setStatus else .writeStart
  | .setStatus => .readStatus
  | .readStatus => if i.mgmtReaddata.getLsbD 0 = true ∧ i.mgmtWaitrequest = false then .last else .readStatus
  | .last => .idle

def next (s : PllPsAv) (i : PllPsAvIn) : PllPsAv :=
  { enReg := i.en
    state := s.nextState i
    writeCount :=
      if s.state.writes then
        if s.writeCount = 1 then 0 else if i.mgmtWaitrequest then 0 else s.writeCount + 1
      else s.writeCount
    mgmtRead := decide (s.state = .readStatus)
    mgmtWrite := s.state.writes && decide (s.writeCount = 0) && i.mgmtWaitrequest
    mgmtAddress :=
      match s.state with
      | .idle | .writeMode | .last => 0
      | .setDps | .writeDps => 6
      | .setStart | .writeStart => 2
      | .setStatus | .readStatus => 1
    mgmtWritedata :=
      match s.state with
      | .setDps | .writeDps => dpsWord i.updown i.cnt i.phase
      | .readStatus => s.mgmtWritedata
      | .last => 0
      | _ => 1
    busy := decide (s.state ≠ .idle) }

/-- The write that the bus takes in a cycle: its address and its data. -/
def write (s : PllPsAv) (mgmtWaitrequest : Bool) : Option (BitVec 6 × BitVec 32) :=
  if s.mgmtWrite && !mgmtWaitrequest then some (s.mgmtAddress, s.mgmtWritedata) else none

/-- The controller asks for the bus. -/
def access (s : PllPsAv) : Bool := s.mgmtRead || s.mgmtWrite

end PllPsAv

/-! ## The controller and the search -/

/-- The state machine for testing in `pll_ps_top`. -/
inductive PllPsTopState where
  | idle
  | checkMode
  | psEnable
  | psDisable
  deriving DecidableEq, Repr

structure PllPsTop where
  psEnReg : Bool
  currentState : PllPsTopState
  psDisableCnt : BitVec 8
  inst1PsEn : Bool
  inst0 : PllPsAv
  inst1 : PllPsFsm
  /-- `ps_cnt_reg` of `inst1`. -/
  psCntReg : BitVec 5
  /-- `ps_done_reg_manual_mode` of `inst1`. -/
  psDoneRegManualMode : Bool

structure PllPsTopIn where
  psEn : Bool
  psMode : Bool
  psTst : Bool
  psCnt : BitVec 5
  psUpdwn : Bool
  psPhase : BitVec 10
  psStepSize : BitVec 10
  pllMgmtReaddata : BitVec 32
  pllMgmtWaitrequest : Bool
  pllLocked : Bool
  smplCmpDone : Bool
  smplCmpError : Bool

namespace PllPsTop

def reset : PllPsTop :=
  { psEnReg := false, currentState := .idle, psDisableCnt := 0, inst1PsEn := false, inst0 := PllPsAv.reset,
    inst1 := PllPsFsm.reset, psCntReg := 0, psDoneRegManualMode := false }

/-- The inputs of `pll_ps_fsm`; `ps_reset_at_start` is tied high. -/
def inst1In (s : PllPsTop) (i : PllPsTopIn) : PllPsFsmIn :=
  { psEn := s.inst1PsEn, psResetAtStart := true, psMode := i.psMode, psUpdwn := i.psUpdwn, psStepSize := i.psStepSize,
    pllLocked := i.pllLocked, psCtrlBusy := s.inst0.busy, smplCmpDone := i.smplCmpDone,
    smplCmpError := i.smplCmpError }

/-- The inputs of `pll_ps_av`: those of a search, or in manual mode those of the module. -/
def inst0In (s : PllPsTop) (i : PllPsTopIn) : PllPsAvIn :=
  { en := if i.psMode then s.inst1.psCtrlEnReg else s.inst1PsEn
    phase := (if i.psMode then s.inst1.psCtrlPhaseReg else i.psPhase).setWidth 16
    cnt := if i.psMode then s.psCntReg else i.psCnt
    updown := if i.psMode then s.inst1.psCtrlUpdwnReg else i.psUpdwn
    mgmtReaddata := i.pllMgmtReaddata
    mgmtWaitrequest := i.pllMgmtWaitrequest }

def psDone (s : PllPsTop) (i : PllPsTopIn) : Bool :=
  if i.psMode then s.inst1.psDoneReg else s.psDoneRegManualMode

def psStatus (s : PllPsTop) (i : PllPsTopIn) : Bool :=
  if i.psMode then s.inst1.psStatusReg else s.inst0.busy

def nextState (s : PllPsTop) (i : PllPsTopIn) : PllPsTopState :=
  match s.currentState with
  | .idle => if i.psEn = true ∧ s.psEnReg = false then .checkMode else .idle
  | .checkMode => if i.psTst then .psEnable else .idle
  | .psEnable =>
      if s.psDone i then
        if s.psStatus i then .idle else .psDisable
      else .psEnable
  | .psDisable =>
      if s.psDisableCnt > 7 then
        if i.psEn then .psEnable else .idle
      else .psDisable

def next (s : PllPsTop) (i : PllPsTopIn) : PllPsTop :=
  { psEnReg := i.psEn
    currentState := s.nextState i
    psDisableCnt := if s.currentState = .psDisable then s.psDisableCnt + 1 else 0
    inst1PsEn := if i.psTst = false then i.psEn else decide (s.currentState = .psEnable)
    inst0 := s.inst0.next (s.inst0In i)
    inst1 := s.inst1.next (s.inst1In i)
    psCntReg := if s.inst1.psEnRising (s.inst1In i) then i.psCnt else s.psCntReg
    psDoneRegManualMode :=
      if s.inst1PsEn = false then false
      else if s.inst1.psCtrlBusyFalling (s.inst1In i) then true
      else s.psDoneRegManualMode }

def circuit : Circuit PllPsTop PllPsTopIn := ⟨reset, next⟩

end PllPsTop

/-! ## Shift commands -/

/-- A shift that the search asks for. -/
structure PsCtrl where
  updown : Bool
  cnt : BitVec 5
  phase : BitVec 10
  deriving DecidableEq, Repr

/-- The writes that a shift takes: polling mode, the shift, the start. -/
def PsCtrl.writes (p : PsCtrl) : List (BitVec 6 × BitVec 32) :=
  [(0, 1), (6, dpsWord p.updown p.cnt (p.phase.setWidth 16)), (2, 1)]

/-- The shift that the search asks for. -/
def PllPsFsm.psCtrl (s : PllPsFsm) (cnt : BitVec 5) : PsCtrl := ⟨s.psCtrlUpdwnReg, cnt, s.psCtrlPhaseReg⟩

/-- The shift that is over in this cycle. -/
def PllPsFsm.shifted (s : PllPsFsm) (cnt : BitVec 5) (i : PllPsFsmIn) : Option PsCtrl :=
  if s.currentState = .phShift ∧ s.psCtrlBusyFalling i = true then some (s.psCtrl cnt) else none

end LimeSdrQpcie
