import LimeSdrQpcie.Hdl.Signal

/-!
# The sample comparator

`smpl_cmp` compares the samples of both channels with expected ones for `cmp_length` cycles after a start. The
length and the expected samples do not change during a run; `smpl_width` is a generic.
-/

namespace LimeSdrQpcie

open Hdl

structure SmplCmpCfg (smplWidth : Nat) where
  cmpLength : BitVec 16
  cmpAI : BitVec smplWidth
  cmpAQ : BitVec smplWidth
  cmpBI : BitVec smplWidth
  cmpBQ : BitVec smplWidth

inductive SmplCmpState where
  | idle
  | waitCyc
  | compare
  | compareDone
  deriving DecidableEq, Repr

structure SmplCmp (smplWidth : Nat) where
  diqHReg : BitVec (smplWidth + 1)
  diqLReg : BitVec (smplWidth + 1)
  fidmReg : Bool
  cmpStartReg : Bool
  aiErr : Bool
  aqErr : Bool
  biErr : Bool
  bqErr : Bool
  iqSelErr : Bool
  smplErr : Bool
  compareCnt : BitVec 16
  compareStop : Bool
  waitCnt : BitVec 4
  smplErrCnt : BitVec 16
  cmpErrorCntReg : BitVec 16
  currentState : SmplCmpState
  cmpDoneReg : Bool
  cmpErrorReg : Bool

structure SmplCmpIn (smplWidth : Nat) where
  fidm : Bool
  cmpStart : Bool
  diqH : BitVec (smplWidth + 1)
  diqL : BitVec (smplWidth + 1)

namespace SmplCmp

variable {smplWidth : Nat}

def reset : SmplCmp smplWidth :=
  { diqHReg := 0, diqLReg := 0, fidmReg := false, cmpStartReg := false, aiErr := false, aqErr := false,
    biErr := false, bqErr := false, iqSelErr := false, smplErr := false, compareCnt := 0, compareStop := false,
    waitCnt := 0, smplErrCnt := 0, cmpErrorCntReg := 0, currentState := .idle, cmpDoneReg := false,
    cmpErrorReg := false }

/-- The frame bit, which stands above the sample. -/
def iqSel (diq : BitVec (smplWidth + 1)) : Bool := diq.getLsbD smplWidth

def smpl (diq : BitVec (smplWidth + 1)) : BitVec smplWidth := diq.setWidth smplWidth

/-- Both halves carry the frame bit of channel A. -/
def isChA (s : SmplCmp smplWidth) : Bool := iqSel s.diqHReg == s.fidmReg && iqSel s.diqLReg == s.fidmReg

/-- Both halves carry the frame bit of channel B. -/
def isChB (s : SmplCmp smplWidth) : Bool := iqSel s.diqHReg != s.fidmReg && iqSel s.diqLReg != s.fidmReg

def nextState (s : SmplCmp smplWidth) (i : SmplCmpIn smplWidth) : SmplCmpState :=
  match s.currentState with
  | .idle => if i.cmpStart = true ∧ s.cmpStartReg = false then .waitCyc else .idle
  | .waitCyc => if s.waitCnt > 3 then .compare else .waitCyc
  | .compare => if s.compareStop = true ∨ s.smplErr = true then .compareDone else .compare
  | .compareDone => .idle

def next (c : SmplCmpCfg smplWidth) (s : SmplCmp smplWidth) (i : SmplCmpIn smplWidth) : SmplCmp smplWidth :=
  { diqHReg := i.diqH
    diqLReg := i.diqL
    fidmReg := i.fidm
    cmpStartReg := i.cmpStart
    aiErr := if s.isChA then smpl s.diqLReg != c.cmpAI else s.aiErr
    aqErr := if s.isChA then smpl s.diqHReg != c.cmpAQ else s.aqErr
    biErr := if s.isChB then smpl s.diqLReg != c.cmpBI else s.biErr
    bqErr := if s.isChB then smpl s.diqHReg != c.cmpBQ else s.bqErr
    iqSelErr := iqSel s.diqHReg != iqSel s.diqLReg
    smplErr := s.aiErr || s.aqErr || s.biErr || s.bqErr || s.iqSelErr
    compareCnt := if s.currentState = .compare then s.compareCnt + 1 else 0
    compareStop := decide (s.compareCnt > c.cmpLength - 1)
    waitCnt := if s.currentState = .waitCyc then s.waitCnt + 1 else 0
    smplErrCnt := if s.currentState = .compare then (if s.smplErr then s.smplErrCnt + 1 else s.smplErrCnt) else 0
    cmpErrorCntReg :=
      if s.currentState = .compareDone then s.smplErrCnt
      else if s.currentState = .compare then 0
      else s.cmpErrorCntReg
    currentState := s.nextState i
    cmpDoneReg :=
      if s.currentState = .compareDone then true
      else if s.currentState = .idle ∧ i.cmpStart = false then false
      else s.cmpDoneReg
    cmpErrorReg :=
      if s.smplErr = true ∧ s.currentState = .compare then true
      else if s.currentState = .idle ∧ i.cmpStart = false then false
      else s.cmpErrorReg }

def circuit (c : SmplCmpCfg smplWidth) : Circuit (SmplCmp smplWidth) (SmplCmpIn smplWidth) := ⟨reset, next c⟩

end SmplCmp

end LimeSdrQpcie
