import LimeSdrQpcie.Hdl.Signal

/-!
# The writer of the packet buffers

`p2d_wr_fsm`: it reads a packet's header from the input FIFO, drops the packet when it is late, and copies
the payload into one of the packet buffers otherwise. `PCT_SIZE` is 4096 bytes.
-/

namespace LimeSdrQpcie

open Hdl

/-- The generic `N_BUFF`: `2,4 valid values`. -/
inductive NBuff where
  | two
  | four
  deriving DecidableEq, Repr

namespace NBuff

def n : NBuff → Nat
  | two => 2
  | four => 4

theorem n_pos (nb : NBuff) : 0 < nb.n := by cases nb <;> decide

/-- The buffer counter at reset. -/
def zero (nb : NBuff) : Fin nb.n := ⟨0, nb.n_pos⟩

/-- The buffer counter counts round. -/
def succ {nb : NBuff} (c : Fin nb.n) : Fin nb.n :=
  if h : c.val < nb.n - 1 then ⟨c.val + 1, by omega⟩ else nb.zero

end NBuff

/-! ## lpm_compare -/

/-- `lpm_compare` with `lpm_pipeline` 3: what it says in each stage about equal and less. -/
structure LpmCompare where
  stage0 : Bool × Bool
  stage1 : Bool × Bool
  stage2 : Bool × Bool
  deriving DecidableEq

namespace LpmCompare

def reset : LpmCompare := ⟨(false, false), (false, false), (false, false)⟩

def next (s : LpmCompare) (dataa datab : BitVec 64) : LpmCompare :=
  ⟨(dataa == datab, dataa.ult datab), s.stage0, s.stage1⟩

def aeb (s : LpmCompare) : Bool := s.stage2.1

def alb (s : LpmCompare) : Bool := s.stage2.2

end LpmCompare

/-! ## p2d_wr_fsm -/

inductive P2dWrFsmState where
  | idle
  | rdHdr
  | waitCmprPipe
  | checkSmplNr
  | clrFifo
  | switchNextBuff
  | rdPct
  | waitWrEnd
  | checkNextBuf
  | switchCurrentBuff
  deriving DecidableEq, Repr

/-- The registers of `p2d_wr_fsm`. -/
structure P2dWrFsm (nb : NBuff) where
  cmpr : LpmCompare
  nextBuffCnt : Fin nb.n
  nextBuffRdy : Bool
  currentBuffCnt : Fin nb.n
  currentBuffRdy : Bool
  rdCnt : Nat
  pipeCnt : Nat
  currentState : P2dWrFsmState
  inPctDataValid : Bool
  pctDataWrreqCnt : Nat
  inPctRdreqInt : Bool
  inPctResetNReq : Bool
  pctHdr0Reg : BitVec 64
  pctHdr0Valid : Fin nb.n → Bool
  pctHdr1Reg : BitVec 64
  pctHdr1Valid : Fin nb.n → Bool
  pctData : BitVec 128
  pctDataWrreq : Fin nb.n → Bool

structure P2dWrFsmIn (nb : NBuff) where
  pctSyncDis : Bool
  sampleNr : BitVec 64
  inPctData : BitVec 128
  inPctRdy : Bool
  pctBuffRdy : Fin nb.n → Bool

namespace P2dWrFsm

variable {nb : NBuff}

def reset : P2dWrFsm nb :=
  { cmpr := LpmCompare.reset, nextBuffCnt := nb.zero, nextBuffRdy := false, currentBuffCnt := nb.zero,
    currentBuffRdy := false, rdCnt := 0, pipeCnt := 0, currentState := .idle, inPctDataValid := false,
    pctDataWrreqCnt := 0, inPctRdreqInt := false, inPctResetNReq := true, pctHdr0Reg := 0,
    pctHdr0Valid := fun _ => false, pctHdr1Reg := 0, pctHdr1Valid := fun _ => false, pctData := 0,
    pctDataWrreq := fun _ => false }

def crntPctSyncDis (s : P2dWrFsm nb) : Bool := s.pctHdr0Reg.getLsbD 4

def nextState (s : P2dWrFsm nb) (i : P2dWrFsmIn nb) : P2dWrFsmState :=
  match s.currentState with
  | .idle => if i.inPctRdy then .rdHdr else .idle
  | .rdHdr => .waitCmprPipe
  | .waitCmprPipe => if s.pipeCnt > 3 then .checkSmplNr else .waitCmprPipe
  | .checkSmplNr =>
      if s.cmpr.alb = true ∧ s.crntPctSyncDis = false ∧ i.pctSyncDis = false then .clrFifo
      else if s.currentBuffRdy then .switchNextBuff
      else .checkSmplNr
  | .clrFifo => .idle
  | .switchNextBuff => .rdPct
  | .rdPct => if s.rdCnt < 4096 * 8 / 128 - 1 then .rdPct else .waitWrEnd
  | .waitWrEnd => if s.inPctDataValid = false then .checkNextBuf else .waitWrEnd
  | .checkNextBuf => if s.nextBuffRdy then .switchCurrentBuff else .checkNextBuf
  | .switchCurrentBuff => .idle

/-- The word from the input FIFO is a header. -/
def hdrWord (s : P2dWrFsm nb) : Bool := s.inPctDataValid && s.pctDataWrreqCnt == 0

/-- The word from the input FIFO belongs to the payload. -/
def dataWord (s : P2dWrFsm nb) : Bool := s.inPctDataValid && decide (s.pctDataWrreqCnt > 0)

def next (s : P2dWrFsm nb) (i : P2dWrFsmIn nb) : P2dWrFsm nb :=
  { cmpr := s.cmpr.next s.pctHdr1Reg i.sampleNr
    nextBuffCnt := if s.currentState = .switchNextBuff then NBuff.succ s.nextBuffCnt else s.nextBuffCnt
    nextBuffRdy := i.pctBuffRdy s.nextBuffCnt
    currentBuffCnt := if s.currentState = .checkNextBuf then s.nextBuffCnt else s.currentBuffCnt
    currentBuffRdy := i.pctBuffRdy s.currentBuffCnt
    rdCnt :=
      if s.currentState = .rdPct ∨ s.currentState = .rdHdr then (s.rdCnt + 1) % 2 ^ 16
      else if s.currentState = .idle then 0
      else s.rdCnt
    pipeCnt := if s.currentState = .waitCmprPipe then (s.pipeCnt + 1) % 2 ^ 4 else 0
    currentState := s.nextState i
    inPctDataValid := s.inPctRdreqInt
    pctDataWrreqCnt :=
      if s.inPctDataValid then (s.pctDataWrreqCnt + 1) % 2 ^ 16
      else if s.currentState = .idle then 0
      else s.pctDataWrreqCnt
    inPctRdreqInt := if s.currentState = .rdPct ∨ s.currentState = .rdHdr then true else false
    inPctResetNReq := if s.currentState = .clrFifo then false else true
    pctHdr0Reg := if s.hdrWord then i.inPctData.extractLsb 63 0 else s.pctHdr0Reg
    pctHdr0Valid := if s.hdrWord then fun b => b == s.currentBuffCnt else fun _ => false
    pctHdr1Reg := if s.hdrWord then i.inPctData.extractLsb 127 64 else s.pctHdr1Reg
    pctHdr1Valid := if s.hdrWord then fun b => b == s.currentBuffCnt else fun _ => false
    pctData := if s.dataWord then i.inPctData else s.pctData
    pctDataWrreq := if s.dataWord then fun b => b == s.currentBuffCnt else fun _ => false }

def inPctRdreq (s : P2dWrFsm nb) : Bool := s.inPctRdreqInt

end P2dWrFsm

end LimeSdrQpcie
