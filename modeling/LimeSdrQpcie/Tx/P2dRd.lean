import LimeSdrQpcie.Tx.P2dWrFsm

/-!
# The reader of the packet buffers

`p2d_rd`: it waits for a packet in the current buffer, reads it when its sample number has come or when it
is not synchronised, and clears the buffer when the sample number has passed. `PCT_SIZE` is 4096 bytes and
`PCT_HDR_SIZE` 16.
-/

namespace LimeSdrQpcie

open Hdl

inductive P2dRdState where
  | idle
  | switchNextBuff
  | checkNextBuf
  | rdBuff
  | rdHold
  | clrBuff
  deriving DecidableEq, Repr

/-- The registers of `p2d_rd`. -/
structure P2dRd (nb : NBuff) where
  pctHdr0Array : Fin nb.n → BitVec 64
  pctHdr1Array : Fin nb.n → BitVec 64
  cmpr : Fin nb.n → LpmCompare
  crntBuffCnt : Fin nb.n
  crntBuffRdy : Bool
  crntBuffPctSynchDis : Bool
  crntBuffPctSmplNrEqual : Bool
  crntBuffPctSmplNrLess : Bool
  rdCnt : Nat
  currentState : P2dRdState

structure P2dRdIn (nb : NBuff) where
  synchDis : Bool
  pctHdr0 : BitVec 64
  pctHdr0Valid : Fin nb.n → Bool
  pctHdr1 : BitVec 64
  pctHdr1Valid : Fin nb.n → Bool
  sampleNr : BitVec 64
  pctBuffRdy : Fin nb.n → Bool
  smplBuffAlmostFull : Bool

namespace P2dRd

variable {nb : NBuff}

def reset : P2dRd nb :=
  { pctHdr0Array := fun _ => 0, pctHdr1Array := fun _ => 0, cmpr := fun _ => LpmCompare.reset,
    crntBuffCnt := nb.zero, crntBuffRdy := false, crntBuffPctSynchDis := false,
    crntBuffPctSmplNrEqual := false, crntBuffPctSmplNrLess := false, rdCnt := 0, currentState := .idle }

def rdReqInt (s : P2dRd nb) (smplBuffAlmostFull : Bool) : Bool :=
  if s.currentState = .rdBuff ∧ smplBuffAlmostFull = false then true else false

def nextState (s : P2dRd nb) (i : P2dRdIn nb) : P2dRdState :=
  match s.currentState with
  | .idle =>
      if s.crntBuffRdy then
        if i.synchDis || s.crntBuffPctSynchDis then .rdBuff
        else if s.crntBuffPctSmplNrEqual then .rdBuff
        else if s.crntBuffPctSmplNrLess then .clrBuff
        else .idle
      else .idle
  | .clrBuff => .switchNextBuff
  | .rdBuff =>
      if i.smplBuffAlmostFull = false then
        if s.rdCnt < (4096 - 16) * 8 / 64 - 1 then .rdBuff else .switchNextBuff
      else .rdHold
  | .rdHold => if i.smplBuffAlmostFull = false then .rdBuff else .rdHold
  | .switchNextBuff => .checkNextBuf
  | .checkNextBuf => .idle

def next (s : P2dRd nb) (i : P2dRdIn nb) : P2dRd nb :=
  { pctHdr0Array := fun b => if i.pctHdr0Valid b then i.pctHdr0 else s.pctHdr0Array b
    pctHdr1Array := fun b => if i.pctHdr1Valid b then i.pctHdr1 else s.pctHdr1Array b
    cmpr := fun b => (s.cmpr b).next (s.pctHdr1Array b) i.sampleNr
    crntBuffCnt := if s.currentState = .switchNextBuff then NBuff.succ s.crntBuffCnt else s.crntBuffCnt
    crntBuffRdy := i.pctBuffRdy s.crntBuffCnt
    crntBuffPctSynchDis := (s.pctHdr0Array s.crntBuffCnt).getLsbD 4
    crntBuffPctSmplNrEqual := (s.cmpr s.crntBuffCnt).aeb
    crntBuffPctSmplNrLess := (s.cmpr s.crntBuffCnt).alb
    rdCnt :=
      if s.currentState = .idle then 0
      else if s.rdReqInt i.smplBuffAlmostFull then (s.rdCnt + 1) % 2 ^ 16
      else s.rdCnt
    currentState := s.nextState i }

def pctBuffRdreq (s : P2dRd nb) (smplBuffAlmostFull : Bool) : Fin nb.n → Bool :=
  fun b => b == s.crntBuffCnt && s.rdReqInt smplBuffAlmostFull

def pctBuffClrN (s : P2dRd nb) : Fin nb.n → Bool :=
  fun b => if s.currentState = .clrBuff then !(b == s.crntBuffCnt) else true

def pctBuffSel (s : P2dRd nb) : Fin nb.n := s.crntBuffCnt

end P2dRd

end LimeSdrQpcie
