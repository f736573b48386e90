import LimeSdrQpcie.Hdl.Signal

/-!
# The delay of the antenna switch

`edge_delay` gives a signal with its edges delayed, the rising ones by `rise_dly` cycles and the falling ones by
`fall_dly`. The delays do not change during a run.
-/

namespace LimeSdrQpcie

open Hdl

inductive EdgeDelayState where
  | idle
  | riseDelay
  | assertQ
  | waitFall
  | fallDelay
  deriving DecidableEq, Repr

structure EdgeDelay where
  riseCnt : BitVec 16
  fallCnt : BitVec 16
  currentState : EdgeDelayState
  qReg : Bool
  deriving DecidableEq, Repr

namespace EdgeDelay

def reset : EdgeDelay := ⟨0, 0, .idle, false⟩

def nextState (riseDly fallDly : BitVec 16) (s : EdgeDelay) (d : Bool) : EdgeDelayState :=
  match s.currentState with
  | .idle => if d then .riseDelay else .idle
  | .riseDelay => if d then (if s.riseCnt < riseDly then .riseDelay else .waitFall) else .fallDelay
  | .waitFall => if d then .waitFall else .fallDelay
  | .fallDelay => if !d then (if s.fallCnt < fallDly then .fallDelay else .idle) else .waitFall
  | .assertQ => .idle

def next (riseDly fallDly : BitVec 16) (s : EdgeDelay) (d : Bool) : EdgeDelay :=
  { riseCnt :=
      if s.currentState = .idle then 0
      else if s.currentState = .riseDelay then s.riseCnt + 1
      else s.riseCnt
    fallCnt :=
      if s.currentState = .idle ∨ s.currentState = .waitFall then 0
      else if s.currentState = .fallDelay then s.fallCnt + 1
      else s.fallCnt
    currentState := s.nextState riseDly fallDly d
    qReg :=
      if s.currentState = .waitFall then true
      else if s.currentState = .idle ∨ s.currentState = .riseDelay then false
      else s.qReg }

def circuit (riseDly fallDly : BitVec 16) : Circuit EdgeDelay Bool := ⟨reset, next riseDly fallDly⟩

end EdgeDelay

end LimeSdrQpcie
