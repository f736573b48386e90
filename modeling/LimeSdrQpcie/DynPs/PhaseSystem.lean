import LimeSdrQpcie.DynPs.PhaseLoop
import LimeSdrQpcie.DynPs.PllPsTop

/-!
# The closed loop with the shift controller

The closed loop of the phase search, with `pll_ps_av` between the search and the reconfiguration core of the PLL.
-/

namespace LimeSdrQpcie

open Hdl

structure PhaseSystem (smplWidth : Nat) where
  loop : PhaseLoop smplWidth
  /-- `pll_ps_inst0` of `pll_ps_top`. -/
  inst0 : PllPsAv

/-- The inputs of the loop, where `ps_ctrl_busy` comes from the controller, and those of the controller. -/
structure PhaseSystemIn where
  loop : PhaseLoopIn
  mgmtReaddata : BitVec 32
  mgmtWaitrequest : Bool

namespace PhaseSystem

variable {smplWidth : Nat} (c : SmplCmpCfg smplWidth) (cap : Capture smplWidth) (cnt : BitVec 5)

/-- `ps_reset_at_start` is tied high. -/
def loopIn (s : PhaseSystem smplWidth) (i : PhaseSystemIn) : PhaseLoopIn :=
  { i.loop with psCtrlBusy := s.inst0.busy, psResetAtStart := true }

/-- The inputs of the controller when the search has latched the counter `cnt`. -/
def inst0In (s : PhaseSystem smplWidth) (i : PhaseSystemIn) : PllPsAvIn :=
  { en := s.loop.search.fsm.psCtrlEnReg, phase := s.loop.search.fsm.psCtrlPhaseReg.setWidth 16, cnt := cnt
    updown := s.loop.search.fsm.psCtrlUpdwnReg, mgmtReaddata := i.mgmtReaddata
    mgmtWaitrequest := i.mgmtWaitrequest }

def next (s : PhaseSystem smplWidth) (i : PhaseSystemIn) : PhaseSystem smplWidth :=
  { loop := s.loop.next c cap (s.loopIn i), inst0 := s.inst0.next (s.inst0In cnt i) }

def circuit (fsm : PllPsFsm) : Circuit (PhaseSystem smplWidth) PhaseSystemIn :=
  ⟨⟨PhaseLoop.start fsm, PllPsAv.reset⟩, next c cap cnt⟩

end PhaseSystem

/-! ## What the writes do -/

/-- How far the data of the DPS register move the phase. -/
def dpsSteps (d : BitVec 32) : Int := if d.getLsbD 21 then (d.setWidth 16).toNat else -(d.setWidth 16).toNat

/-- What the reconfiguration core makes of writes: it keeps the data of the DPS register, and a start moves the phase. -/
structure DpsCore where
  dps : BitVec 32
  moved : Int

def DpsCore.write (s : DpsCore) (w : BitVec 6 × BitVec 32) : DpsCore :=
  if w.1 = 6 then { s with dps := w.2 } else if w.1 = 2 then { s with moved := s.moved + dpsSteps s.dps } else s

/-- How far writes move the phase upwards. -/
def moved (ws : List (BitVec 6 × BitVec 32)) : Int := (ws.foldl DpsCore.write ⟨0, 0⟩).moved

end LimeSdrQpcie
