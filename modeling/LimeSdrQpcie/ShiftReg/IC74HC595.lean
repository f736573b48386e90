import LimeSdrQpcie.Hdl.Serial
import LimeSdrQpcie.Hdl.Signal
import LimeSdrQpcie.SyncReg

/-!
# The shift register of the RF switches

`IC_74HC595` sends a word to external shift registers, most significant bit first, and lets them store it.
`IC_74HC595_top` sends the control word whenever it changes.
-/

namespace LimeSdrQpcie

open Hdl

/-! ## IC_74HC595 -/

inductive IC74HC595State where
  | idle
  | shiftEn
  | latch
  deriving DecidableEq, Repr

structure IC74HC595 (dataWidth : Nat) where
  enReg : Bool
  shiftCnt : BitVec 8
  currentState : IC74HC595State
  busyReg : Bool
  shiftReg : BitVec dataWidth
  shcpReg : Bool
  stcpReg : Bool
  deriving DecidableEq, Repr

namespace IC74HC595

variable {dataWidth : Nat}

def reset : IC74HC595 dataWidth := ⟨false, 0, .idle, false, 0, false, false⟩

/-- A rising edge of `en`. -/
def starts (s : IC74HC595 dataWidth) (en : Bool) : Bool := en && !s.enReg

def nextState (s : IC74HC595 dataWidth) (en : Bool) : IC74HC595State :=
  match s.currentState with
  | .idle => if s.starts en then .shiftEn else .idle
  | .shiftEn => if s.shiftCnt.toNat < dataWidth * 2 - 1 then .shiftEn else .latch
  | .latch => .idle

def next (s : IC74HC595 dataWidth) (en : Bool) (data : BitVec dataWidth) : IC74HC595 dataWidth :=
  { enReg := en
    shiftCnt := if s.currentState = .shiftEn then s.shiftCnt + 1 else 0
    currentState := s.nextState en
    busyReg := if s.starts en then true else if s.currentState = .idle then false else s.busyReg
    shiftReg := if s.starts en then data else if s.shcpReg then s.shiftReg <<< 1 else s.shiftReg
    shcpReg := if s.currentState = .shiftEn then !s.shcpReg else false
    stcpReg := decide (s.currentState = .latch) }

/-- `DS`. -/
def ds (s : IC74HC595 dataWidth) : Bool := s.shiftReg.msb

end IC74HC595

/-! ## IC_74HC595_top -/

/-- The processes that `reset_n_delayed` resets. -/
structure ChangeDetect where
  dataSyncReg : BitVec 16
  dataChange : Bool
  inst0 : IC74HC595 16
  deriving DecidableEq, Repr

namespace ChangeDetect

def reset : ChangeDetect := ⟨0, false, IC74HC595.reset⟩

def next (s : ChangeDetect) (dataSync : BitVec 16) : ChangeDetect :=
  { dataSyncReg := dataSync
    dataChange := if s.dataSyncReg = dataSync then false else true
    inst0 := s.inst0.next s.dataChange s.dataSyncReg }

def circuit : Circuit ChangeDetect (BitVec 16) := ⟨reset, next⟩

end ChangeDetect

structure IC74HC595Top where
  resetNSync : SyncReg Bool
  dataSync : SyncReg (BitVec 16)
  resetCnt : BitVec 8
  resetNDelayed : Bool
  changeDetect : ChangeDetect

namespace IC74HC595Top

def reset : IC74HC595Top := ⟨⟨false, false⟩, ⟨0, 0⟩, 0, false, ChangeDetect.reset⟩

/-- `data_remaped`, whose bits are these of `data`, beginning with bit 0. -/
def dataRemaped (data : BitVec 16) : BitVec 16 :=
  BitVec.ofBoolListLE ([6, 7, 3, 2, 1, 0, 5, 4, 12, 13, 8, 9, 14, 11, 10, 15].map data.getLsbD)

/-- A clock edge while `reset_n` is high. -/
def next (s : IC74HC595Top) (data : BitVec 16) : IC74HC595Top :=
  let resetNSync := s.resetNSync.syncOut
  { resetNSync := s.resetNSync.next true
    dataSync := if resetNSync then s.dataSync.next (dataRemaped data) else ⟨0, 0⟩
    resetCnt := if resetNSync then (if s.resetCnt < 255 then s.resetCnt + 1 else s.resetCnt) else 0
    resetNDelayed := if resetNSync then (if s.resetCnt < 255 then false else true) else false
    changeDetect := if s.resetNDelayed then s.changeDetect.next s.dataSync.syncOut else ChangeDetect.reset }

def circuit : Circuit IC74HC595Top (BitVec 16) := ⟨reset, next⟩

end IC74HC595Top

end LimeSdrQpcie
