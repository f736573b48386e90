import LimeSdrQpcie.Hdl.Serial

/-!
# The register modules on the serial port

`mcfg32wm_fsm`, the registers around it that every register module has, and the two modules `fpgacfg` and
`pllcfg` with port A. The resets are released; what a memory held after reset does not matter.
-/

namespace LimeSdrQpcie

open Hdl

/-! ## mcfg32wm_fsm -/

/-- The inputs of the outputs of `mcfg32wm_fsm`. -/
structure McfgFsmIn where
  address : BitVec 10
  mimoEn : Bool
  instReg : BitVec 16
  sen : Bool

namespace McfgFsm

/-- The states are `s0` to `s32`. -/
def nextState (state : Nat) : Nat := if state < 32 then state + 1 else if state = 32 then 1 else 0

def isWrite (i : McfgFsmIn) : Bool :=
  i.instReg.extractLsb' 5 10 == i.address && i.instReg.getLsbD 15 && i.mimoEn

def isRead (i : McfgFsmIn) : Bool :=
  i.instReg.extractLsb' 5 10 == i.address && !i.instReg.getLsbD 15 && i.mimoEn

def instRegEn (state : Nat) (i : McfgFsmIn) : Bool :=
  if state = 0 ∨ state = 32 then !i.sen else decide (1 ≤ state ∧ state ≤ 15)

def dinRegEn (state : Nat) (i : McfgFsmIn) : Bool := decide (16 ≤ state ∧ state ≤ 31) && isWrite i

def doutRegSen (state : Nat) (i : McfgFsmIn) : Bool := decide (17 ≤ state ∧ state ≤ 31) && isRead i

def doutRegLen (state : Nat) (i : McfgFsmIn) : Bool := decide (state = 16) && isRead i

def memWe (state : Nat) (i : McfgFsmIn) : Bool := decide (state = 31) && isWrite i

def oe (state : Nat) (i : McfgFsmIn) : Bool := decide (16 ≤ state ∧ state ≤ 32) && isRead i

end McfgFsm

/-! ## A register module -/

/-- A configuration memory, `marray32x16`. -/
abbrev Mem32x16 := BitVec 5 → BitVec 16

namespace Mem32x16

def write (mem : Mem32x16) (a : BitVec 5) (v : BitVec 16) : Mem32x16 := fun b => if b = a then v else mem b

theorem write_same (mem : Mem32x16) (a : BitVec 5) (v : BitVec 16) : mem.write a v a = v := if_pos rfl

theorem write_of_ne (mem : Mem32x16) {a b : BitVec 5} (h : b ≠ a) (v : BitVec 16) : mem.write a v b = mem b := if_neg h

end Mem32x16

/-- What tells one register module from another: its address, how its memory is written, the mux in front of `dout_reg`,
and what its memory captures on the rising edges on which `dout_reg_len` is low. -/
structure SpiModule (π : Type) where
  maddress : BitVec 10
  mimoEn : Bool
  store : Mem32x16 → BitVec 5 → BitVec 16 → Mem32x16
  doutMux : π → Mem32x16 → BitVec 5 → BitVec 16
  capture : π → Mem32x16 → Mem32x16

/-- The registers of a register module and the level of `sen`. -/
structure SpiSlave where
  sen : Bool
  state : Nat
  instReg : BitVec 16
  dinReg : BitVec 16
  doutReg : BitVec 16
  mem : Mem32x16

namespace SpiSlave

variable {π : Type}

def fsmIn (M : SpiModule π) (s : SpiSlave) : McfgFsmIn := ⟨M.maddress, M.mimoEn, s.instReg, s.sen⟩

/-- `inst_reg(4 downto 0)`. -/
def regAddr (s : SpiSlave) : BitVec 5 := s.instReg.extractLsb' 0 5

/-- A rising edge of `sclk`. -/
def rise (M : SpiModule π) (s : SpiSlave) (sdin : Bool) (pins : π) : SpiSlave :=
  let i := s.fsmIn M
  let written := if McfgFsm.memWe s.state i then M.store s.mem s.regAddr (s.dinReg.shiftConcat sdin) else s.mem
  { s with
    state := if s.sen then 0 else McfgFsm.nextState s.state
    instReg := if McfgFsm.instRegEn s.state i then s.instReg.shiftConcat sdin else s.instReg
    dinReg := if McfgFsm.dinRegEn s.state i then s.dinReg.shiftConcat sdin else s.dinReg
    mem := if McfgFsm.doutRegLen s.state i then written else M.capture pins written }

/-- A falling edge of `sclk`. -/
def fall (M : SpiModule π) (s : SpiSlave) (pins : π) : SpiSlave :=
  let i := s.fsmIn M
  { s with
    doutReg :=
      if McfgFsm.doutRegSen s.state i then s.doutReg.shiftConcat (s.doutReg.getLsbD 15)
      else if McfgFsm.doutRegLen s.state i then M.doutMux pins s.mem s.regAddr
      else s.doutReg }

/-- `sen` resets the state while it is high. -/
def enable (s : SpiSlave) (sen : Bool) : SpiSlave := { s with sen := sen, state := if sen then 0 else s.state }

def next (M : SpiModule π) (s : SpiSlave) : SerialEvent π → SpiSlave
  | .rise sdin pins => s.rise M sdin pins
  | .fall pins => s.fall M pins
  | .enable sen => s.enable sen

def run (M : SpiModule π) (s : SpiSlave) (es : List (SerialEvent π)) : SpiSlave := es.foldl (next M) s

def sdout (M : SpiModule π) (s : SpiSlave) : Bool := s.doutReg.getLsbD 15 && McfgFsm.oe s.state (s.fsmIn M)

end SpiSlave

/-! ## fpgacfg -/

/-- `BOARD_ID` of the revision package. -/
def boardId : BitVec 16 := 0x0010

def majorRev : Nat := 1

def compileRev : Nat := 7

structure ToFpgacfg where
  hwVer : BitVec 4
  bomVer : BitVec 4
  pwrSrc : Bool

def fpgacfg (maddress : BitVec 10) (mimoEn : Bool) : SpiModule ToFpgacfg :=
  { maddress := maddress
    mimoEn := mimoEn
    store := Mem32x16.write
    doutMux := fun pins mem a =>
      if a = 0b00000 then boardId
      else if a = 0b00001 then BitVec.ofNat 16 majorRev
      else if a = 0b00010 then 0#8 ++ BitVec.ofNat 8 compileRev
      else if a = 0b00011 then 0#7 ++ BitVec.ofBool pins.pwrSrc ++ pins.bomVer ++ pins.hwVer
      else mem a
    capture := fun _ mem => mem }

/-! ## pllcfg -/

structure ToPllcfg where
  pllcfgBusy : Bool
  pllcfgDone : Bool
  pllcfgErr : BitVec 8
  phcfgDone : Bool
  phcfgError : Bool
  pllLock : BitVec 16

namespace ToPllcfg

/-- What register 1 captures. -/
def status (pins : ToPllcfg) : BitVec 16 :=
  0#12 ++ BitVec.ofBool pins.phcfgError ++ BitVec.ofBool pins.phcfgDone ++ BitVec.ofBool pins.pllcfgBusy ++
    BitVec.ofBool pins.pllcfgDone

/-- What register 2 captures: the later assignment gives its upper half to `pllcfg_err`. -/
def lock (pins : ToPllcfg) : BitVec 16 := pins.pllcfgErr ++ pins.pllLock.extractLsb' 0 8

end ToPllcfg

def pllcfg (maddress : BitVec 10) (mimoEn : Bool) : SpiModule ToPllcfg :=
  { maddress := maddress
    mimoEn := mimoEn
    store := Mem32x16.write
    doutMux := fun _ mem a => mem a
    capture := fun pins mem => (mem.write 1 pins.status).write 2 pins.lock }

end LimeSdrQpcie
