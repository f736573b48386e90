import LimeSdrQpcie.Hdl.Signal

/-!
# The transmit side of the digital IQ interface

`txiq` makes the two halves of a double data rate clock cycle of the words of the sample FIFO. The mode
settings do not change during a run; `iq_width` is 12.
-/

namespace LimeSdrQpcie

open Hdl

/-- The mode settings that both sides of the interface get. -/
structure IqMode where
  trxiqpulse : Bool
  ddrEn : Bool
  mimoEn : Bool
  chEn : BitVec 2
  fidm : Bool
  deriving DecidableEq, Repr

namespace IqMode

/-- The columns of the truth table of the modes: MIMO DDR with one or both channels. -/
def MimoDdr (m : IqMode) : Prop :=
  m.trxiqpulse = false ∧ m.ddrEn = true ∧ m.mimoEn = true ∧ (m.chEn = 0b01 ∨ m.chEn = 0b10 ∨ m.chEn = 0b11)

/-- TRXIQ pulse, where `ddr_en` does not matter. -/
def TrxiqPulse (m : IqMode) : Prop :=
  m.trxiqpulse = true ∧ m.mimoEn = true ∧ (m.chEn = 0b01 ∨ m.chEn = 0b10 ∨ m.chEn = 0b11)

/-- SISO DDR, where `ch_en` does not matter. -/
def SisoDdr (m : IqMode) : Prop := m.trxiqpulse = false ∧ m.ddrEn = true ∧ m.mimoEn = false

/-- Whether a word carries a sample of each channel. -/
def TwoChannels (m : IqMode) : Prop := m.mimoEn = true ∧ m.chEn = 0b11

end IqMode

/-- Half of a cycle on the interface: the frame bit, which is bit `iq_width`, and the sample below it. -/
structure Diq where
  fsync : Bool
  smpl : BitVec 12
  deriving DecidableEq, Repr

namespace Diq

def zero : Diq := ⟨false, 0⟩

end Diq

/-- Sample `k` of a FIFO word. -/
def diqSmpl (fifoQ : BitVec 48) (k : Nat) : BitVec 12 := fifoQ.extractLsb' (12 * k) 12

/-- The I/Q pairs of a FIFO word, in the order in which they are sent. -/
def iqPairs (w : BitVec 48) : List (BitVec 12 × BitVec 12) :=
  [(diqSmpl w 0, diqSmpl w 1), (diqSmpl w 2, diqSmpl w 3)]

/-! ## txiq -/

inductive TxiqState where
  | idle
  | rdSamples
  | zeroSamples
  | waitRdCycles
  deriving DecidableEq, Repr

structure Txiq where
  currentState : TxiqState
  rdWaitCnt : BitVec 4
  rdWaitCntMaxReg : BitVec 4
  intFifoQValid : Bool
  zeroValid : Bool
  txantEnReg : Bool
  diqLReg : Fin 4 → Diq
  diqHReg : Fin 4 → Diq

structure TxiqIn where
  en : Bool
  fifoRdempty : Bool
  fifoQ : BitVec 48

namespace Txiq

def reset : Txiq :=
  { currentState := .idle, rdWaitCnt := 0, rdWaitCntMaxReg := 0, intFifoQValid := false, zeroValid := false,
    txantEnReg := false, diqLReg := fun _ => Diq.zero, diqHReg := fun _ => Diq.zero }

/-- `"00"` for both channels and for SISO DDR, `"01"` for the first channel, `"10"` for the second one,
`"11"` for SISO SDR. -/
def intMode (m : IqMode) : BitVec 2 :=
  if (m.mimoEn = false ∧ m.ddrEn = true) ∨ ((m.mimoEn = true ∨ m.trxiqpulse = true) ∧ m.chEn = 0b11) then 0b00
  else if (m.mimoEn = true ∨ m.trxiqpulse = true) ∧ m.chEn = 0b01 then 0b01
  else if (m.mimoEn = true ∨ m.trxiqpulse = true) ∧ m.chEn = 0b10 then 0b10
  else 0b11

def muxFsyncH (m : IqMode) : BitVec 4 :=
  if m.mimoEn = false ∧ m.ddrEn = true ∧ m.trxiqpulse = false then 0b1111 else 0b0101

def muxFsyncL (m : IqMode) : BitVec 4 :=
  if (m.mimoEn = false ∧ m.ddrEn = true) ∨ m.trxiqpulse = true then 0b0000 else 0b0101

def intFsyncL (m : IqMode) : BitVec 4 := if m.fidm = false then ~~~ muxFsyncL m else muxFsyncL m

def intFsyncH (m : IqMode) : BitVec 4 := if m.fidm = false then ~~~ muxFsyncH m else muxFsyncH m

def muxPosH (intMode : BitVec 2) (fifoQ : BitVec 48) (pos : Fin 4) : BitVec 12 :=
  match pos with
  | 0 => if intMode = 0b10 then 0 else diqSmpl fifoQ 0
  | 1 =>
      if intMode = 0b00 then diqSmpl fifoQ 2
      else if intMode = 0b01 then 0
      else if intMode = 0b10 then diqSmpl fifoQ 0
      else diqSmpl fifoQ 1
  | 2 => if intMode.getLsbD 0 = false then 0 else diqSmpl fifoQ 2
  | 3 =>
      if intMode.getLsbD 1 = false then 0
      else if intMode = 0b10 then diqSmpl fifoQ 2
      else diqSmpl fifoQ 3

def muxPosL (intMode : BitVec 2) (fifoQ : BitVec 48) (pos : Fin 4) : BitVec 12 :=
  match pos with
  | 0 => if intMode = 0b11 then diqSmpl fifoQ 0 else if intMode = 0b10 then 0 else diqSmpl fifoQ 1
  | 1 =>
      if intMode = 0b00 then diqSmpl fifoQ 3
      else if intMode = 0b01 then 0
      else diqSmpl fifoQ 1
  | 2 =>
      if intMode.getLsbD 0 = false then 0
      else if intMode = 0b01 then diqSmpl fifoQ 3
      else diqSmpl fifoQ 2
  | 3 => if intMode.getLsbD 1 = false then 0 else diqSmpl fifoQ 3

def rdWaitCntMax (m : IqMode) : BitVec 4 :=
  if intMode m = 0b00 then 0b0000 else if intMode m = 0b11 then 0b0010 else 0b0010

def nextState (s : Txiq) (i : TxiqIn) : TxiqState :=
  match s.currentState with
  | .idle =>
      if i.en = true then
        if i.fifoRdempty = false then .rdSamples else .zeroSamples
      else .idle
  | .rdSamples => .waitRdCycles
  | .waitRdCycles =>
      if s.rdWaitCnt = s.rdWaitCntMaxReg then
        if i.fifoRdempty = false ∧ i.en = true then .rdSamples
        else if i.fifoRdempty = true ∧ i.en = true then .zeroSamples
        else .idle
      else .waitRdCycles
  | .zeroSamples => .waitRdCycles

def intFifoRdreq (s : Txiq) : Bool := decide (s.currentState = .rdSamples)

/-- `fifo_rdreq`: the FIFO is not read while it is empty. -/
def fifoRdreq (s : Txiq) (fifoRdempty : Bool) : Bool := s.intFifoRdreq && !fifoRdempty

/-- Four positions with their frame bits. -/
def positions (fsync : BitVec 4) (mux : Fin 4 → BitVec 12) : Fin 4 → Diq :=
  fun pos => ⟨fsync.getLsbD pos, mux pos⟩

/-- A register array in a cycle that does not load it. -/
def shifted (reg : Fin 4 → Diq) : Fin 4 → Diq
  | 0 => reg 1
  | 1 => reg 2
  | 2 => reg 3
  | 3 => Diq.zero

/-- `diq_L_reg_x_proc` and `diq_H_reg_x_proc`, which differ in the frame bits and the muxes only. -/
def nextReg (s : Txiq) (fsync : BitVec 4) (mux : Fin 4 → BitVec 12) (reg : Fin 4 → Diq) : Fin 4 → Diq :=
  if s.intFifoQValid then positions fsync mux
  else if s.zeroValid then positions fsync (fun _ => 0)
  else shifted reg

def next (m : IqMode) (s : Txiq) (i : TxiqIn) : Txiq :=
  { currentState := s.nextState i
    rdWaitCnt := if s.currentState = .waitRdCycles then s.rdWaitCnt + 1 else 0
    rdWaitCntMaxReg := rdWaitCntMax m
    intFifoQValid := s.intFifoRdreq
    zeroValid := decide (s.currentState = .zeroSamples)
    txantEnReg :=
      if s.currentState = .idle ∨ s.currentState = .zeroSamples then false
      else if s.currentState = .rdSamples then true
      else s.txantEnReg
    diqLReg := s.nextReg (intFsyncL m) (muxPosL (intMode m) i.fifoQ) s.diqLReg
    diqHReg := s.nextReg (intFsyncH m) (muxPosH (intMode m) i.fifoQ) s.diqHReg }

def diqL (s : Txiq) : Diq := s.diqLReg 0

def diqH (s : Txiq) : Diq := s.diqHReg 0

end Txiq

end LimeSdrQpcie
