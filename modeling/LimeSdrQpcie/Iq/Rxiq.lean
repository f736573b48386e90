import LimeSdrQpcie.Iq.Txiq

/-!
# The receive side of the digital IQ interface

`rxiq` with the captures of all its modes. Every level has registered outputs and holds the instances below it
that the mode does not use in reset.
-/

namespace LimeSdrQpcie

open Hdl

/-- The two halves of a cycle on the receive side. -/
structure RxDiq where
  diqH : Diq
  diqL : Diq

/-- A FIFO word of the samples in its four positions, the lowest first. -/
def fifoWord (pos0 pos1 pos2 pos3 : BitVec 12) : BitVec 48 := pos3 ++ pos2 ++ pos1 ++ pos0

/-! ## rxiq_mimo_ddr and rxiq_pulse_ddr -/

inductive RxiqState where
  | idle
  | chA0Cap
  | chA1Cap
  | chB0Cap
  | chB1Cap
  deriving DecidableEq, Repr

/-- What tells `rxiq_mimo_ddr` and `rxiq_pulse_ddr` from each other. -/
structure RxiqDdrKind where
  /-- `diq_valid`, from the frame bits in `reg_h_0`, `reg_l_0`, `DIQ_h` and `DIQ_l`. -/
  diqValid : Bool → Bool → Bool → Bool → Bool
  /-- The half whose frame bit `diq_chB_1_reg_proc` looks at. -/
  chB1Half : RxDiq → Diq

def rxiqMimoDdr : RxiqDdrKind :=
  { diqValid := fun regH regL diqH diqL => (regH ^^ diqH) && !(diqH ^^ diqL) && (regL ^^ diqL)
    chB1Half := RxDiq.diqH }

def rxiqPulseDdr : RxiqDdrKind :=
  { diqValid := fun regH regL diqH diqL => (regH && diqH) && (regL ^^ diqL)
    chB1Half := RxDiq.diqL }

/-- The registers of a capture process: the samples of the low and of the high half, and whether they are new. -/
structure DiqCap where
  posL : BitVec 12
  posH : BitVec 12
  cap : Bool
  deriving DecidableEq, Repr

namespace DiqCap

def reset : DiqCap := ⟨0, 0, false⟩

def next (s : DiqCap) (en : Bool) (i : RxDiq) : DiqCap :=
  if en then ⟨i.diqL.smpl, i.diqH.smpl, true⟩ else { s with cap := false }

end DiqCap

structure RxiqDdr where
  regH0 : Diq
  regL0 : Diq
  currentState : RxiqState
  chA0 : DiqCap
  chA1 : DiqCap
  chB0 : DiqCap
  chB1 : DiqCap
  fifoWrReg : Port (BitVec 48)

namespace RxiqDdr

def reset : RxiqDdr :=
  { regH0 := Diq.zero, regL0 := Diq.zero, currentState := .idle, chA0 := DiqCap.reset, chA1 := DiqCap.reset,
    chB0 := DiqCap.reset, chB1 := DiqCap.reset, fifoWrReg := ⟨false, 0⟩ }

def diqValid (kind : RxiqDdrKind) (s : RxiqDdr) (i : RxDiq) : Bool :=
  kind.diqValid s.regH0.fsync s.regL0.fsync i.diqH.fsync i.diqL.fsync

def nextState (chEn : BitVec 2) (s : RxiqDdr) (diqValid : Bool) : RxiqState :=
  match s.currentState with
  | .idle =>
      if diqValid then
        if chEn.getLsbD 0 then .chA0Cap else .chB0Cap
      else .idle
  | .chA0Cap =>
      if s.chA0.cap then
        if chEn.getLsbD 1 = false then .chA1Cap else .chB0Cap
      else .chA0Cap
  | .chA1Cap =>
      if diqValid then
        if s.chA1.cap then .chA0Cap else .chA1Cap
      else .idle
  | .chB0Cap =>
      if s.chB0.cap then
        if chEn.getLsbD 0 = false then .chB1Cap else .chA0Cap
      else .chB0Cap
  | .chB1Cap =>
      if diqValid then
        if s.chB1.cap then .chB0Cap else .chB1Cap
      else .idle

def chA0CapEn (chEn : BitVec 2) (s : RxiqDdr) : Bool := decide (s.currentState = .chA0Cap ∨ chEn = 0b11)

def chA1CapEn (s : RxiqDdr) : Bool := decide (s.currentState = .chA1Cap)

def chB0CapEn (chEn : BitVec 2) (s : RxiqDdr) : Bool :=
  decide (s.currentState = .chB0Cap ∨ (chEn = 0b11 ∧ s.chA0.cap = true))

def chB1CapEn (s : RxiqDdr) : Bool := decide (s.currentState = .chB1Cap)

/-- `chA_data` with `chA_data_valid`. -/
def chAData (s : RxiqDdr) : Port (BitVec 48) :=
  ⟨s.chA1.cap, fifoWord s.chA0.posL s.chA0.posH s.chA1.posL s.chA1.posH⟩

/-- `chB_data` with `chB_data_valid`. -/
def chBData (s : RxiqDdr) : Port (BitVec 48) :=
  ⟨s.chB1.cap, fifoWord s.chB0.posL s.chB0.posH s.chB1.posL s.chB1.posH⟩

/-- `chAB_data` with `chAB_data_valid`. -/
def chABData (s : RxiqDdr) : Port (BitVec 48) :=
  ⟨s.chB0.cap, fifoWord s.chA0.posL s.chA0.posH s.chB0.posL s.chB0.posH⟩

def muxFifoWr (chEn : BitVec 2) (s : RxiqDdr) : Port (BitVec 48) :=
  if chEn = 0b11 then s.chABData else if chEn = 0b10 then s.chBData else s.chAData

def next (kind : RxiqDdrKind) (m : IqMode) (s : RxiqDdr) (i : RxDiq) : RxiqDdr :=
  let valid := s.diqValid kind i
  { regH0 := i.diqH
    regL0 := i.diqL
    currentState := s.nextState m.chEn valid
    chA0 := s.chA0.next (i.diqL.fsync == m.fidm && valid && s.chA0CapEn m.chEn) i
    chA1 := s.chA1.next (i.diqL.fsync == m.fidm && valid && s.chA1CapEn) i
    chB0 := s.chB0.next (i.diqL.fsync == !m.fidm && valid && s.chB0CapEn m.chEn) i
    chB1 := s.chB1.next ((kind.chB1Half i).fsync == !m.fidm && valid && s.chB1CapEn) i
    fifoWrReg := s.muxFifoWr m.chEn }

def circuit (kind : RxiqDdrKind) (m : IqMode) : Circuit RxiqDdr RxDiq := ⟨reset, next kind m⟩

end RxiqDdr

/-! ## rxiq_siso_ddr -/

structure RxiqSisoDdr where
  regH0 : Diq
  regL0 : Diq
  pos01CapEn : Bool
  pos0 : BitVec 12
  pos1 : BitVec 12
  pos2 : BitVec 12
  pos3 : BitVec 12
  fifoDataValid : Bool

namespace RxiqSisoDdr

def reset : RxiqSisoDdr :=
  { regH0 := Diq.zero, regL0 := Diq.zero, pos01CapEn := false, pos0 := 0, pos1 := 0, pos2 := 0, pos3 := 0,
    fifoDataValid := false }

def diqValid (s : RxiqSisoDdr) (i : RxDiq) : Bool :=
  !(s.regH0.fsync ^^ i.diqH.fsync) && (i.diqH.fsync ^^ i.diqL.fsync) && !(s.regL0.fsync ^^ i.diqL.fsync)

def next (m : IqMode) (s : RxiqSisoDdr) (i : RxDiq) : RxiqSisoDdr :=
  let valid := s.diqValid i
  { regH0 := i.diqH
    regL0 := i.diqL
    pos01CapEn := if valid then !s.pos01CapEn else s.pos01CapEn
    pos0 := if i.diqL.fsync == m.fidm && valid && !s.pos01CapEn then i.diqL.smpl else s.pos0
    pos1 := if i.diqH.fsync == !m.fidm && valid && !s.pos01CapEn then i.diqH.smpl else s.pos1
    pos2 := if i.diqL.fsync == m.fidm && valid && s.pos01CapEn then i.diqL.smpl else s.pos2
    pos3 := if i.diqH.fsync == !m.fidm && valid && s.pos01CapEn then i.diqH.smpl else s.pos3
    fifoDataValid := s.pos01CapEn }

def circuit (m : IqMode) : Circuit RxiqSisoDdr RxDiq := ⟨reset, next m⟩

/-- `fifo_data` with `fifo_data_valid`. -/
def fifoData (s : RxiqSisoDdr) : Port (BitVec 48) := ⟨s.fifoDataValid, fifoWord s.pos0 s.pos1 s.pos2 s.pos3⟩

end RxiqSisoDdr

/-! ## rxiq_siso_sdr -/

structure RxiqSisoSdr where
  sdrReg0 : Diq
  pos0 : BitVec 12
  pos1 : BitVec 12
  pos2 : BitVec 12
  pos3 : BitVec 12
  pos1CapEn : Bool
  pos2CapEn : Bool
  pos3CapEn : Bool
  sdrFifoDataValid : Bool

namespace RxiqSisoSdr

def reset : RxiqSisoSdr :=
  { sdrReg0 := Diq.zero, pos0 := 0, pos1 := 0, pos2 := 0, pos3 := 0, pos1CapEn := false, pos2CapEn := false,
    pos3CapEn := false, sdrFifoDataValid := false }

def next (m : IqMode) (s : RxiqSisoSdr) (i : RxDiq) : RxiqSisoSdr :=
  let valid := s.sdrReg0.fsync ^^ i.diqL.fsync
  let pos0CapEn := !(s.pos1CapEn || s.pos2CapEn)
  let cap0 := i.diqL.fsync == m.fidm && valid && pos0CapEn
  let cap1 := i.diqL.fsync == !m.fidm && valid && s.pos1CapEn
  let cap2 := i.diqL.fsync == m.fidm && valid && s.pos2CapEn
  let cap3 := i.diqL.fsync == !m.fidm && valid && s.pos3CapEn
  { sdrReg0 := i.diqL
    pos0 := if cap0 then i.diqL.smpl else s.pos0
    pos1 := if cap1 then i.diqL.smpl else s.pos1
    pos2 := if cap2 then i.diqL.smpl else s.pos2
    pos3 := if cap3 then i.diqL.smpl else s.pos3
    pos1CapEn := cap0
    pos2CapEn := cap1
    pos3CapEn := cap2
    sdrFifoDataValid := s.pos3CapEn }

/-- `sdr_fifo_data` with `sdr_fifo_data_valid`. -/
def sdrFifoData (s : RxiqSisoSdr) : Port (BitVec 48) :=
  ⟨s.sdrFifoDataValid, fifoWord s.pos0 s.pos1 s.pos2 s.pos3⟩

end RxiqSisoSdr

/-! ## rxiq_mimo, rxiq_siso and rxiq -/

/-- A write port: the FIFO takes no word while it is full. -/
def fifoWr (reg : Port (BitVec 48)) (fifoWfull : Bool) : Port (BitVec 48) := ⟨reg.valid && !fifoWfull, reg.data⟩

structure RxiqIn where
  diq : RxDiq
  fifoWfull : Bool

structure RxiqMimo where
  inst0ResetN : Bool
  inst1ResetN : Bool
  inst0 : RxiqDdr
  inst1 : RxiqDdr
  fifoWrReg : Port (BitVec 48)

namespace RxiqMimo

def reset : RxiqMimo := ⟨false, false, RxiqDdr.reset, RxiqDdr.reset, ⟨false, 0⟩⟩

def muxFifoWr (m : IqMode) (s : RxiqMimo) (fifoWfull : Bool) : Port (BitVec 48) :=
  if m.trxiqpulse = false then fifoWr s.inst0.fifoWrReg fifoWfull else fifoWr s.inst1.fifoWrReg fifoWfull

def next (m : IqMode) (s : RxiqMimo) (i : RxiqIn) : RxiqMimo :=
  { inst0ResetN := decide (m.trxiqpulse = false)
    inst1ResetN := decide (m.trxiqpulse = true)
    inst0 := if s.inst0ResetN then s.inst0.next rxiqMimoDdr m i.diq else RxiqDdr.reset
    inst1 := if s.inst1ResetN then s.inst1.next rxiqPulseDdr m i.diq else RxiqDdr.reset
    fifoWrReg := s.muxFifoWr m i.fifoWfull }

def circuit (m : IqMode) : Circuit RxiqMimo RxiqIn := ⟨reset, next m⟩

end RxiqMimo

structure RxiqSiso where
  inst0ResetN : Bool
  inst1ResetN : Bool
  inst0 : RxiqSisoSdr
  inst1 : RxiqSisoDdr
  fifoWrReg : Port (BitVec 48)

namespace RxiqSiso

def reset : RxiqSiso := ⟨false, false, RxiqSisoSdr.reset, RxiqSisoDdr.reset, ⟨false, 0⟩⟩

def muxFifoWr (m : IqMode) (s : RxiqSiso) (fifoWfull : Bool) : Port (BitVec 48) :=
  if m.ddrEn = false then fifoWr s.inst0.sdrFifoData fifoWfull else fifoWr s.inst1.fifoData fifoWfull

def next (m : IqMode) (s : RxiqSiso) (i : RxiqIn) : RxiqSiso :=
  { inst0ResetN := decide (m.ddrEn = false)
    inst1ResetN := decide (m.ddrEn = true)
    inst0 := if s.inst0ResetN then s.inst0.next m i.diq else RxiqSisoSdr.reset
    inst1 := if s.inst1ResetN then s.inst1.next m i.diq else RxiqSisoDdr.reset
    fifoWrReg := s.muxFifoWr m i.fifoWfull }

def circuit (m : IqMode) : Circuit RxiqSiso RxiqIn := ⟨reset, next m⟩

end RxiqSiso

structure Rxiq where
  inst0ResetN : Bool
  inst1ResetN : Bool
  inst0 : RxiqSiso
  inst1 : RxiqMimo
  fifoWrReg : Port (BitVec 48)

namespace Rxiq

def reset : Rxiq := ⟨false, false, RxiqSiso.reset, RxiqMimo.reset, ⟨false, 0⟩⟩

def muxFifoWr (m : IqMode) (s : Rxiq) (fifoWfull : Bool) : Port (BitVec 48) :=
  if m.mimoEn = false then fifoWr s.inst0.fifoWrReg fifoWfull else fifoWr s.inst1.fifoWrReg fifoWfull

def next (m : IqMode) (s : Rxiq) (i : RxiqIn) : Rxiq :=
  { inst0ResetN := decide (m.mimoEn = false)
    inst1ResetN := decide (m.mimoEn = true)
    inst0 := if s.inst0ResetN then s.inst0.next m i else RxiqSiso.reset
    inst1 := if s.inst1ResetN then s.inst1.next m i else RxiqMimo.reset
    fifoWrReg := s.muxFifoWr m i.fifoWfull }

def circuit (m : IqMode) : Circuit Rxiq RxiqIn := ⟨reset, next m⟩

/-- The write port of the receive FIFO. -/
def fifoWr (s : Rxiq) (fifoWfull : Bool) : Port (BitVec 48) := LimeSdrQpcie.fifoWr s.fifoWrReg fifoWfull

end Rxiq

/-! ## The loop -/

/-- `txiq` behind the read side of its FIFO, its halves exchanged on the way to `rxiq`: the high half of a cycle
comes first on the transmit side and the low half on the receive side. -/
structure IqLoop where
  /-- The words the read side of the FIFO sees, the oldest first. -/
  txFifo : List (BitVec 48)
  fifoQ : BitVec 48
  txiq : Txiq
  rxiq : Rxiq

/-- What a cycle brings: the words that come to the read side of the transmit FIFO, and whether the receive FIFO
is full. -/
structure IqLoopIn where
  txFifoCome : List (BitVec 48)
  rxFifoWfull : Bool

namespace IqLoop

def reset (txFifo : List (BitVec 48)) : IqLoop := ⟨txFifo, 0, Txiq.reset, Rxiq.reset⟩

def txFifoRdempty (s : IqLoop) : Bool := s.txFifo.isEmpty

def txFifoRdreq (s : IqLoop) : Bool := s.txiq.fifoRdreq s.txFifoRdempty

def rxDiq (s : IqLoop) : RxDiq := { diqH := s.txiq.diqL, diqL := s.txiq.diqH }

def next (m : IqMode) (s : IqLoop) (i : IqLoopIn) : IqLoop :=
  { txFifo := (if s.txFifoRdreq then s.txFifo.tail else s.txFifo) ++ i.txFifoCome
    fifoQ := if s.txFifoRdreq then s.txFifo.headD s.fifoQ else s.fifoQ
    txiq := s.txiq.next m { en := true, fifoRdempty := s.txFifoRdempty, fifoQ := s.fifoQ }
    rxiq := s.rxiq.next m { diq := s.rxDiq, fifoWfull := i.rxFifoWfull } }

def circuit (m : IqMode) (txFifo : List (BitVec 48)) : Circuit IqLoop IqLoopIn := ⟨reset txFifo, next m⟩

/-- The word of a read slot: the one read from the FIFO, or zero when the slot found it empty. -/
def slot (s : IqLoop) : Option (BitVec 48) :=
  if s.txFifoRdreq then s.txFifo.head?
  else if s.txiq.currentState = .zeroSamples then some 0
  else none

/-- The word the receive FIFO takes. -/
def rxWord (s : IqLoop) (i : IqLoopIn) : Option (BitVec 48) := (s.rxiq.fifoWr i.rxFifoWfull).word

end IqLoop

end LimeSdrQpcie
