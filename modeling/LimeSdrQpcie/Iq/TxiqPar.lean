import LimeSdrQpcie.Hdl.Signal

/-!
# The sample former of the DACs

`txiq_par` reads the sample FIFO of `dac5672_top` and puts the samples on four parallel buses, the first two of
channel A and the last two of channel B. The settings do not change during a run. `iq_width` is a generic.
-/

namespace LimeSdrQpcie

open Hdl

/-! ## txiq_par -/

structure TxiqParMode where
  chEn : BitVec 2
  fidm : Bool
  deriving DecidableEq, Repr

inductive TxiqParState where
  | idle
  | rdSamples
  | waitRdCycles
  deriving DecidableEq, Repr

structure TxiqPar (iqWidth : Nat) where
  currentState : TxiqParState
  /-- `fifo_q_valid_latency` is 1, so that the pipe has three bits. -/
  enPipe : BitVec 3
  diqReg0 : Fin 4 → BitVec (iqWidth + 1)
  diqReg1 : Fin 4 → BitVec (iqWidth + 1)

structure TxiqParIn (iqWidth : Nat) where
  en : Bool
  fifoRdempty : Bool
  fifoQValid : Bool
  fifoQ : BitVec (4 * iqWidth)

namespace TxiqPar

variable {iqWidth : Nat}

/-- `reset_n` does not reach the DIQ registers, which come up as zero. -/
def reset : TxiqPar iqWidth := ⟨.idle, 0, fun _ => 0, fun _ => 0⟩

def diqSmpl (fifoQ : BitVec (4 * iqWidth)) (k : Nat) : BitVec iqWidth := fifoQ.extractLsb' (k * iqWidth) iqWidth

def intMode (m : TxiqParMode) : BitVec 2 :=
  if m.chEn = 0b00 then 0b00 else if m.chEn = 0b01 then 0b01 else if m.chEn = 0b10 then 0b10 else 0b11

/-- `DIQx_mux_0`. -/
def diqMux0 (m : TxiqParMode) (fifoQ : BitVec (4 * iqWidth)) : Fin 4 → BitVec iqWidth
  | 0 => diqSmpl fifoQ 0
  | 1 => diqSmpl fifoQ 1
  | 2 => if intMode m = 0b11 then diqSmpl fifoQ 2 else diqSmpl fifoQ 0
  | 3 => if intMode m = 0b11 then diqSmpl fifoQ 3 else diqSmpl fifoQ 1

/-- `DIQx_mux_1`. -/
def diqMux1 (fifoQ : BitVec (4 * iqWidth)) : Fin 4 → BitVec iqWidth
  | 0 => diqSmpl fifoQ 2
  | 1 => diqSmpl fifoQ 3
  | 2 => diqSmpl fifoQ 2
  | 3 => diqSmpl fifoQ 3

/-- `mux_fsync_A` on the buses of channel A, `mux_fsync_B` on those of channel B. -/
def muxFsync (m : TxiqParMode) : Fin 4 → Bool
  | 0 | 1 => m.fidm
  | 2 | 3 => !m.fidm

/-- `DIQx_reg_reset_n`, which resets without a clock. -/
def diqRegResetN (m : TxiqParMode) : Fin 4 → Bool
  | 0 | 1 => m.chEn.getLsbD 0
  | 2 | 3 => m.chEn.getLsbD 1

def nextState (m : TxiqParMode) (s : TxiqPar iqWidth) (i : TxiqParIn iqWidth) : TxiqParState :=
  match s.currentState with
  | .idle => if i.fifoRdempty = false ∧ i.en = true then .rdSamples else .idle
  | .rdSamples => if m.chEn ≠ 0b11 then .waitRdCycles else .rdSamples
  | .waitRdCycles =>
      if i.en = true then (if i.fifoRdempty = false then .rdSamples else .idle) else .waitRdCycles

/-- `fifo_rdreq`: the FIFO is not read while it is empty. -/
def fifoRdreq (s : TxiqPar iqWidth) (en fifoRdempty : Bool) : Bool :=
  decide (s.currentState = .rdSamples) && en && !fifoRdempty

/-- `DIQx_reg_0` and `DIQx_reg_1` after the clock edge: the processes of the four buses differ in the frame
bits and the muxes only. -/
def nextReg (m : TxiqParMode) (s : TxiqPar iqWidth) (i : TxiqParIn iqWidth) (k : Fin 4) :
    BitVec (iqWidth + 1) × BitVec (iqWidth + 1) :=
  if diqRegResetN m k = false then (0, 0)
  else if i.fifoQValid then
    (BitVec.cons (muxFsync m k) (diqMux0 m i.fifoQ k), BitVec.cons (muxFsync m k) (diqMux1 i.fifoQ k))
  else if s.enPipe.getLsbD 1 then (s.diqReg1 k, 0)
  else (s.diqReg0 k, s.diqReg1 k)

def next (m : TxiqParMode) (s : TxiqPar iqWidth) (i : TxiqParIn iqWidth) : TxiqPar iqWidth :=
  { currentState := if i.en then s.nextState m i else s.currentState
    enPipe := s.enPipe.shiftConcat i.en
    diqReg0 := fun k => (s.nextReg m i k).1
    diqReg1 := fun k => (s.nextReg m i k).2 }

/-- `DIQ0` to `DIQ3`. -/
def diq (s : TxiqPar iqWidth) (k : Fin 4) : BitVec (iqWidth + 1) := s.diqReg0 k

end TxiqPar

/-! ## dac5672_top -/

/-- `inst3_txiq_par` and the sample FIFO that `tx_src_sel` selects. -/
structure Dac5672Top (iqWidth : Nat) where
  inst3 : TxiqPar iqWidth
  inst3FifoQValid : Bool
  /-- How many words have been read from the FIFO. -/
  rdCnt : Nat
  /-- The output of the FIFO, which is not a show-ahead one. -/
  q : BitVec 64

/-- One cycle: the enable and the empty flag of the FIFO. -/
structure Dac5672TopIn where
  en : Bool
  rdempty : Bool

/-- Sample `k` of a FIFO word, which stands in the most significant bits of its 16. -/
def dacSmpl (iqWidth : Nat) (q : BitVec 64) (k : Nat) : BitVec iqWidth :=
  q.extractLsb' (16 * k + 16 - iqWidth) iqWidth

namespace Dac5672Top

variable {iqWidth : Nat}

def inst3FifoQ (q : BitVec 64) : BitVec (4 * iqWidth) :=
  (dacSmpl iqWidth q 3 ++ dacSmpl iqWidth q 2 ++ dacSmpl iqWidth q 1 ++ dacSmpl iqWidth q 0).cast (by omega)

def reset : Dac5672Top iqWidth := ⟨TxiqPar.reset, false, 0, 0⟩

def inst3FifoRdreq (s : Dac5672Top iqWidth) (i : Dac5672TopIn) : Bool := s.inst3.fifoRdreq i.en i.rdempty

/-- The word that is read; `fifo k` is word `k` of the FIFO. -/
def read (fifo : Nat → BitVec 64) (s : Dac5672Top iqWidth) (i : Dac5672TopIn) : Option (BitVec 64) :=
  if s.inst3FifoRdreq i then some (fifo s.rdCnt) else none

def next (m : TxiqParMode) (fifo : Nat → BitVec 64) (s : Dac5672Top iqWidth) (i : Dac5672TopIn) :
    Dac5672Top iqWidth :=
  { inst3 := s.inst3.next m ⟨i.en, i.rdempty, s.inst3FifoQValid, inst3FifoQ s.q⟩
    inst3FifoQValid := s.inst3FifoRdreq i
    rdCnt := s.rdCnt + (s.inst3FifoRdreq i).toNat
    q := (s.read fifo i).getD s.q }

def circuit (iqWidth : Nat) (m : TxiqParMode) (fifo : Nat → BitVec 64) :
    Circuit (Dac5672Top iqWidth) Dac5672TopIn := ⟨reset, next m fifo⟩

end Dac5672Top

end LimeSdrQpcie
