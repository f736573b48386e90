import LimeSdrQpcie.Tx.PctLog

/-!
# The sample FIFO of the transmit path

`packets2data_top` on the write side of the sample FIFO of `lms7002_tx`: 256 words of 128 bits.
-/

namespace LimeSdrQpcie

open Hdl

structure TxSmplFifo (nb : NBuff) where
  top : Packets2DataTop nb
  smplFifo : Fifo (BitVec 128) 256

/-- Inputs of a cycle. `smplFifoRd` words leave the sample FIFO; its write side may count more words than there
are, but not fewer. -/
structure TxSmplFifoIn (nb : NBuff) where
  pctSyncDis : Bool
  sampleNr : BitVec 64
  inPctData : BitVec 128
  inPctRdy : Bool
  instxWremptyLate : Fin nb.n → Bool
  instxRdusedwAtMost : Fin nb.n → Nat
  smplFifoRd : Nat
  smplFifoWrusedwAtLeast : Nat

namespace TxSmplFifo

variable {nb : NBuff}

def reset : TxSmplFifo nb := ⟨Packets2DataTop.reset, Fifo.empty⟩

def topIn (s : TxSmplFifo nb) (i : TxSmplFifoIn nb) : Packets2DataTopIn nb :=
  { pctSyncDis := i.pctSyncDis
    sampleNr := i.sampleNr
    inPctData := i.inPctData
    inPctRdy := i.inPctRdy
    smplFifoWrusedw := max i.smplFifoWrusedwAtLeast s.smplFifo.usedw
    instxWremptyLate := i.instxWremptyLate
    instxRdusedwAtMost := i.instxRdusedwAtMost }

def next (sampleWidth : BitVec 2) (s : TxSmplFifo nb) (i : TxSmplFifoIn nb) : TxSmplFifo nb :=
  { top := s.top.next sampleWidth (s.topIn i)
    smplFifo := s.smplFifo.next s.top.smplFifoWr.word i.smplFifoRd }

def circuit (nb : NBuff) (sampleWidth : BitVec 2) : Circuit (TxSmplFifo nb) (TxSmplFifoIn nb) :=
  ⟨reset, next sampleWidth⟩

/-- What `packets2data` gets in a cycle of a run. -/
def inst0In (sampleWidth : BitVec 2) (x : Nat → TxSmplFifoIn nb) (n : Nat) : Packets2DataIn nb :=
  ((circuit nb sampleWidth).run x n).top.inst0In (((circuit nb sampleWidth).run x n).topIn (x n))

end TxSmplFifo

end LimeSdrQpcie
