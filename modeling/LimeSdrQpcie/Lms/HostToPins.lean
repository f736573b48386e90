import LimeSdrQpcie.Lms.Lms7002Tx
import LimeSdrQpcie.Tx.TxPath

/-!
# From the host to the transceiver

The transmit path and `lms7002_tx` behind it, on either side of the sample FIFO and on one clock. The FIFO is written
128 bits at a time and read 64 bits at a time, the lower half of a word first.
-/

namespace LimeSdrQpcie

open Hdl

structure HostToPins (nb : NBuff) where
  path : TxPath nb
  /-- The lower half of the oldest word of the sample FIFO has been read. -/
  halfRead : Bool
  tx : Lms7002Tx

/-- What comes from elsewhere at an edge of the transmit clock. What `path` says about reads and `tx` about arrivals
does not count: up to `knownMore` words become known to the reading side, of those written before the edge. -/
structure HostToPinsTxIn (nb : NBuff) where
  path : TxPathTxIn nb
  tx : Lms7002TxIn
  knownMore : Nat

/-- An edge of one of the three clocks. -/
inductive HostToPinsEdge (nb : NBuff) where
  | bus (i : TwoFifoWrIn)
  | rx (i : TxPathRxIn)
  | tx (i : HostToPinsTxIn nb)

def HostToPinsEdge.isTx {nb : NBuff} : HostToPinsEdge nb → Bool
  | .tx _ => true
  | .bus _ | .rx _ => false

/-- The cycles in which `lms7002_tx` already runs and the path and the FIFO are still in reset, with its inputs. -/
structure TxEarly where
  cycles : Nat
  tx : Nat → Lms7002TxIn

namespace HostToPins

variable {nb : NBuff}

/-- The words of 64 bits in the sample FIFO. -/
def unread (s : HostToPins nb) : List (BitVec 64) :=
  (s.path.smpl.smplFifo.store.flatMap halves).drop s.halfRead.toNat

def readWord (s : HostToPins nb) (i : HostToPinsTxIn nb) : Option (BitVec 64) :=
  if i.tx.txSrcSel = false then s.tx.readWord false else none

def pathIn (s : HostToPins nb) (i : HostToPinsTxIn nb) : TxPathTxIn nb :=
  { i.path with smplFifoRd := if (s.readWord i).isSome && s.halfRead then 1 else 0 }

def txIn (s : HostToPins nb) (i : HostToPinsTxIn nb) : Lms7002TxIn :=
  { i.tx with fifo0Come := (s.unread.drop s.tx.inst0.known.length).take i.knownMore }

def pathEdge (s : HostToPins nb) : HostToPinsEdge nb → TxPathEdge nb
  | .bus i => .bus i
  | .rx i => .rx i
  | .tx i => .tx (s.pathIn i)

def txEdge (s : HostToPins nb) : HostToPinsEdge nb → Option Lms7002TxIn
  | .bus _ | .rx _ => none
  | .tx i => some (s.txIn i)

/-- The word that is read from the sample FIFO at an edge. -/
def edgeWord (s : HostToPins nb) : HostToPinsEdge nb → Option (BitVec 64)
  | .bus _ | .rx _ => none
  | .tx i => s.readWord i

def next (sampleWidth : BitVec 2) (m : IqMode) (s : HostToPins nb) (e : HostToPinsEdge nb) : HostToPins nb :=
  { path := s.path.next sampleWidth (s.pathEdge e)
    halfRead := s.halfRead ^^ (s.edgeWord e).isSome
    tx := (s.txEdge e).elim s.tx (s.tx.next m) }

def reset (m : IqMode) (early : TxEarly) : HostToPins nb :=
  { path := TxPath.reset
    halfRead := false
    tx := (Lms7002Tx.circuit m).run (fun n => { early.tx n with fifo0Come := [] }) early.cycles }

def circuit (nb : NBuff) (sampleWidth : BitVec 2) (m : IqMode) (early : TxEarly) :
    Circuit (HostToPins nb) (HostToPinsEdge nb) :=
  ⟨reset m early, next sampleWidth m⟩

/-! ## The record of a run -/

/-- The cycle of the transmit clock at step `n`. -/
def cycle (early : TxEarly) (x : Nat → HostToPinsEdge nb) (n : Nat) : Nat :=
  early.cycles + count (fun k => (x k).isTx) n

variable (sampleWidth : BitVec 2) (m : IqMode) (early : TxEarly) (x : Nat → HostToPinsEdge nb)

/-- The run of the transmit path. -/
def pathEdges (n : Nat) : TxPathEdge nb := ((circuit nb sampleWidth m early).run x n).pathEdge (x n)

/-- The words of 64 bits that have been read from the sample FIFO before step `n`. -/
def read (n : Nat) : List (BitVec 64) :=
  words (fun k => ((circuit nb sampleWidth m early).run x k).edgeWord (x k)) n

/-- The word of a read slot in the cycle of step `n`. -/
def slot (n : Nat) : Option (BitVec 48) := ((circuit nb sampleWidth m early).run x n).tx.slot false

/-- All along the tests are off and the sample FIFO of the path is the source. -/
def FromHost (early : TxEarly) (x : Nat → HostToPinsEdge nb) : Prop :=
  (∀ c < early.cycles, (early.tx c).Plain) ∧ ∀ n i, x n = .tx i → i.tx.Plain

end HostToPins

end LimeSdrQpcie
