import LimeSdrQpcie.Lms.HostToPins

/-!
# A transceiver that sends back what it gets

Its digital loopback: the receive clock runs like the transmit clock, and every cycle comes back with the halves
exchanged, the high half of a cycle being the first one on the transmit side and the low half on the receive side.
-/

namespace LimeSdrQpcie

open Hdl

/-- What comes to the receive side: nothing for `wait` cycles of the receive clock, then the halves `p` of the transmit
clock from cycle `skip` on. -/
def echo (p : Nat → TxDiq) (wait skip n : Nat) : RxDiq :=
  if n < wait then ⟨Diq.zero, Diq.zero⟩ else ⟨(p (n - wait + skip)).diqL, (p (n - wait + skip)).diqH⟩

/-- `diq2fifo` behind it, with its test pattern off. -/
def echoIn (p : Nat → TxDiq) (wait skip n : Nat) : Diq2FifoIn := ⟨false, echo p wait skip n⟩

namespace HostToPins

variable {nb : NBuff} (sw : BitVec 2) (m : IqMode) (early : TxEarly) (x : Nat → HostToPinsEdge nb)

/-- The halves at the double data rate cells in each cycle of the transmit clock. -/
structure Diqs (p : Nat → TxDiq) : Prop where
  before : ∀ c < early.cycles,
    p c = ((Lms7002Tx.circuit m).run (fun k => { early.tx k with fifo0Come := [] }) c).diq
  since : ∀ n, p (cycle early x n) = ((circuit nb sw m early).run x n).tx.diq

/-- The transmit clock keeps running. -/
def TxClock (x : Nat → HostToPinsEdge nb) : Prop := ∀ n, ∃ k, n ≤ k ∧ (x k).isTx = true

end HostToPins

/-- The word of two pairs of samples. -/
def pairsWord (a b : BitVec 12 × BitVec 12) : BitVec 48 := fifoWord a.1 a.2 b.1 b.2

end LimeSdrQpcie
