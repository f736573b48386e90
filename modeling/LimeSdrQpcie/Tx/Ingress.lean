import LimeSdrQpcie.Pcie.TwoFifoInst
import LimeSdrQpcie.SyncReg
import LimeSdrQpcie.Tx.PctLog
import Mathlib.Data.List.ModifyLast

/-!
# The way of the packets to the writer

The `two_fifo_inst` of stream S0 on the bus clock and the reading side of it in `rxtx_top` on the transmit
clock: `inst1_in_pct_rdy` and `p2d_wr_fsm`. The stream stays open, its selector is at the TX path and `rx_en` is
high. Nothing is known about the two clocks: a run is any order of their edges.
-/

namespace LimeSdrQpcie

open Hdl

structure TxIngress (nb : NBuff) where
  /-- `sync_reg0` of `pcie_top`: `H2F_S0_0_sclrn` from `in_pct_reset_n_req`. -/
  syncReg0 : SyncReg Bool
  inst2 : TwoFifoInst
  inPctRdy : Bool
  wrFsm : P2dWrFsm nb

/-- What `p2d_wr_fsm` gets at an edge of the transmit clock from elsewhere. The count on the reading side may be
too small. -/
structure TxIngressIn (nb : NBuff) where
  pctSyncDis : Bool
  sampleNr : BitVec 64
  pctBuffRdy : Fin nb.n → Bool
  rdusedwAtMost : Nat

/-- A clock edge. -/
inductive Edge (nb : NBuff) where
  | bus (i : TwoFifoWrIn)
  | tx (i : TxIngressIn nb)

namespace TxIngress

variable {nb : NBuff}

/-- After reset the synchroniser still holds `H2F_S0_0_sclrn` low. -/
def reset : TxIngress nb := ⟨⟨false, false⟩, TwoFifoInst.reset, false, P2dWrFsm.reset⟩

def wrFsmIn (s : TxIngress nb) (i : TxIngressIn nb) : P2dWrFsmIn nb :=
  { pctSyncDis := i.pctSyncDis
    sampleNr := i.sampleNr
    inPctData := s.inst2.inst1Q
    inPctRdy := s.inPctRdy
    pctBuffRdy := i.pctBuffRdy }

/-- An edge of the bus clock. While `in_pct_reset_n_req` is low the synchroniser is cleared. -/
def busEdge (s : TxIngress nb) (i : TwoFifoWrIn) : TxIngress nb :=
  { s with
    syncReg0 := if s.wrFsm.inPctResetNReq then s.syncReg0.next true else ⟨false, false⟩
    inst2 := s.inst2.wrEdge s.syncReg0.syncOut i }

/-- An edge of the transmit clock. When `in_pct_reset_n_req` goes low it clears the synchroniser, and this the
second FIFO and the transfer, without waiting for an edge of the bus clock. -/
def txEdge (s : TxIngress nb) (i : TxIngressIn nb) : TxIngress nb :=
  let wrFsm := s.wrFsm.next (s.wrFsmIn i)
  let inst2 := s.inst2.rdEdge s.wrFsm.inPctRdreq
  { syncReg0 := if wrFsm.inPctResetNReq then s.syncReg0 else ⟨false, false⟩
    inst2 := if wrFsm.inPctResetNReq then inst2 else inst2.clear
    inPctRdy := if s.inst2.rdusedw i.rdusedwAtMost < 4096 * 8 / 128 then false else true
    wrFsm := wrFsm }

def next (s : TxIngress nb) : Edge nb → TxIngress nb
  | .bus i => s.busEdge i
  | .tx i => s.txEdge i

def circuit (nb : NBuff) : Circuit (TxIngress nb) (Edge nb) := ⟨reset, next⟩

/-- The word the host writes at an edge. -/
def hostWord (s : TxIngress nb) : Edge nb → Option (BitVec 32)
  | .bus i => s.inst2.hostWord i
  | .tx _ => none

end TxIngress

/-! ## The record of a run -/

/-- A packet whose header the writer has captured, and whether it was discarded. -/
structure CapPct where
  pct : TxPct
  discarded : Bool

namespace CapPct

/-- The words of the packet that the writer has taken. -/
def words (c : CapPct) : List (BitVec 128) := c.pct.hdr :: c.pct.data

/-- The captured packets after an edge of the transmit clock with `w` on `in_pct_data`. -/
def listNext {nb : NBuff} (s : P2dWrFsm nb) (w : BitVec 128) (l : List CapPct) : List CapPct :=
  if s.hdrWord then l ++ [⟨⟨w, []⟩, false⟩]
  else if s.dataWord then l.modifyLast fun c => { c with pct := c.pct.add w }
  else if s.currentState = .clrFifo then l.modifyLast fun c => { c with discarded := true }
  else l

end CapPct

namespace TxIngress

variable {nb : NBuff}

/-- The captured packets before step `n` of a run, in the order of their headers. -/
def captured (x : Nat → Edge nb) : Nat → List CapPct
  | 0 => []
  | n + 1 =>
      match x n with
      | .bus _ => captured x n
      | .tx _ => CapPct.listNext ((circuit nb).run x n).wrFsm ((circuit nb).run x n).inst2.inst1Q (captured x n)

/-- The host's words before step `n` of a run. -/
def host (x : Nat → Edge nb) (n : Nat) : List (BitVec 32) :=
  words (fun m => ((circuit nb).run x m).hostWord (x m)) n

end TxIngress

/-- Whole 128-bit words. -/
def quads : List (BitVec 32) → List (BitVec 128)
  | a :: b :: c :: d :: ws => word128 [a, b, c, d] :: quads ws
  | _ => []

/-- Packet `k` of a stream of packets of 4096 bytes. -/
def hostPct (ws : List (BitVec 32)) (k : Nat) : List (BitVec 128) := quads ((ws.drop (1024 * k)).take 1024)

end LimeSdrQpcie
