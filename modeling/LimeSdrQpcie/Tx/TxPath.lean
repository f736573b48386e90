import LimeSdrQpcie.Tx.Ingress
import LimeSdrQpcie.Tx.SmplFifo

/-!
# The whole transmit path

From the words of the host on stream S0 to the sample FIFO of `lms7002_tx`: `two_fifo_inst` on the bus clock,
`inst1_in_pct_rdy` of `rxtx_top` and `tx_path_top` on the transmit clock. The sample number that the packets wait for
comes from the receive clock through `sync_fifo_rw`. A run is any order of the edges of the three clocks.
-/

namespace LimeSdrQpcie

open Hdl

/-! ## sync_fifo_rw -/

/-- The FIFO has 256 words. -/
structure SyncFifoRw where
  rdreq : Bool
  fifo : Fifo (BitVec 64) 256
  syncQ : BitVec 64

namespace SyncFifoRw

def reset : SyncFifoRw := ⟨false, Fifo.empty, 0⟩

/-- An edge of `wclk`. The full flag may stay up late. -/
def wrEdge (s : SyncFifoRw) (syncEn wrfullLate : Bool) (syncData : BitVec 64) : SyncFifoRw :=
  { s with fifo := s.fifo.next (if syncEn && !wrfullLate then some syncData else none) 0 }

/-- The empty flag on the reading side may stay up late. -/
def rdempty (s : SyncFifoRw) (late : Bool) : Bool := s.fifo.usedw == 0 || late

/-- An edge of `rclk`. An empty FIFO is not read and keeps its output. -/
def rdEdge (s : SyncFifoRw) (rdemptyLate : Bool) : SyncFifoRw :=
  let rd := s.rdreq && !s.rdempty rdemptyLate
  { rdreq := if s.rdempty rdemptyLate = false then true else false
    fifo := s.fifo.next none (if rd then 1 else 0)
    syncQ := if rd then s.fifo.store.head?.getD s.syncQ else s.syncQ }

end SyncFifoRw

/-! ## The path -/

structure TxPath (nb : NBuff) where
  /-- `sync_reg0` of `tx_path_top`: `en` on the receive clock. -/
  enSyncRxSampleClk : SyncReg Bool
  syncFifoRw : SyncFifoRw
  /-- `sync_reg0` of `pcie_top`: `H2F_S0_0_sclrn` from `in_pct_reset_n_req`. -/
  syncReg0 : SyncReg Bool
  inst2 : TwoFifoInst
  inPctRdy : Bool
  /-- `packets2data_top` and the sample FIFO. -/
  smpl : TxSmplFifo nb

structure TxPathRxIn where
  rxSampleNr : BitVec 64
  wrfullLate : Bool

/-- What comes from elsewhere at an edge of the transmit clock, with the liberties of the FIFOs' counts and flags. -/
structure TxPathTxIn (nb : NBuff) where
  pctSyncDis : Bool
  rdemptyLate : Bool
  rdusedwAtMost : Nat
  instxWremptyLate : Fin nb.n → Bool
  instxRdusedwAtMost : Fin nb.n → Nat
  smplFifoRd : Nat
  smplFifoWrusedwAtLeast : Nat

/-- An edge of one of the three clocks. -/
inductive TxPathEdge (nb : NBuff) where
  | bus (i : TwoFifoWrIn)
  | rx (i : TxPathRxIn)
  | tx (i : TxPathTxIn nb)

namespace TxPath

variable {nb : NBuff}

def reset : TxPath nb :=
  ⟨⟨false, false⟩, SyncFifoRw.reset, ⟨false, false⟩, TwoFifoInst.reset, false, TxSmplFifo.reset⟩

def wrFsm (s : TxPath nb) : P2dWrFsm nb := s.smpl.top.inst0.inst0

def rdFsm (s : TxPath nb) : P2dRd nb := s.smpl.top.inst0.inst3

def smplIn (s : TxPath nb) (i : TxPathTxIn nb) : TxSmplFifoIn nb :=
  { pctSyncDis := i.pctSyncDis
    sampleNr := s.syncFifoRw.syncQ
    inPctData := s.inst2.inst1Q
    inPctRdy := s.inPctRdy
    instxWremptyLate := i.instxWremptyLate
    instxRdusedwAtMost := i.instxRdusedwAtMost
    smplFifoRd := i.smplFifoRd
    smplFifoWrusedwAtLeast := i.smplFifoWrusedwAtLeast }

def busEdge (s : TxPath nb) (i : TwoFifoWrIn) : TxPath nb :=
  { s with
    syncReg0 := if s.wrFsm.inPctResetNReq then s.syncReg0.next true else ⟨false, false⟩
    inst2 := s.inst2.wrEdge s.syncReg0.syncOut i }

/-- The stream is open: `en` is high. -/
def rxEdge (s : TxPath nb) (i : TxPathRxIn) : TxPath nb :=
  { s with
    enSyncRxSampleClk := s.enSyncRxSampleClk.next true
    syncFifoRw := s.syncFifoRw.wrEdge s.enSyncRxSampleClk.syncOut i.wrfullLate i.rxSampleNr }

def txEdge (sampleWidth : BitVec 2) (s : TxPath nb) (i : TxPathTxIn nb) : TxPath nb :=
  let smpl := s.smpl.next sampleWidth (s.smplIn i)
  let inst2 := s.inst2.rdEdge s.wrFsm.inPctRdreq
  { enSyncRxSampleClk := s.enSyncRxSampleClk
    syncFifoRw := s.syncFifoRw.rdEdge i.rdemptyLate
    syncReg0 := if smpl.top.inst0.inst0.inPctResetNReq then s.syncReg0 else ⟨false, false⟩
    inst2 := if smpl.top.inst0.inst0.inPctResetNReq then inst2 else inst2.clear
    inPctRdy := if s.inst2.rdusedw i.rdusedwAtMost < 4096 * 8 / 128 then false else true
    smpl := smpl }

def next (sampleWidth : BitVec 2) (s : TxPath nb) : TxPathEdge nb → TxPath nb
  | .bus i => s.busEdge i
  | .rx i => s.rxEdge i
  | .tx i => s.txEdge sampleWidth i

def circuit (nb : NBuff) (sampleWidth : BitVec 2) : Circuit (TxPath nb) (TxPathEdge nb) :=
  ⟨reset, next sampleWidth⟩

/-- The word the host writes at an edge. -/
def hostWord (s : TxPath nb) : TxPathEdge nb → Option (BitVec 32)
  | .bus i => s.inst2.hostWord i
  | .rx _ | .tx _ => none

end TxPath

/-! ## The record of a run -/

namespace TxPathEdge

variable {nb : NBuff}

def isTx : TxPathEdge nb → Bool
  | .tx _ => true
  | .bus _ | .rx _ => false

end TxPathEdge

namespace TxPath

variable {nb : NBuff} (sampleWidth : BitVec 2) (x : Nat → TxPathEdge nb)

/-- The edges of the transmit clock before step `n`. -/
def txEdges (n : Nat) : Nat := count (fun m => (x m).isTx) n

/-- The host's words before step `n`. -/
def host (n : Nat) : List (BitVec 32) :=
  words (fun m => ((circuit nb sampleWidth).run x m).hostWord (x m)) n

/-- The packets whose headers the writer has captured before step `n`. -/
def captured : Nat → List CapPct
  | 0 => []
  | n + 1 =>
      match x n with
      | .bus _ | .rx _ => captured n
      | .tx _ => CapPct.listNext ((circuit nb sampleWidth).run x n).wrFsm
          ((circuit nb sampleWidth).run x n).inst2.inst1Q (captured n)

/-- What the buffers have seen before step `n`. -/
def log : Nat → TxLog
  | 0 => TxLog.empty
  | n + 1 =>
      match x n with
      | .bus _ | .rx _ => log n
      | .tx i =>
          let s := (circuit nb sampleWidth).run x n
          (log n).next s.smpl.top.inst0 (s.smpl.top.inst0In (s.smpl.topIn (s.smplIn i)))

/-- The words that have left the sample FIFO before step `n`. -/
def sent : Nat → List (BitVec 128)
  | 0 => []
  | n + 1 =>
      match x n with
      | .bus _ | .rx _ => sent n
      | .tx i => sent n ++ ((circuit nb sampleWidth).run x n).smpl.smplFifo.store.take i.smplFifoRd

/-- What the writer's and the reader's decisions make of the captured packets: a packet that was discarded is dropped,
the others are emitted or dropped by the reader in turn. The list ends before the first packet not yet done with. -/
def fatesOf : List CapPct → List Fate → List Fate
  | [], _ => []
  | c :: cs, fs =>
      if c.discarded then .dropped :: fatesOf cs fs
      else
        match fs with
        | [] => []
        | f :: fs => f :: fatesOf cs fs

/-- What became of the host's packets, one fate a packet from the first one on. -/
def fates (n : Nat) : List Fate := fatesOf (captured sampleWidth x n) (log sampleWidth x n).fates

end TxPath

/-! ## The host's packets -/

/-- Packet `k` of the host's words. -/
def TxPct.ofHost (ws : List (BitVec 32)) (k : Nat) : TxPct := ⟨(hostPct ws k).headD 0, (hostPct ws k).tail⟩

namespace TxPath

variable {nb : NBuff}

/-- The host's packets that were emitted. -/
def emitted (ws : List (BitVec 32)) (fates : List Fate) : List TxPct :=
  ((((List.range fates.length).map (TxPct.ofHost ws)).zip fates).filter fun pf => pf.2 == .emitted).map Prod.fst

section Decisions

variable (sampleWidth : BitVec 2) (x : Nat → TxPathEdge nb)

/-- The number has been on `rx_sample_nr` before. -/
def Counted (n : Nat) (v : BitVec 64) : Prop := ∃ m < n, ∃ i, x m = .rx i ∧ i.rxSampleNr = v

/-- At the `d`th edge of the transmit clock before step `k`, `sync_fifo_rw` showed the number `v`. -/
def Showed (k d : Nat) (v : BitVec 64) : Prop :=
  ∃ m, (x m).isTx = true ∧ txEdges x k = txEdges x m + d ∧ ((circuit nb sampleWidth).run x m).syncFifoRw.syncQ = v

/-- In step `k` the reader of the buffers, at the host's packet `j`, leaves `idle` for `st`, and the sample number it
goes by is `v`. -/
structure RdDecides (j k : Nat) (v : BitVec 64) (st : P2dRdState) : Prop where
  packet : (fates sampleWidth x k).length = j
  idle : ((circuit nb sampleWidth).run x k).rdFsm.currentState = .idle
  next : ((circuit nb sampleWidth).run x (k + 1)).rdFsm.currentState = st
  showed : Showed sampleWidth x k 4 v

/-- In step `k` the writer, with the host's packet `j` in its hands, leaves `check_smpl_nr` for `clr_fifo`, and the
sample number it goes by is `v`. -/
structure WrDiscards (j k : Nat) (v : BitVec 64) : Prop where
  packet : (captured sampleWidth x k).length = j + 1
  check : ((circuit nb sampleWidth).run x k).wrFsm.currentState = .checkSmplNr
  next : ((circuit nb sampleWidth).run x (k + 1)).wrFsm.currentState = .clrFifo
  showed : Showed sampleWidth x k 3 v

/-- Before step `n` the reader began with the host's packet `j`. Then the packet was not synchronised, or
synchronisation was off, or its sample number was the one the reader went by. -/
def Due (n j : Nat) (p : TxPct) : Prop :=
  ∃ k < n, ∃ i v, x k = .tx i ∧ RdDecides sampleWidth x j k v .rdBuff ∧
    (i.pctSyncDis = true ∨ p.syncDis = true ∨ p.hdr1 = v)

/-- Before step `n` the reader gave the host's packet `j` up, or the writer did. Then the packet was synchronised,
synchronisation was on, and the sample number they went by was beyond the packet's. -/
def Late (n j : Nat) (p : TxPct) : Prop :=
  ∃ k < n, ∃ i v, x k = .tx i ∧ (RdDecides sampleWidth x j k v .clrBuff ∨ WrDiscards sampleWidth x j k v) ∧
    p.syncDis = false ∧ i.pctSyncDis = false ∧ p.hdr1 < v

end Decisions

end TxPath

end LimeSdrQpcie
