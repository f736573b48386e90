import LimeSdrQpcie.Hdl.Ring
import LimeSdrQpcie.Tx.Packets2Data

/-!
# What became of the packets

A record of a run of `packets2data`: the packets that the writer has put into the buffers, the one it is
dealing with, and what the reader did with each packet.
-/

namespace LimeSdrQpcie

open Hdl

/-- A packet as it came from the input FIFO, as far as it has come. -/
structure TxPct where
  hdr : BitVec 128
  data : List (BitVec 128)
  deriving DecidableEq

namespace TxPct

/-- Header 0, with the flag `sync_dis` in bit 4. -/
def hdr0 (p : TxPct) : BitVec 64 := p.hdr.extractLsb 63 0

/-- Header 1, the sample number. -/
def hdr1 (p : TxPct) : BitVec 64 := p.hdr.extractLsb 127 64

def syncDis (p : TxPct) : Bool := p.hdr0.getLsbD 4

def add (p : TxPct) (w : BitVec 128) : TxPct := { p with data := p.data ++ [w] }

/-- The payload as it is read from a buffer. -/
def payload (p : TxPct) : List (BitVec 64) := p.data.flatMap halves

theorem payload_add (p : TxPct) (w : BitVec 128) : (p.add w).payload = p.payload ++ halves w := by
  simp [add, payload]

theorem payload_length (p : TxPct) : p.payload.length = 2 * p.data.length := by
  rw [payload, List.length_flatMap, show (fun w => (halves w).length) = fun _ => 2 from rfl,
    List.map_const', List.sum_replicate_nat, Nat.mul_comm]

end TxPct

/-! ## The writer's packets -/

structure WrLog where
  stored : List TxPct
  inHand : Option TxPct

namespace WrLog

variable {nb : NBuff}

def empty : WrLog := ⟨[], none⟩

/-- A header begins a packet, `clr_fifo` gives it up, and it is stored when its last word has been written. -/
def next (s : P2dWrFsm nb) (i : P2dWrFsmIn nb) (l : WrLog) : WrLog :=
  if s.hdrWord then { l with inHand := some ⟨i.inPctData, []⟩ }
  else if s.dataWord then { l with inHand := l.inHand.map (·.add i.inPctData) }
  else if s.currentState = .clrFifo then { l with inHand := none }
  else if s.currentState = .waitWrEnd then ⟨l.stored ++ l.inHand.toList, none⟩
  else l

/-- All packets that have gone or are going to the buffers. -/
def pcts (l : WrLog) : List TxPct := l.stored ++ l.inHand.toList

def payloads (l : WrLog) : List (List (BitVec 64)) := l.pcts.map TxPct.payload

end WrLog

/-! ## The reader's decisions -/

inductive Fate where
  | emitted
  | dropped
  deriving DecidableEq

/-- A packet is done with when the reader leaves its buffer. -/
def fatesNext {nb : NBuff} (s : P2dRd nb) (i : P2dRdIn nb) (fates : List Fate) : List Fate :=
  if s.nextState i = .switchNextBuff then
    fates ++ [if s.currentState = .clrBuff then .dropped else .emitted]
  else fates

/-! ## The record of a run -/

structure TxLog where
  wr : WrLog
  fates : List Fate

namespace TxLog

variable {nb : NBuff}

def empty : TxLog := ⟨WrLog.empty, []⟩

def next (s : Packets2Data nb) (i : Packets2DataIn nb) (l : TxLog) : TxLog :=
  ⟨l.wr.next s.inst0 (s.inst0In i), fatesNext s.inst3 (s.inst3In i) l.fates⟩

/-- The record before cycle `n`. -/
def run (r : Nat → Packets2Data nb) (x : Nat → Packets2DataIn nb) : Nat → TxLog
  | 0 => empty
  | n + 1 => (run r x n).next (r n) (x n)

/-- The packets that were emitted, in the order in which they were stored. -/
def emitted (l : TxLog) : List TxPct :=
  ((l.wr.stored.zip l.fates).filter fun pf => pf.2 == .emitted).map Prod.fst

end TxLog

/-- The record of a run with packets of 4096 bytes, `0x400` words of 32 bits. -/
def Packets2Data.log {nb : NBuff} (x : Nat → Packets2DataIn nb) (n : Nat) : TxLog :=
  TxLog.run ((Packets2Data.circuit nb 0x400).run x) x n

end LimeSdrQpcie
