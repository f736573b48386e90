import LimeSdrQpcie.Hdl.Fifo

/-!
# The host to FPGA streams of pcie_top

The write side of the three host to FPGA streams. Behind each stream there are a `two_fifo_inst` for the TX
samples and, behind `pct_payload_extrct`, a FIFO for the waveform player; a selector says which of the two
the words of the stream go to. The streams stay open and no reset is active.
-/

namespace LimeSdrQpcie

open Hdl

/-! ## pct_payload_extrct -/

/-- The registers of `pct_payload_extrct` with `data_w = 32` and `header_size = 16`. -/
structure PctPayloadExtrct where
  wrCnt : Nat
  hdrPayloadReg : BitVec 32
  deriving DecidableEq

namespace PctPayloadExtrct

def reset : PctPayloadExtrct := ⟨0, BitVec.allOnes 32⟩

def payloadSizeReg (s : PctPayloadExtrct) : Nat := (s.hdrPayloadReg.extractLsb 23 8).toNat

/-- The count at which a packet ends. -/
def wrCntMax (s : PctPayloadExtrct) : Nat := (s.payloadSizeReg + 16) * 8 / 32 - 1

def pctPayloadValid (s : PctPayloadExtrct) (pctWr : Bool) : Bool :=
  if s.wrCnt > 3 ∧ s.wrCnt ≤ s.wrCntMax then pctWr else false

def next (s : PctPayloadExtrct) (pct : Port (BitVec 32)) : PctPayloadExtrct :=
  { wrCnt := if pct.valid then (if s.wrCnt < s.wrCntMax then s.wrCnt + 1 else 0) else s.wrCnt
    hdrPayloadReg := if s.wrCnt = 0 ∧ pct.valid then pct.data else s.hdrPayloadReg }

/-- The extractor at a packet boundary, with the header register an earlier packet left. -/
def circuit (hdr : BitVec 32) : Circuit PctPayloadExtrct (Port (BitVec 32)) := ⟨⟨0, hdr⟩, next⟩

end PctPayloadExtrct

/-! ## The streams -/

/-- The host to FPGA streams. -/
inductive H2F where
  | s0
  | s1
  | s2
  deriving DecidableEq, Repr

/-- How many words `fifo_inst` holds: `lpm_numwords`. -/
def fifoWords (wrusedwWidth : Nat) : Nat := 2 ^ (wrusedwWidth - 1)

/-- What stands behind one stream: `inst2` to `inst4`, `inst5` to `inst7` or `inst8` to `inst10`. Of the
`two_fifo_inst` only the first FIFO meets the host; the width of the waveform FIFO's count is a generic. -/
structure H2FStream (wrusedwWidth : Nat) where
  twoFifo : Fifo (BitVec 32) (fifoWords 10)
  pctPayloadExtrct : PctPayloadExtrct
  wfmFifo : Fifo (BitVec 32) (fifoWords wrusedwWidth)

/-- One cycle of the bus clock at one stream. A full flag may stay up late, after words have been read. -/
structure H2FInput where
  /-- The synchronised selector. -/
  selSync : Bool
  /-- The word the PCIe core writes unless the full output is high. -/
  host : Option (BitVec 32)
  twoFifoRd : Nat
  twoFifoFullLate : Bool
  wfmFifoRd : Nat
  wfmFifoFullLate : Bool

namespace H2FStream

variable {wrusedwWidth : Nat}

def reset : H2FStream wrusedwWidth := ⟨Fifo.empty, PctPayloadExtrct.reset, Fifo.empty⟩

/-- `wrfull` of the `two_fifo_inst`. -/
def twoFifoFull (s : H2FStream wrusedwWidth) (i : H2FInput) : Bool := s.twoFifo.isFull || i.twoFifoFullLate

/-- `wrfull` of the waveform FIFO. -/
def wfmFifoFull (s : H2FStream wrusedwWidth) (i : H2FInput) : Bool := s.wfmFifo.isFull || i.wfmFifoFullLate

/-- The words on the write port of the `two_fifo_inst` when the PCIe core writes `w`. -/
def twoFifoWr (i : H2FInput) (w : Option (BitVec 32)) : Option (BitVec 32) :=
  if i.selSync = false then w else none

def pctWr (i : H2FInput) (w : Option (BitVec 32)) : Port (BitVec 32) :=
  if i.selSync then ⟨w.isSome, w.getD 0⟩ else ⟨false, w.getD 0⟩

/-- The words on the write port of the waveform FIFO when the PCIe core writes `w`. -/
def wfmFifoWr (s : H2FStream wrusedwWidth) (i : H2FInput) (w : Option (BitVec 32)) : Option (BitVec 32) :=
  (Port.mk (s.pctPayloadExtrct.pctPayloadValid (pctWr i w).valid) (pctWr i w).data).word

def next (s : H2FStream wrusedwWidth) (i : H2FInput) (w : Option (BitVec 32)) : H2FStream wrusedwWidth :=
  { twoFifo := s.twoFifo.next (twoFifoWr i w) i.twoFifoRd
    pctPayloadExtrct := s.pctPayloadExtrct.next (pctWr i w)
    wfmFifo := s.wfmFifo.next (s.wfmFifoWr i w) i.wfmFifoRd }

end H2FStream

/-! ## pcie_top -/

/-- The three streams; `wrusedwWidth` gives the count widths of their waveform FIFOs. -/
structure PcieTop (wrusedwWidth : H2F → Nat) where
  stream : (k : H2F) → H2FStream (wrusedwWidth k)

namespace PcieTop

variable {wrusedwWidth : H2F → Nat}

def reset : PcieTop wrusedwWidth := ⟨fun _ => H2FStream.reset⟩

/-- The full output of each stream to the PCIe core. -/
def userWStreamFull (s : PcieTop wrusedwWidth) (x : H2F → H2FInput) : H2F → Bool
  | .s0 => if (x .s0).selSync = false then (s.stream .s0).twoFifoFull (x .s0)
      else (s.stream .s0).wfmFifoFull (x .s0)
  | .s1 => if (x .s0).selSync = false then (s.stream .s1).twoFifoFull (x .s1)
      else (s.stream .s1).wfmFifoFull (x .s1)
  | .s2 => if (x .s0).selSync = false then (s.stream .s2).twoFifoFull (x .s2)
      else (s.stream .s2).wfmFifoFull (x .s2)

/-- The word the PCIe core writes to a stream. -/
def hostWord (s : PcieTop wrusedwWidth) (x : H2F → H2FInput) (k : H2F) : Option (BitVec 32) :=
  if s.userWStreamFull x k then none else (x k).host

def next (s : PcieTop wrusedwWidth) (x : H2F → H2FInput) : PcieTop wrusedwWidth :=
  ⟨fun k => (s.stream k).next (x k) (s.hostWord x k)⟩

def circuit (wrusedwWidth : H2F → Nat) : Circuit (PcieTop wrusedwWidth) (H2F → H2FInput) := ⟨reset, next⟩

end PcieTop

end LimeSdrQpcie
