import LimeSdrQpcie.Hdl.Fifo
import LimeSdrQpcie.SampleWidth
import LimeSdrQpcie.Tx.BitUnpack
import LimeSdrQpcie.Tx.P2dRd

/-!
# The packet buffers and the way of the samples to the sample FIFO

`packets2data` and `packets2data_top`; `wclk` and `rclk` are one clock. Each buffer is a FIFO with a 128-bit
write port and a 64-bit read port, the lower half of a word first.
-/

namespace LimeSdrQpcie

open Hdl

/-! ## packets2data -/

/-- The registers of `packets2data`. -/
structure Packets2Data (nb : NBuff) where
  pctSizeOnlyData : Nat
  halfPctSizeOnlyData : Nat
  inst1PctDataClr : Fin nb.n → Bool
  inPctClrFlag : Bool
  inst0 : P2dWrFsm nb
  instx : Fin nb.n → Fifo (BitVec 64) 512
  instxQ : Fin nb.n → BitVec 64
  pctBuffRdyInt : Fin nb.n → Bool
  inst3 : P2dRd nb
  smplBuffValidInt : Bool
  smplBuffValid : Bool
  smplBuffQ : BitVec 64

/-- The inputs of `packets2data`. The two sides of a buffer need not see at once what the other one did: the
empty flag may come late, and the read side may count fewer words than there are. -/
structure Packets2DataIn (nb : NBuff) where
  pctSyncDis : Bool
  sampleNr : BitVec 64
  inPctData : BitVec 128
  inPctRdy : Bool
  smplBuffAlmostFull : Bool
  instxWremptyLate : Fin nb.n → Bool
  instxRdusedwAtMost : Fin nb.n → Nat

/-- The halves of a 128-bit word in the order in which they are read. -/
def halves (w : BitVec 128) : List (BitVec 64) := [w.extractLsb 63 0, w.extractLsb 127 64]

namespace Packets2Data

variable {nb : NBuff}

def reset : Packets2Data nb :=
  { pctSizeOnlyData := 2 ^ 16 - 1, halfPctSizeOnlyData := 2 ^ 16 - 1, inst1PctDataClr := fun _ => false,
    inPctClrFlag := false, inst0 := P2dWrFsm.reset, instx := fun _ => Fifo.empty, instxQ := fun _ => 0,
    pctBuffRdyInt := fun _ => false, inst3 := P2dRd.reset, smplBuffValidInt := false, smplBuffValid := false,
    smplBuffQ := 0 }

/-- `wrempty` of a buffer; while it is cleared it is empty. -/
def instxWrempty (s : Packets2Data nb) (i : Packets2DataIn nb) (b : Fin nb.n) : Bool :=
  ((s.instx b).usedw == 0 || !s.inst3.pctBuffClrN b) && !i.instxWremptyLate b

/-- `rdusedw` of a buffer. -/
def instxRdusedw (s : Packets2Data nb) (i : Packets2DataIn nb) (b : Fin nb.n) : Nat :=
  if s.inst3.pctBuffClrN b then min (i.instxRdusedwAtMost b) (s.instx b).usedw else 0

def inst0In (s : Packets2Data nb) (i : Packets2DataIn nb) : P2dWrFsmIn nb :=
  { pctSyncDis := i.pctSyncDis
    sampleNr := i.sampleNr
    inPctData := i.inPctData
    inPctRdy := i.inPctRdy
    pctBuffRdy := s.instxWrempty i }

def inst3In (s : Packets2Data nb) (i : Packets2DataIn nb) : P2dRdIn nb :=
  { synchDis := i.pctSyncDis
    pctHdr0 := s.inst0.pctHdr0Reg
    pctHdr0Valid := s.inst0.pctHdr0Valid
    pctHdr1 := s.inst0.pctHdr1Reg
    pctHdr1Valid := s.inst0.pctHdr1Valid
    sampleNr := i.sampleNr
    pctBuffRdy := s.pctBuffRdyInt
    smplBuffAlmostFull := i.smplBuffAlmostFull }

def inst3PctBuffRdreq (s : Packets2Data nb) (i : Packets2DataIn nb) : Fin nb.n → Bool :=
  s.inst3.pctBuffRdreq i.smplBuffAlmostFull

/-- The words that the write port of a buffer brings. -/
def instxWr (s : Packets2Data nb) (b : Fin nb.n) : List (BitVec 64) :=
  if s.inst0.pctDataWrreq b then halves s.inst0.pctData else []

def next (pctSize : Nat) (s : Packets2Data nb) (i : Packets2DataIn nb) : Packets2Data nb :=
  { pctSizeOnlyData := (pctSize + 2 ^ 16 - 4) % 2 ^ 16
    halfPctSizeOnlyData := s.pctSizeOnlyData / 2
    inst1PctDataClr := fun b => !s.inst3.pctBuffClrN b
    inPctClrFlag :=
      if (List.finRange nb.n).any s.inst1PctDataClr ∨ s.inst0.inPctResetNReq = false then true else false
    inst0 := s.inst0.next (s.inst0In i)
    instx := fun b =>
      if s.inst3.pctBuffClrN b then
        (s.instx b).nextWide (s.instxWr b) (if s.inst3PctBuffRdreq i b then 1 else 0)
      else Fifo.empty
    instxQ := fun b =>
      if s.inst3PctBuffRdreq i b then (s.instx b).store.head?.getD (s.instxQ b) else s.instxQ b
    pctBuffRdyInt := fun b => if s.instxRdusedw i b = s.halfPctSizeOnlyData then true else false
    inst3 := s.inst3.next (s.inst3In i)
    smplBuffValidInt := if (List.finRange nb.n).any (s.inst3PctBuffRdreq i) then true else false
    smplBuffValid := s.smplBuffValidInt
    smplBuffQ := s.instxQ s.inst3.pctBuffSel }

def smplBuff (s : Packets2Data nb) : Port (BitVec 64) := ⟨s.smplBuffValid, s.smplBuffQ⟩

def circuit (nb : NBuff) (pctSize : Nat) : Circuit (Packets2Data nb) (Packets2DataIn nb) :=
  ⟨reset, next pctSize⟩

end Packets2Data

/-- `inst0_pct_size` of `tx_path_top`: the packet size in 32-bit words. -/
def inst0PctSize (sampleWidth : BitVec 2) : Nat := if sampleWidth = 0b01 then 0x100 else 0x400

/-! ## packets2data_top -/

/-- The registers of `packets2data_top`. -/
structure Packets2DataTop (nb : NBuff) where
  fifoLimit : Nat
  fifoFullSig : Bool
  inst0 : Packets2Data nb
  inst1 : BitUnpack64

structure Packets2DataTopIn (nb : NBuff) where
  pctSyncDis : Bool
  sampleNr : BitVec 64
  inPctData : BitVec 128
  inPctRdy : Bool
  smplFifoWrusedw : Nat
  instxWremptyLate : Fin nb.n → Bool
  instxRdusedwAtMost : Fin nb.n → Nat

namespace Packets2DataTop

variable {nb : NBuff}

def reset : Packets2DataTop nb := ⟨0, false, Packets2Data.reset, BitUnpack64.reset⟩

/-- `max_fifo_words` with `decomp_fifo_size` 9. -/
def maxFifoWords : Nat := 2 ^ (9 - 1) - 1

def inst0In (s : Packets2DataTop nb) (i : Packets2DataTopIn nb) : Packets2DataIn nb :=
  { pctSyncDis := i.pctSyncDis
    sampleNr := i.sampleNr
    inPctData := i.inPctData
    inPctRdy := i.inPctRdy
    smplBuffAlmostFull := s.fifoFullSig
    instxWremptyLate := i.instxWremptyLate
    instxRdusedwAtMost := i.instxRdusedwAtMost }

def next (sampleWidth : BitVec 2) (s : Packets2DataTop nb) (i : Packets2DataTopIn nb) : Packets2DataTop nb :=
  { fifoLimit := maxFifoWords - 8
    fifoFullSig := if i.smplFifoWrusedw > s.fifoLimit then true else false
    inst0 := s.inst0.next (inst0PctSize sampleWidth) (s.inst0In i)
    inst1 := s.inst1.next sampleWidth s.inst0.smplBuff }

/-- The write port to the sample FIFO. -/
def smplFifoWr (s : Packets2DataTop nb) : Port (BitVec 128) := s.inst1.dataOut

end Packets2DataTop

end LimeSdrQpcie
