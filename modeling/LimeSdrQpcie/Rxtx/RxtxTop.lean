import LimeSdrQpcie.Rx.Lemmas.Packets
import LimeSdrQpcie.Rx.RxPath

/-!
# The report of lost TX packets

What `rxtx_top` and `tx_path_top` do to report a packet that is lost on the transmit side in the headers of
the receive side: a flag in the clock domain of the transmit path is set by a loss, goes to header word 0 of the
received packets through a synchroniser, and is cleared by `pct_hdr_cap`, which comes back through another
one. The edges of the two clocks come in any order.
-/

namespace LimeSdrQpcie

open Hdl

/-- The registers of the receive path and of the loss flag. -/
structure RxtxTop (pw : PctBuffWidth) where
  inst5 : RxPathTop pw
  pctLossFlgInt : Bool
  inst0InPctClrFlagReg : Bool
  pctLossFlgClrSync : SyncReg Bool
  pctLossFlgClrSyncReg : Bool

/-- An instant at which one of the clocks or both have an edge. -/
structure RxtxTopIn where
  rxClk : Bool
  txClk : Bool
  rx : RxPathTopIn
  inst0InPctClrFlag : Bool

namespace RxtxTop

variable {pw : PctBuffWidth}

def reset : RxtxTop pw :=
  { inst5 := RxPathTop.reset, pctLossFlgInt := false, inst0InPctClrFlagReg := true,
    pctLossFlgClrSync := ⟨false, false⟩, pctLossFlgClrSyncReg := false }

/-- A packet is lost: a rising edge of `in_pct_clr_flag`. -/
def pctLoss (s : RxtxTop pw) (i : RxtxTopIn) : Bool := i.txClk && i.inst0InPctClrFlag && !s.inst0InPctClrFlagReg

/-- A rising edge of the synchronised `pct_loss_flg_clr`. -/
def pctLossFlgClr (s : RxtxTop pw) : Bool := s.pctLossFlgClrSync.syncOut && !s.pctLossFlgClrSyncReg

def inst5In (s : RxtxTop pw) (i : RxtxTopIn) : RxPathTopIn :=
  { i.rx with ldSmplNr := false, smplNrIn := 0, txPctLoss := s.pctLossFlgInt }

def next (mode : RxMode) (s : RxtxTop pw) (i : RxtxTopIn) : RxtxTop pw :=
  { inst5 := if i.rxClk then s.inst5.next mode (s.inst5In i) else s.inst5
    pctLossFlgInt :=
      if s.pctLoss i then true
      else if i.txClk && s.pctLossFlgClr then false
      else s.pctLossFlgInt
    inst0InPctClrFlagReg := if i.txClk then i.inst0InPctClrFlag else s.inst0InPctClrFlagReg
    pctLossFlgClrSync :=
      if i.txClk then s.pctLossFlgClrSync.next s.inst5.pctHdrCap else s.pctLossFlgClrSync
    pctLossFlgClrSyncReg := if i.txClk then s.pctLossFlgClrSync.syncOut else s.pctLossFlgClrSyncReg }

def circuit (pw : PctBuffWidth) (mode : RxMode) : Circuit (RxtxTop pw) RxtxTopIn := ⟨reset, next mode⟩

/-! ## The packets begun -/

/-- A packet begins in this instant: `data2packets` waits for one, and its first word is there. -/
def begins (s : RxtxTop pw) (i : RxtxTopIn) : Bool :=
  i.rxClk && (s.inst5.inst2.top.inst2.currentState == .idle) && s.inst5.inst2.top.inst1.dataOut.valid

/-- The packet that begins in this instant, as `data2packets` takes its headers over and as it has been decided
whether the packet is written. -/
def begun (s : RxtxTop pw) (i : RxtxTopIn) : Option Packet :=
  if s.begins i then
    some ⟨(s.inst5.inst2In (s.inst5In i)).pctHdr0, (s.inst5.inst2In (s.inst5In i)).pctHdr1,
      [s.inst5.inst2.top.inst1.dataOut.data], s.inst5.inst2.top.inst0.pctBuffWrDis⟩
  else none

/-- `data2packets_fsm` leaves its idle state for a packet in this instant. -/
def opens (s : RxtxTop pw) (i : RxtxTopIn) : Bool :=
  i.rxClk && (s.inst5.inst2.top.inst0.currentState == .idle) && s.inst5.inst2.top.inst0SmplBuffRdy

/-- The packet FIFO has room for one more packet than it shows to hold. -/
def HasRoom (mode : RxMode) (s : RxtxTop pw) (i : RxtxTopIn) : Prop :=
  s.inst5.pctFifoWusedw i.rx + Data2PacketsTop.pctSizeOf pw.w mode.sampleWidth.code <
    Data2PacketsTop.pctBuffWrusedwMaxWords pw.w

end RxtxTop

/-- The `tx_pct_loss` bit of header word 0. -/
def Packet.txPctLoss (pk : Packet) : Bool := pk.hdr0.getLsbD 3

end LimeSdrQpcie
