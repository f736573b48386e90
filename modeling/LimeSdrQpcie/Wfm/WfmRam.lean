import LimeSdrQpcie.Hdl.Fifo
import LimeSdrQpcie.Tx.BitUnpack
import LimeSdrQpcie.Wfm.TrafficGen
import LimeSdrQpcie.Wfm.WfmPlayer

/-!
# The waveform player between its FIFOs and the memory

`wfm_player` with the command generator and the unpacker that it instantiates, the FIFO from which the waveform
is loaded, the FIFO to which it is played and the port of the memory. The memory itself is outside: when it is
ready, and when which read words come back, are inputs. Both FIFOs are seen from the clock of the player; their
word counts are registered.
-/

namespace LimeSdrQpcie

open Hdl

/-- The words of the input FIFO; its count has a bit more than its addresses. -/
def WfmGenerics.infifoWords (g : WfmGenerics) : Nat := 2 ^ g.burstCntWidth / 2

/-- The generics that `wfm_player_x2_top` gives to `wfm_player`; `avl_rd_latency_words` is its own generic. -/
def wfmPlayerX2Generics (avlRdLatencyWords : Nat) : WfmGenerics :=
  { avlAddrWidth := 26, burstCntWidth := 11,
    wfmOutfifoWrwordsLimit := 2 ^ (9 - 1) - 1 - avlRdLatencyWords - 16 }

structure WfmRam (g : WfmGenerics) where
  player : WfmPlayer
  inst2 : AvalonTrafficGen
  unpack : BitUnpack64
  infifo : Fifo (BitVec 64) g.infifoWords
  infifoRdusedw : Nat
  outfifo : Fifo (BitVec 128) 256
  outfifoWrusedw : Nat
  port : AvlPort

/-- The inputs: the resets, the control signals, the word that comes into the input FIFO, whether the memory is
ready, whether the command FIFO shows its first word late, the read word that comes back, and how many words leave
the output FIFO. -/
structure WfmRamIn where
  resetN : Bool
  infifoResetN : Bool
  wfmLoad : Bool
  wfmPlayStop : Bool
  infifoWr : Option (BitVec 64)
  avlReady : Bool
  fifoLate : Bool
  avlRddata : Port (BitVec 64)
  outfifoRd : Nat

namespace WfmRam

variable {g : WfmGenerics}

def reset : WfmRam g :=
  { player := WfmPlayer.reset, inst2 := AvalonTrafficGen.reset, unpack := BitUnpack64.reset,
    infifo := Fifo.empty, infifoRdusedw := 0, outfifo := Fifo.empty, outfifoWrusedw := 0, port := AvlPort.reset }

/-- The resets are asynchronous; the unpacker and the output FIFO are reset while playback is stopped. -/
def resets (s : WfmRam g) (i : WfmRamIn) : WfmRam g :=
  { player := if i.resetN then s.player else WfmPlayer.reset
    inst2 := if i.resetN then s.inst2 else AvalonTrafficGen.reset
    unpack := if i.wfmPlayStop then s.unpack else BitUnpack64.reset
    infifo := if i.infifoResetN then s.infifo else Fifo.empty
    infifoRdusedw := if i.infifoResetN then s.infifoRdusedw else 0
    outfifo := if i.wfmPlayStop then s.outfifo else Fifo.empty
    outfifoWrusedw := if i.wfmPlayStop then s.outfifoWrusedw else 0
    port := s.port }

def playerIn (s : WfmRam g) (i : WfmRamIn) : WfmPlayerIn :=
  { wfmLoad := i.wfmLoad, wfmPlayStop := i.wfmPlayStop, inst2Ready := s.inst2.ready,
    inst2WdataReq := s.inst2.wdataReq, wfmInfifoRdempty := s.infifo.store.isEmpty,
    wfmInfifoRdusedw := s.infifoRdusedw, wfmOutfifoWrusedw := s.outfifoWrusedw }

/-- The word on the output of the input FIFO. -/
def infifoRdata (s : WfmRam g) : BitVec 64 := s.infifo.store.headD 0

def inst2In (s : WfmRam g) (i : WfmRamIn) : TrafficGenIn :=
  { avlReady := i.avlReady, fifoLate := i.fifoLate,
    doWrite := s.player.inst2DoWrite (s.playerIn i), doRead := s.player.inst2DoRead (s.playerIn i),
    writeAddr := s.player.inst2WriteAddr, writeBurstcount := s.player.inst2WriteBurstcount,
    wdata := s.infifoRdata,
    readAddr := s.player.inst2ReadAddr, readBurstcount := s.player.inst2ReadBurstcount }

/-- A clock edge. -/
def edge (sampleWidth : BitVec 2) (s : WfmRam g) (i : WfmRamIn) : WfmRam g :=
  { player := s.player.next g (s.playerIn i)
    inst2 := s.inst2.next (s.inst2In i)
    unpack := s.unpack.next sampleWidth i.avlRddata
    infifo := s.infifo.next i.infifoWr s.inst2.wdataReq.toNat
    infifoRdusedw := s.infifo.usedw
    outfifo := s.outfifo.next s.unpack.dataOut.word i.outfifoRd
    outfifoWrusedw := s.outfifo.usedw
    port := s.port.next g.avlAddrWidth (s.inst2.issued i.avlReady) i.avlRddata.valid }

def next (sampleWidth : BitVec 2) (s : WfmRam g) (i : WfmRamIn) : WfmRam g :=
  ((s.resets i).edge sampleWidth i).resets i

def circuit (g : WfmGenerics) (sampleWidth : BitVec 2) : Circuit (WfmRam g) WfmRamIn := ⟨reset, next sampleWidth⟩

/-- The word on the write port of the output FIFO. -/
def outfifoWr (s : WfmRam g) : Option (BitVec 128) := s.unpack.dataOut.word

end WfmRam

end LimeSdrQpcie
