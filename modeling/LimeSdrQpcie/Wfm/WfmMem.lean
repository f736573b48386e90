import LimeSdrQpcie.Wfm.WfmRam

/-!
# The waveform player with a memory behind it

The controller of the memory is not in the repository. It does the writes and the reads that it has accepted one
after the other, and returns the words read when it likes, in order.
-/

namespace LimeSdrQpcie

open Hdl

/-- The player and its FIFOs, the contents of the memory, and the words read that have not come back yet, the oldest
first. -/
structure WfmMem (g : WfmGenerics) where
  ram : WfmRam g
  mem : Nat → BitVec 64
  rdData : List (BitVec 64)

/-- The inputs of the player; `rdReturn` says that the memory returns a word, when there is one. -/
structure WfmMemIn where
  resetN : Bool
  infifoResetN : Bool
  wfmLoad : Bool
  wfmPlayStop : Bool
  infifoWr : Option (BitVec 64)
  avlReady : Bool
  fifoLate : Bool
  rdReturn : Bool
  outfifoRd : Nat

namespace AvlPort

/-- The addresses that an entry reads. -/
def readAddrs (e : AvlEntry) : List Nat :=
  if e.writeReq then [] else if e.readReq then List.range' e.addr e.size else []

end AvlPort

namespace WfmMem

variable {g : WfmGenerics}

def reset (mem : Nat → BitVec 64) : WfmMem g := ⟨WfmRam.reset, mem, []⟩

def avlRddata (s : WfmMem g) (i : WfmMemIn) : Port (BitVec 64) :=
  ⟨i.rdReturn && !s.rdData.isEmpty, s.rdData.headD 0⟩

def ramIn (s : WfmMem g) (i : WfmMemIn) : WfmRamIn :=
  { resetN := i.resetN, infifoResetN := i.infifoResetN, wfmLoad := i.wfmLoad, wfmPlayStop := i.wfmPlayStop,
    infifoWr := i.infifoWr, avlReady := i.avlReady, fifoLate := i.fifoLate, avlRddata := s.avlRddata i,
    outfifoRd := i.outfifoRd }

/-- The entry that the memory accepts. -/
def accepted (s : WfmMem g) (i : WfmMemIn) : Option AvlEntry :=
  (s.ram.resets (s.ramIn i)).inst2.issued i.avlReady

/-- A write of the memory. -/
def store (mem : Nat → BitVec 64) (w : Nat × BitVec 64) : Nat → BitVec 64 :=
  fun a => if a = w.1 then w.2 else mem a

def next (sampleWidth : BitVec 2) (s : WfmMem g) (i : WfmMemIn) : WfmMem g :=
  { ram := s.ram.next sampleWidth (s.ramIn i)
    mem := ((s.accepted i).bind s.ram.port.wr.write).elim s.mem (store s.mem)
    rdData := s.rdData.drop (s.avlRddata i).valid.toNat ++ (s.accepted i).elim [] fun e =>
      (AvlPort.readAddrs e).map s.mem }

def circuit (g : WfmGenerics) (sampleWidth : BitVec 2) (mem : Nat → BitVec 64) : Circuit (WfmMem g) WfmMemIn :=
  ⟨reset mem, next sampleWidth⟩

end WfmMem

end LimeSdrQpcie
