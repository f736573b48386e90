import LimeSdrQpcie.Hdl.Fifo

/-!
# The Avalon traffic generator

`avalon_traffic_gen` with its command FIFO `av_trf_gen_scfifo_wrapper`, and what the port of the memory makes
of its Avalon signals. The generator registers a command when it is ready, turns a write command into one entry
for each word of the burst and a read command into one entry, and sends the entries through the command FIFO.
Byte enables are always on and are left out.
-/

namespace LimeSdrQpcie

open Hdl

/-- A word of the command FIFO, and the Avalon signals that it becomes. -/
structure AvlEntry where
  writeReq : Bool
  readReq : Bool
  burstbegin : Bool
  addr : Nat
  size : Nat
  wdata : BitVec 64
  deriving DecidableEq

namespace AvlEntry

def idle : AvlEntry := ⟨false, false, false, 0, 0, 0⟩

def req (e : AvlEntry) : Bool := e.writeReq || e.readReq

end AvlEntry

inductive TrafficGenState where
  | idle
  | writeBurst
  deriving DecidableEq, Repr

/-- The registers of `avalon_traffic_gen`, with the input registers `pipeline` and the words of the command
FIFO. -/
structure AvalonTrafficGen where
  state : TrafficGenState
  burstCounter : Nat
  doWriteReg : Bool
  doReadReg : Bool
  writeAddrReg : Nat
  writeBurstcountReg : Nat
  readAddrReg : Nat
  readBurstcountReg : Nat
  lastWriteAddrReg : Nat
  lastWriteBurstcountReg : Nat
  pipeline : Option AvlEntry
  fifo : Fifo AvlEntry 16
  avl : AvlEntry

/-- The inputs of `avalon_traffic_gen`. While `fifoLate` is on, the command FIFO does not show its first word
yet. -/
structure TrafficGenIn where
  avlReady : Bool
  fifoLate : Bool
  doWrite : Bool
  doRead : Bool
  writeAddr : Nat
  writeBurstcount : Nat
  wdata : BitVec 64
  readAddr : Nat
  readBurstcount : Nat

namespace AvalonTrafficGen

/-- `BURSTCOUNT_WIDTH`. -/
def burstcountWidth : Nat := 2

/-- `almost_full_value`; it is two below the size of the FIFO, for the input registers. -/
def almostFullValue : Nat := 14

def reset : AvalonTrafficGen :=
  { state := .idle, burstCounter := 0, doWriteReg := false, doReadReg := false, writeAddrReg := 0,
    writeBurstcountReg := 0, readAddrReg := 0, readBurstcountReg := 0, lastWriteAddrReg := 0,
    lastWriteBurstcountReg := 0, pipeline := none, fifo := Fifo.empty, avl := AvlEntry.idle }

def fifoFull (s : AvalonTrafficGen) : Bool := decide (almostFullValue ≤ s.fifo.usedw)

def ready (s : AvalonTrafficGen) : Bool :=
  if s.fifoFull then !s.doWriteReg && !s.doReadReg
  else match s.state with
    | .idle => true
    | .writeBurst => !s.doWriteReg && !s.doReadReg

def wdataReq (s : AvalonTrafficGen) : Bool :=
  if s.fifoFull then false
  else match s.state with
    | .idle => s.doWriteReg
    | .writeBurst => true

/-- The entry on the input of the command FIFO. -/
def fifoIn (s : AvalonTrafficGen) (wdata : BitVec 64) : Option AvlEntry :=
  if s.fifoFull then none
  else match s.state with
    | .idle =>
        if s.doWriteReg then some ⟨true, false, true, s.writeAddrReg, s.writeBurstcountReg, wdata⟩
        else if s.doReadReg then some ⟨false, true, true, s.readAddrReg, s.readBurstcountReg, wdata⟩
        else none
    | .writeBurst => some ⟨true, false, false, s.lastWriteAddrReg, s.lastWriteBurstcountReg, wdata⟩

def canIssueAvlCmd (s : AvalonTrafficGen) (avlReady : Bool) : Bool := avlReady || !s.avl.req

/-- The entry on the output of the command FIFO. -/
def fifoOut (s : AvalonTrafficGen) (i : TrafficGenIn) : Option AvlEntry :=
  if i.fifoLate then none else s.fifo.store.head?

def nextState (s : AvalonTrafficGen) : TrafficGenState :=
  if s.fifoFull then s.state
  else match s.state with
    | .idle => if s.doWriteReg ∧ 1 < s.writeBurstcountReg then .writeBurst else .idle
    | .writeBurst => if s.burstCounter = 1 then .idle else .writeBurst

def nextBurstCounter (s : AvalonTrafficGen) : Nat :=
  if s.fifoFull then s.burstCounter
  else match s.state with
    | .idle =>
        if s.doWriteReg then (s.writeBurstcountReg + 2 ^ burstcountWidth - 1) % 2 ^ burstcountWidth
        else s.burstCounter
    | .writeBurst => (s.burstCounter + 2 ^ burstcountWidth - 1) % 2 ^ burstcountWidth

/-- The address and the burst count of a burst are kept for its further words. -/
def keepsLast (s : AvalonTrafficGen) : Bool := !s.fifoFull && s.state == .idle && s.doWriteReg

/-- The Avalon signals change only when the memory is ready or nothing is on them; `avl_burstbegin` falls in
any case. -/
def nextAvl (s : AvalonTrafficGen) (i : TrafficGenIn) : AvlEntry :=
  if s.canIssueAvlCmd i.avlReady then
    match s.fifoOut i with
    | none => { s.avl with writeReq := false, readReq := false, burstbegin := false }
    | some e => e
  else { s.avl with burstbegin := false }

def next (s : AvalonTrafficGen) (i : TrafficGenIn) : AvalonTrafficGen :=
  { state := s.nextState
    burstCounter := s.nextBurstCounter
    doWriteReg := if s.ready then i.doWrite else s.doWriteReg
    doReadReg := if s.ready then i.doRead else s.doReadReg
    writeAddrReg := if s.ready then i.writeAddr else s.writeAddrReg
    writeBurstcountReg := if s.ready then i.writeBurstcount else s.writeBurstcountReg
    readAddrReg := if s.ready then i.readAddr else s.readAddrReg
    readBurstcountReg := if s.ready then i.readBurstcount else s.readBurstcountReg
    lastWriteAddrReg := if s.keepsLast then s.writeAddrReg else s.lastWriteAddrReg
    lastWriteBurstcountReg := if s.keepsLast then s.writeBurstcountReg else s.lastWriteBurstcountReg
    pipeline := s.fifoIn i.wdata
    fifo := s.fifo.next s.pipeline
      (if s.canIssueAvlCmd i.avlReady && (s.fifoOut i).isSome then 1 else 0)
    avl := s.nextAvl i }

/-- The Avalon signals that the memory takes. -/
def issued (s : AvalonTrafficGen) (avlReady : Bool) : Option AvlEntry :=
  if s.avl.req && avlReady then some s.avl else none

end AvalonTrafficGen

/-! ## The port of the memory -/

/-- The write burst on the port of the memory: the words still to come of it and the address of the next of
them. -/
structure WrBurst where
  left : Nat
  addr : Nat
  deriving DecidableEq, Repr

namespace WrBurst

def none : WrBurst := ⟨0, 0⟩

/-- The address to which a word is written: the first word of a burst goes to the address on the port and each
further word to the one after it. -/
def writeAddr (b : WrBurst) (e : AvlEntry) : Nat := if b.left = 0 then e.addr else b.addr

/-- The write that an accepted entry does. -/
def write (b : WrBurst) (e : AvlEntry) : Option (Nat × BitVec 64) :=
  if e.writeReq then some (b.writeAddr e, e.wdata) else Option.none

/-- The burst after an accepted entry. -/
def accept (addrWidth : Nat) (b : WrBurst) (e : AvlEntry) : WrBurst :=
  if e.writeReq then ⟨(if b.left = 0 then e.size else b.left) - 1, (b.writeAddr e + 1) % 2 ^ addrWidth⟩ else b

end WrBurst

/-- What the port of the memory keeps: the write burst, and how many read words are accepted and not yet
returned. -/
structure AvlPort where
  wr : WrBurst
  rdWords : Nat
  deriving DecidableEq, Repr

namespace AvlPort

def reset : AvlPort := ⟨WrBurst.none, 0⟩

/-- The words that an entry reads. -/
def readWords (e : AvlEntry) : Nat := if e.writeReq then 0 else if e.readReq then e.size else 0

/-- A cycle in which `e` is accepted, and a read word comes back or not. -/
def next (addrWidth : Nat) (p : AvlPort) (e : Option AvlEntry) (returned : Bool) : AvlPort :=
  { wr := e.elim p.wr (p.wr.accept addrWidth)
    rdWords := p.rdWords + e.elim 0 readWords - returned.toNat }

end AvlPort

end LimeSdrQpcie
