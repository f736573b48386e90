import LimeSdrQpcie.Hdl.Fifo

/-!
# The control channel

`avfifo` between the control FIFOs of the PCIe core and the main loop of the firmware. A read on the Avalon bus
takes two cycles and a write one; the processor executes other instructions between two accesses. The host keeps
both directions open. What the switch makes of a packet is a parameter.
-/

namespace LimeSdrQpcie

namespace Nios

open Hdl

abbrev Word := BitVec 32

/-! ## avfifo -/

/-- What the master of the Avalon bus drives. -/
structure AvalonBus where
  chipselect : Bool
  read : Bool
  write : Bool
  address : BitVec 2
  writedata : Word
  deriving DecidableEq, Repr

def AvalonBus.idle : AvalonBus := ⟨false, false, false, 0, 0⟩
def AvalonBus.iord (address : BitVec 2) : AvalonBus := ⟨true, true, false, address, 0⟩
def AvalonBus.iowr (address : BitVec 2) (data : Word) : AvalonBus := ⟨true, false, true, address, data⟩

/-- The registers of `avfifo`. -/
structure Avfifo where
  fifordReg : Bool
  statusReg : Word
  coeFifoRst : Bool
  deriving DecidableEq, Repr

namespace Avfifo

def reset : Avfifo := ⟨false, 0, false⟩

def fiford (b : AvalonBus) (rdempty : Bool) : Bool := b.chipselect && b.read && b.address == 1 && !rdempty

def coeIfRd (s : Avfifo) (b : AvalonBus) (rdempty : Bool) : Bool := !s.fifordReg && fiford b rdempty

def coeOfWr (b : AvalonBus) (wrfull : Bool) : Bool := b.chipselect && b.write && b.address == 0 && !wrfull

def readdata (s : Avfifo) (b : AvalonBus) (coeIfD : Word) : Word :=
  if b.address = 1 then coeIfD else if b.address = 2 then s.statusReg else 0

def next (s : Avfifo) (b : AvalonBus) (wrfull rdempty : Bool) : Avfifo where
  fifordReg := fiford b rdempty
  statusReg := (s.statusReg &&& ~~~3) ||| (if wrfull then 2 else 0) ||| (if rdempty then 1 else 0)
  coeFifoRst := if b.chipselect && b.write && b.address == 3 then b.writedata.getLsbD 0 else s.coeFifoRst

end Avfifo

/-! ## The main loop -/

/-- How many words a packet has. -/
def packetWords : Nat := 16

/-- The switch: what it makes of a packet received, over the memory `σ` of the firmware. -/
structure Switch (σ : Type) where
  answer : σ → List Word → σ × List Word
  length_answer : ∀ m ws, (answer m ws).2.length = packetWords

/-- The next access of the main loop: the status, the two writes that toggle the reset, a word of the packet
behind the words `buf`, the first word of what is left of the reply. -/
inductive Pc where
  | poll
  | rstOn
  | rstOff
  | getFifoData (buf : List Word)
  | reply (ws : List Word)
  deriving DecidableEq, Repr

def Pc.isRead : Pc → Bool
  | poll | getFifoData _ => true
  | rstOn | rstOff | reply _ => false

/-- Where in an access the processor is: before it, in the second cycle of a read, behind it. -/
inductive Phase where
  | idle
  | waiting
  | gap
  deriving DecidableEq, Repr

structure MainLoop (σ : Type) where
  pc : Pc
  phase : Phase
  mem : σ

namespace MainLoop

variable {σ : Type}

def access : Pc → AvalonBus
  | .poll => .iord 2
  | .rstOn => .iowr 3 1
  | .rstOff => .iowr 3 0
  | .getFifoData _ => .iord 1
  | .reply ws => .iowr 0 (ws.headD 0)

/-- What the processor drives; `go` tells that it begins its next access in this cycle. -/
def bus (s : MainLoop σ) (go : Bool) : AvalonBus :=
  match s.phase with
  | .idle => if go then access s.pc else .idle
  | .waiting => access s.pc
  | .gap => .idle

/-- The end of an access that has read `d`. -/
def complete (sw : Switch σ) (s : MainLoop σ) (d : Word) : MainLoop σ :=
  match s.pc with
  | .poll => { s with pc := if d.getLsbD 0 then .poll else .rstOn, phase := .gap }
  | .rstOn => { s with pc := .rstOff, phase := .gap }
  | .rstOff => { s with pc := .getFifoData [], phase := .gap }
  | .getFifoData buf =>
    if buf.length + 1 = packetWords then
      { pc := .reply (sw.answer s.mem (buf ++ [d])).2, phase := .gap, mem := (sw.answer s.mem (buf ++ [d])).1 }
    else { s with pc := .getFifoData (buf ++ [d]), phase := .gap }
  | .reply ws => { s with pc := if ws.tail = [] then .poll else .reply ws.tail, phase := .gap }

def next (sw : Switch σ) (s : MainLoop σ) (go : Bool) (d : Word) : MainLoop σ :=
  match s.phase with
  | .idle => if go then (if s.pc.isRead then { s with phase := .waiting } else s.complete sw d) else s
  | .waiting => s.complete sw d
  | .gap => { s with phase := .idle }

end MainLoop

/-! ## The channel -/

/-- The command FIFO with its output register, the reply FIFO, `avfifo` and the firmware. The FIFOs are reset only by
the host, which closes the device file of their direction; `pcie_top` leaves `F2H_C0_aclrn`, where `coe_fifo_rst` goes,
open. -/
structure Channel (σ : Type) (cmdDepth replyDepth : Nat) where
  h2fC0 : Fifo Word cmdDepth
  h2fC0Rdata : Word
  f2hC0 : Fifo Word replyDepth
  avfifo : Avfifo
  loop : MainLoop σ

/-- The sides of the channel in one cycle: the word the host writes, whether it reads a reply word, whether the
processor begins an access. -/
structure ChannelIn where
  hostWr : Option Word
  hostRd : Bool
  go : Bool

namespace Channel

variable {σ : Type} {cmdDepth replyDepth : Nat}

def h2fC0Rempty (s : Channel σ cmdDepth replyDepth) : Bool := s.h2fC0.store.isEmpty

def h2fC0Rd (s : Channel σ cmdDepth replyDepth) (i : ChannelIn) : Bool :=
  s.avfifo.coeIfRd (s.loop.bus i.go) s.h2fC0Rempty

def f2hC0Wr (s : Channel σ cmdDepth replyDepth) (i : ChannelIn) : Bool :=
  Avfifo.coeOfWr (s.loop.bus i.go) s.f2hC0.isFull

/-- What the firmware sees on the bus. -/
def readdata (s : Channel σ cmdDepth replyDepth) (i : ChannelIn) : Word :=
  s.avfifo.readdata (s.loop.bus i.go) s.h2fC0Rdata

/-- The write port of the reply FIFO. -/
def replyPort (s : Channel σ cmdDepth replyDepth) (i : ChannelIn) : Option Word :=
  if s.f2hC0Wr i then some (s.loop.bus i.go).writedata else none

def next (sw : Switch σ) (s : Channel σ cmdDepth replyDepth) (i : ChannelIn) : Channel σ cmdDepth replyDepth where
  h2fC0 := s.h2fC0.next i.hostWr (if s.h2fC0Rd i then 1 else 0)
  h2fC0Rdata := if s.h2fC0Rd i then s.h2fC0.store.headD s.h2fC0Rdata else s.h2fC0Rdata
  f2hC0 := s.f2hC0.next (s.replyPort i) (if i.hostRd then 1 else 0)
  avfifo := s.avfifo.next (s.loop.bus i.go) s.f2hC0.isFull s.h2fC0Rempty
  loop := s.loop.next sw i.go (s.readdata i)

def circuit (sw : Switch σ) (m : σ) : Circuit (Channel σ cmdDepth replyDepth) ChannelIn where
  reset := ⟨Fifo.empty, 0, Fifo.empty, Avfifo.reset, ⟨.poll, .idle, m⟩⟩
  next := next sw

/-! ## What happens in a cycle -/

/-- The word that enters the command FIFO. -/
def arrival (s : Channel σ cmdDepth replyDepth) (i : ChannelIn) : Option Word := s.h2fC0.accepted i.hostWr

/-- The packet that `getFifoData` has read and the switch processes. -/
def packet (s : Channel σ cmdDepth replyDepth) (i : ChannelIn) : Option (List Word) :=
  match s.loop.pc with
  | .getFifoData buf =>
    if s.loop.phase = .waiting ∧ buf.length + 1 = packetWords then some (buf ++ [s.readdata i]) else none
  | _ => none

/-- The word that enters the reply FIFO. -/
def replyWord (s : Channel σ cmdDepth replyDepth) (i : ChannelIn) : Option Word := s.f2hC0.accepted (s.replyPort i)

end Channel

end Nios

end LimeSdrQpcie
