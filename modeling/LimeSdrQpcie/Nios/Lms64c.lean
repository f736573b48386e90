import LimeSdrQpcie.Prog.Wp

/-!
# The LMS64C control protocol

A control packet is a header of eight bytes and a data field of 56.
-/

namespace LimeSdrQpcie

namespace Nios

abbrev Byte := BitVec 8

/-- The length of `Data_field`. -/
def dataFieldSize : Nat := 56

/-! ## Commands -/

/-- The commands that the switch of the main loop lists. -/
inductive Command where
  | getInfo
  | lmsRst
  | lms7002Wr
  | lms7002Rd
  | brdspi16Wr
  | brdspi16Rd
  | adf4002Wr
  | analogValRd
  | analogValWr
  | si5351Wr
  | si5351Rd
  deriving DecidableEq, Repr

namespace Command

/-- The codes `CMD_...`. -/
def code : Command → Byte
  | getInfo => 0x00
  | lmsRst => 0x20
  | lms7002Wr => 0x21
  | lms7002Rd => 0x22
  | brdspi16Wr => 0x55
  | brdspi16Rd => 0x56
  | adf4002Wr => 0x31
  | analogValRd => 0x62
  | analogValWr => 0x61
  | si5351Wr => 0x13
  | si5351Rd => 0x14

def all : List Command :=
  [getInfo, lmsRst, lms7002Wr, lms7002Rd, brdspi16Wr, brdspi16Rd, adf4002Wr, analogValRd, analogValWr, si5351Wr,
    si5351Rd]

/-- The case of the switch that a command byte selects. -/
def ofCode (b : Byte) : Option Command := all.find? fun c => c.code == b

end Command

/-! ## Statuses -/

def statusCompletedCmd : Byte := 1
def statusUnknownCmd : Byte := 2
def statusBusyCmd : Byte := 3
def statusBlocksErrorCmd : Byte := 4
def statusErrorCmd : Byte := 5
def statusInvalidPeriphIdCmd : Byte := 8

/-- The operations of `CMD_LMS_RST`. -/
def lmsRstDeactivate : Byte := 0
def lmsRstActivate : Byte := 1
def lmsRstPulse : Byte := 2

/-! ## Packets -/

/-- The header less its four reserved bytes, which nothing reads. -/
structure CtrlHeader where
  command : Byte
  status : Byte
  dataBlocks : Byte
  periphID : Byte
  deriving DecidableEq

structure CtrlPacket where
  header : CtrlHeader
  dataField : Fin dataFieldSize → Byte

/-- A packet filled with zeros by `memset`. -/
def CtrlPacket.zero : CtrlPacket := ⟨⟨0, 0, 0, 0⟩, fun _ => 0⟩

/-- The byte at an index of the data field, zero from its end on. -/
def CtrlPacket.field (p : CtrlPacket) (i : Nat) : Byte :=
  if h : i < dataFieldSize then p.dataField ⟨i, h⟩ else 0

/-- The bytes of the data field from index `i` on. -/
def CtrlPacket.bytes (p : CtrlPacket) (i n : Nat) : List Byte := (List.range n).map fun k => p.field (i + k)

/-- How many blocks the header announces. -/
def CtrlPacket.blocks (p : CtrlPacket) : Nat := p.header.dataBlocks.toNat

/-- The case of the switch for the packet. -/
def CtrlPacket.cmd (p : CtrlPacket) : Option Command := Command.ofCode p.header.command

end Nios

end LimeSdrQpcie
