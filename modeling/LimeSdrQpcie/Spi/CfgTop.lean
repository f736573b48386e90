import LimeSdrQpcie.Spi.Mcfg32wm

/-!
# The register modules behind one serial port

`memcfg` and `cfg_top`. Of the modules beside `fpgacfg`, `pllcfg` and `memcfg` only the address, the enable line and
the size of the memory are fixed here; what their muxes show and what their memories capture is a parameter.
-/

namespace LimeSdrQpcie

open Hdl

/-! ## memcfg -/

def memcfg (maddress : BitVec 10) (mimoEn : Bool) : SpiModule Unit :=
  { maddress := maddress
    mimoEn := mimoEn
    store := Mem32x16.write
    doutMux := fun _ mem a => if a = 0b00001 then 0x0001 else mem a
    capture := fun _ mem => mem }

/-! ## cfg_top -/

/-- The instances of `cfg_top`. -/
inductive CfgInst where
  | inst0_0
  | inst0_1
  | inst0_2
  | inst1
  | inst3
  | inst4_0
  | inst4_1
  | inst5
  | inst6
  | inst7
  | inst8
  | inst255
  deriving DecidableEq, Repr

namespace CfgInst

def all : List CfgInst :=
  [inst0_0, inst0_1, inst0_2, inst1, inst3, inst4_0, inst4_1, inst5, inst6, inst7, inst8, inst255]

theorem mem_all (i : CfgInst) : i ∈ all := by
  cases i <;> decide

/-- The start address in the generics of `cfg_top`. -/
def startAddr : CfgInst → Nat
  | inst0_0 | inst0_1 | inst0_2 => 0
  | inst1 => 32
  | inst3 => 96
  | inst4_0 | inst4_1 => 128
  | inst5 => 160
  | inst6 => 192
  | inst7 => 224
  | inst8 => 256
  | inst255 => 65504

/-- `to_unsigned(START_ADDR/32, 10)`, which keeps the low ten bits. -/
def maddress (i : CfgInst) : BitVec 10 := BitVec.ofNat 10 (i.startAddr / 32)

/-- How many words the memory has: that of `txtspcfg` and `rxtspcfg` is a `marray16x16`. -/
def words : CfgInst → Nat
  | inst4_0 | inst4_1 | inst5 => 16
  | _ => 32

/-- The bit of `mac` that lets `sen` through to the instance. -/
def macBit : CfgInst → Option Nat
  | inst0_0 => some 0
  | inst0_1 => some 1
  | inst0_2 => some 2
  | inst4_0 => some 0
  | inst4_1 => some 1
  | inst5 => some 0
  | _ => none

/-- Whether the instance gets `sen`. -/
def enabled (i : CfgInst) (mac : BitVec 16) : Bool :=
  match i.macBit with
  | some k => mac.getLsbD k
  | none => true

/-- The `sen` of the instance. -/
def senOf (i : CfgInst) (mac : BitVec 16) (sen : Bool) : Bool := if i.enabled mac then sen else true

end CfgInst

/-- The inputs of the register modules, `ρ` those of the modules that stay parameters. -/
structure CfgPins (ρ : Type) where
  toFpgacfg0 : ToFpgacfg
  toFpgacfg1 : ToFpgacfg
  toFpgacfg2 : ToFpgacfg
  toPllcfg : ToPllcfg
  others : ρ

/-- A register module that sees a part of the inputs. -/
def SpiModule.onPins {π κ : Type} (M : SpiModule π) (f : κ → π) : SpiModule κ :=
  { maddress := M.maddress
    mimoEn := M.mimoEn
    store := M.store
    doutMux := fun pins => M.doutMux (f pins)
    capture := fun pins => M.capture (f pins) }

/-- The muxes and the captures of the modules that stay parameters, and what becomes of a memory that is written at an
index it does not have: the instruction word has five bits for it, a `marray16x16` needs four. -/
structure OtherCfg (ρ : Type) where
  doutMux : CfgInst → ρ → Mem32x16 → BitVec 5 → BitVec 16
  capture : CfgInst → ρ → Mem32x16 → Mem32x16
  outside : CfgInst → Mem32x16 → BitVec 5 → BitVec 16 → Mem32x16

namespace CfgTop

variable {ρ : Type}

def module (other : OtherCfg ρ) (i : CfgInst) : SpiModule (CfgPins ρ) :=
  match i with
  | .inst0_0 => (fpgacfg i.maddress true).onPins CfgPins.toFpgacfg0
  | .inst0_1 => (fpgacfg i.maddress true).onPins CfgPins.toFpgacfg1
  | .inst0_2 => (fpgacfg i.maddress true).onPins CfgPins.toFpgacfg2
  | .inst1 => (pllcfg i.maddress true).onPins CfgPins.toPllcfg
  | .inst255 => (memcfg i.maddress true).onPins fun _ => ()
  | _ => { maddress := i.maddress, mimoEn := true,
           store := fun mem a v => if a.toNat < i.words then mem.write a v else other.outside i mem a v,
           doutMux := fun pins => other.doutMux i pins.others, capture := fun pins => other.capture i pins.others }

/-- `mac`, register 31 of `memcfg`. -/
def mac (s : CfgInst → SpiSlave) : BitVec 16 := (s .inst255).mem 31

/-- The level of `sen`, which `memcfg` gets as it is. -/
def sen (s : CfgInst → SpiSlave) : Bool := (s .inst255).sen

/-- An event reaches every instance with its own `sen`; after a rising edge `mac` may let other instances
through. -/
def next (other : OtherCfg ρ) (s : CfgInst → SpiSlave) : SerialEvent (CfgPins ρ) → CfgInst → SpiSlave
  | .rise sdin pins =>
      let risen := fun i => (s i).rise (module other i) sdin pins
      fun i => (risen i).enable (i.senOf (mac risen) (sen s))
  | .fall pins => fun i => (s i).fall (module other i) pins
  | .enable b => fun i => (s i).enable (i.senOf (mac s) b)

def run (other : OtherCfg ρ) (s : CfgInst → SpiSlave) (es : List (SerialEvent (CfgPins ρ))) : CfgInst → SpiSlave :=
  es.foldl (next other) s

def sdout (other : OtherCfg ρ) (s : CfgInst → SpiSlave) : Bool :=
  CfgInst.all.any fun i => (s i).sdout (module other i)

end CfgTop

end LimeSdrQpcie
