import LimeSdrQpcie.Hdl.Signal

/-!
# The automatic DC correction

`dccorra` averages the samples of both channels over blocks and takes the mean of the last block off the samples.
The length of the blocks, which `avg` selects, does not change during a run.
-/

namespace LimeSdrQpcie

open Hdl

structure DcCorrAIn where
  en : Bool
  bypass : Bool
  xi : BitVec 18
  xq : BitVec 18

structure DcCorrA where
  creg : BitVec 19
  aregi : BitVec 37
  aregq : BitVec 37
  dcregi : BitVec 18
  dcregq : BitVec 18
  yi : BitVec 18
  yq : BitVec 18

namespace DcCorrA

def reset : DcCorrA := ⟨0, 0, 0, 0, 0, 0, 0⟩

def ren (avg : BitVec 3) (creg : BitVec 19) : Bool :=
  if creg = 0b1111111111111111111 ∧ avg = 0b111 then true
  else if creg.extractLsb 17 0 = 0b111111111111111111#18 ∧ avg = 0b110 then true
  else if creg.extractLsb 16 0 = 0b11111111111111111#17 ∧ avg = 0b101 then true
  else if creg.extractLsb 15 0 = 0b1111111111111111#16 ∧ avg = 0b100 then true
  else if creg.extractLsb 14 0 = 0b111111111111111#15 ∧ avg = 0b011 then true
  else if creg.extractLsb 13 0 = 0b11111111111111#14 ∧ avg = 0b010 then true
  else if creg.extractLsb 12 0 = 0b1111111111111#13 ∧ avg = 0b001 then true
  else if creg.extractLsb 11 0 = 0b111111111111#12 ∧ avg = 0b000 then true
  else false

/-- The slice of an accumulator that goes into its DC register. -/
def dcSlice (avg : BitVec 3) (areg : BitVec 37) : BitVec 18 :=
  if avg = 0b111 then areg.extractLsb 36 19
  else if avg = 0b110 then areg.extractLsb 35 18
  else if avg = 0b101 then areg.extractLsb 34 17
  else if avg = 0b100 then areg.extractLsb 33 16
  else if avg = 0b011 then areg.extractLsb 32 15
  else if avg = 0b010 then areg.extractLsb 31 14
  else if avg = 0b001 then areg.extractLsb 30 13
  else areg.extractLsb 29 12

/-- An accumulator after an enabled sample `x`. -/
def aregNext (ren : Bool) (areg : BitVec 37) (x : BitVec 18) : BitVec 37 :=
  if ren then x.signExtend 37 else areg + x.signExtend 37

def next (avg : BitVec 3) (s : DcCorrA) (i : DcCorrAIn) : DcCorrA :=
  let ren := ren avg s.creg
  { creg := if i.en then s.creg + 1 else s.creg
    aregi := if i.en then aregNext ren s.aregi i.xi else s.aregi
    aregq := if i.en then aregNext ren s.aregq i.xq else s.aregq
    dcregi := if i.en && ren then dcSlice avg s.aregi else s.dcregi
    dcregq := if i.en && ren then dcSlice avg s.aregq else s.dcregq
    yi := if i.en then (if i.bypass then i.xi else i.xi - s.dcregi) else s.yi
    yq := if i.en then (if i.bypass then i.xq else i.xq - s.dcregq) else s.yq }

def circuit (avg : BitVec 3) : Circuit DcCorrA DcCorrAIn := ⟨reset, next avg⟩

end DcCorrA

end LimeSdrQpcie
