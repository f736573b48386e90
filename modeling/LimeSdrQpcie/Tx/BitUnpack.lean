import LimeSdrQpcie.Hdl.Signal

/-!
# Unpacking 64-bit words into 128-bit sample words

`unpack_64_to_48`, `unpack_64_to_56`, `unpack_64_to_64` and `bit_unpack_64` of the transmit path. A 128-bit
word holds eight 16-bit lanes; a 12-bit or 14-bit sample sits in the upper bits of its lane.
`unpack_64_to_56` is not instantiated in `bit_unpack_64`: its outputs are tied to zero there.
-/

namespace LimeSdrQpcie

open Hdl

/-! ## unpack_64_to_48 -/

/-- The registers of `unpack_64_to_48`. -/
structure Unpack64To48 where
  data64InReg : BitVec 64
  wrCnt : Nat
  word128_0 : Port (BitVec 128)
  word128_1 : Port (BitVec 128)
  data48Out : Port (BitVec 128)
  deriving DecidableEq

namespace Unpack64To48

def reset : Unpack64To48 := ⟨0, 0, ⟨false, 0⟩, ⟨false, 0⟩, ⟨false, 0⟩⟩

/-- Eight 12-bit samples, each with `"0000"` below it. -/
def lanes128 (l7 l6 l5 l4 l3 l2 l1 l0 : BitVec 12) : BitVec 128 :=
  l7 ++ 0#4 ++ l6 ++ 0#4 ++ l5 ++ 0#4 ++ l4 ++ 0#4 ++ l3 ++ 0#4 ++ l2 ++ 0#4 ++ l1 ++ 0#4 ++ l0 ++ 0#4

def formWord128_0 (data64In data64InReg : BitVec 64) : BitVec 128 :=
  lanes128 (data64In.extractLsb 31 20) (data64In.extractLsb 19 8)
    (data64In.extractLsb 7 0 ++ data64InReg.extractLsb 63 60) (data64InReg.extractLsb 59 48)
    (data64InReg.extractLsb 47 36) (data64InReg.extractLsb 35 24) (data64InReg.extractLsb 23 12)
    (data64InReg.extractLsb 11 0)

def formWord128_1 (data64In data64InReg : BitVec 64) : BitVec 128 :=
  lanes128 (data64In.extractLsb 63 52) (data64In.extractLsb 51 40) (data64In.extractLsb 39 28)
    (data64In.extractLsb 27 16) (data64In.extractLsb 15 4)
    (data64In.extractLsb 3 0 ++ data64InReg.extractLsb 63 56) (data64InReg.extractLsb 55 44)
    (data64InReg.extractLsb 43 32)

def data128OutMux (s : Unpack64To48) : BitVec 128 :=
  if s.word128_0.valid then s.word128_0.data else s.word128_1.data

def next (s : Unpack64To48) (data64In : Port (BitVec 64)) : Unpack64To48 :=
  { data64InReg := if data64In.valid then data64In.data else s.data64InReg
    wrCnt := if data64In.valid then (if s.wrCnt < 2 then s.wrCnt + 1 else 0) else s.wrCnt
    word128_0 :=
      if s.wrCnt = 1 ∧ data64In.valid then ⟨true, formWord128_0 data64In.data s.data64InReg⟩
      else ⟨false, s.word128_0.data⟩
    word128_1 :=
      if s.wrCnt = 2 ∧ data64In.valid then ⟨true, formWord128_1 data64In.data s.data64InReg⟩
      else ⟨false, s.word128_1.data⟩
    data48Out := ⟨s.word128_0.valid || s.word128_1.valid, s.data128OutMux⟩ }

def circuit : Circuit Unpack64To48 (Port (BitVec 64)) := ⟨reset, next⟩

end Unpack64To48

/-! ## unpack_64_to_56 -/

/-- The registers of `unpack_64_to_56`. `data64_in_reg_1` has no reset; it is not read before it is
written. -/
structure Unpack64To56 where
  data64InReg0 : BitVec 64
  data64InReg1 : BitVec 64
  wrCnt : Nat
  word128_0 : Port (BitVec 128)
  word128_1 : Port (BitVec 128)
  word128_2 : Port (BitVec 128)
  word128_3 : Port (BitVec 128)
  muxStage0_1_0_reg : BitVec 128
  muxStage0_3_2_reg : BitVec 128
  muxStage1_3_0_sel : Bool
  muxStage1_3_0_reg : BitVec 128
  dataOutValidReg : Bool
  dataOutValidPipe : Bool
  deriving DecidableEq

namespace Unpack64To56

def reset : Unpack64To56 :=
  { data64InReg0 := 0, data64InReg1 := 0, wrCnt := 0, word128_0 := ⟨false, 0⟩, word128_1 := ⟨false, 0⟩,
    word128_2 := ⟨false, 0⟩, word128_3 := ⟨false, 0⟩, muxStage0_1_0_reg := 0, muxStage0_3_2_reg := 0,
    muxStage1_3_0_sel := false, muxStage1_3_0_reg := 0, dataOutValidReg := false, dataOutValidPipe := false }

/-- Eight 14-bit samples, each with `"00"` below it. -/
def lanes128 (l7 l6 l5 l4 l3 l2 l1 l0 : BitVec 14) : BitVec 128 :=
  l7 ++ 0#2 ++ l6 ++ 0#2 ++ l5 ++ 0#2 ++ l4 ++ 0#2 ++ l3 ++ 0#2 ++ l2 ++ 0#2 ++ l1 ++ 0#2 ++ l0 ++ 0#2

def formWord128_0 (data64In reg0 : BitVec 64) : BitVec 128 :=
  lanes128 (data64In.extractLsb 47 34) (data64In.extractLsb 33 20) (data64In.extractLsb 19 6)
    (data64In.extractLsb 5 0 ++ reg0.extractLsb 63 56) (reg0.extractLsb 55 42) (reg0.extractLsb 41 28)
    (reg0.extractLsb 27 14) (reg0.extractLsb 13 0)

def formWord128_1 (data64In reg0 reg1 : BitVec 64) : BitVec 128 :=
  lanes128 (data64In.extractLsb 31 18) (data64In.extractLsb 17 4)
    (data64In.extractLsb 3 0 ++ reg0.extractLsb 63 54) (reg0.extractLsb 53 40) (reg0.extractLsb 39 26)
    (reg0.extractLsb 25 12) (reg0.extractLsb 11 0 ++ reg1.extractLsb 63 62) (reg1.extractLsb 61 48)

def formWord128_2 (data64In reg0 reg1 : BitVec 64) : BitVec 128 :=
  lanes128 (data64In.extractLsb 15 2) (data64In.extractLsb 1 0 ++ reg0.extractLsb 63 52)
    (reg0.extractLsb 51 38) (reg0.extractLsb 37 24) (reg0.extractLsb 23 10)
    (reg0.extractLsb 9 0 ++ reg1.extractLsb 63 60) (reg1.extractLsb 59 46) (reg1.extractLsb 45 32)

def formWord128_3 (data64In reg0 : BitVec 64) : BitVec 128 :=
  lanes128 (data64In.extractLsb 63 50) (data64In.extractLsb 49 36) (data64In.extractLsb 35 22)
    (data64In.extractLsb 21 8) (data64In.extractLsb 7 0 ++ reg0.extractLsb 63 58) (reg0.extractLsb 57 44)
    (reg0.extractLsb 43 30) (reg0.extractLsb 29 16)

/-- A word register of the formation stages: it loads `w` when `wr_cnt` is at its phase `k`. -/
def wordReg (s : Unpack64To56) (data64In : Port (BitVec 64)) (k : Nat) (old : Port (BitVec 128))
    (w : BitVec 128) : Port (BitVec 128) :=
  if s.wrCnt = k ∧ data64In.valid then ⟨true, w⟩ else ⟨false, old.data⟩

def muxStage0_1_0 (s : Unpack64To56) : BitVec 128 :=
  if s.word128_0.valid then s.word128_0.data else s.word128_1.data

def muxStage0_3_2 (s : Unpack64To56) : BitVec 128 :=
  if s.word128_2.valid then s.word128_2.data else s.word128_3.data

def muxStage1_3_0 (s : Unpack64To56) : BitVec 128 :=
  if s.muxStage1_3_0_sel then s.muxStage0_1_0_reg else s.muxStage0_3_2_reg

def next (s : Unpack64To56) (data64In : Port (BitVec 64)) : Unpack64To56 :=
  { data64InReg0 := if data64In.valid then data64In.data else s.data64InReg0
    data64InReg1 := if data64In.valid then s.data64InReg0 else s.data64InReg1
    wrCnt := if data64In.valid then (if s.wrCnt < 6 then s.wrCnt + 1 else 0) else s.wrCnt
    word128_0 := s.wordReg data64In 1 s.word128_0 (formWord128_0 data64In.data s.data64InReg0)
    word128_1 := s.wordReg data64In 3 s.word128_1 (formWord128_1 data64In.data s.data64InReg0 s.data64InReg1)
    word128_2 := s.wordReg data64In 5 s.word128_2 (formWord128_2 data64In.data s.data64InReg0 s.data64InReg1)
    word128_3 := s.wordReg data64In 6 s.word128_3 (formWord128_3 data64In.data s.data64InReg0)
    muxStage0_1_0_reg := s.muxStage0_1_0
    muxStage0_3_2_reg := s.muxStage0_3_2
    muxStage1_3_0_sel := s.word128_0.valid || s.word128_1.valid
    muxStage1_3_0_reg := s.muxStage1_3_0
    dataOutValidReg :=
      s.word128_0.valid || s.word128_1.valid || s.word128_2.valid || s.word128_3.valid
    dataOutValidPipe := s.dataOutValidReg }

def data56Out (s : Unpack64To56) : Port (BitVec 128) := ⟨s.dataOutValidPipe, s.muxStage1_3_0_reg⟩

def circuit : Circuit Unpack64To56 (Port (BitVec 64)) := ⟨reset, next⟩

end Unpack64To56

/-! ## unpack_64_to_64 -/

/-- The registers of `unpack_64_to_64`. -/
structure Unpack64To64 where
  data64InReg : BitVec 64
  wrCnt : Nat
  word128_0 : Port (BitVec 128)
  deriving DecidableEq

namespace Unpack64To64

def reset : Unpack64To64 := ⟨0, 0, ⟨false, 0⟩⟩

def next (s : Unpack64To64) (data64In : Port (BitVec 64)) : Unpack64To64 :=
  { data64InReg := if data64In.valid then data64In.data else s.data64InReg
    wrCnt := if data64In.valid then (if s.wrCnt < 1 then s.wrCnt + 1 else 0) else s.wrCnt
    word128_0 :=
      if s.wrCnt = 1 ∧ data64In.valid then ⟨true, data64In.data ++ s.data64InReg⟩
      else ⟨false, s.word128_0.data⟩ }

def data64Out (s : Unpack64To64) : Port (BitVec 128) := s.word128_0

def circuit : Circuit Unpack64To64 (Port (BitVec 64)) := ⟨reset, next⟩

end Unpack64To64

/-! ## bit_unpack_64 -/

/-- The registers of `bit_unpack_64`. -/
structure BitUnpack64 where
  inst0 : Unpack64To48
  inst2 : Unpack64To64
  mux0Reg : Port (BitVec 128)
  mux1Reg : Port (BitVec 128)
  deriving DecidableEq

namespace BitUnpack64

def reset : BitUnpack64 := ⟨Unpack64To48.reset, Unpack64To64.reset, ⟨false, 0⟩, ⟨false, 0⟩⟩

/-- The constants that stand for `unpack_64_to_56`. -/
def inst1Data56Out : Port (BitVec 128) := ⟨false, 0⟩

def mux0 (s : BitUnpack64) (sampleWidth : BitVec 2) : Port (BitVec 128) :=
  if sampleWidth.getLsbD 1 then s.inst0.data48Out else inst1Data56Out

def mux1 (s : BitUnpack64) (sampleWidth : BitVec 2) : Port (BitVec 128) :=
  if sampleWidth.getLsbD 1 || sampleWidth.getLsbD 0 then s.mux0Reg else s.inst2.data64Out

def next (s : BitUnpack64) (sampleWidth : BitVec 2) (dataIn : Port (BitVec 64)) : BitUnpack64 :=
  { inst0 := s.inst0.next dataIn
    inst2 := s.inst2.next dataIn
    mux0Reg := s.mux0 sampleWidth
    mux1Reg := s.mux1 sampleWidth }

def dataOut (s : BitUnpack64) : Port (BitVec 128) := s.mux1Reg

def circuit (sampleWidth : BitVec 2) : Circuit BitUnpack64 (Port (BitVec 64)) :=
  ⟨reset, fun s i => s.next sampleWidth i⟩

end BitUnpack64

end LimeSdrQpcie
