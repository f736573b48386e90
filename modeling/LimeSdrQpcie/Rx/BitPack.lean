import LimeSdrQpcie.Hdl.Signal

/-!
# Packing samples into 64-bit words

`pack_48_to_64`, `pack_56_to_64` and `bit_pack` of the receive path. A port is a data vector with its valid
or request strobe; `a & b` of the source is `a ++ b` and `v(hi downto lo)` is `v.extractLsb hi lo`.
-/

namespace LimeSdrQpcie

open Hdl

/-! ## pack_48_to_64 -/

/-- The registers of `pack_48_to_64`. -/
structure Pack48To64 where
  data48InReg : BitVec 48
  wrCnt : Nat
  word64_0 : Port (BitVec 64)
  word64_1 : Port (BitVec 64)
  word64_2 : Port (BitVec 64)
  data64Out : Port (BitVec 64)
  deriving DecidableEq

namespace Pack48To64

def reset : Pack48To64 := ⟨0, 0, ⟨false, 0⟩, ⟨false, 0⟩, ⟨false, 0⟩, ⟨false, 0⟩⟩

def data64OutMux (s : Pack48To64) : BitVec 64 :=
  if s.word64_0.valid then s.word64_0.data
  else if s.word64_1.valid then s.word64_1.data
  else s.word64_2.data

def next (s : Pack48To64) (dataIn : Port (BitVec 48)) : Pack48To64 :=
  { data48InReg := if dataIn.valid then dataIn.data else s.data48InReg
    wrCnt := if dataIn.valid then (if s.wrCnt < 3 then s.wrCnt + 1 else 0) else s.wrCnt
    word64_0 :=
      if s.wrCnt = 1 ∧ dataIn.valid then ⟨true, dataIn.data.extractLsb 15 0 ++ s.data48InReg⟩
      else ⟨false, s.word64_0.data⟩
    word64_1 :=
      if s.wrCnt = 2 ∧ dataIn.valid then
        ⟨true, dataIn.data.extractLsb 31 0 ++ s.data48InReg.extractLsb 47 16⟩
      else ⟨false, s.word64_1.data⟩
    word64_2 :=
      if s.wrCnt = 3 ∧ dataIn.valid then
        ⟨true, dataIn.data.extractLsb 47 0 ++ s.data48InReg.extractLsb 47 32⟩
      else ⟨false, s.word64_2.data⟩
    data64Out := ⟨s.word64_0.valid || s.word64_1.valid || s.word64_2.valid, s.data64OutMux⟩ }

def circuit : Circuit Pack48To64 (Port (BitVec 48)) := ⟨reset, next⟩

end Pack48To64

/-! ## pack_56_to_64 -/

/-- The registers of `pack_56_to_64`: the seven word registers, then three stages of output multiplexer.
The valid pipes of the single words are not read by anything. -/
structure Pack56To64 where
  data56InReg : BitVec 56
  wrCnt : Nat
  word64_0 : Port (BitVec 64)
  word64_1 : Port (BitVec 64)
  word64_2 : Port (BitVec 64)
  word64_3 : Port (BitVec 64)
  word64_4 : Port (BitVec 64)
  word64_5 : Port (BitVec 64)
  word64_6 : Port (BitVec 64)
  muxStage0_X_0_reg : BitVec 64
  muxStage0_2_1_reg : BitVec 64
  muxStage0_4_3_reg : BitVec 64
  muxStage0_6_5_reg : BitVec 64
  muxStage1_2_0_sel : Bool
  muxStage1_6_3_sel_0 : Bool
  muxStage1_6_3_sel_1 : Bool
  muxStage1_2_0_reg : BitVec 64
  muxStage1_6_3_reg : BitVec 64
  muxStage2_6_0_sel : Bool
  muxStage2_6_0_reg : BitVec 64
  dataOutValidReg : Bool
  dataOutValidPipe0 : Bool
  dataOutValidPipe1 : Bool
  deriving DecidableEq

namespace Pack56To64

def reset : Pack56To64 :=
  { data56InReg := 0, wrCnt := 0, word64_0 := ⟨false, 0⟩, word64_1 := ⟨false, 0⟩, word64_2 := ⟨false, 0⟩,
    word64_3 := ⟨false, 0⟩, word64_4 := ⟨false, 0⟩, word64_5 := ⟨false, 0⟩, word64_6 := ⟨false, 0⟩,
    muxStage0_X_0_reg := 0, muxStage0_2_1_reg := 0, muxStage0_4_3_reg := 0, muxStage0_6_5_reg := 0,
    muxStage1_2_0_sel := false, muxStage1_6_3_sel_0 := false, muxStage1_6_3_sel_1 := false,
    muxStage1_2_0_reg := 0, muxStage1_6_3_reg := 0, muxStage2_6_0_sel := false, muxStage2_6_0_reg := 0,
    dataOutValidReg := false, dataOutValidPipe0 := false, dataOutValidPipe1 := false }

/-- A word register of the formation stages: it loads `w` when `wr_cnt` is at its phase `k`. -/
def wordReg (s : Pack56To64) (dataIn : Port (BitVec 56)) (k : Nat) (old : Port (BitVec 64)) (w : BitVec 64) :
    Port (BitVec 64) :=
  if s.wrCnt = k ∧ dataIn.valid then ⟨true, w⟩ else ⟨false, old.data⟩

def next (s : Pack56To64) (dataIn : Port (BitVec 56)) : Pack56To64 :=
  { data56InReg := if dataIn.valid then dataIn.data else s.data56InReg
    wrCnt := if dataIn.valid then (if s.wrCnt < 7 then s.wrCnt + 1 else 0) else s.wrCnt
    word64_0 := s.wordReg dataIn 1 s.word64_0 (dataIn.data.extractLsb 7 0 ++ s.data56InReg)
    word64_1 := s.wordReg dataIn 2 s.word64_1
      (dataIn.data.extractLsb 15 0 ++ s.data56InReg.extractLsb 55 8)
    word64_2 := s.wordReg dataIn 3 s.word64_2
      (dataIn.data.extractLsb 23 0 ++ s.data56InReg.extractLsb 55 16)
    word64_3 := s.wordReg dataIn 4 s.word64_3
      (dataIn.data.extractLsb 31 0 ++ s.data56InReg.extractLsb 55 24)
    word64_4 := s.wordReg dataIn 5 s.word64_4
      (dataIn.data.extractLsb 39 0 ++ s.data56InReg.extractLsb 55 32)
    word64_5 := s.wordReg dataIn 6 s.word64_5
      (dataIn.data.extractLsb 47 0 ++ s.data56InReg.extractLsb 55 40)
    word64_6 := s.wordReg dataIn 7 s.word64_6
      (dataIn.data.extractLsb 55 0 ++ s.data56InReg.extractLsb 55 48)
    muxStage0_X_0_reg := if s.word64_0.valid then s.word64_0.data else 0
    muxStage0_2_1_reg := if s.word64_1.valid then s.word64_1.data else s.word64_2.data
    muxStage0_4_3_reg := if s.word64_3.valid then s.word64_3.data else s.word64_4.data
    muxStage0_6_5_reg := if s.word64_5.valid then s.word64_5.data else s.word64_6.data
    muxStage1_2_0_sel := s.word64_1.valid || s.word64_2.valid
    muxStage1_6_3_sel_0 := s.word64_3.valid || s.word64_4.valid
    muxStage1_6_3_sel_1 := s.word64_5.valid || s.word64_6.valid
    muxStage1_2_0_reg := if s.muxStage1_2_0_sel = false then s.muxStage0_X_0_reg else s.muxStage0_2_1_reg
    muxStage1_6_3_reg := if s.muxStage1_6_3_sel_1 = false then s.muxStage0_4_3_reg else s.muxStage0_6_5_reg
    muxStage2_6_0_sel := s.muxStage1_6_3_sel_0 || s.muxStage1_6_3_sel_1
    muxStage2_6_0_reg := if s.muxStage2_6_0_sel = false then s.muxStage1_2_0_reg else s.muxStage1_6_3_reg
    dataOutValidReg := s.word64_0.valid || s.word64_1.valid || s.word64_2.valid || s.word64_3.valid ||
      s.word64_4.valid || s.word64_5.valid || s.word64_6.valid
    dataOutValidPipe0 := s.dataOutValidReg
    dataOutValidPipe1 := s.dataOutValidPipe0 }

def data64Out (s : Pack56To64) : Port (BitVec 64) := ⟨s.dataOutValidPipe1, s.muxStage2_6_0_reg⟩

def circuit : Circuit Pack56To64 (Port (BitVec 56)) := ⟨reset, next⟩

end Pack56To64

/-! ## bit_pack -/

/-- The registers of `bit_pack`. -/
structure BitPack where
  inst0 : Pack48To64
  inst1 : Pack56To64
  mux0Reg : Port (BitVec 64)
  mux1Reg : Port (BitVec 64)
  deriving DecidableEq

namespace BitPack

def reset : BitPack := ⟨Pack48To64.reset, Pack56To64.reset, ⟨false, 0⟩, ⟨false, 0⟩⟩

/-- The upper 12 bits of the four 16-bit lanes. -/
def inst0Data48In (dataIn : BitVec 64) : BitVec 48 :=
  dataIn.extractLsb 63 52 ++ dataIn.extractLsb 47 36 ++ dataIn.extractLsb 31 20 ++ dataIn.extractLsb 15 4

/-- The upper 14 bits of the four 16-bit lanes. -/
def inst1Data56In (dataIn : BitVec 64) : BitVec 56 :=
  dataIn.extractLsb 63 50 ++ dataIn.extractLsb 47 34 ++ dataIn.extractLsb 31 18 ++ dataIn.extractLsb 15 2

def mux0 (s : BitPack) (sampleWidth : BitVec 2) : Port (BitVec 64) :=
  if sampleWidth.getLsbD 1 then s.inst0.data64Out else s.inst1.data64Out

def mux1 (s : BitPack) (sampleWidth : BitVec 2) (dataIn : Port (BitVec 64)) : Port (BitVec 64) :=
  if sampleWidth.getLsbD 1 || sampleWidth.getLsbD 0 then s.mux0Reg else dataIn

def next (s : BitPack) (sampleWidth : BitVec 2) (dataIn : Port (BitVec 64)) : BitPack :=
  { inst0 := s.inst0.next ⟨dataIn.valid, inst0Data48In dataIn.data⟩
    inst1 := s.inst1.next ⟨dataIn.valid, inst1Data56In dataIn.data⟩
    mux0Reg := s.mux0 sampleWidth
    mux1Reg := s.mux1 sampleWidth dataIn }

def dataOut (s : BitPack) : Port (BitVec 64) := s.mux1Reg

def circuit (sampleWidth : BitVec 2) : Circuit BitPack (Port (BitVec 64)) :=
  ⟨reset, fun s i => s.next sampleWidth i⟩

end BitPack

end LimeSdrQpcie
