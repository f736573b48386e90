import LimeSdrQpcie.Hdl.Signal

/-!
# The NMEA parser

`nmea_parser` with the constants and `hex_to_slv` of `nmea_parser_pkg`. The input is the character of a cycle in
which `data_v` is high. `char_cnt` is not read by anything and is left out.
-/

namespace LimeSdrQpcie

open Hdl

/-! ## nmea_parser_pkg -/

/-- The code of a character. -/
def ascii (c : Char) : BitVec 8 := BitVec.ofNat 8 c.toNat

def strToSlv (s : List Char) : List (BitVec 8) := s.map ascii

def cDollar : BitVec 8 := ascii '$'
def cComma : BitVec 8 := ascii ','
def cAsterisk : BitVec 8 := ascii '*'

def cGpgsa : List (BitVec 8) := strToSlv ['G', 'P', 'G', 'S', 'A']
def cGnrmc : List (BitVec 8) := strToSlv ['G', 'N', 'R', 'M', 'C']

def talkerIdLen : Nat := 2
def sentenceIdLen : Nat := 3
def checksumLen : Nat := 2

def gsaFixD : Nat := 2
def rmcUtcD : Nat := 1
def rmcStatD : Nat := 2
def rmcLatD0 : Nat := 3
def rmcLatD1 : Nat := 4
def rmcLongD0 : Nat := 5
def rmcLongD1 : Nat := 6
def rmcSpeedD : Nat := 7
def rmcCourseD : Nat := 8
def rmcDateD : Nat := 9

def hexToSlv (h : BitVec 8) : BitVec 4 :=
  match h with
  | 0x30 => 0x0
  | 0x31 => 0x1
  | 0x32 => 0x2
  | 0x33 => 0x3
  | 0x34 => 0x4
  | 0x35 => 0x5
  | 0x36 => 0x6
  | 0x37 => 0x7
  | 0x38 => 0x8
  | 0x39 => 0x9
  | 0x41 => 0xA
  | 0x42 => 0xB
  | 0x43 => 0xC
  | 0x44 => 0xD
  | 0x45 => 0xE
  | 0x46 => 0xF
  | _ => 0x0

/-! ## Registers of characters -/

/-- A register of `n` characters, the leftmost first. -/
structure Chars (n : Nat) where
  chars : List (BitVec 8)
  length_eq : chars.length = n
  deriving DecidableEq

namespace Chars

variable {n : Nat}

def zeros (n : Nat) : Chars n := ⟨List.replicate n (ascii '0'), List.length_replicate⟩

/-- The register without its leftmost character and with `d` on the right. -/
def shiftIn (c : Chars n) (d : BitVec 8) : Chars n :=
  ⟨(c.chars ++ [d]).drop 1, by simp [c.length_eq]⟩

/-- The register with `d` at place `k`. -/
def set (c : Chars n) (k : Nat) (d : BitVec 8) : Chars n := ⟨c.chars.set k d, by simp [c.length_eq]⟩

end Chars

/-- The data of a GNRMC sentence. -/
structure Rmc where
  utc : Chars 10
  status : Chars 1
  lat : Chars 11
  long : Chars 12
  speed : Chars 7
  course : Chars 6
  date : Chars 6
  deriving DecidableEq

namespace Rmc

def zeros : Rmc :=
  ⟨Chars.zeros 10, Chars.zeros 1, Chars.zeros 11, Chars.zeros 12, Chars.zeros 7, Chars.zeros 6, Chars.zeros 6⟩

/-- A register of the data fields `nos` after a character of the data field `no`. -/
def fieldIn {n : Nat} (nos : List Nat) (no : Nat) (d : BitVec 8) (c : Chars n) : Chars n :=
  if no ∈ nos then c.shiftIn d else c

/-- The data after a character of the data field `no`. -/
def charIn (r : Rmc) (no : Nat) (d : BitVec 8) : Rmc :=
  { utc := fieldIn [rmcUtcD] no d r.utc
    status := fieldIn [rmcStatD] no d r.status
    lat := fieldIn [rmcLatD0, rmcLatD1] no d r.lat
    long := fieldIn [rmcLongD0, rmcLongD1] no d r.long
    speed := fieldIn [rmcSpeedD] no d r.speed
    course := fieldIn [rmcCourseD] no d r.course
    date := fieldIn [rmcDateD] no d r.date }

end Rmc

/-! ## nmea_parser -/

inductive NmeaState where
  | idle
  | getTalkerId
  | getSentenceId
  | parseSentence
  | getChecksum
  | checkChecksum
  deriving DecidableEq, Repr

/-- The registers of `nmea_parser`; the identifiers and the checksum received have no reset. -/
structure NmeaParser where
  currentState : NmeaState
  stateCnt : Nat
  dataFieldCnt : Nat
  nmeaTalkerId : Chars 2
  nmeaSentenceId : Chars 3
  nmeaChecksum : BitVec 8
  checksum : BitVec 8
  checksumReg : BitVec 8
  checksumValid : Bool
  gpgsaFixInt : BitVec 8
  gpgsaValidInt : Bool
  gnrmcInt : Rmc
  gnrmcValidInt : Bool
  gpgsaValid : Bool
  gpgsaFix : BitVec 8
  gnrmcValid : Bool
  gnrmc : Rmc

namespace NmeaParser

/-- The registers after reset, with what is in those that have none. -/
def reset (talkerId : Chars 2) (sentenceId : Chars 3) (sum : BitVec 8) : NmeaParser :=
  { currentState := .idle, stateCnt := 0, dataFieldCnt := 0, nmeaTalkerId := talkerId, nmeaSentenceId := sentenceId,
    nmeaChecksum := sum, checksum := 0, checksumReg := 0, checksumValid := false, gpgsaFixInt := 0,
    gpgsaValidInt := false, gnrmcInt := Rmc.zeros, gnrmcValidInt := false, gpgsaValid := false, gpgsaFix := 0,
    gnrmcValid := false, gnrmc := Rmc.zeros }

/-- `nmea_talker_id & nmea_sentence_id`. -/
def sentence (s : NmeaParser) : List (BitVec 8) := s.nmeaTalkerId.chars ++ s.nmeaSentenceId.chars

def nextState (s : NmeaParser) (data : Option (BitVec 8)) : NmeaState :=
  match s.currentState with
  | .idle => if data = some cDollar then .getTalkerId else .idle
  | .getTalkerId => if data.isSome ∧ s.stateCnt = talkerIdLen - 1 then .getSentenceId else .getTalkerId
  | .getSentenceId => if data.isSome ∧ s.stateCnt = sentenceIdLen - 1 then .parseSentence else .getSentenceId
  | .parseSentence => if data = some cAsterisk then .getChecksum else .parseSentence
  | .getChecksum => if data.isSome ∧ s.stateCnt = checksumLen - 1 then .checkChecksum else .getChecksum
  | .checkChecksum => .idle

def nextStateCnt (s : NmeaParser) (data : Option (BitVec 8)) : Nat :=
  if s.nextState data = s.currentState then (if data.isSome then (s.stateCnt + 1) % 2 ^ 8 else s.stateCnt) else 0

def nextDataFieldCnt (s : NmeaParser) (data : Option (BitVec 8)) : Nat :=
  match data with
  | none => s.dataFieldCnt
  | some d =>
      if d = cComma then (s.dataFieldCnt + 1) % 2 ^ 8
      else if d = cDollar then 0
      else s.dataFieldCnt

def nextTalkerId (s : NmeaParser) (data : Option (BitVec 8)) : Chars 2 :=
  match data with
  | none => s.nmeaTalkerId
  | some d => if s.currentState = .getTalkerId then s.nmeaTalkerId.set s.stateCnt d else s.nmeaTalkerId

def nextSentenceId (s : NmeaParser) (data : Option (BitVec 8)) : Chars 3 :=
  match data with
  | none => s.nmeaSentenceId
  | some d => if s.currentState = .getSentenceId then s.nmeaSentenceId.set s.stateCnt d else s.nmeaSentenceId

def nextNmeaChecksum (s : NmeaParser) (data : Option (BitVec 8)) : BitVec 8 :=
  match data with
  | none => s.nmeaChecksum
  | some d =>
      if s.currentState = .getChecksum then
        if s.stateCnt = 0 then hexToSlv d ++ s.nmeaChecksum.extractLsb' 0 4
        else if s.stateCnt = 1 then s.nmeaChecksum.extractLsb' 4 4 ++ hexToSlv d
        else s.nmeaChecksum
      else s.nmeaChecksum

def nextChecksum (s : NmeaParser) (data : Option (BitVec 8)) : BitVec 8 :=
  match data with
  | none => s.checksum
  | some d => if d = cDollar then 0 else s.checksum ^^^ d

def nextChecksumReg (s : NmeaParser) (data : Option (BitVec 8)) : BitVec 8 :=
  if data = some cAsterisk then s.checksum else s.checksumReg

/-- The fix is not reset at the beginning of a sentence. -/
def nextGpgsaFixInt (s : NmeaParser) (data : Option (BitVec 8)) : BitVec 8 :=
  match data with
  | none => s.gpgsaFixInt
  | some d => if d ≠ cComma ∧ s.dataFieldCnt = gsaFixD then d else s.gpgsaFixInt

def nextGnrmcInt (s : NmeaParser) (data : Option (BitVec 8)) : Rmc :=
  match data with
  | none => s.gnrmcInt
  | some d =>
      if d = cDollar then Rmc.zeros
      else if d ≠ cComma then s.gnrmcInt.charIn s.dataFieldCnt d
      else s.gnrmcInt

def next (s : NmeaParser) (data : Option (BitVec 8)) : NmeaParser :=
  { currentState := s.nextState data
    stateCnt := s.nextStateCnt data
    dataFieldCnt := s.nextDataFieldCnt data
    nmeaTalkerId := s.nextTalkerId data
    nmeaSentenceId := s.nextSentenceId data
    nmeaChecksum := s.nextNmeaChecksum data
    checksum := s.nextChecksum data
    checksumReg := s.nextChecksumReg data
    checksumValid := s.currentState == .checkChecksum && s.checksumReg == s.nmeaChecksum
    gpgsaFixInt := s.nextGpgsaFixInt data
    gpgsaValidInt := s.sentence == cGpgsa && s.checksumValid
    gnrmcInt := s.nextGnrmcInt data
    gnrmcValidInt := s.sentence == cGnrmc && s.checksumValid
    gpgsaValid := s.gpgsaValidInt
    gpgsaFix := if s.gpgsaValidInt then s.gpgsaFixInt else s.gpgsaFix
    gnrmcValid := s.gnrmcValidInt
    gnrmc := if s.gnrmcValidInt then s.gnrmcInt else s.gnrmc }

def circuit (talkerId : Chars 2) (sentenceId : Chars 3) (sum : BitVec 8) : Circuit NmeaParser (Option (BitVec 8)) :=
  ⟨reset talkerId sentenceId sum, next⟩

end NmeaParser

end LimeSdrQpcie
