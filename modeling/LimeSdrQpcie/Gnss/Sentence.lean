import LimeSdrQpcie.Gnss.NmeaParser
import Mathlib.Data.List.DropRight

/-!
# NMEA sentences

What the parser is for, in terms of the characters: the sentences that are complete, and the data in their fields.
-/

namespace LimeSdrQpcie

open Hdl

namespace Nmea

/-- The data field `k`; the identifier before the first comma is field 0. -/
def field (k : Nat) (body : List (BitVec 8)) : List (BitVec 8) := (body.splitOn cComma)[k]?.getD []

/-- The characters `l` at the right of a register of `n` characters, after as many `'0'` as there is room for. -/
def rightAligned (n : Nat) (l : List (BitVec 8)) : Chars n :=
  ⟨(List.replicate n (ascii '0') ++ l).drop l.length, by simp⟩

/-- The data of a GNRMC sentence: its fields 1 to 9, without the commas. -/
def rmc (body : List (BitVec 8)) : Rmc :=
  { utc := rightAligned 10 (field 1 body)
    status := rightAligned 1 (field 2 body)
    lat := rightAligned 11 (field 3 body ++ field 4 body)
    long := rightAligned 12 (field 5 body ++ field 6 body)
    speed := rightAligned 7 (field 7 body)
    course := rightAligned 6 (field 8 body)
    date := rightAligned 6 (field 9 body) }

/-- The fix of a GPGSA sentence: its field 2. -/
def fix (body : List (BitVec 8)) : Chars 1 := rightAligned 1 (field 2 body)

/-- The exclusive or of the characters. -/
def checksum (body : List (BitVec 8)) : BitVec 8 := body.foldl (· ^^^ ·) 0

def hexUpper : List (BitVec 8) :=
  strToSlv ['0', '1', '2', '3', '4', '5', '6', '7', '8', '9', 'A', 'B', 'C', 'D', 'E', 'F']

def hexLower : List (BitVec 8) :=
  strToSlv ['0', '1', '2', '3', '4', '5', '6', '7', '8', '9', 'a', 'b', 'c', 'd', 'e', 'f']

/-- The value of a hexadecimal digit. -/
def hexValue (c : BitVec 8) : Option (BitVec 4) :=
  if c ∈ hexUpper then some (BitVec.ofNat 4 (hexUpper.idxOf c))
  else if c ∈ hexLower then some (BitVec.ofNat 4 (hexLower.idxOf c))
  else none

/-- The characters `stream` end with a complete sentence with the identifier `id`: a dollar sign, the characters
`body` with the identifier, a comma and neither a dollar sign nor an asterisk, an asterisk, and two hexadecimal digits
that are the checksum of `body`. -/
structure Complete (id stream body : List (BitVec 8)) : Prop where
  chars : ∃ pre h1 h2 v1 v2, stream = pre ++ cDollar :: (body ++ [cAsterisk, h1, h2]) ∧
    hexValue h1 = some v1 ∧ hexValue h2 = some v2 ∧ v1 ++ v2 = checksum body
  id : id ++ [cComma] <+: body
  dollar : cDollar ∉ body
  asterisk : cAsterisk ∉ body

/-- The characters after the last dollar sign. -/
def sinceDollar (stream : List (BitVec 8)) : List (BitVec 8) := stream.rtakeWhile (· != cDollar)

/-- The characters after a dollar sign are past the end of their sentence: after an identifier of five characters come
an asterisk and two characters at least. -/
def Ended (text : List (BitVec 8)) : Prop :=
  ∃ id r h, text = id ++ r ++ cAsterisk :: h ∧ id.length = 5 ∧ cAsterisk ∉ r ∧ 2 ≤ h.length

/-! ## What the parser should do -/

/-- In cycle `n` the last character of a complete sentence comes. -/
def Ends (x : Nat → Option (BitVec 8)) (n : Nat) (id body : List (BitVec 8)) : Prop :=
  (x n).isSome = true ∧ Complete id (words x (n + 1)) body

/-- The parser with the states `t` reports the complete sentences of the characters `x`, each in the fourth cycle
after its last character, and nothing else. -/
structure Reports (x : Nat → Option (BitVec 8)) (t : Nat → NmeaParser) : Prop where
  gnrmc_valid : ∀ m, (t m).gnrmcValid = true ↔ ∃ n body, m = n + 4 ∧ Ends x n cGnrmc body
  gnrmc : ∀ n body, Ends x n cGnrmc body → (t (n + 4)).gnrmc = rmc body
  gpgsa_valid : ∀ m, (t m).gpgsaValid = true ↔ ∃ n body, m = n + 4 ∧ Ends x n cGpgsa body
  gpgsa_fix : ∀ n body, Ends x n cGpgsa body → [(t (n + 4)).gpgsaFix] = (fix body).chars

/-! ## The characters the parser can read -/

/-- Two cycles without a character follow each character. -/
def Spaced (x : Nat → Option (BitVec 8)) : Prop := ∀ n, (x n).isSome = true → x (n + 1) = none ∧ x (n + 2) = none

/-- What the parser takes for granted of a sentence with the identifier `id`, the characters `r` up to the asterisk
and the characters `c1` and `c2` after it. -/
structure Readable (id r : List (BitVec 8)) (c1 c2 : BitVec 8) : Prop where
  digits : c1 ∈ hexUpper ∧ c2 ∈ hexUpper
  comma : hexToSlv c1 ++ hexToSlv c2 = checksum (id ++ r) → [cComma] <+: r
  gnrmc : id = cGnrmc → hexToSlv c1 ++ hexToSlv c2 = checksum (id ++ r) → 10 ≤ r.count cComma ∧ r.count cComma < 2 ^ 8
  gpgsa : id = cGpgsa → hexToSlv c1 ++ hexToSlv c2 = checksum (id ++ r) →
    3 ≤ r.count cComma ∧ r.count cComma < 2 ^ 8 ∧ field 2 (id ++ r) ≠ []

/-- Each dollar sign comes after the end of the sentence before it, and the sentences the parser reports are
readable. -/
structure Regular (x : Nat → Option (BitVec 8)) : Prop where
  dollar : ∀ n, x n = some cDollar → cDollar ∈ words x n → Ended (sinceDollar (words x n))
  readable : ∀ n id r c1 c2, (x n).isSome = true → cDollar ∈ words x (n + 1) → id = cGnrmc ∨ id = cGpgsa →
    sinceDollar (words x (n + 1)) = id ++ r ++ [cAsterisk, c1, c2] → cAsterisk ∉ r → Readable id r c1 c2

end Nmea

end LimeSdrQpcie
