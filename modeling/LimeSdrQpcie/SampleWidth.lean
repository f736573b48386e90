import Mathlib.Algebra.Ring.Nat
import Mathlib.Tactic.Common

/-!
# The sample widths
-/

namespace LimeSdrQpcie

/-- The sample widths the design supports. -/
inductive SampleWidth where
  | w12
  | w14
  | w16
  deriving DecidableEq, Repr

/-- The setting of the `sample_width` port: `"10"` 12 bit, `"01"` 14 bit, `"00"` 16 bit. -/
def SampleWidth.code : SampleWidth → BitVec 2
  | .w12 => 0b10
  | .w14 => 0b01
  | .w16 => 0b00

end LimeSdrQpcie
