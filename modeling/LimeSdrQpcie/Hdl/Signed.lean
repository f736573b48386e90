import Mathlib.Algebra.Ring.Int.Defs
import Mathlib.Algebra.Ring.Nat
import Mathlib.Tactic.Common

/-!
# Signed words

A word of `n` bits stands for the integers of its signed range; arithmetic on words is exact as long as the result
is in the range, and a slice of a word is a quotient by a power of two.
-/

namespace Hdl

variable {m n : Nat}

/-- `z` is in the signed range of `n` bits. -/
def Fits (n : Nat) (z : Int) : Prop := -(2 ^ n : Int) ≤ 2 * z ∧ 2 * z < 2 ^ n

instance (n : Nat) (z : Int) : Decidable (Fits n z) := inferInstanceAs (Decidable (_ ∧ _))

theorem fits_toInt (w : BitVec n) : Fits n w.toInt := ⟨BitVec.le_two_mul_toInt, BitVec.two_mul_toInt_lt⟩

/-- What is left of an integer in `n` bits is the integer itself exactly when it is in the range. -/
theorem bmod_eq_self_iff {z : Int} : z.bmod (2 ^ n) = z ↔ Fits n z := by
  constructor
  · intro h
    rw [← h, ← BitVec.toInt_ofInt]
    exact fits_toInt _
  · rintro ⟨hlo, hhi⟩
    refine Int.bmod_eq_of_le_mul_two ?_ ?_
    · push_cast
      omega
    · push_cast
      omega

theorem toInt_add_eq_iff {v w : BitVec n} : (v + w).toInt = v.toInt + w.toInt ↔ Fits n (v.toInt + w.toInt) := by
  rw [BitVec.toInt_add, bmod_eq_self_iff]

theorem toInt_add_of_fits {v w : BitVec n} (h : Fits n (v.toInt + w.toInt)) :
    (v + w).toInt = v.toInt + w.toInt := toInt_add_eq_iff.mpr h

theorem toInt_sub_of_fits {v w : BitVec n} (h : Fits n (v.toInt - w.toInt)) :
    (v - w).toInt = v.toInt - w.toInt := by
  rw [BitVec.toInt_sub, bmod_eq_self_iff.mpr h]

theorem toInt_mul_of_fits {v w : BitVec n} (h : Fits n (v.toInt * w.toInt)) :
    (v * w).toInt = v.toInt * w.toInt := by
  rw [BitVec.toInt_mul, bmod_eq_self_iff.mpr h]

theorem sub_eq_ofInt (v w : BitVec n) : v - w = BitVec.ofInt n (v.toInt - w.toInt) := by
  apply BitVec.eq_of_toInt_eq
  rw [BitVec.toInt_sub, BitVec.toInt_ofInt]

/-- The product of two words, which is as wide as both together. -/
def smul (v : BitVec m) (w : BitVec n) : BitVec (m + n) := v.signExtend (m + n) * w.signExtend (m + n)

theorem Fits.natAbs_le {z : Int} (h : Fits n z) : 2 * z.natAbs ≤ 2 ^ n := by
  have hcast : ((2 ^ n : Nat) : Int) = 2 ^ n := by push_cast; rfl
  unfold Fits at h
  omega

theorem fits_mul {x y : Int} (hx : Fits m x) (hy : Fits n y) : Fits (m + n) (x * y) := by
  have hmul := Nat.mul_le_mul hx.natAbs_le hy.natAbs_le
  have hcast : ((2 ^ m * 2 ^ n : Nat) : Int) = 2 ^ (m + n) := by push_cast; rw [Int.pow_add]
  have habs := Int.natAbs_mul x y
  have hassoc : 2 * x.natAbs * (2 * y.natAbs) = 4 * (x.natAbs * y.natAbs) := by
    rw [Nat.mul_mul_mul_comm]
  have hpos : 0 < 2 ^ m * 2 ^ n := Nat.mul_pos (Nat.two_pow_pos m) (Nat.two_pow_pos n)
  unfold Fits
  rw [← hcast]
  omega

/-- A product is exact. -/
theorem toInt_smul (v : BitVec m) (w : BitVec n) : (smul v w).toInt = v.toInt * w.toInt := by
  have hv : (v.signExtend (m + n)).toInt = v.toInt := BitVec.toInt_signExtend_of_le (Nat.le_add_right m n)
  have hw : (w.signExtend (m + n)).toInt = w.toInt := BitVec.toInt_signExtend_of_le (Nat.le_add_left n m)
  have hfits : Fits (m + n) ((v.signExtend (m + n)).toInt * (w.signExtend (m + n)).toInt) := by
    rw [hv, hw]
    exact fits_mul (fits_toInt v) (fits_toInt w)
  rw [smul, toInt_mul_of_fits hfits, hv, hw]

theorem extractLsb'_eq_setWidth (w : BitVec n) {k : Nat} (h : k + m ≤ n) :
    w.extractLsb' k m = (w.sshiftRight k).setWidth m := by
  apply BitVec.eq_of_getLsbD_eq
  intro i hi
  have hn : ¬ n ≤ i := by omega
  have hk : k + i < n := by omega
  rw [BitVec.getLsbD_extractLsb', BitVec.getLsbD_setWidth, BitVec.getLsbD_sshiftRight, if_pos hk,
    decide_eq_false hn, Bool.not_false, Bool.true_and]

/-- A slice is what is left of the quotient in its width. -/
theorem toInt_slice (w : BitVec n) {k : Nat} (h : k + m ≤ n) :
    (w.extractLsb' k m).toInt = (w.toInt / 2 ^ k).bmod (2 ^ m) := by
  have hm : m ≤ n := by omega
  rw [extractLsb'_eq_setWidth w h, ← BitVec.signExtend_eq_setWidth_of_le _ hm,
    BitVec.toInt_signExtend_eq_toInt_bmod_of_le _ hm, BitVec.toInt_sshiftRight, Int.shiftRight_eq_div_pow]
  push_cast
  rfl

theorem toInt_slice_of_fits {w : BitVec n} {k : Nat} (h : k + m ≤ n) (hf : Fits m (w.toInt / 2 ^ k)) :
    (w.extractLsb' k m).toInt = w.toInt / 2 ^ k := by
  rw [toInt_slice w h, bmod_eq_self_iff.mpr hf]

/-- The floor of a quotient by `k` when the integer is `k` times as large as what fits. -/
theorem fits_ediv {z : Int} {k : Nat} (hk : 0 < k) (hlo : -(2 ^ n * k) ≤ z) (hhi : z < 2 ^ n * k) :
    Fits (n + 1) (z / k) := by
  have hpos : (0 : Int) < k := Int.natCast_pos.mpr hk
  have hle : -(2 ^ n) ≤ z / k := Int.le_ediv_of_mul_le hpos (by rw [Int.neg_mul]; exact hlo)
  have hlt : z / k < 2 ^ n := Int.ediv_lt_of_lt_mul hpos hhi
  unfold Fits
  rw [Int.pow_succ]
  omega

theorem Fits.bounds {z : Int} (h : Fits (n + 1) z) : -(2 ^ n) ≤ z ∧ z ≤ 2 ^ n - 1 := by
  unfold Fits at h
  rw [Int.pow_succ] at h
  omega

/-- The sum of words of `n + 1` bits. -/
theorem sum_bounds {l : List (BitVec (n + 1))} :
    -(2 ^ n * l.length) ≤ (l.map BitVec.toInt).sum ∧ (l.map BitVec.toInt).sum ≤ (2 ^ n - 1) * l.length := by
  induction l with
  | nil => simp
  | cons w l ih =>
      have hw := (fits_toInt w).bounds
      have hlen : ((w :: l).length : Int) = l.length + 1 := by simp
      rw [List.map_cons, List.sum_cons, hlen, Int.mul_add, Int.mul_add, Int.mul_one, Int.mul_one]
      omega

end Hdl
