import LimeSdrQpcie.Correctors.TxChain

/-! The integers that the stages of the transmit chain compute. -/

namespace LimeSdrQpcie

open Hdl

namespace TxChain

/-! ## Exact formulas -/

def gain (gc : BitVec 11) (x : Int) : Int := x * gc.toNat / 2 ^ 11

/-- What the phase correction makes of a sample first, to have headroom. -/
def shrink (x : Int) : Int := x - x / 2 ^ 6

def phase (pcw : BitVec 12) (x y : Int) : Int := shrink x + shrink y * pcw.toInt / 2 ^ 11

def dcOffset (dc : BitVec 8) (y : Int) : Int := y / 2 ^ 4 + dc.toInt

theorem bounds18 (x : BitVec 18) : -131072 ≤ x.toInt ∧ x.toInt ≤ 131071 := (fits_toInt x).bounds

/-! ## Gain -/

theorem toInt_gc (gc : BitVec 11) : (0#1 ++ gc).toInt = gc.toNat := by
  have hmsb : (0#1 ++ gc).msb = false := by
    rw [BitVec.msb_append]
    rfl
  rw [BitVec.toInt_eq_toNat_of_msb hmsb, BitVec.toNat_append]
  simp

/-- The product of a sample and a gain stays below the slice that is taken of it. -/
theorem gain_fits (gc : BitVec 11) (x : BitVec 18) : Fits 18 (gain gc x.toInt) := by
  have hx := bounds18 x
  have hgc : (gc.toNat : Int) ≤ 2047 := by omega
  have hlo : -131072 * (gc.toNat : Int) ≤ x.toInt * gc.toNat :=
    Int.mul_le_mul_of_nonneg_right hx.1 (Int.natCast_nonneg _)
  have hhi : x.toInt * gc.toNat ≤ 131071 * (gc.toNat : Int) :=
    Int.mul_le_mul_of_nonneg_right hx.2 (Int.natCast_nonneg _)
  unfold Fits gain
  omega

theorem toInt_gain (gc : BitVec 11) (x : BitVec 18) :
    ((smul x (0#1 ++ gc)).extractLsb 28 11).toInt = gain gc x.toInt := by
  have hprod : (smul x (0#1 ++ gc)).toInt = x.toInt * gc.toNat := by rw [toInt_smul, toInt_gc]
  refine (toInt_slice_of_fits (m := 18) (k := 11) (by decide) ?_).trans ?_
  · rw [hprod]
    exact gain_fits gc x
  · rw [hprod]
    rfl

/-! ## Phase -/

theorem toInt_cos (x : BitVec 18) : (IqCorr.cos x).toInt = shrink x.toInt := by
  have hx := bounds18 x
  have hslice : (x.extractLsb 17 6).toInt = x.toInt / 2 ^ 6 :=
    toInt_slice_of_fits (m := 12) (k := 6) (by decide) (by unfold Fits; omega)
  have hext : ((x.extractLsb 17 6).signExtend 18).toInt = x.toInt / 2 ^ 6 :=
    (BitVec.toInt_signExtend_of_le (by decide)).trans hslice
  rw [IqCorr.cos, toInt_sub_of_fits (by rw [hext]; unfold Fits; omega), hext, shrink]

theorem shrink_bounds {x : Int} (h : Fits 18 x) : -129024 ≤ shrink x ∧ shrink x ≤ 129024 := by
  unfold Fits at h
  unfold shrink
  omega

/-- The shrunk sample keeps the product below the slice that is taken of it. -/
theorem rot_bounds (pcw : BitVec 12) {x : Int} (h : Fits 18 x) :
    -(63 * pcw.toInt.natAbs : Int) ≤ shrink x * pcw.toInt / 2 ^ 11 ∧
      shrink x * pcw.toInt / 2 ^ 11 ≤ 63 * pcw.toInt.natAbs := by
  have hx := shrink_bounds h
  have hmul : (shrink x).natAbs * pcw.toInt.natAbs ≤ 129024 * pcw.toInt.natAbs :=
    Nat.mul_le_mul_right _ (by omega)
  have habs := Int.natAbs_mul (shrink x) pcw.toInt
  omega

theorem natAbs_pcw (pcw : BitVec 12) : pcw.toInt.natAbs ≤ 2048 := by
  have hp := (fits_toInt pcw).bounds
  omega

theorem toInt_rot (pcw : BitVec 12) (x : BitVec 18) :
    ((smul (IqCorr.cos x) pcw).extractLsb 28 11).toInt = shrink x.toInt * pcw.toInt / 2 ^ 11 := by
  have hprod : (smul (IqCorr.cos x) pcw).toInt = shrink x.toInt * pcw.toInt := by rw [toInt_smul, toInt_cos]
  have hfits : Fits 18 ((smul (IqCorr.cos x) pcw).toInt / 2 ^ 11) := by
    rw [hprod]
    have hb := rot_bounds pcw (fits_toInt x)
    have hp := natAbs_pcw pcw
    unfold Fits
    omega
  exact (toInt_slice_of_fits (m := 18) (k := 11) (by decide) hfits).trans (by rw [hprod])

/-- The sum is taken in 19 bits; the output has 18 of them. -/
theorem toInt_phase (pcw : BitVec 12) (x y : BitVec 18) :
    ((IqCorr.sum (IqCorr.cos x) ((smul (IqCorr.cos y) pcw).extractLsb 28 11)).extractLsb 17 0).toInt =
      (phase pcw x.toInt y.toInt).bmod (2 ^ 18) := by
  have hc : ((IqCorr.cos x).signExtend 19).toInt = shrink x.toInt :=
    (BitVec.toInt_signExtend_of_le (by decide)).trans (toInt_cos x)
  have hr : (((smul (IqCorr.cos y) pcw).extractLsb 28 11).signExtend 19).toInt = shrink y.toInt * pcw.toInt / 2 ^ 11 :=
    (BitVec.toInt_signExtend_of_le (by decide)).trans (toInt_rot pcw y)
  have hfits : Fits 19 (phase pcw x.toInt y.toInt) := by
    have hx := shrink_bounds (fits_toInt x)
    have hy := rot_bounds pcw (fits_toInt y)
    have hp := natAbs_pcw pcw
    unfold Fits phase
    omega
  have hsum : (IqCorr.sum (IqCorr.cos x) ((smul (IqCorr.cos y) pcw).extractLsb 28 11)).toInt =
      phase pcw x.toInt y.toInt := by
    rw [IqCorr.sum, toInt_add_of_fits (by rw [hc, hr]; exact hfits), hc, hr, phase]
  refine (toInt_slice (m := 18) (k := 0) _ (by decide)).trans ?_
  rw [hsum, Int.pow_zero, Int.ediv_one]

/-! ## DC offset -/

theorem toInt_dcOffset (dc : BitVec 8) (y : BitVec 18) :
    (y.extractLsb 17 4 + dc.signExtend 14 : BitVec 14).toInt = (dcOffset dc y.toInt).bmod (2 ^ 14) := by
  have hy := bounds18 y
  have hslice : (y.extractLsb 17 4).toInt = y.toInt / 2 ^ 4 :=
    toInt_slice_of_fits (m := 14) (k := 4) (by decide) (by unfold Fits; omega)
  have hdc : (dc.signExtend 14).toInt = dc.toInt := BitVec.toInt_signExtend_of_le (by decide)
  exact (BitVec.toInt_add ..).trans (by rw [hslice, hdc, dcOffset])

/-! ## The run -/

/-- The coefficients of the correctors. -/
structure Coefs where
  gcorri : BitVec 11
  gcorrq : BitVec 11
  iqcorr : BitVec 12
  dccorri : BitVec 8
  dccorrq : BitVec 8

namespace Coefs

/-- All correctors are on, and the samples come from the inputs. -/
def settings (c : Coefs) : TxSettings :=
  ⟨true, false, false, false, false, c.dccorri, c.dccorrq, c.gcorri, c.gcorrq, c.iqcorr⟩

/-- The exact results for one pair of samples. -/
def phaseI (c : Coefs) (xi xq : Int) : Int := phase c.iqcorr (gain c.gcorri xi) (gain c.gcorrq xq)

def phaseQ (c : Coefs) (xi xq : Int) : Int := phase c.iqcorr (gain c.gcorrq xq) (gain c.gcorri xi)

def dcI (c : Coefs) (xi xq : Int) : Int := dcOffset c.dccorri (c.phaseI xi xq)

def dcQ (c : Coefs) (xi xq : Int) : Int := dcOffset c.dccorrq (c.phaseQ xi xq)

/-- The sums of a pair of samples are in the ranges of the outputs. -/
structure InRange (c : Coefs) (xi xq : Int) : Prop where
  phaseI : Fits 18 (c.phaseI xi xq)
  phaseQ : Fits 18 (c.phaseQ xi xq)
  dcI : Fits 14 (c.dcI xi xq)
  dcQ : Fits 14 (c.dcQ xi xq)

theorem inRange_of_headroom {c : Coefs} (hi : 63 * c.iqcorr.toInt.natAbs + 16 * c.dccorri.toInt.natAbs < 2048)
    (hq : 63 * c.iqcorr.toInt.natAbs + 16 * c.dccorrq.toInt.natAbs < 2048) (xi xq : BitVec 18) :
    c.InRange xi.toInt xq.toInt := by
  have hsi := shrink_bounds (gain_fits c.gcorri xi)
  have hsq := shrink_bounds (gain_fits c.gcorrq xq)
  have hri := rot_bounds c.iqcorr (gain_fits c.gcorri xi)
  have hrq := rot_bounds c.iqcorr (gain_fits c.gcorrq xq)
  constructor
  · unfold Fits phaseI phase
    omega
  · unfold Fits phaseQ phase
    omega
  · unfold Fits dcI dcOffset phaseI phase
    omega
  · unfold Fits dcQ dcOffset phaseQ phase
    omega

end Coefs

/-- What stands on the inputs with constant coefficients. -/
def feed (c : Coefs) (nco : Nat → BitVec 14 × BitVec 14) (xi xq : Nat → BitVec 18) (n : Nat) : TxChainIn :=
  ⟨c.settings, xi n, xq n, (nco n).1, (nco n).2⟩

/-- Each stage gives the exact result for the pair of samples of cycle `n`: the gain correctors three cycles later,
the phase corrector seven and the DC correctors eight. -/
structure StagesExact (c : Coefs) (s : Nat → TxChain) (xi xq : Int) (n : Nat) : Prop where
  gainI : (s (n + 3)).inst2.r.toInt = gain c.gcorri xi
  gainQ : (s (n + 3)).inst3.r.toInt = gain c.gcorrq xq
  phaseI : (s (n + 7)).inst4.rMux1.toInt = c.phaseI xi xq
  phaseQ : (s (n + 7)).inst4.rMux2.toInt = c.phaseQ xi xq
  dcI : (s (n + 8)).inst5.r.toInt = c.dcI xi xq
  dcQ : (s (n + 8)).inst6.r.toInt = c.dcQ xi xq

section Run

variable (u : PowerUp) (c : Coefs) (nco : Nat → BitVec 14 × BitVec 14) (xi xq : Nat → BitVec 18) (n : Nat)

def stateAt : TxChain := (circuit u).run (feed c nco xi xq) n

theorem toInt_inst2 : (stateAt u c nco xi xq (n + 3)).inst2.r.toInt = gain c.gcorri (xi n).toInt :=
  toInt_gain c.gcorri (xi n)

theorem toInt_inst3 : (stateAt u c nco xi xq (n + 3)).inst3.r.toInt = gain c.gcorrq (xq n).toInt :=
  toInt_gain c.gcorrq (xq n)

theorem toInt_rMux1 : (stateAt u c nco xi xq (n + 7)).inst4.rMux1.toInt =
    (c.phaseI (xi n).toInt (xq n).toInt).bmod (2 ^ 18) := by
  have h := toInt_phase c.iqcorr (stateAt u c nco xi xq (n + 3)).inst2.r (stateAt u c nco xi xq (n + 3)).inst3.r
  rw [toInt_inst2, toInt_inst3] at h
  exact h

theorem toInt_rMux2 : (stateAt u c nco xi xq (n + 7)).inst4.rMux2.toInt =
    (c.phaseQ (xi n).toInt (xq n).toInt).bmod (2 ^ 18) := by
  have h := toInt_phase c.iqcorr (stateAt u c nco xi xq (n + 3)).inst3.r (stateAt u c nco xi xq (n + 3)).inst2.r
  rw [toInt_inst2, toInt_inst3] at h
  exact h

theorem toInt_inst5 : (stateAt u c nco xi xq (n + 8)).inst5.r.toInt =
    (dcOffset c.dccorri (stateAt u c nco xi xq (n + 7)).inst4.rMux1.toInt).bmod (2 ^ 14) :=
  toInt_dcOffset c.dccorri (stateAt u c nco xi xq (n + 7)).inst4.rMux1

theorem toInt_inst6 : (stateAt u c nco xi xq (n + 8)).inst6.r.toInt =
    (dcOffset c.dccorrq (stateAt u c nco xi xq (n + 7)).inst4.rMux2.toInt).bmod (2 ^ 14) :=
  toInt_dcOffset c.dccorrq (stateAt u c nco xi xq (n + 7)).inst4.rMux2

/-- The chain is exact for a pair of samples exactly when its sums are in range. -/
theorem stagesExact_iff :
    StagesExact c ((circuit u).run (feed c nco xi xq)) (xi n).toInt (xq n).toInt n ↔
      c.InRange (xi n).toInt (xq n).toInt := by
  have h2 := toInt_inst2 u c nco xi xq n
  have h3 := toInt_inst3 u c nco xi xq n
  have h4i := toInt_rMux1 u c nco xi xq n
  have h4q := toInt_rMux2 u c nco xi xq n
  have h5 := toInt_inst5 u c nco xi xq n
  have h6 := toInt_inst6 u c nco xi xq n
  constructor
  · intro h
    have hi : (c.phaseI (xi n).toInt (xq n).toInt).bmod (2 ^ 18) = _ := h4i.symm.trans h.phaseI
    have hq : (c.phaseQ (xi n).toInt (xq n).toInt).bmod (2 ^ 18) = _ := h4q.symm.trans h.phaseQ
    have hdi := h5.symm.trans h.dcI
    have hdq := h6.symm.trans h.dcQ
    rw [h4i, hi] at hdi
    rw [h4q, hq] at hdq
    exact ⟨bmod_eq_self_iff.mp hi, bmod_eq_self_iff.mp hq, bmod_eq_self_iff.mp hdi, bmod_eq_self_iff.mp hdq⟩
  · intro h
    have hi := h4i.trans (bmod_eq_self_iff.mpr h.phaseI)
    have hq := h4q.trans (bmod_eq_self_iff.mpr h.phaseQ)
    rw [hi] at h5
    rw [hq] at h6
    exact ⟨h2, h3, hi, hq, h5.trans (bmod_eq_self_iff.mpr h.dcI), h6.trans (bmod_eq_self_iff.mpr h.dcQ)⟩

end Run

end TxChain

end LimeSdrQpcie
