import LimeSdrQpcie.Correctors.DcCorrA
import LimeSdrQpcie.Hdl.Bits
import LimeSdrQpcie.Hdl.Blocks
import LimeSdrQpcie.Hdl.Signed

/-! The blocks that the automatic DC correction averages over. -/

namespace LimeSdrQpcie

open Hdl

namespace DcCorrA

/-- The number of samples in a block. -/
def blockLength (avg : BitVec 3) : Nat := 2 ^ (avg.toNat + 12)

theorem blockLength_pos (avg : BitVec 3) : 0 < blockLength avg := Nat.two_pow_pos _

theorem blockLength_dvd (avg : BitVec 3) : blockLength avg ∣ 2 ^ 19 :=
  Nat.pow_dvd_pow 2 (Nat.add_le_add_right (Nat.le_of_lt_succ avg.isLt) 12)

theorem blockLength_le (avg : BitVec 3) : blockLength avg ≤ 2 ^ 19 :=
  Nat.le_of_dvd (by decide) (blockLength_dvd avg)

theorem avg_cases (avg : BitVec 3) :
    avg = 0 ∨ avg = 1 ∨ avg = 2 ∨ avg = 3 ∨ avg = 4 ∨ avg = 5 ∨ avg = 6 ∨ avg = 7 := by
  revert avg
  decide

theorem ren_iff (avg : BitVec 3) (creg : BitVec 19) : ren avg creg = true ↔ blockLength avg ∣ creg.toNat + 1 := by
  rw [blockLength, ← slice_eq_allOnes_iff]
  rcases avg_cases avg with rfl | rfl | rfl | rfl | rfl | rfl | rfl | rfl <;> simp [ren, BitVec.extractLsb]

theorem dcSlice_eq (avg : BitVec 3) (areg : BitVec 37) : dcSlice avg areg = areg.extractLsb' (avg.toNat + 12) 18 := by
  rcases avg_cases avg with rfl | rfl | rfl | rfl | rfl | rfl | rfl | rfl <;> rfl

/-! ## Sums of a block -/

/-- The sum of samples. -/
def sum (c : List (BitVec 18)) : Int := (c.map BitVec.toInt).sum

/-- The floor of the mean of a block. -/
def mean (avg : BitVec 3) (c : List (BitVec 18)) : Int := sum c / blockLength avg

theorem sum_bounds {avg : BitVec 3} {c : List (BitVec 18)} (h : c.length ≤ blockLength avg) :
    -(2 ^ 17 * blockLength avg) ≤ sum c ∧ sum c < 2 ^ 17 * blockLength avg := by
  have hb := Hdl.sum_bounds (n := 17) (l := c)
  have hpos := blockLength_pos avg
  unfold sum
  omega

/-- The accumulators have room for every sum. -/
theorem sum_fits {avg : BitVec 3} {c : List (BitVec 18)} (h : c.length ≤ blockLength avg) : Fits 37 (sum c) := by
  have hb := sum_bounds h
  have hle := blockLength_le avg
  unfold Fits
  omega

theorem toInt_dcSlice {avg : BitVec 3} {c : List (BitVec 18)} {areg : BitVec 37} (h : c.length ≤ blockLength avg)
    (ha : areg.toInt = sum c) : (dcSlice avg areg).toInt = mean avg c := by
  have hb := sum_bounds h
  have hmean : areg.toInt / 2 ^ (avg.toNat + 12) = mean avg c := by
    rw [ha, mean, blockLength]
    push_cast
    rfl
  have hfits : Fits 18 (areg.toInt / 2 ^ (avg.toNat + 12)) := by
    rw [hmean]
    exact fits_ediv (blockLength_pos avg) hb.1 hb.2
  have hw : avg.toNat + 12 + 18 ≤ 37 := by omega
  rw [dcSlice_eq, toInt_slice_of_fits hw hfits, hmean]

/-! ## One channel -/

/-- The enabled samples before cycle `n`. -/
def samples (en : Nat → Bool) (x : Nat → BitVec 18) (n : Nat) : List (BitVec 18) :=
  words (fun m => if en m then some (x m) else none) n

def blocks (avg : BitVec 3) (en : Nat → Bool) (x : Nat → BitVec 18) (n : Nat) : Blocks (BitVec 18) :=
  Blocks.ofList (blockLength avg) (samples en x n)

/-- The mean that is taken off: the one of the last complete block. -/
def lastMean (avg : BitVec 3) (b : Blocks (BitVec 18)) : Int := (b.done.getLast?.map (mean avg)).getD 0

/-- What the registers of a channel do in a run with the counter `creg`. -/
structure Channel (avg : BitVec 3) (en bypass : Nat → Bool) (creg : Nat → BitVec 19) (x : Nat → BitVec 18)
    (areg : Nat → BitVec 37) (dcreg y : Nat → BitVec 18) : Prop where
  areg_zero : areg 0 = 0
  areg_succ : ∀ n, areg (n + 1) = if en n then aregNext (ren avg (creg n)) (areg n) (x n) else areg n
  dcreg_zero : dcreg 0 = 0
  dcreg_succ : ∀ n, dcreg (n + 1) = if en n && ren avg (creg n) then dcSlice avg (areg n) else dcreg n
  y_succ : ∀ n, y (n + 1) = if en n then (if bypass n then x n else x n - dcreg n) else y n

section Samples

variable {avg : BitVec 3} {en : Nat → Bool} {x : Nat → BitVec 18} {n : Nat}

theorem samples_succ (h : en n = true) : samples en x (n + 1) = samples en x n ++ [x n] :=
  words_succ_of_some (if_pos h)

theorem samples_succ_of_not (h : en n = false) : samples en x (n + 1) = samples en x n :=
  words_succ_of_none (if_neg (by rw [h]; decide))

theorem blocks_all : (blocks avg en x n).all = samples en x n := Blocks.all_ofList _ _

theorem blocks_sized (avg : BitVec 3) (en : Nat → Bool) (x : Nat → BitVec 18) (n : Nat) :
    Blocks.Sized (blockLength avg) (blocks avg en x n) := Blocks.sized_ofList (blockLength_pos avg) _

theorem blocks_succ (h : en n = true) : blocks avg en x (n + 1) = (blocks avg en x n).push (blockLength avg) (x n) := by
  rw [blocks, samples_succ h, Blocks.ofList_concat]
  rfl

theorem blocks_succ_of_not (h : en n = false) : blocks avg en x (n + 1) = blocks avg en x n := by
  rw [blocks, samples_succ_of_not h]
  rfl

end Samples

namespace Channel

variable {avg : BitVec 3} {en bypass : Nat → Bool} {creg : Nat → BitVec 19} {x : Nat → BitVec 18}
  {areg : Nat → BitVec 37} {dcreg y : Nat → BitVec 18}

/-- The counter is where the samples are. -/
def Counts (en : Nat → Bool) (creg : Nat → BitVec 19) (x : Nat → BitVec 18) : Prop :=
  ∀ n, (creg n).toNat = (samples en x n).length % 2 ^ 19

theorem ren_iff_dvd (hc : Counts en creg x) (n : Nat) :
    ren avg (creg n) = true ↔ blockLength avg ∣ (blocks avg en x n).all.length + 1 := by
  have hmod := Nat.div_add_mod (samples en x n).length (2 ^ 19)
  have hdvd : blockLength avg ∣ 2 ^ 19 * ((samples en x n).length / 2 ^ 19) :=
    Nat.dvd_trans (blockLength_dvd avg) (Nat.dvd_mul_right _ _)
  rw [ren_iff, hc, blocks_all, ← Nat.dvd_add_right hdvd, ← Nat.add_assoc, hmod]

theorem areg_exact (h : Channel avg en bypass creg x areg dcreg y) (hc : Counts en creg x) (n : Nat) :
    (areg n).toInt = sum (blocks avg en x n).cur := by
  induction n with
  | zero => rw [h.areg_zero]; rfl
  | succ n ih =>
      rw [h.areg_succ]
      cases hen : en n with
      | false => rw [blocks_succ_of_not hen, ← ih]; rfl
      | true =>
          have hx : ((x n).signExtend 37).toInt = (x n).toInt := BitVec.toInt_signExtend_of_le (by decide)
          have hfits := sum_fits (blocks_sized avg en x (n + 1)).cur_le
          rw [blocks_succ hen] at hfits ⊢
          cases hr : ren avg (creg n) with
          | true =>
              rw [Blocks.push_of_dvd ((ren_iff_dvd hc n).mp hr), if_pos rfl, aregNext, if_pos rfl, hx]
              simp [sum]
          | false =>
              have hnd : ¬ blockLength avg ∣ (blocks avg en x n).all.length + 1 := fun hd =>
                absurd (hr.symm.trans ((ren_iff_dvd hc n).mpr hd)) (by decide)
              have hsum : sum ((blocks avg en x n).cur ++ [x n]) = (areg n).toInt + (x n).toInt := by
                rw [ih, sum, List.map_append, List.sum_append]
                simp [sum]
              rw [Blocks.push_of_not_dvd hnd, hsum] at hfits ⊢
              rw [if_pos rfl, aregNext, if_neg (by decide), toInt_add_of_fits (by rw [hx]; exact hfits), hx]

/-- An update takes the mean of the block that was being filled. -/
theorem dcreg_update (h : Channel avg en bypass creg x areg dcreg y) (hc : Counts en creg x) {n : Nat}
    (hen : en n = true) (hr : ren avg (creg n) = true) :
    (blocks avg en x (n + 1)).done = (blocks avg en x n).done ++ [(blocks avg en x n).cur] ∧
      (dcreg (n + 1)).toInt = mean avg (blocks avg en x n).cur := by
  constructor
  · rw [blocks_succ hen, Blocks.push_of_dvd ((ren_iff_dvd hc n).mp hr)]
  · rw [h.dcreg_succ, hen, hr]
    exact toInt_dcSlice (blocks_sized avg en x n).cur_le (h.areg_exact hc n)

theorem dcreg_keep (h : Channel avg en bypass creg x areg dcreg y) (hc : Counts en creg x) {n : Nat}
    (hno : ¬ (en n = true ∧ ren avg (creg n) = true)) :
    (blocks avg en x (n + 1)).done = (blocks avg en x n).done ∧ dcreg (n + 1) = dcreg n := by
  have hand : ¬ (en n && ren avg (creg n)) = true := by rw [Bool.and_eq_true]; exact hno
  refine ⟨?_, (h.dcreg_succ n).trans (if_neg hand)⟩
  cases hen : en n with
  | false => rw [blocks_succ_of_not hen]
  | true => rw [blocks_succ hen, Blocks.push_of_not_dvd fun hd => hno ⟨hen, (ren_iff_dvd hc n).mpr hd⟩]

theorem dcreg_exact (h : Channel avg en bypass creg x areg dcreg y) (hc : Counts en creg x) (n : Nat) :
    (dcreg n).toInt = lastMean avg (blocks avg en x n) := by
  induction n with
  | zero => rw [h.dcreg_zero]; rfl
  | succ n ih =>
      by_cases hu : en n = true ∧ ren avg (creg n) = true
      · have hup := h.dcreg_update hc hu.1 hu.2
        rw [hup.2, lastMean, hup.1, List.getLast?_concat]
        rfl
      · have hk := h.dcreg_keep hc hu
        rw [hk.2, ih, lastMean, lastMean, hk.1]

end Channel

/-! ## The run -/

section Run

variable (avg : BitVec 3) (i : Nat → DcCorrAIn)

def enabled (m : Nat) : Bool := (i m).en

def bypassed (m : Nat) : Bool := (i m).bypass

theorem creg_counts (x : Nat → BitVec 18) :
    Channel.Counts (enabled i) (fun n => ((circuit avg).run i n).creg) x := by
  intro n
  change ((circuit avg).run i n).creg.toNat = _
  induction n with
  | zero => rfl
  | succ n ih =>
      have hnext : ((circuit avg).run i (n + 1)).creg =
          if enabled i n then ((circuit avg).run i n).creg + 1 else ((circuit avg).run i n).creg := rfl
      cases hen : enabled i n with
      | false => rw [hnext, samples_succ_of_not hen, hen, ← ih]; rfl
      | true =>
          rw [hnext, samples_succ hen, hen, if_pos rfl, List.length_append, List.length_singleton, BitVec.toNat_add, ih]
          exact Nat.mod_add_mod _ _ _

theorem channel_i : Channel avg (enabled i) (bypassed i) (fun n => ((circuit avg).run i n).creg) (fun n => (i n).xi)
    (fun n => ((circuit avg).run i n).aregi) (fun n => ((circuit avg).run i n).dcregi)
    (fun n => ((circuit avg).run i n).yi) := ⟨rfl, fun _ => rfl, rfl, fun _ => rfl, fun _ => rfl⟩

theorem channel_q : Channel avg (enabled i) (bypassed i) (fun n => ((circuit avg).run i n).creg) (fun n => (i n).xq)
    (fun n => ((circuit avg).run i n).aregq) (fun n => ((circuit avg).run i n).dcregq)
    (fun n => ((circuit avg).run i n).yq) := ⟨rfl, fun _ => rfl, rfl, fun _ => rfl, fun _ => rfl⟩

end Run

end DcCorrA

end LimeSdrQpcie
