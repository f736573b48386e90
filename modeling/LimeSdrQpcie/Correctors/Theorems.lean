import LimeSdrQpcie.Correctors.Lemmas.DcCorrA
import LimeSdrQpcie.Correctors.Lemmas.TxChain

/-!
# The correctors

The main results about the correctors of the transmit and the receive chain.
-/

namespace LimeSdrQpcie

open Hdl

/-! ## Automatic DC correction -/

namespace DcCorrA

/-- What the automatic correction of a channel is for. The enabled samples before cycle `n` are cut into blocks, of
which the first one ends one sample early; the accumulator holds the sum of the block being filled, and an update
takes the floor of its mean, which stays until the next update and is taken off the samples. -/
structure AveragesBlocks (avg : BitVec 3) (en bypass update : Nat → Bool) (x : Nat → BitVec 18)
    (areg : Nat → BitVec 37) (dcreg y : Nat → BitVec 18) (n : Nat) : Prop where
  covers : (blocks avg en x n).all = samples en x n
  room : (blocks avg en x n).cur.length ≤ 2 ^ (avg.toNat + 12)
  first : ∀ c, (blocks avg en x n).done[0]? = some c → c.length + 1 = 2 ^ (avg.toNat + 12)
  later : ∀ j c, (blocks avg en x n).done[j + 1]? = some c → c.length = 2 ^ (avg.toNat + 12)
  accumulates : (areg n).toInt = sum (blocks avg en x n).cur
  updates : update n = true →
    (blocks avg en x (n + 1)).done = (blocks avg en x n).done ++ [(blocks avg en x n).cur] ∧
      (dcreg (n + 1)).toInt = sum (blocks avg en x n).cur / 2 ^ (avg.toNat + 12)
  keeps : update n = false →
    (blocks avg en x (n + 1)).done = (blocks avg en x n).done ∧ dcreg (n + 1) = dcreg n
  corrects : en n = true → bypass n = false →
    y (n + 1) = BitVec.ofInt 18 ((x n).toInt - lastMean avg (blocks avg en x n))

theorem Channel.averagesBlocks {avg : BitVec 3} {en bypass : Nat → Bool} {creg : Nat → BitVec 19}
    {x : Nat → BitVec 18} {areg : Nat → BitVec 37} {dcreg y : Nat → BitVec 18}
    (h : Channel avg en bypass creg x areg dcreg y) (hc : Channel.Counts en creg x) (n : Nat) :
    AveragesBlocks avg en bypass (fun n => en n && ren avg (creg n)) x areg dcreg y n where
  covers := blocks_all
  room := (blocks_sized avg en x n).cur_le
  first := (blocks_sized avg en x n).first
  later := (blocks_sized avg en x n).later
  accumulates := h.areg_exact hc n
  updates hu := by
    rw [Bool.and_eq_true] at hu
    have hup := h.dcreg_update hc hu.1 hu.2
    refine ⟨hup.1, hup.2.trans ?_⟩
    rw [mean, blockLength]
    push_cast
    rfl
  keeps hno := by
    refine h.dcreg_keep hc fun hu => ?_
    rw [← Bool.and_eq_true, hno] at hu
    cases hu
  corrects hen hb := by
    rw [h.y_succ, hen, hb, if_pos rfl, if_neg (by decide), ← h.dcreg_exact hc n, sub_eq_ofInt]

end DcCorrA

/-- In every run both channels average exactly, for every block length, whenever samples are enabled. -/
theorem dccorra_averages (avg : BitVec 3) (i : Nat → DcCorrAIn) (n : Nat) :
    let s := (DcCorrA.circuit avg).run i
    let en := fun m => (i m).en
    let bypass := fun m => (i m).bypass
    let update := fun m => en m && DcCorrA.ren avg (s m).creg
    DcCorrA.AveragesBlocks avg en bypass update (fun m => (i m).xi) (fun m => (s m).aregi) (fun m => (s m).dcregi)
        (fun m => (s m).yi) n ∧
      DcCorrA.AveragesBlocks avg en bypass update (fun m => (i m).xq) (fun m => (s m).aregq) (fun m => (s m).dcregq)
        (fun m => (s m).yq) n :=
  ⟨(DcCorrA.channel_i avg i).averagesBlocks (DcCorrA.creg_counts avg i _) n,
    (DcCorrA.channel_q avg i).averagesBlocks (DcCorrA.creg_counts avg i _) n⟩

/-! ## Transmit chain -/

/-- In a run with constant coefficients the chain is exact for every pair of samples exactly when all phase sums fit
18 bits and all DC sums fit 14 bits. No product, no slice of a product and no difference ever leaves its range. -/
theorem txChain_exact_iff (u : TxChain.PowerUp) (c : TxChain.Coefs) (nco : Nat → BitVec 14 × BitVec 14)
    (xi xq : Nat → BitVec 18) :
    (∀ n, TxChain.StagesExact c ((TxChain.circuit u).run (TxChain.feed c nco xi xq)) (xi n).toInt (xq n).toInt n) ↔
      ∀ n, c.InRange (xi n).toInt (xq n).toInt :=
  forall_congr' (TxChain.stagesExact_iff u c nco xi xq)

/-- What the subtraction in the phase corrector makes room for: a phase and a DC coefficient that are small together
keep every pair of samples in the ranges. -/
theorem txChain_headroom (u : TxChain.PowerUp) (c : TxChain.Coefs) (nco : Nat → BitVec 14 × BitVec 14)
    (xi xq : Nat → BitVec 18) (n : Nat)
    (hi : 63 * c.iqcorr.toInt.natAbs + 16 * c.dccorri.toInt.natAbs < 2048)
    (hq : 63 * c.iqcorr.toInt.natAbs + 16 * c.dccorrq.toInt.natAbs < 2048) :
    TxChain.StagesExact c ((TxChain.circuit u).run (TxChain.feed c nco xi xq)) (xi n).toInt (xq n).toInt n :=
  (TxChain.stagesExact_iff u c nco xi xq n).mpr (TxChain.Coefs.inRange_of_headroom hi hq _ _)

/-- Full scale on both channels with the largest gain and a large phase coefficient. -/
def fullScale : TxChain.Coefs := ⟨2047, 2047, 2047, 0, 0⟩

/-- The phase sum turns into a small negative sample. -/
theorem iqcorr_wraps :
    ((TxChain.circuit ⟨0, 0, 0⟩).run (TxChain.feed fullScale (fun _ => (0, 0)) (fun _ => 0x1ffff) fun _ => 0x1ffff)
        7).inst4.rMux1.toInt = -4285 ∧
      fullScale.phaseI (0x1ffff#18).toInt (0x1ffff#18).toInt = 257859 ∧
      ¬ TxChain.StagesExact fullScale ((TxChain.circuit ⟨0, 0, 0⟩).run (TxChain.feed fullScale (fun _ => (0, 0))
        (fun _ => 0x1ffff) fun _ => 0x1ffff)) (0x1ffff#18).toInt (0x1ffff#18).toInt 0 := by
  have hout : ((TxChain.circuit ⟨0, 0, 0⟩).run (TxChain.feed fullScale (fun _ => (0, 0)) (fun _ => 0x1ffff)
      fun _ => 0x1ffff) 7).inst4.rMux1.toInt = -4285 := by decide
  have hsum : fullScale.phaseI (0x1ffff#18).toInt (0x1ffff#18).toInt = 257859 := by decide
  refine ⟨hout, hsum, fun h => ?_⟩
  have hexact := hout.symm.trans (h.phaseI.trans hsum)
  exact absurd hexact (by decide)

end LimeSdrQpcie
