import LimeSdrQpcie.Iq.Lemmas.EdgeDelay
import LimeSdrQpcie.Iq.Lemmas.Rxiq
import LimeSdrQpcie.Iq.Lemmas.Txiq
import LimeSdrQpcie.Iq.Lemmas.TxiqPar

/-!
# The digital IQ interfaces

The round trip over the interface to the transceiver: the pairs of samples that the receive side writes to its
FIFO are the pairs of the read slots of the transmit side, in order, from the second pair or, with two channels,
from the second word on. And the buses to the DACs: the channels are kept apart until the FIFO runs empty. And the
switch of the antenna: its delays hold unless the input has a short gap.
-/

namespace LimeSdrQpcie

open Hdl

/-! ## The instances of the receive side -/

theorem fifoWr_false (reg : Port (BitVec 48)) : fifoWr reg false = reg := by
  cases reg with
  | mk valid data => simp [fifoWr]

/-- An instance that is released a cycle after its parent, with a register behind its write port. -/
theorem paced_of_inst {σ ι : Type} {c : Circuit σ ι} {resetN : Nat → Bool} {reg : Nat → Port (BitVec 48)}
    {x : Nat → ι} {a d : Nat} {f : Nat → BitVec 48} (inst : Nat → σ) (port : σ → Port (BitVec 48))
    (h0 : inst 0 = c.reset) (hs : ∀ n, inst (n + 1) = if resetN n then c.next (inst n) (x n) else c.reset)
    (hr0 : resetN 0 = false) (hr : ∀ n, resetN (n + 1) = true) (hnone : (port c.reset).word = none)
    (hreg0 : (reg 0).word = none) (hreg : ∀ n, reg (n + 1) = port (inst n))
    (hp : Paced (fun n => (port (c.run (fun i => x (i + 1)) n)).word) a d f) :
    Paced (fun n => (reg n).word) (a + 2) d f := by
  have hinst : ∀ n, inst (n + 1) = c.run (fun i => x (i + 1)) n :=
    Circuit.run_of_resetN h0 hs (fun n hn => by rw [Nat.lt_one_iff.mp hn]; exact hr0) hr
  refine hp.shift 2 (fun n hn => ?_) (fun n => ?_)
  · rcases (show n = 0 ∨ n = 1 by omega) with rfl | rfl
    · exact hreg0
    · rw [hreg, h0]
      exact hnone
  · rw [hreg, hinst]

section

variable {m : IqMode} {z : Nat → RxiqIn} {a d : Nat} {f : Nat → BitVec 48}

theorem RxiqMimo.paced_ddr (hm : m.trxiqpulse = false) (hz : ∀ n, (z n).fifoWfull = false)
    (hp : Paced (fun n => ((RxiqDdr.circuit rxiqMimoDdr m).run (fun i => (z (i + 1)).diq) n).fifoWrReg.word) a d f) :
    Paced (fun n => ((circuit m).run z n).fifoWrReg.word) (a + 2) d f :=
  paced_of_inst (c := RxiqDdr.circuit rxiqMimoDdr m) (fun n => ((circuit m).run z n).inst0)
    RxiqDdr.fifoWrReg rfl (fun _ => rfl) rfl (fun _ => decide_eq_true hm) rfl rfl
    (fun n => by rw [Circuit.run_succ]; simp [circuit, next, muxFifoWr, hm, hz, fifoWr_false]) hp

theorem RxiqMimo.paced_pulse (hm : m.trxiqpulse = true) (hz : ∀ n, (z n).fifoWfull = false)
    (hp : Paced (fun n => ((RxiqDdr.circuit rxiqPulseDdr m).run (fun i => (z (i + 1)).diq) n).fifoWrReg.word) a d f) :
    Paced (fun n => ((circuit m).run z n).fifoWrReg.word) (a + 2) d f :=
  paced_of_inst (c := RxiqDdr.circuit rxiqPulseDdr m) (fun n => ((circuit m).run z n).inst1)
    RxiqDdr.fifoWrReg rfl (fun _ => rfl) rfl (fun _ => decide_eq_true hm) rfl rfl
    (fun n => by rw [Circuit.run_succ]; simp [circuit, next, muxFifoWr, hm, hz, fifoWr_false]) hp

theorem RxiqSiso.paced_ddr (hm : m.ddrEn = true) (hz : ∀ n, (z n).fifoWfull = false)
    (hp : Paced (fun n => ((RxiqSisoDdr.circuit m).run (fun i => (z (i + 1)).diq) n).fifoData.word) a d f) :
    Paced (fun n => ((circuit m).run z n).fifoWrReg.word) (a + 2) d f :=
  paced_of_inst (c := RxiqSisoDdr.circuit m) (fun n => ((circuit m).run z n).inst1)
    RxiqSisoDdr.fifoData rfl (fun _ => rfl) rfl (fun _ => decide_eq_true hm) rfl rfl
    (fun n => by rw [Circuit.run_succ]; simp [circuit, next, muxFifoWr, hm, hz, fifoWr_false]) hp

theorem Rxiq.paced_siso (hm : m.mimoEn = false) (hz : ∀ n, (z n).fifoWfull = false)
    (hp : Paced (fun n => ((RxiqSiso.circuit m).run (fun i => z (i + 1)) n).fifoWrReg.word) a d f) :
    Paced (fun n => ((circuit m).run z n).fifoWrReg.word) (a + 2) d f :=
  paced_of_inst (c := RxiqSiso.circuit m) (fun n => ((circuit m).run z n).inst0)
    RxiqSiso.fifoWrReg rfl (fun _ => rfl) rfl (fun _ => decide_eq_true hm) rfl rfl
    (fun n => by rw [Circuit.run_succ]; simp [circuit, next, muxFifoWr, hm, hz, fifoWr_false]) hp

theorem Rxiq.paced_mimo (hm : m.mimoEn = true) (hz : ∀ n, (z n).fifoWfull = false)
    (hp : Paced (fun n => ((RxiqMimo.circuit m).run (fun i => z (i + 1)) n).fifoWrReg.word) a d f) :
    Paced (fun n => ((circuit m).run z n).fifoWrReg.word) (a + 2) d f :=
  paced_of_inst (c := RxiqMimo.circuit m) (fun n => ((circuit m).run z n).inst1)
    RxiqMimo.fifoWrReg rfl (fun _ => rfl) rfl (fun _ => decide_eq_true hm) rfl rfl
    (fun n => by rw [Circuit.run_succ]; simp [circuit, next, muxFifoWr, hm, hz, fifoWr_false]) hp

end

/-! ## Pairs of samples -/

/-- Pair `h` of the words `w`. -/
def pairAt (w : Nat → BitVec 48) (h : Nat) : BitVec 12 × BitVec 12 :=
  (diqSmpl (w (h / 2)) (2 * (h % 2)), diqSmpl (w (h / 2)) (2 * (h % 2) + 1))

theorem iqPairs_eq (w : Nat → BitVec 48) (k : Nat) : iqPairs (w k) = [pairAt w (2 * k), pairAt w (2 * k + 1)] := by
  simp [iqPairs, pairAt, show (2 * k + 1) / 2 = k by omega, show (2 * k + 1) % 2 = 1 by omega]

/-- The pair of the two halves of a cycle. -/
def smplPair (i : RxDiq) : BitVec 12 × BitVec 12 := (i.diqL.smpl, i.diqH.smpl)

theorem fifoWord_getLsbD (p0 p1 p2 p3 : BitVec 12) (i : Nat) :
    (fifoWord p0 p1 p2 p3).getLsbD i =
      if i < 12 then p0.getLsbD i
      else if i - 12 < 12 then p1.getLsbD (i - 12)
      else if i - 12 - 12 < 12 then p2.getLsbD (i - 12 - 12)
      else p3.getLsbD (i - 12 - 12 - 12) := by
  have h : (fifoWord p0 p1 p2 p3).getLsbD i =
      if i < 12 then p0.getLsbD i else (p3 ++ p2 ++ p1).getLsbD (i - 12) := BitVec.getLsbD_append
  rw [h, BitVec.getLsbD_append, BitVec.getLsbD_append]

theorem iqPairs_fifoWord (p0 p1 p2 p3 : BitVec 12) : iqPairs (fifoWord p0 p1 p2 p3) = [(p0, p1), (p2, p3)] := by
  have h0 : diqSmpl (fifoWord p0 p1 p2 p3) 0 = p0 := by
    apply BitVec.eq_of_getLsbD_eq
    intro i hi
    simp [diqSmpl, fifoWord_getLsbD, hi]
  have h1 : diqSmpl (fifoWord p0 p1 p2 p3) 1 = p1 := by
    apply BitVec.eq_of_getLsbD_eq
    intro i hi
    simp [diqSmpl, fifoWord_getLsbD, hi]
  have h2 : diqSmpl (fifoWord p0 p1 p2 p3) 2 = p2 := by
    apply BitVec.eq_of_getLsbD_eq
    intro i hi
    rw [diqSmpl, BitVec.getLsbD_extractLsb', fifoWord_getLsbD, if_neg (by omega), if_neg (by omega), if_pos (by omega),
      show 12 * 2 + i - 12 - 12 = i by omega, decide_eq_true hi, Bool.true_and]
  have h3 : diqSmpl (fifoWord p0 p1 p2 p3) 3 = p3 := by
    apply BitVec.eq_of_getLsbD_eq
    intro i hi
    rw [diqSmpl, BitVec.getLsbD_extractLsb', fifoWord_getLsbD, if_neg (by omega), if_neg (by omega), if_neg (by omega),
      show 12 * 3 + i - 12 - 12 - 12 = i by omega, decide_eq_true hi, Bool.true_and]
  rw [iqPairs, h0, h1, h2, h3]

theorem iqPairs_capWord (a b : RxDiq) : iqPairs (capWord a b) = [smplPair a, smplPair b] := iqPairs_fifoWord _ _ _ _

/-- Words that bring two pairs each bring the pairs in order. -/
theorem flatMap_iqPairs {f : Nat → BitVec 48} {g : Nat → BitVec 12 × BitVec 12}
    (h : ∀ i, iqPairs (f i) = [g (2 * i), g (2 * i + 1)]) (k : Nat) :
    ((List.range k).map f).flatMap iqPairs = (List.range (2 * k)).map g := by
  induction k with
  | zero => rfl
  | succ k ih =>
      rw [Nat.mul_succ, List.range_succ, List.range_succ, List.range_succ]
      simp only [List.map_append, List.flatMap_append, ih, List.append_assoc]
      simp [h]

theorem map_range_isPrefix {α : Type} (g : Nat → α) {r k lost : Nat} (h : r + lost ≤ k ∨ r = 0) :
    (List.range r).map (fun i => g (lost + i)) <+: ((List.range k).map g).drop lost := by
  rw [List.prefix_iff_eq_take]
  apply List.ext_getElem
  · simp; omega
  · intro i hi hi'
    simp

/-! ## The stream between the two sides -/

namespace IqLoop

open Txiq

variable (m : IqMode) (txFifo : List (BitVec 48)) (x : Nat → IqLoopIn)

/-- The halves from cycle `2` on, when the captures of the receive side have left their reset. -/
def halves (n : Nat) : RxDiq := ((circuit m txFifo).run x (n + 2)).rxDiq

theorem halves_slot (k : Nat) (j : Fin 4) (hj : j.val < period m) :
    halves m txFifo x (1 + period m * k + j) =
      { diqH := positions (intFsyncL m) (muxPosL (intMode m) (wordOfSlot m txFifo x k)) j
        diqL := positions (intFsyncH m) (muxPosH (intMode m) (wordOfSlot m txFifo x k)) j } := by
  rw [← diq_run m txFifo x k j hj, halves, show 1 + period m * k + j + 2 = 3 + period m * k + j by omega]

theorem halves_fsync (n : Nat) :
    (halves m txFifo x (n + 1)).diqH.fsync = (intFsyncL m).getLsbD (n % period m) ∧
      (halves m txFifo x (n + 1)).diqL.fsync = (intFsyncH m).getLsbD (n % period m) := by
  have hlt : n % period m < period m := Nat.mod_lt _ (Nat.succ_pos _)
  have h := halves_slot m txFifo x (n / period m) ⟨n % period m, Nat.lt_of_lt_of_le hlt (period_le m)⟩ hlt
  have hn := Nat.div_add_mod n (period m)
  rw [show 1 + period m * (n / period m) + n % period m = n + 1 by omega] at h
  rw [h]
  exact ⟨rfl, rfl⟩

variable {m} {txFifo} {x}

/-- The frame bits of a stream with one bit a half that changes in every cycle on the side of `DIQ_l`. -/
theorem halves_twoFrames (kind : RxiqDdrKind) (hL : ∀ n, (intFsyncH m).getLsbD (n % period m) = decide (n % 2 = 1))
    (hB1 : ∀ n, (kind.chB1Half (halves m txFifo x (n + 1))).fsync = decide (n % 2 = 1))
    (h0 : kind.diqValid false false false false = false)
    (h1 : kind.diqValid false false (halves m txFifo x 1).diqH.fsync false = false)
    (hv : ∀ n, kind.diqValid (halves m txFifo x (n + 1)).diqH.fsync (decide (n % 2 = 1))
      (halves m txFifo x (n + 2)).diqH.fsync (decide ((n + 1) % 2 = 1)) = true) :
    TwoFrames kind (halves m txFifo x) := by
  have hf : ∀ n, (halves m txFifo x (n + 1)).diqL.fsync = decide (n % 2 = 1) := fun n => by
    rw [(halves_fsync m txFifo x n).2, hL]
  refine ⟨fun n => ?_, fun n hn => ?_, fun n hn => ?_⟩
  · match n with
    | 0 => exact h0
    | 1 =>
        rw [hf 0]
        exact h1
    | n + 2 =>
        rw [halvesBefore, hf n, hf (n + 1), hv]
        exact (decide_eq_true (Nat.le_add_left 2 n)).symm
  · obtain ⟨n, rfl⟩ := Nat.exists_eq_add_of_le' hn
    rw [hf]
    exact decide_eq_decide.mpr (by omega)
  · obtain ⟨n, rfl⟩ := Nat.exists_eq_add_of_le' hn
    rw [hB1]
    exact decide_eq_decide.mpr (by omega)

theorem getLsbD_alternating (n : Nat) (m : IqMode) : (0b1010#4).getLsbD (n % period m) = decide (n % 2 = 1) := by
  by_cases h : intMode m = 0b00
  · rw [period_of_both h]
    rcases Nat.mod_two_eq_zero_or_one n with h0 | h1
    · rw [h0]; rfl
    · rw [h1]; rfl
  · rw [period_of_one h]
    have h2 : n % 2 = n % 4 % 2 := by omega
    rw [h2]
    rcases (show n % 4 = 0 ∨ n % 4 = 1 ∨ n % 4 = 2 ∨ n % 4 = 3 by omega) with h | h | h | h <;> rw [h] <;> rfl

theorem getLsbD_ones (n : Nat) (m : IqMode) : (0b1111#4).getLsbD (n % period m) = true := by
  have hlt : n % period m < 4 := Nat.lt_of_lt_of_le (Nat.mod_lt _ (Nat.succ_pos _)) (period_le m)
  rcases (show n % period m = 0 ∨ n % period m = 1 ∨ n % period m = 2 ∨ n % period m = 3 by omega) with
    h | h | h | h <;> rw [h] <;> rfl

theorem twoFrames_mimoDdr (hm : m.fidm = false) (hp : m.trxiqpulse = false) (he : m.mimoEn = true) :
    TwoFrames rxiqMimoDdr (halves m txFifo x) := by
  have hH : intFsyncH m = 0b1010#4 := by simp [intFsyncH, muxFsyncH, hm, he]
  have hL : intFsyncL m = 0b1010#4 := by simp [intFsyncL, muxFsyncL, hm, he, hp]
  have hfH : ∀ n, (halves m txFifo x (n + 1)).diqH.fsync = decide (n % 2 = 1) := fun n => by
    rw [(halves_fsync m txFifo x n).1, hL, getLsbD_alternating]
  refine halves_twoFrames rxiqMimoDdr (fun n => by rw [hH, getLsbD_alternating]) hfH rfl ?_ fun n => ?_
  · rw [hfH 0]
    rfl
  · rw [hfH, hfH]
    rcases Nat.mod_two_eq_zero_or_one n with h | h
    · rw [h, show (n + 1) % 2 = 1 by omega]
      rfl
    · rw [h, show (n + 1) % 2 = 0 by omega]
      rfl

theorem twoFrames_pulseDdr (hm : m.fidm = false) (hp : m.trxiqpulse = true) :
    TwoFrames rxiqPulseDdr (halves m txFifo x) := by
  have hH : intFsyncH m = 0b1010#4 := by simp [intFsyncH, muxFsyncH, hm, hp]
  have hL : intFsyncL m = 0b1111#4 := by simp [intFsyncL, muxFsyncL, hm, hp]
  have hfH : ∀ n, (halves m txFifo x (n + 1)).diqH.fsync = true := fun n => by
    rw [(halves_fsync m txFifo x n).1, hL, getLsbD_ones]
  refine halves_twoFrames rxiqPulseDdr (fun n => by rw [hH, getLsbD_alternating]) (fun n => ?_) rfl rfl fun n => ?_
  · exact (halves_fsync m txFifo x n).2.trans (by rw [hH, getLsbD_alternating])
  · rw [hfH, hfH]
    rcases Nat.mod_two_eq_zero_or_one n with h | h
    · rw [h, show (n + 1) % 2 = 1 by omega]
      rfl
    · rw [h, show (n + 1) % 2 = 0 by omega]
      rfl

theorem steadyFrames_sisoDdr (hm : m.fidm = false) (hs : m.SisoDdr) : SteadyFrames (halves m txFifo x) := by
  have hH : intFsyncH m = 0#4 := by simp [intFsyncH, muxFsyncH, hm, hs.1, hs.2.1, hs.2.2]
  have hL : intFsyncL m = 0b1111#4 := by simp [intFsyncL, muxFsyncL, hm, hs.2.1, hs.2.2]
  refine ⟨rfl, fun n => ?_, fun n => ?_⟩
  · rw [(halves_fsync m txFifo x n).1, hL, getLsbD_ones]
  · rw [(halves_fsync m txFifo x n).2, hH, BitVec.getLsbD_zero]

/-! ### The pairs of the stream -/

/-- Pair `n` comes in cycle `j` of its slot, when the mode sends it there. -/
theorem smplPair_slot {c n : Nat} (j : Fin 4) (hj : j.val < period m) (hc : c = 1 + period m * (n / 2) + j.val)
    (hmux : ∀ w, (muxPosH (intMode m) w j, muxPosL (intMode m) w j) =
      (diqSmpl w (2 * (n % 2)), diqSmpl w (2 * (n % 2) + 1))) :
    smplPair (halves m txFifo x c) = pairAt (wordOfSlot m txFifo x) n := by
  rw [hc, halves_slot m txFifo x (n / 2) j hj]
  exact hmux _

theorem smplPair_both (h : intMode m = 0b00) (n : Nat) :
    smplPair (halves m txFifo x (1 + n)) = pairAt (wordOfSlot m txFifo x) n := by
  have hP := period_of_both h
  rcases Nat.mod_two_eq_zero_or_one n with h0 | h1
  · refine smplPair_slot 0 (Nat.succ_pos _) ?_ (fun w => by rw [h, h0]; rfl)
    rw [hP, Fin.val_zero]
    omega
  · refine smplPair_slot 1 (by rw [hP]; decide) ?_ (fun w => by rw [h, h1]; rfl)
    rw [hP, Fin.val_one]
    omega

theorem smplPair_one {second : Bool} (h : intMode m = RxiqDdr.chEnOf second) (n : Nat) :
    smplPair (halves m txFifo x (1 + second.toNat + 2 * n)) = pairAt (wordOfSlot m txFifo x) n := by
  have hP : period m = 4 := period_of_one (by rw [h]; cases second <;> decide)
  have hj : ∀ j : Fin 4, j.val < period m := fun j => by rw [hP]; exact j.isLt
  rcases Nat.mod_two_eq_zero_or_one n with h0 | h1
  · cases second with
    | false =>
        refine smplPair_slot 0 (hj 0) ?_ (fun w => by rw [h, h0]; rfl)
        rw [hP, Bool.toNat_false, Fin.val_zero]
        omega
    | true =>
        refine smplPair_slot 1 (hj 1) ?_ (fun w => by rw [h, h0]; rfl)
        rw [hP, Bool.toNat_true, Fin.val_one]
        omega
  · cases second with
    | false =>
        refine smplPair_slot 2 (hj 2) ?_ (fun w => by rw [h, h1]; rfl)
        rw [hP, Bool.toNat_false, Fin.val_two]
        omega
    | true =>
        refine smplPair_slot 3 (hj 3) ?_ (fun w => by rw [h, h1]; rfl)
        rw [hP, Bool.toNat_true, show (3 : Fin 4).val = 3 from rfl]
        omega

/-! ### What the receive side writes -/

/-- What the receive side gets in a cycle. -/
def rxiqIn (m : IqMode) (txFifo : List (BitVec 48)) (x : Nat → IqLoopIn) (n : Nat) : RxiqIn :=
  ⟨((circuit m txFifo).run x n).rxDiq, (x n).rxFifoWfull⟩

theorem rxiq_run (m : IqMode) (txFifo : List (BitVec 48)) (x : Nat → IqLoopIn) (n : Nat) :
    ((circuit m txFifo).run x n).rxiq = (Rxiq.circuit m).run (rxiqIn m txFifo x) n :=
  Circuit.run_part (c := circuit m txFifo) (d := Rxiq.circuit m) IqLoop.rxiq
    (fun s i => ⟨s.rxDiq, i.rxFifoWfull⟩) rfl (fun _ _ => rfl) x n

/-- While the receive FIFO has room it takes what the output register of `rxiq` holds. -/
theorem rxWord_eq (hroom : ∀ n, (x n).rxFifoWfull = false) (n : Nat) :
    ((circuit m txFifo).run x n).rxWord (x n) = ((Rxiq.circuit m).run (rxiqIn m txFifo x) n).fifoWrReg.word := by
  rw [rxWord, Rxiq.fifoWr, hroom, fifoWr_false, rxiq_run]

theorem rxWord_paced_mimoDdr (hroom : ∀ n, (x n).rxFifoWfull = false) (hp : m.trxiqpulse = false)
    (he : m.mimoEn = true) {a d : Nat} {f : Nat → BitVec 48}
    (h : Paced (fun n => ((RxiqDdr.circuit rxiqMimoDdr m).run (halves m txFifo x) n).fifoWrReg.word) a d f) :
    Paced (fun n => ((circuit m txFifo).run x n).rxWord (x n)) (a + 4) d f := by
  simp only [rxWord_eq hroom]
  exact Rxiq.paced_mimo he hroom (RxiqMimo.paced_ddr hp (fun n => hroom (n + 1)) h)

theorem rxWord_paced_pulseDdr (hroom : ∀ n, (x n).rxFifoWfull = false) (hp : m.trxiqpulse = true)
    (he : m.mimoEn = true) {a d : Nat} {f : Nat → BitVec 48}
    (h : Paced (fun n => ((RxiqDdr.circuit rxiqPulseDdr m).run (halves m txFifo x) n).fifoWrReg.word) a d f) :
    Paced (fun n => ((circuit m txFifo).run x n).rxWord (x n)) (a + 4) d f := by
  simp only [rxWord_eq hroom]
  exact Rxiq.paced_mimo he hroom (RxiqMimo.paced_pulse hp (fun n => hroom (n + 1)) h)

theorem rxWord_paced_sisoDdr (hroom : ∀ n, (x n).rxFifoWfull = false) (hs : m.SisoDdr) {a d : Nat}
    {f : Nat → BitVec 48}
    (h : Paced (fun n => ((RxiqSisoDdr.circuit m).run (halves m txFifo x) n).fifoData.word) a d f) :
    Paced (fun n => ((circuit m txFifo).run x n).rxWord (x n)) (a + 4) d f := by
  simp only [rxWord_eq hroom]
  exact Rxiq.paced_siso hs.2.2 hroom (RxiqSiso.paced_ddr hs.2.1 (fun n => hroom (n + 1)) h)

/-- The round trip up to cycle `n`, without the first `lost` pairs. -/
def RoundTrip (m : IqMode) (txFifo : List (BitVec 48)) (x : Nat → IqLoopIn) (lost n : Nat) : Prop :=
  let slots := (words (fun k => ((circuit m txFifo).run x k).slot) n).flatMap iqPairs
  let rx := (words (fun k => ((circuit m txFifo).run x k).rxWord (x k)) n).flatMap iqPairs
  rx <+: slots.drop lost ∧ slots.length ≤ rx.length + lost + 8

theorem roundTrip_of_paced {a lost : Nat} {f : Nat → BitVec 48}
    (hp : Paced (fun n => ((circuit m txFifo).run x n).rxWord (x n)) a (period m) f)
    (hf : ∀ k, iqPairs (f k) = [pairAt (wordOfSlot m txFifo x) (lost + 2 * k),
      pairAt (wordOfSlot m txFifo x) (lost + (2 * k + 1))])
    (hbefore : ∀ n, 2 * ((n + period m - 1 - a) / period m) + lost ≤ 2 * ((n + period m - 1 - 1) / period m) ∨
      2 * ((n + period m - 1 - a) / period m) = 0)
    (hlag : ∀ n, 2 * ((n + period m - 1 - 1) / period m) ≤ 2 * ((n + period m - 1 - a) / period m) + lost + 8)
    (n : Nat) : RoundTrip m txFifo x lost n := by
  have hslots : (words (fun k => ((circuit m txFifo).run x k).slot) n).flatMap iqPairs =
      (List.range (2 * ((n + period m - 1 - 1) / period m))).map (pairAt (wordOfSlot m txFifo x)) := by
    rw [(slot_paced m txFifo x).words_eq (Nat.succ_pos _), flatMap_iqPairs (iqPairs_eq _)]
  have hrx : (words (fun k => ((circuit m txFifo).run x k).rxWord (x k)) n).flatMap iqPairs =
      (List.range (2 * ((n + period m - 1 - a) / period m))).map
        (fun h => pairAt (wordOfSlot m txFifo x) (lost + h)) := by
    rw [hp.words_eq (Nat.succ_pos _), flatMap_iqPairs (g := fun h => pairAt (wordOfSlot m txFifo x) (lost + h)) hf]
  show _ <+: List.drop _ _ ∧ _
  rw [hslots, hrx]
  refine ⟨map_range_isPrefix _ (hbefore n), ?_⟩
  rw [List.length_map, List.length_map, List.length_range, List.length_range]
  exact hlag n

theorem roundTrip_both (hm : m.fidm = false) (he : m.mimoEn = true) (hch : m.chEn = 0b11) {kind : RxiqDdrKind}
    (hk : TwoFrames kind (halves m txFifo x))
    (hout : ∀ {a d : Nat} {f : Nat → BitVec 48},
      Paced (fun n => ((RxiqDdr.circuit kind m).run (halves m txFifo x) n).fifoWrReg.word) a d f →
      Paced (fun n => ((circuit m txFifo).run x n).rxWord (x n)) (a + 4) d f) (n : Nat) :
    RoundTrip m txFifo x 2 n := by
  have hmode : intMode m = 0b00 := by simp [intMode, he, hch]
  have hP := period_of_both hmode
  have hp := hout (RxiqDdr.chAB_twoFrames hm hch hk)
  rw [← hP] at hp
  refine roundTrip_of_paced hp (fun k => ?_) (fun n => ?_) (fun n => ?_) n
  · rw [hP, iqPairs_capWord, show 3 + 2 * k = 1 + (2 + 2 * k) by omega, smplPair_both hmode, Nat.add_assoc 1,
      smplPair_both hmode]
    rfl
  · rw [hP]
    omega
  · rw [hP]
    omega

theorem roundTrip_one (second : Bool) (hm : m.fidm = false) (he : m.mimoEn = true)
    (hch : m.chEn = RxiqDdr.chEnOf second) {kind : RxiqDdrKind} (hk : TwoFrames kind (halves m txFifo x))
    (hout : ∀ {a d : Nat} {f : Nat → BitVec 48},
      Paced (fun n => ((RxiqDdr.circuit kind m).run (halves m txFifo x) n).fifoWrReg.word) a d f →
      Paced (fun n => ((circuit m txFifo).run x n).rxWord (x n)) (a + 4) d f) (n : Nat) :
    RoundTrip m txFifo x 1 n := by
  have hmode : intMode m = RxiqDdr.chEnOf second := by
    cases second <;> simp [intMode, he, hch, RxiqDdr.chEnOf]
  have hP : period m = 4 := period_of_one (by rw [hmode]; cases second <;> decide)
  have hle : second.toNat ≤ 1 := Bool.toNat_le second
  have hp := hout (RxiqDdr.alone_twoFrames hm hch hk)
  rw [← hP] at hp
  refine roundTrip_of_paced hp (fun k => ?_) (fun n => ?_) (fun n => ?_) n
  · rw [hP, iqPairs_capWord, show 3 + second.toNat + 4 * k + 2 = 1 + second.toNat + 2 * (1 + (2 * k + 1)) by omega,
      show 3 + second.toNat + 4 * k = 1 + second.toNat + 2 * (1 + 2 * k) by omega, smplPair_one hmode,
      smplPair_one hmode]
  · rw [hP]
    omega
  · rw [hP]
    omega

theorem roundTrip_siso (hm : m.fidm = false) (hs : m.SisoDdr) (hroom : ∀ n, (x n).rxFifoWfull = false) (n : Nat) :
    RoundTrip m txFifo x 1 n := by
  have hmode : intMode m = 0b00 := by simp [intMode, hs.2.1, hs.2.2]
  have hP := period_of_both hmode
  have hp : Paced (fun n => ((circuit m txFifo).run x n).rxWord (x n)) 8 2 _ :=
    rxWord_paced_sisoDdr hroom hs (RxiqSisoDdr.paced hm (steadyFrames_sisoDdr hm hs))
  rw [← hP] at hp
  refine roundTrip_of_paced hp (fun k => ?_) (fun n => ?_) (fun n => ?_) n
  · rw [hP, iqPairs_capWord, show 2 + 2 * k = 1 + (1 + 2 * k) by omega, smplPair_both hmode, Nat.add_assoc 1,
      smplPair_both hmode]
    rfl
  · rw [hP]
    omega
  · rw [hP]
    omega

/-- The pairs that are lost while the receive side synchronises to the frame bit. -/
def lostPairs (m : IqMode) : Nat := if m.mimoEn = true ∧ m.chEn = 0b11 then 2 else 1

theorem roundTrip_of_room (hm : m.fidm = false) (hmode : m.MimoDdr ∨ m.TrxiqPulse ∨ m.SisoDdr)
    (hroom : ∀ n, (x n).rxFifoWfull = false) (n : Nat) : RoundTrip m txFifo x (lostPairs m) n := by
  have hmimo : ∀ {kind : RxiqDdrKind}, m.mimoEn = true → (m.chEn = 0b01 ∨ m.chEn = 0b10 ∨ m.chEn = 0b11) →
      TwoFrames kind (halves m txFifo x) → (∀ {a d : Nat} {f : Nat → BitVec 48},
        Paced (fun n => ((RxiqDdr.circuit kind m).run (halves m txFifo x) n).fifoWrReg.word) a d f →
        Paced (fun n => ((circuit m txFifo).run x n).rxWord (x n)) (a + 4) d f) →
      RoundTrip m txFifo x (lostPairs m) n := by
    intro kind he hch hk hout
    rcases hch with hch | hch | hch
    · rw [lostPairs, hch, if_neg (fun h => absurd h.2 (by decide))]
      exact roundTrip_one false hm he hch hk hout n
    · rw [lostPairs, hch, if_neg (fun h => absurd h.2 (by decide))]
      exact roundTrip_one true hm he hch hk hout n
    · rw [lostPairs, if_pos ⟨he, hch⟩]
      exact roundTrip_both hm he hch hk hout n
  rcases hmode with ⟨hp, _, he, hch⟩ | ⟨hp, he, hch⟩ | hs
  · exact hmimo he hch (twoFrames_mimoDdr hm hp he) (rxWord_paced_mimoDdr hroom hp he)
  · exact hmimo he hch (twoFrames_pulseDdr hm hp) (rxWord_paced_pulseDdr hroom hp he)
  · rw [lostPairs, if_neg (fun h => absurd h.1 (by rw [hs.2.2]; decide))]
    exact roundTrip_siso hm hs hroom n

end IqLoop

/-- Until the receive FIFO is full the pairs it takes are the pairs of the read slots in order, without at most the
first word; with two channels they begin with a whole word. -/
theorem iq_roundTrip (m : IqMode) (hm : m.fidm = false) (hmode : m.MimoDdr ∨ m.TrxiqPulse ∨ m.SisoDdr) :
    ∃ lost ≤ 2, (m.TwoChannels → lost = 2) ∧ ∀ (txFifo : List (BitVec 48)) (x : Nat → IqLoopIn) (n : Nat),
      (∀ k < n, (x k).rxFifoWfull = false) → IqLoop.RoundTrip m txFifo x lost n := by
  refine ⟨IqLoop.lostPairs m, ?_, fun h => if_pos h, fun txFifo x n hroom => ?_⟩
  · rw [IqLoop.lostPairs]
    split <;> decide
  · -- what the receive FIFO does from cycle `n` on does not matter
    let y : Nat → IqLoopIn := fun k => { x k with rxFifoWfull := false }
    have hxy : ∀ k < n, x k = y k := fun k hk => by
      show x k = { x k with rxFifoWfull := false }
      rw [← hroom k hk]
    have hrun : ∀ k < n, (IqLoop.circuit m txFifo).run x k = (IqLoop.circuit m txFifo).run y k := fun k hk =>
      Circuit.run_congr fun j hj => hxy j (Nat.lt_trans hj hk)
    have h : IqLoop.RoundTrip m txFifo y (IqLoop.lostPairs m) n :=
      IqLoop.roundTrip_of_room hm hmode (fun _ => rfl) n
    have hslot : words (fun k => ((IqLoop.circuit m txFifo).run x k).slot) n =
        words (fun k => ((IqLoop.circuit m txFifo).run y k).slot) n :=
      words_congr fun k hk => by rw [hrun k hk]
    have hrx : words (fun k => ((IqLoop.circuit m txFifo).run x k).rxWord (x k)) n =
        words (fun k => ((IqLoop.circuit m txFifo).run y k).rxWord (y k)) n :=
      words_congr fun k hk => by rw [hrun k hk, hxy k hk]
    rw [IqLoop.RoundTrip, hslot, hrx]
    exact h

theorem iq_roundTrip_bothChannels :
    ∃ lost ≤ 2, IqLoop.RoundTrip ⟨false, true, true, 0b11, false⟩ [0x111222333444, 0x555666777888]
      (fun _ => ⟨[], false⟩) lost 20 := by
  obtain ⟨lost, hle, _, h⟩ := iq_roundTrip ⟨false, true, true, 0b11, false⟩ rfl
    (Or.inl ⟨rfl, rfl, rfl, Or.inr (Or.inr rfl)⟩)
  exact ⟨lost, hle, h _ _ 20 fun _ _ => rfl⟩

/-! ## The channels of the receive side -/

/-- `rxiq_pulse_ddr` or `rxiq_mimo_ddr`. -/
def rxiqDdrKind (pulse : Bool) : RxiqDdrKind := if pulse then rxiqPulseDdr else rxiqMimoDdr

/-- The frame bits of a stream of two channels that starts in cycle `t`: the one of the low half changes in every
cycle from there on, the one of the high half is the same. With pulses only one half of four has the level of a frame
start, which is `fidm`, and the high half is none of them. -/
structure FrameStream (pulse fidm : Bool) (t : Nat) (y : Nat → RxDiq) : Prop where
  alternate : ∀ n, t ≤ n → (y (n + 1)).diqL.fsync = !(y n).diqL.fsync
  high : ∀ n, t ≤ n → (y n).diqH.fsync = if pulse then !fidm else (y n).diqL.fsync

/-- The channel of a frame is on. -/
def IqMode.channelOn (m : IqMode) (i : RxDiq) : Bool := m.chEn.getLsbD (if m.secondFrame i then 1 else 0)

/-- The pairs of samples of the channels that are on, as they arrive from cycle `c` on. -/
def IqMode.arrived (m : IqMode) (y : Nat → RxDiq) (c n : Nat) : List (BitVec 12 × BitVec 12) :=
  words (fun k => if m.channelOn (y (c + k)) then some (smplPair (y (c + k))) else none) n

section Channels

variable {pulse fidm : Bool} {t : Nat} {y : Nat → RxDiq}

theorem oneFrame_rxiqDdr (pulse : Bool) (y : Nat → RxDiq) : OneFrame (rxiqDdrKind pulse) y := by
  intro n hv
  cases pulse with
  | true => rfl
  | false =>
      change (y n).diqH.fsync = (y n).diqL.fsync
      have hv' : ((_ ^^ (y n).diqH.fsync) && !((y n).diqH.fsync ^^ (y n).diqL.fsync) &&
        (_ ^^ (y n).diqL.fsync)) = true := hv
      cases hH : (y n).diqH.fsync <;> cases hL : (y n).diqL.fsync <;> simp [hH, hL] at hv' ⊢

/-- A stream is valid from its second cycle on, with pulses that are low. -/
theorem FrameStream.frames (h : FrameStream pulse fidm t y) (hp : pulse = true → fidm = false) (e : Nat) :
    Frames (rxiqDdrKind pulse) (fun n => y (e + n)) (t - e + 1) := by
  have halt : ∀ n, t - e ≤ n → (y (e + (n + 1))).diqL.fsync = !(y (e + n)).diqL.fsync :=
    fun n hn => h.alternate (e + n) (by omega)
  refine ⟨fun n hn => ?_, fun n hn => halt n (Nat.le_of_succ_le hn)⟩
  obtain ⟨n, rfl⟩ := Nat.exists_eq_add_of_le' (Nat.le_trans (Nat.le_add_left 1 (t - e)) hn)
  have hn' : t - e ≤ n := Nat.le_of_succ_le_succ hn
  rw [validAt, halvesBefore, h.high (e + n) (by omega), h.high (e + (n + 1)) (by omega), halt n hn']
  cases pulse with
  | false => cases (y (e + n)).diqL.fsync <;> rfl
  | true =>
      rw [hp rfl]
      cases (y (e + n)).diqL.fsync <;> rfl

/-- With pulses that are high the high half is always low, and `rxiq_pulse_ddr` takes no cycle of the stream. -/
theorem FrameStream.invalid (h : FrameStream true true t y) (e : Nat) :
    ∀ k, t - e ≤ k → validAt (rxiqDdrKind true) (fun n => y (e + n)) k = false := by
  intro k hk
  have hhigh : (y (e + k)).diqH.fsync = false := h.high (e + k) (by omega)
  change ((_ && (y (e + k)).diqH.fsync) && _) = false
  rw [hhigh, Bool.and_false, Bool.false_and]

/-- Before the stream the frame bits are low. -/
def LowBefore (e t : Nat) (y : Nat → RxDiq) : Prop :=
  ∀ n, e ≤ n → n < t → (y n).diqH.fsync = false ∧ (y n).diqL.fsync = false

/-- Low frame bits are not valid. -/
theorem LowBefore.invalid {e : Nat} (h : LowBefore e t y) (pulse : Bool) :
    ∀ k < t - e, validAt (rxiqDdrKind pulse) (fun n => y (e + n)) k = false := by
  intro k hk
  have hlow : ∀ j < t - e, (y (e + j)).diqH.fsync = false ∧ (y (e + j)).diqL.fsync = false :=
    fun j hj => h (e + j) (Nat.le_add_right e j) (by omega)
  have hbefore : (halvesBefore (fun n => y (e + n)) k).diqH.fsync = false ∧
      (halvesBefore (fun n => y (e + n)) k).diqL.fsync = false := by
    cases k with
    | zero => exact ⟨rfl, rfl⟩
    | succ k => exact hlow k (Nat.lt_of_succ_lt hk)
  rw [validAt, hbefore.1, hbefore.2, (hlow k hk).1, (hlow k hk).2]
  cases pulse <;> rfl

/-- The first cycle that is sure to be valid, and the one before it when it is valid. -/
theorem FrameStream.exists_frames (h : FrameStream pulse fidm t y) (hp : pulse = true → fidm = false) (e : Nat) :
    ∃ v, t - e ≤ v ∧ v ≤ t - e + 1 ∧ Frames (rxiqDdrKind pulse) (fun n => y (e + n)) v ∧
      (LowBefore e t y → ∀ k < v, validAt (rxiqDdrKind pulse) (fun n => y (e + n)) k = false) := by
  have hf := h.frames hp e
  by_cases hv : validAt (rxiqDdrKind pulse) (fun n => y (e + n)) (t - e) = true
  · refine ⟨t - e, Nat.le_refl _, Nat.le_succ _, ⟨fun n hn => ?_, fun n hn => ?_⟩, fun hlow => hlow.invalid pulse⟩
    · rcases Nat.eq_or_lt_of_le hn with rfl | hlt
      · exact hv
      · exact hf.valid n hlt
    · exact h.alternate (e + n) (by omega)
  · refine ⟨t - e + 1, Nat.le_succ _, Nat.le_refl _, hf, fun hlow k hk => ?_⟩
    rcases Nat.lt_or_eq_of_le (Nat.le_of_lt_succ hk) with hlt | rfl
    · exact hlow.invalid pulse k hlt
    · exact Bool.eq_false_iff.mpr hv

/-- The words that leave a capture from cycle `c + 2` on are the pairs that arrive from cycle `c` on, in order and
without a gap: at most one pair of them has not been written yet. -/
def Extracted (m : IqMode) (y : Nat → RxDiq) (reg : Nat → Port (BitVec 48)) (c : Nat) : Prop :=
  ∀ n, let written := (words (fun k => (reg (c + 2 + k)).word) n).flatMap iqPairs
    written <+: m.arrived y c n ∧ (m.arrived y c n).length ≤ written.length + 1

/-- A word for every two pairs that arrive. -/
theorem extracted_of_paced {m : IqMode} {reg : Nat → Port (BitVec 48)} {c d : Nat} {f : Nat → BitVec 48}
    {g : Nat → BitVec 12 × BitVec 12} (hd : 0 < d)
    (hw : Paced (fun k => (reg (c + 2 + k)).word) d (2 * d) f)
    (ha : Paced (fun k => if m.channelOn (y (c + k)) then some (smplPair (y (c + k))) else none) 0 d g)
    (hfg : ∀ k, iqPairs (f k) = [g (2 * k), g (2 * k + 1)]) : Extracted m y reg c := by
  intro n
  have hdiv : (n + 2 * d - 1 - d) / (2 * d) = (n + d - 1 - 0) / d / 2 := by
    rw [Nat.div_div_eq_div_mul, Nat.mul_comm d 2]
    congr 1
    omega
  show _ <+: _ ∧ List.length _ ≤ List.length _ + 1
  rw [IqMode.arrived, ha.words_eq hd, hw.words_eq (Nat.mul_pos Nat.two_pos hd), flatMap_iqPairs hfg, hdiv,
    List.length_map, List.length_map, List.length_range, List.length_range]
  generalize (n + d - 1 - 0) / d = q
  have hp := @map_range_isPrefix _ g (2 * (q / 2)) q 0 (.inl (by omega))
  simp only [Nat.zero_add, List.drop_zero] at hp
  exact ⟨hp, by omega⟩

end Channels

namespace RxiqDdr

variable {pulse : Bool} {t : Nat} {y : Nat → RxDiq} {m : IqMode}

theorem extracted_one {second : Bool} {c : Nat} (hch : m.chEn = chEnOf second) (hf : Frames (rxiqDdrKind pulse) y c)
    (hc : m.secondFrame (y c) = second)
    (hr : PairCap.Ready (PairCap.circuit.run (channelIn (rxiqDdrKind pulse) m second y) c)) :
    Extracted m y (fun n => ((circuit (rxiqDdrKind pulse) m).run y n).fifoWrReg) c := by
  have hon : ∀ k, m.channelOn (y (c + k)) = decide (k % 2 = 0) := by
    intro k
    rw [IqMode.channelOn, hf.secondFrame_add m k, hc, hch]
    rcases Nat.mod_two_eq_zero_or_one k with h0 | h1
    · rw [h0]
      cases second <;> rfl
    · rw [h1]
      cases second <;> rfl
  refine extracted_of_paced (g := fun k => smplPair (y (c + 2 * k))) Nat.two_pos
    (alone_paced hch (oneFrame_rxiqDdr pulse y) hf hc hr) ⟨fun k => ?_, fun n hn => ?_⟩ fun k => ?_
  · rw [hon, Nat.zero_add, decide_eq_true (by omega), if_pos rfl]
  · have hodd : ¬ n % 2 = 0 := fun h0 => hn (n / 2) (by omega)
    rw [hon, decide_eq_false hodd, if_neg Bool.false_ne_true]
  · rw [iqPairs_capWord, show c + 2 * (2 * k) = c + 4 * k by omega, show c + 2 * (2 * k + 1) = c + 4 * k + 2 by omega]

theorem extracted_both {c : Nat} (hch : m.chEn = 0b11) (hf : Frames (rxiqDdrKind pulse) y c)
    (hc : m.secondFrame (y c) = false) :
    Extracted m y (fun n => ((circuit (rxiqDdrKind pulse) m).run y n).fifoWrReg) c := by
  have hon : ∀ i, m.channelOn i = true := by
    intro i
    rw [IqMode.channelOn, hch]
    cases m.secondFrame i <;> rfl
  refine extracted_of_paced (g := fun k => smplPair (y (c + k))) Nat.one_pos
    (both_paced hch (oneFrame_rxiqDdr pulse y) hf hc) ⟨fun k => ?_, fun n hn => ?_⟩ fun k => ?_
  · rw [hon, if_pos rfl, Nat.zero_add, Nat.one_mul]
  · exact absurd (by rw [Nat.zero_add, Nat.one_mul]) (hn n)
  · rw [iqPairs_capWord, Nat.add_assoc]

/-- Of two frames that follow each other one is of a channel that is on. -/
theorem channelOn_or_succ (hch : m.chEn = 0b01 ∨ m.chEn = 0b10 ∨ m.chEn = 0b11) {n : Nat}
    (halt : (y (n + 1)).diqL.fsync = !(y n).diqL.fsync) :
    m.channelOn (y n) = true ∨ m.channelOn (y (n + 1)) = true := by
  have hsucc : m.secondFrame (y (n + 1)) = !m.secondFrame (y n) := by
    unfold IqMode.secondFrame
    rw [halt, Bool.not_xor]
  rw [IqMode.channelOn, IqMode.channelOn, hsucc]
  rcases hch with hch | hch | hch <;> cases m.secondFrame (y n) <;> simp [hch]

theorem two_le_arrived {c : Nat} (hch : m.chEn = 0b01 ∨ m.chEn = 0b10 ∨ m.chEn = 0b11)
    (halt : ∀ n, c ≤ n → (y (n + 1)).diqL.fsync = !(y n).diqL.fsync) : 2 ≤ (m.arrived y c 4).length := by
  have h0 := channelOn_or_succ hch (halt c (Nat.le_refl c))
  have h2 := channelOn_or_succ hch (halt (c + 2) (Nat.le_add_right c 2))
  simp only [IqMode.arrived, words, List.length_append]
  rcases h0 with h0 | h0 <;> rcases h2 with h2 | h2 <;> simp [h0, h2] <;> omega

/-- No capture takes a cycle that is not valid, and the output register is two cycles behind the captures. -/
theorem word_none_of_invalid {c : Nat} (hv : ∀ k, c ≤ k → validAt (rxiqDdrKind pulse) y k = false) (n : Nat) :
    ((circuit (rxiqDdrKind pulse) m).run y (c + 2 + n)).fifoWrReg.word = none := by
  have hcap := @next_run _ m _ (oneFrame_rxiqDdr pulse y) (c + n)
  simp only [hv (c + n) (Nat.le_add_right c n), Bool.and_false, Bool.false_and] at hcap
  rw [show c + 2 + n = c + n + 1 + 1 by omega, fifoWrReg_run, hcap, Port.word_eq_none]
  unfold muxFifoWr
  split
  · exact DiqCap.next_cap _ _ _
  · split
    · exact DiqCap.next_cap _ _ _
    · exact DiqCap.next_cap _ _ _

/-- What a capture is for, when its reset is released in cycle `e` and the stream starts in cycle `t`: within seven
cycles of both it has found the first frame of a word, and writes from there on the pairs of the channels that are on,
as they arrive. With low frame bits before the stream it has written nothing until then. A word is only lost when the
FIFO is full. -/
def ExtractsChannels (pulse : Bool) (m : IqMode) (t e : Nat) (y : Nat → RxDiq) : Prop :=
  let x := fun n => y (e + n)
  let reg := fun n => ((circuit (rxiqDdrKind pulse) m).run x n).fifoWrReg
  (∃ c, t - e ≤ c ∧ c ≤ t - e + 6 ∧ (m.secondFrame (x c) = !m.chEn.getLsbD 0) ∧ Extracted m x reg c ∧
    (LowBefore e t y → ∀ n < c + 2, (reg n).word = none)) ∧
  ∀ n full, (fifoWr (reg n) full).word = if full then none else (reg n).word

theorem extractsChannels_of_low (h : FrameStream pulse m.fidm t y) (hp : pulse = true → m.fidm = false)
    (hch : m.chEn = 0b01 ∨ m.chEn = 0b10 ∨ m.chEn = 0b11) (e : Nat) : ExtractsChannels pulse m t e y := by
  unfold ExtractsChannels
  intro x reg
  obtain ⟨v, hsv, hvs, hf, hlow⟩ := h.exists_frames hp e
  have hone := oneFrame_rxiqDdr pulse x
  have halone : ∀ second, m.chEn = chEnOf second →
      ∃ c, t - e ≤ c ∧ c ≤ t - e + 6 ∧ (m.secondFrame (x c) = !m.chEn.getLsbD 0) ∧ Extracted m x reg c ∧
        (LowBefore e t y → ∀ n < c + 2, (reg n).word = none) := by
    intro second hsec
    obtain ⟨c, hvc, hcv, hc, hr, hquiet⟩ := @alone_sync _ m _ second _ hf
    refine ⟨c, by omega, by omega, ?_, extracted_one hsec (hf.mono hvc) hc hr, fun hl => ?_⟩
    · rw [hc, hsec]
      cases second <;> rfl
    · exact alone_quiet hsec hone (hquiet (hlow hl))
  constructor
  · rcases hch with hA | hB | hAB
    · exact halone false hA
    · exact halone true hB
    · obtain ⟨c, hvc, hcv, hc⟩ := hf.exists_frame m false
      refine ⟨c, by omega, by omega, ?_, extracted_both hAB (hf.mono hvc) hc, fun hl => ?_⟩
      · rw [hc, hAB]
        rfl
      · exact both_quiet hAB hone (hlow hl) hcv
  · intro n full
    cases full with
    | true => rw [Port.word_eq_none.mpr (Bool.and_false _)]; rfl
    | false => rw [fifoWr_false]; rfl

/-- With pulses that are high nothing is written for the frames that arrive. -/
theorem not_extracted_of_high (h : FrameStream true true t y)
    (hch : m.chEn = 0b01 ∨ m.chEn = 0b10 ∨ m.chEn = 0b11) {e c : Nat} (hc : t - e ≤ c) :
    ¬ Extracted m (fun n => y (e + n))
      (fun n => ((circuit (rxiqDdrKind true) m).run (fun n => y (e + n)) n).fifoWrReg) c := by
  intro hx
  have hnone := @word_none_of_invalid true _ m c fun k hk => h.invalid e k (Nat.le_trans hc hk)
  have hwritten := (hx 4).2
  rw [show words (fun k => ((circuit (rxiqDdrKind true) m).run (fun n => y (e + n)) (c + 2 + k)).fifoWrReg.word) 4 = []
    by simp only [words, hnone]; rfl] at hwritten
  have harrived := two_le_arrived (y := fun n => y (e + n)) (c := c) hch fun n hn => h.alternate (e + n) (by omega)
  exact absurd (Nat.le_trans harrived hwritten) (by decide)

/-- For both kinds, every setting of the channels, every stream whatever came before it, and every cycle `e` in which
the reset is released, the capture extracts the channels exactly when there are no pulses or they are low. -/
theorem channels_extracted (m : IqMode) (h : FrameStream pulse m.fidm t y)
    (hch : m.chEn = 0b01 ∨ m.chEn = 0b10 ∨ m.chEn = 0b11) (e : Nat) :
    ExtractsChannels pulse m t e y ↔ (pulse = true → m.fidm = false) := by
  refine ⟨?_, fun hp => extractsChannels_of_low h hp hch e⟩
  rintro ⟨⟨c, hc, _, _, hx, _⟩, _⟩ rfl
  cases hf : m.fidm with
  | false => rfl
  | true =>
      rw [hf] at h
      exact absurd hx (not_extracted_of_high h hch hc)

/-- A stream that counts, and whose frames are those of the second channel in the even cycles. -/
def countStream (n : Nat) : RxDiq :=
  ⟨⟨decide (n % 2 = 0), BitVec.ofNat 12 n⟩, ⟨decide (n % 2 = 0), BitVec.ofNat 12 n⟩⟩

theorem countStream_alternate (n : Nat) : (countStream (n + 1)).diqL.fsync = !(countStream n).diqL.fsync := by
  change decide ((n + 1) % 2 = 0) = !decide (n % 2 = 0)
  rcases Nat.mod_two_eq_zero_or_one n with h0 | h1
  · rw [h0, show (n + 1) % 2 = 1 by omega]
    rfl
  · rw [h1, show (n + 1) % 2 = 0 by omega]
    rfl

theorem frameStream_count : FrameStream false false 0 countStream :=
  ⟨fun n _ => countStream_alternate n, fun _ _ => rfl⟩

/-- It is captured from the middle of a frame on, with both channels on. -/
theorem channels_extracted_count :
    ExtractsChannels false ⟨false, true, true, 0b11, false⟩ 0 4 countStream :=
  (channels_extracted ⟨false, true, true, 0b11, false⟩ frameStream_count (.inr (.inr rfl)) 4).mpr fun h => by cases h

/-- A stream that counts, with the pulses of `fidm = '1'`: of the four halves of two cycles one is high. -/
def highPulses (n : Nat) : RxDiq :=
  ⟨⟨false, BitVec.ofNat 12 n⟩, ⟨decide (n % 2 = 0), BitVec.ofNat 12 n⟩⟩

/-- Nothing of it is written. -/
theorem highPulses_missed :
    FrameStream true true 0 highPulses ∧
      (∀ n, ((circuit rxiqPulseDdr ⟨true, true, true, 0b11, true⟩).run highPulses n).fifoWrReg.word = none) ∧
      ¬ ExtractsChannels true ⟨true, true, true, 0b11, true⟩ 0 0 highPulses := by
  have h : FrameStream true true 0 highPulses := ⟨fun n _ => countStream_alternate n, fun _ _ => rfl⟩
  have hx : (fun n => highPulses (0 + n)) = highPulses := funext fun n => by rw [Nat.zero_add]
  refine ⟨h, fun n => ?_, ?_⟩
  · cases n with
    | zero => rfl
    | succ n =>
        cases n with
        | zero => rfl
        | succ n =>
            have hnone := @word_none_of_invalid true highPulses ⟨true, true, true, 0b11, true⟩ 0 (hx ▸ h.invalid 0) n
            rwa [Nat.zero_add, Nat.add_comm] at hnone
  · rintro ⟨⟨c, hc, _, _, hex, _⟩, _⟩
    exact not_extracted_of_high h (.inr (.inr rfl)) hc hex

end RxiqDdr

/-! ## The buses to the DACs -/

namespace Dac5672Top

/-- With the enable held high, the samples of the words read come out once, in order and on the buses of their
channel, with zeros in between, if and only if not both channels are enabled or the FIFO never runs empty
directly after a read. -/
theorem channels_apart_iff (iqWidth : Nat) (m : TxiqParMode) (fifo : Nat → BitVec 64) (x : Nat → Dac5672TopIn)
    (hen : ∀ n, (x n).en = true) :
    KeepsApart iqWidth m fifo x ↔ (m.chEn = 0b11 → NoUnderrun x) := by
  refine ⟨fun hkeep hboth => ?_, keepsApart_of_noUnderrun hen⟩
  by_contra hx
  exact not_keepsApart_of_underrun hen hboth hx hkeep

/-- One word and then none. -/
def oneWord (n : Nat) : Dac5672TopIn := ⟨true, decide (2 ≤ n)⟩

theorem channels_apart_one : KeepsApart 14 ⟨0b01, false⟩ (fun _ => 0x0010000C00080004) oneWord :=
  (channels_apart_iff 14 ⟨0b01, false⟩ _ oneWord fun _ => rfl).mpr fun h => absurd h (by decide)

/-- A word with the samples 1 and 2 of channel A, 3 and 4 of channel B: after the samples of channel A its buses
show those of channel B. -/
theorem underrun_mixes_channels :
    diqAt 14 ⟨0b11, false⟩ (fun _ => 0x0010000C00080004) oneWord 3 0 = 1 ∧
      diqAt 14 ⟨0b11, false⟩ (fun _ => 0x0010000C00080004) oneWord 4 0 = 3 ∧
      ¬ KeepsApart 14 ⟨0b11, false⟩ (fun _ => 0x0010000C00080004) oneWord := by
  have h4 : diqAt 14 ⟨0b11, false⟩ (fun _ => 0x0010000C00080004) oneWord 4 0 = 3 := by decide
  refine ⟨by decide, h4, fun hkeep => ?_⟩
  have hnone : sampleAt 14 ⟨0b11, false⟩ (fun _ => 0x0010000C00080004) oneWord .a 4 = none := by decide
  have hzero := congrArg Prod.fst (hkeep.diq_eq .a 4)
  rw [hnone] at hzero
  exact absurd (h4.symm.trans hzero) (by decide)

end Dac5672Top

/-! ## The antenna switch -/

namespace EdgeDelay

/-- For all delays and every input, the output keeps the delays and follows the input if and only if the rise delay is
one cycle at most, or the input never falls during a rise delay and comes back before the fall delay is over. -/
theorem edgeDelay_iff (riseDly fallDly : BitVec 16) (d : Nat → Bool) :
    Delays riseDly fallDly d (fun n => ((circuit riseDly fallDly).run d n).qReg) ↔
      riseDly.toNat ≤ 1 ∨ NoShortGap riseDly fallDly d := by
  constructor
  · intro h
    by_contra hno
    obtain ⟨hr, hgap⟩ := not_or.mp hno
    obtain ⟨n, hq, hq', hheld⟩ := rises_of_shortGap hgap
    exact hheld ((h.rises n hq hq').mono (Nat.lt_of_not_le hr))
  · intro h
    refine ⟨fun n hq hq' => ?_, fun n hq hq' => (low_of_falls hq hq').mono (Nat.le_add_right _ 2),
      fun n => qAt_of_high, fun n => qAt_of_low⟩
    have hwait := waitFall_of_rises hq hq'
    rcases h with hr | hgap
    · exact (high_of_waitFall hwait).mono hr
    · exact (high_of_noShortGap hgap hwait hq).mono (Nat.le_add_right _ 2)

/-- A pulse of one cycle, and another one after a cycle. -/
def twoPulses (n : Nat) : Bool := n == 0 || n == 2

/-- With a rise delay of four cycles the output rises, and the input was not high in two cycles in a row. -/
theorem twoPulses_pass :
    ((circuit 4 4).run twoPulses 3).qReg = false ∧ ((circuit 4 4).run twoPulses 4).qReg = true ∧
      ¬ Held twoPulses true 3 2 ∧ ¬ Delays 4 4 twoPulses (fun n => ((circuit 4 4).run twoPulses n).qReg) := by
  have h3 : ((circuit 4 4).run twoPulses 3).qReg = false := by decide
  have h4 : ((circuit 4 4).run twoPulses 4).qReg = true := by decide
  have hheld : ¬ Held twoPulses true 3 2 := by
    rintro ⟨m, hm, hd⟩
    cases (show m = 1 by omega)
    exact absurd (hd 0 (by decide)) (by decide)
  exact ⟨h3, h4, hheld, fun h => hheld ((h.rises 3 h3 h4).mono (by decide))⟩

end EdgeDelay

end LimeSdrQpcie
