import LimeSdrQpcie.Tx.Lemmas.BitUnpack
import LimeSdrQpcie.Tx.Lemmas.SmplBuff
import LimeSdrQpcie.Tx.SmplFifo

/-!
# The room in the sample FIFO

A word on the write port of the sample FIFO was requested six cycles ago in 12-bit mode and four cycles ago in
16-bit mode, and one cycle before that there were at most 247 words in the FIFO.
-/

namespace LimeSdrQpcie

open Hdl

namespace TxSmplFifo

variable {nb : NBuff} {sw : BitVec 2}

/-! ## The parts of a run -/

variable (sw) in
theorem run_inst0 (hsw : inst0PctSize sw = 0x400) (x : Nat → TxSmplFifoIn nb) (n : Nat) :
    ((circuit nb sw).run x n).top.inst0 = (Packets2Data.circuit nb 0x400).run (inst0In sw x) n := by
  refine Circuit.run_part (fun s : TxSmplFifo nb => s.top.inst0) (fun s i => s.top.inst0In (s.topIn i)) rfl ?_ x n
  intro s i
  change s.top.inst0.next (inst0PctSize sw) _ = _
  rw [hsw]
  rfl

theorem run_inst1 (x : Nat → TxSmplFifoIn nb) (n : Nat) :
    ((circuit nb sw).run x n).top.inst1 =
      (BitUnpack64.circuit sw).run (fun m => ((circuit nb sw).run x m).top.inst0.smplBuff) n :=
  Circuit.run_part (fun s : TxSmplFifo nb => s.top.inst1) (fun s _ => s.top.inst0.smplBuff) rfl (fun _ _ => rfl) x n

/-! ## The room -/

variable (sw) in
theorem usedw_add (x : Nat → TxSmplFifoIn nb) (m k : Nat) :
    ((circuit nb sw).run x (m + k)).smplFifo.usedw ≤ ((circuit nb sw).run x m).smplFifo.usedw + k := by
  induction k with
  | zero => exact Nat.le_refl _
  | succ k ih =>
      have hnext : ((circuit nb sw).run x (m + k + 1)).smplFifo.usedw ≤
          ((circuit nb sw).run x (m + k)).smplFifo.usedw + 1 := by
        change (Fifo.next _ _ _).usedw ≤ _
        rw [Fifo.usedw, Fifo.next_store, List.length_append, List.length_drop, Fifo.usedw]
        have : ∀ o : Option (BitVec 128), o.toList.length ≤ 1 := fun o => by cases o <;> simp
        have := this (((circuit nb sw).run x (m + k)).smplFifo.accepted
          ((circuit nb sw).run x (m + k)).top.smplFifoWr.word)
        omega
      rw [← Nat.add_assoc]
      omega

/-- A word is requested only when there were at most 247 words in the FIFO in the cycle before. -/
theorem usedw_of_request (x : Nat → TxSmplFifoIn nb) (m : Nat)
    (hr : ((circuit nb sw).run x (m + 1)).top.inst0.inst3.rdReqInt
      ((circuit nb sw).run x (m + 1)).top.fifoFullSig = true) :
    ((circuit nb sw).run x m).smplFifo.usedw ≤ 247 := by
  have hfull := (P2dRd.rdReqInt_eq_true.mp hr).2
  have hlimit : ((circuit nb sw).run x m).top.fifoLimit ≤ 247 := by
    cases m with
    | zero => exact Nat.zero_le _
    | succ m => exact Nat.le_refl _
  have hsig : ((circuit nb sw).run x (m + 1)).top.fifoFullSig =
      if max (x m).smplFifoWrusedwAtLeast ((circuit nb sw).run x m).smplFifo.usedw >
        ((circuit nb sw).run x m).top.fifoLimit then true else false := rfl
  rw [hsig] at hfull
  split at hfull
  · cases hfull
  · omega

/-- What was requested at most six cycles ago still fits. -/
theorem not_full_of_request (x : Nat → TxSmplFifoIn nb) (m k : Nat) (hk : k ≤ 6)
    (hr : ((circuit nb sw).run x m).top.inst0.inst3.rdReqInt ((circuit nb sw).run x m).top.fifoFullSig = true) :
    ((circuit nb sw).run x (m + k)).smplFifo.isFull = false := by
  rw [Fifo.isFull_eq_false]
  cases m with
  | zero =>
      have h := usedw_add sw x 0 k
      rw [show ((circuit nb sw).run x 0).smplFifo.usedw = 0 from rfl] at h
      rw [Nat.zero_add] at h ⊢
      omega
  | succ m =>
      have h0 := usedw_of_request x m hr
      have h := usedw_add sw x m (k + 1)
      rw [show m + 1 + k = m + (k + 1) by omega]
      omega

/-! ## The way of a word to the write port -/

theorem smplBuffValid_add_two (x : Nat → TxSmplFifoIn nb) (m : Nat) :
    ((circuit nb sw).run x (m + 2)).top.inst0.smplBuff.valid =
      if (List.finRange nb.n).any (((circuit nb sw).run x m).top.inst0.inst3PctBuffRdreq (inst0In sw x m))
      then true else false := rfl

theorem request_of_smplBuffValid (x : Nat → TxSmplFifoIn nb) (n : Nat)
    (h : ((circuit nb sw).run x n).top.inst0.smplBuff.valid = true) :
    ∃ m, n = m + 2 ∧ ((circuit nb sw).run x m).top.inst0.inst3.rdReqInt
      ((circuit nb sw).run x m).top.fifoFullSig = true := by
  obtain _ | _ | m := n
  · exact Bool.noConfusion h
  · exact Bool.noConfusion h
  · rw [smplBuffValid_add_two] at h
    split at h
    next hany =>
      obtain ⟨b, -, hb⟩ := List.any_eq_true.mp hany
      simp only [Packets2Data.inst3PctBuffRdreq, P2dRd.pctBuffRdreq, Bool.and_eq_true] at hb
      exact ⟨m, rfl, hb.2⟩
    next => cases h

theorem request_of_write_w12 (x : Nat → TxSmplFifoIn nb) (n : Nat)
    (h : ((circuit nb SampleWidth.w12.code).run x n).top.smplFifoWr.valid = true) :
    ∃ m, n = m + 6 ∧ ((circuit nb SampleWidth.w12.code).run x m).top.inst0.inst3.rdReqInt
      ((circuit nb SampleWidth.w12.code).run x m).top.fifoFullSig = true := by
  match n with
  | 0 | 1 | 2 | 3 => exact Bool.noConfusion h
  | n + 4 =>
      have hw : ((circuit nb SampleWidth.w12.code).run x (n + 4)).top.smplFifoWr.valid =
          ((((circuit nb SampleWidth.w12.code).run x n).top.inst1.inst0.next
              ((circuit nb SampleWidth.w12.code).run x n).top.inst0.smplBuff).word128_0.valid ||
            (((circuit nb SampleWidth.w12.code).run x n).top.inst1.inst0.next
              ((circuit nb SampleWidth.w12.code).run x n).top.inst0.smplBuff).word128_1.valid) := rfl
      have hv : ((circuit nb SampleWidth.w12.code).run x n).top.inst0.smplBuff.valid = true := by
        rw [hw] at h
        by_contra hno
        simp [Unpack64To48.next, hno] at h
      obtain ⟨m, rfl, hr⟩ := request_of_smplBuffValid x n hv
      exact ⟨m, rfl, hr⟩

theorem request_of_write_w16 (x : Nat → TxSmplFifoIn nb) (n : Nat)
    (h : ((circuit nb SampleWidth.w16.code).run x n).top.smplFifoWr.valid = true) :
    ∃ m, n = m + 4 ∧ ((circuit nb SampleWidth.w16.code).run x m).top.inst0.inst3.rdReqInt
      ((circuit nb SampleWidth.w16.code).run x m).top.fifoFullSig = true := by
  match n with
  | 0 | 1 => exact Bool.noConfusion h
  | n + 2 =>
      have hw : ((circuit nb SampleWidth.w16.code).run x (n + 2)).top.smplFifoWr.valid =
          (((circuit nb SampleWidth.w16.code).run x n).top.inst1.inst2.next
            ((circuit nb SampleWidth.w16.code).run x n).top.inst0.smplBuff).word128_0.valid := rfl
      have hv : ((circuit nb SampleWidth.w16.code).run x n).top.inst0.smplBuff.valid = true := by
        rw [hw] at h
        by_contra hno
        simp [Unpack64To64.next, hno] at h
      obtain ⟨m, rfl, hr⟩ := request_of_smplBuffValid x n hv
      exact ⟨m, rfl, hr⟩

/-! ## The samples -/

/-- The words on the write port, `d` cycles after they came to the unpacker, are the sample words of the emitted
packets and of the packet that is being read. -/
theorem split_emitted {n : Nat} (hn : n ∣ 64 * 510) (x : Nat → Packets2DataIn nb) (k : Nat) {ws : List (BitVec n)}
    (h : Fills (bitString (words (fun m => ((Packets2Data.circuit nb 0x400).run x m).smplBuff.word) (k + 2))) ws) :
    ∃ vs us, ws = vs ++ us ∧
      bitString vs = bitString ((Packets2Data.log x k).emitted.flatMap TxPct.payload) ∧
      Fills (bitString (((Packets2Data.log x k).wr.stored[(Packets2Data.log x k).fates.length]?.elim []
        TxPct.payload).take ((Packets2Data.circuit nb 0x400).run x k).inst3.rdWords)) us := by
  rw [Packets2Data.words_smplBuff, Packets2Data.readWords, bitString_append] at h
  refine h.split ?_
  rw [bitString_length, (Packets2Data.pctRing_run x k).emitted_length, ← Nat.mul_assoc]
  exact Nat.dvd_mul_right_of_dvd hn _

end TxSmplFifo

end LimeSdrQpcie
