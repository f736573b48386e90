import LimeSdrQpcie.Rx.Lemmas.Progress

/-!
# The room in the sample FIFO of the receive path

Samples come at most in every second cycle, and a burst of reads takes one in every cycle. Twice the level of the
FIFO, and one more when no sample came in the last cycle, rises by at most one in a cycle and falls by at least one in
a cycle of a burst.
-/

namespace LimeSdrQpcie

open Hdl

namespace Data2PacketsRig

variable (pw : PctBuffWidth) (sw : SampleWidth) (x : Nat → Data2PacketsRigIn)

/-- A sample is never followed by another one in the next cycle. -/
def Spaced (x : Nat → Data2PacketsRigIn) : Prop :=
  ∀ n, (x n).smplFifoWr.isSome = true → (x (n + 1)).smplFifoWr = none

/-- The word count on the read side misses at most `lag` words. -/
def CountLags (lag : Nat) : Prop :=
  ∀ n, (stateAt pw sw x n).smplFifo.usedw ≤ (x n).smplFifoRdusedwAtMost + lag

/-- A sample may come in cycle `n`. -/
def free : Nat → Nat
  | 0 => 1
  | n + 1 => (x n).smplFifoWr.isNone.toNat

def level (n : Nat) : Nat := 2 * (stateAt pw sw x n).smplFifo.usedw + free x n

variable {pw sw x} {lag : Nat}

theorem level_zero : level pw sw x 0 = 1 := rfl

theorem usedw_succ_le (n : Nat) :
    (stateAt pw sw x (n + 1)).smplFifo.usedw + (topAt pw sw x n).smplBuffRdreq.toNat ≤
      (stateAt pw sw x n).smplFifo.usedw + (x n).smplFifoWr.isSome.toNat := by
  have hacc : ((stateAt pw sw x n).smplFifo.accepted (x n).smplFifoWr).toList.length ≤
      (x n).smplFifoWr.isSome.toNat := by
    unfold Fifo.accepted
    cases (x n).smplFifoWr <;> split <;> simp
  rw [smplFifo_succ, Fifo.usedw, Fifo.next_store, List.length_append, List.length_drop]
  cases hr : (topAt pw sw x n).smplBuffRdreq with
  | true =>
      have hpos := usedw_pos hr
      rw [Fifo.usedw] at hpos ⊢
      simp only [if_true, Bool.toNat_true]
      omega
  | false =>
      rw [Fifo.usedw]
      simp only [Bool.false_eq_true, if_false, Bool.toNat_false]
      omega

theorem level_succ (hx : Spaced x) (n : Nat) :
    level pw sw x (n + 1) + 2 * (topAt pw sw x n).smplBuffRdreq.toNat ≤ level pw sw x n + 1 := by
  have hle := @usedw_succ_le pw sw x n
  unfold level
  cases hw : (x n).smplFifoWr with
  | none =>
      rw [hw, Option.isSome_none, Bool.toNat_false] at hle
      rw [free, hw, Option.isNone_none, Bool.toNat_true]
      omega
  | some d =>
      have hfree : free x n = 1 := by
        cases n with
        | zero => rfl
        | succ m =>
            have hm : (x m).smplFifoWr = none := by
              by_contra hne
              have hsome := hx m (by rw [Option.isSome_iff_ne_none]; exact hne)
              rw [hw] at hsome
              cases hsome
            rw [free, hm]
            rfl
      rw [hw, Option.isSome_some, Bool.toNat_true] at hle
      rw [hfree, free, hw, Option.isNone_some, Bool.toNat_false]
      omega

theorem level_add_le (hx : Spaced x) (n k : Nat) : level pw sw x (n + k) ≤ level pw sw x n + k := by
  induction k with
  | zero => exact Nat.le_refl _
  | succ k ih =>
      have := @level_succ pw sw x hx (n + k)
      rw [← Nat.add_assoc]
      omega

/-- When the state machine does not see a packet's worth of samples, there were few two cycles before. -/
theorem level_of_not_rdy (hx : Spaced x) (hl : CountLags pw sw x lag) {n : Nat}
    (h : (topAt pw sw x n).inst0SmplBuffRdy = false) : level pw sw x (n + 1) ≤ 2 * (sw.smplRdSize + lag) + 4 := by
  match n with
  | 0 => exact Nat.le_trans (level_add_le hx 0 1) (by rw [level_zero]; omega)
  | 1 => exact Nat.le_trans (level_add_le hx 0 2) (by rw [level_zero]; omega)
  | n + 2 =>
      have hadd := @level_add_le pw sw x hx n 3
      have hreg : (topAt pw sw x (n + 1)).smplBuffRdusedwReg =
          min (x n).smplFifoRdusedwAtMost (stateAt pw sw x n).smplFifo.usedw := rfl
      have hs : (topAt pw sw x (n + 2)).inst0SmplBuffRdy =
          if (topAt pw sw x (n + 1)).smplBuffRdusedwReg > (topAt pw sw x (n + 1)).smplBuffRdusedwMin then true
          else false := rfl
      rw [hs, smplBuffRdusedwMin_eq, hreg] at h
      have hle : min (x n).smplFifoRdusedwAtMost (stateAt pw sw x n).smplFifo.usedw ≤ sw.smplRdSize := by
        by_contra hgt
        rw [if_pos (by omega)] at h
        cases h
      have hlag := hl n
      have hfree : free x n ≤ 1 := by
        cases n with
        | zero => exact Nat.le_refl 1
        | succ n => exact Bool.toNat_le _
      have hlevel : level pw sw x n ≤ 2 * (sw.smplRdSize + lag) + 1 := by
        unfold level
        omega
      exact Nat.le_trans hadd (by omega)

variable (pw sw x lag) in
/-- How full the FIFO is in each state: as full as can be when a burst begins, and in the wait for the end of a
packet, which lasts `e` cycles so far, emptier by the words read less those that have come. -/
def Below (n : Nat) : Prop :=
  match (topAt pw sw x n).inst0.currentState with
  | .idle => level pw sw x n + 2 ≤ 2 * (sw.smplRdSize + lag) + 6
  | .checkPctBuff => level pw sw x n + 1 ≤ 2 * (sw.smplRdSize + lag) + 6
  | .rdSmplBuff => level pw sw x n + (topAt pw sw x n).inst0.smplBuffRdCnt ≤ 2 * (sw.smplRdSize + lag) + 6
  | .waitData2packetsDone => ∃ m e, n = m + e ∧
      (∀ j ≤ e, (topAt pw sw x (m + j)).inst0.currentState = .waitData2packetsDone) ∧
      level pw sw x n + sw.smplRdSize ≤ 2 * (sw.smplRdSize + lag) + 6 + e

theorem lt_of_wait {m e : Nat}
    (hall : ∀ j ≤ e, (topAt pw sw x (m + j)).inst0.currentState = .waitData2packetsDone) : e < sw.latency + 5 := by
  obtain ⟨p, hf, -⟩ := @exists_formed pw sw x m
  have hm := hall 0 (Nat.zero_le _)
  rw [Nat.add_zero] at hm
  simp only [FsmAt, hm] at hf
  by_contra hge
  exact not_wait_for (p := p) (n := m) (by rw [Nat.mul_succ]; exact hf.2.1) fun i hi => hall i (by omega)

theorem latency_le (sw : SampleWidth) : sw.latency + 8 ≤ sw.smplRdSize := by cases sw <;> decide

theorem below_succ (hx : Spaced x) (hl : CountLags pw sw x lag) {n : Nat} (h : Below pw sw x lag n) :
    Below pw sw x lag (n + 1) := by
  obtain ⟨p, hf, hd, -⟩ := @exists_formed pw sw x n
  have hlev := @level_succ pw sw x hx n
  have hns := @inst0_currentState_succ pw sw x n
  unfold Below at h
  cases hs : (topAt pw sw x n).inst0.currentState with
  | idle =>
      rw [hs] at h
      rw [Data2PacketsFsm.nextState, hs] at hns
      cases hrdy : (topAt pw sw x n).inst0SmplBuffRdy with
      | false =>
          have hlow := level_of_not_rdy hx hl hrdy
          simp only [Below, hns, hrdy, Bool.false_eq_true, if_false]
          omega
      | true =>
          simp only at h
          simp only [Below, hns, hrdy, if_true]
          omega
  | checkPctBuff =>
      rw [hs] at h
      rw [Data2PacketsFsm.nextState, hs] at hns
      have hc := smplBuffRdCnt_succ_of_ne (n := n) (by rw [hs]; decide)
      simp only at h
      simp only [Below, hns, hc]
      omega
  | rdSmplBuff =>
      rw [hs] at h
      rw [Data2PacketsFsm.nextState, hs] at hns
      rw [smplBuffRdreq_eq hs] at hlev
      have hlev' : level pw sw x (n + 1) + 2 ≤ level pw sw x n + 1 := hlev
      have hf' := fsmAt_rdSmplBuff hs hf hd
      simp only [FsmAt, hs] at hf
      simp only at h
      cases hdone : (topAt pw sw x n).inst0.smplBuffRdDone with
      | false =>
          rw [hdone] at hns
          have hc : (topAt pw sw x (n + 1)).inst0.smplBuffRdCnt ≤ (topAt pw sw x n).inst0.smplBuffRdCnt + 1 := by
            have hnx : (topAt pw sw x (n + 1)).inst0.smplBuffRdCnt =
                if (topAt pw sw x n).inst0.currentState = .rdSmplBuff then
                  ((topAt pw sw x n).inst0.smplBuffRdCnt + 1) % 2 ^ 12 else 0 := rfl
            rw [hnx, if_pos hs]
            exact Nat.mod_le _ _
          simp only [Below, hns, if_true]
          omega
      | true =>
          rw [hdone] at hns
          have hlast : (topAt pw sw x n).inst0.smplBuffRdCnt = sw.smplRdSize - 1 :=
            of_decide_eq_true (hf.2.2.2.1.symm.trans hdone)
          have hb := sw.smplRdSize_bounds
          simp only [Below, hns, Bool.true_eq_false, if_false]
          refine ⟨n + 1, 0, rfl, fun j hj => ?_, by omega⟩
          rw [Nat.le_zero.mp hj]
          exact hns
  | waitData2packetsDone =>
      rw [hs] at h
      rw [Data2PacketsFsm.nextState, hs] at hns
      obtain ⟨m, e, rfl, hall, hle⟩ := h
      have he := lt_of_wait hall
      have hlat := latency_le sw
      cases hdone : (topAt pw sw x (m + e)).inst0Data2packetsDone with
      | true =>
          rw [hdone] at hns
          simp only [Below, hns, if_true]
          omega
      | false =>
          rw [hdone] at hns
          simp only [Below, hns, Bool.false_eq_true, if_false]
          refine ⟨m, e + 1, rfl, fun j hj => ?_, by omega⟩
          rcases Nat.lt_or_eq_of_le hj with hlt | rfl
          · exact hall j (by omega)
          · exact hns

theorem below_run (hx : Spaced x) (hl : CountLags pw sw x lag) : ∀ n, Below pw sw x lag n
  | 0 => by
      change level pw sw x 0 + 2 ≤ _
      rw [level_zero]
      omega
  | n + 1 => below_succ hx hl (below_run hx hl n)

/-- A packet's worth of samples, the words that the count misses, and three more. -/
theorem usedw_le (hx : Spaced x) (hl : CountLags pw sw x lag) (n : Nat) :
    (stateAt pw sw x n).smplFifo.usedw ≤ sw.smplRdSize + lag + 3 := by
  have h := below_run hx hl n
  obtain ⟨p, hf, -⟩ := @exists_formed pw sw x n
  have hlevel : level pw sw x n ≤ 2 * (sw.smplRdSize + lag) + 6 := by
    unfold Below at h
    cases hs : (topAt pw sw x n).inst0.currentState with
    | idle | checkPctBuff | rdSmplBuff => simp only [hs] at h; omega
    | waitData2packetsDone =>
        simp only [hs] at h
        obtain ⟨m, e, rfl, hall, hle⟩ := h
        have he := lt_of_wait hall
        have hlat := latency_le sw
        omega
  unfold level at hlevel
  omega

end Data2PacketsRig

end LimeSdrQpcie
