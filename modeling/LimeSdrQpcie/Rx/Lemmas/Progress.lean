import LimeSdrQpcie.Rx.Lemmas.Packets

/-!
# Packets are formed for ever

A packet that is begun is completed, and while samples keep coming the next one is begun.
-/

namespace LimeSdrQpcie

open Hdl

namespace Data2PacketsRig

variable {pw : PctBuffWidth} {sw : SampleWidth} {x : Nat → Data2PacketsRigIn}

theorem reads_eq_of_ne {n : Nat} : ∀ {i : Nat},
    (∀ j < i, (topAt pw sw x (n + j)).inst0.currentState ≠ .rdSmplBuff) →
      reads pw sw x (n + i) = reads pw sw x n
  | 0, _ => rfl
  | i + 1, h => by
      have hrd : (topAt pw sw x (n + i)).smplBuffRdreq = false := by
        rw [smplBuffRdreq_eq rfl, beq_eq_false_iff_ne]
        exact h i (by omega)
      rw [← Nat.add_assoc, reads_succ, hrd, reads_eq_of_ne fun j hj => h j (by omega)]
      rfl

/-- The packet a count of words read belongs to. -/
theorem eq_of_fsmAt_wait {n p q : Nat} (hs : (topAt pw sw x n).inst0.currentState = .waitData2packetsDone)
    (hf : FsmAt pw sw x n q) (hr : reads pw sw x n = sw.smplRdSize * (p + 1)) : q = p := by
  have hb := sw.smplRdSize_bounds
  simp only [FsmAt, hs] at hf
  have h : sw.smplRdSize * (q + 1) = sw.smplRdSize * (p + 1) := by rw [← hr, Nat.mul_succ]; exact hf.2.1.symm
  have := Nat.eq_of_mul_eq_mul_left (by omega) h
  omega

theorem eq_of_fsmAt_rd {n p q : Nat} (hs : (topAt pw sw x n).inst0.currentState = .rdSmplBuff)
    (hf : FsmAt pw sw x n q) (hr : reads pw sw x n = sw.smplRdSize * p) : q = p := by
  have hb := sw.smplRdSize_bounds
  simp only [FsmAt, hs] at hf
  have h : (sw.smplRdSize * q + (topAt pw sw x n).inst0.smplBuffRdCnt) / sw.smplRdSize =
      sw.smplRdSize * p / sw.smplRdSize := by rw [← hf.2.1, hr]
  rwa [Nat.mul_add_div (by omega), Nat.div_eq_of_lt hf.2.2.1, Nat.add_zero,
    Nat.mul_div_cancel_left _ (by omega)] at h

theorem idle_or_s2_of_packed {n p : Nat} (hd : FormAt pw sw x n p)
    (hk : packed pw sw x n = sw.payloadWords * p + sw.payloadWords) :
    (topAt pw sw x n).inst2.currentState = .idle ∨
      ((topAt pw sw x n).inst2.currentState = .s2 ∧ (topAt pw sw x n).inst2.pctEndCnt ≤ 1) := by
  have hb := sw.payloadWords_bounds
  cases hs : (topAt pw sw x n).inst2.currentState with
  | idle => exact Or.inl rfl
  | s0 => simp only [FormAt, hs] at hd; omega
  | s1 => simp only [FormAt, hs] at hd; omega
  | s2 => simp only [FormAt, hs] at hd; exact Or.inr ⟨rfl, hd.2.1⟩
  | s3 => simp only [FormAt, hs] at hd

/-- When all words are packed, `data2packets` sends the last two words and is idle. -/
theorem inst2_idle_of_packed {n p : Nat} (hd : FormAt pw sw x n p)
    (hk : packed pw sw x n = sw.payloadWords * p + sw.payloadWords)
    (hv : ∀ i ≤ 1, (packedAt pw sw x (n + i)).valid = false) :
    (topAt pw sw x (n + 2)).inst2.currentState = .idle := by
  have hv0 := hv 0 (by omega)
  have hv1 := hv 1 (by omega)
  rcases idle_or_s2_of_packed hd hk with hi | ⟨hs, he⟩
  · exact inst2_idle_succ (inst2_idle_succ hi hv0) hv1
  · have hns := inst2_s2_succ hs
    by_cases h0 : (topAt pw sw x n).inst2.pctEndCnt = 0
    · rw [if_pos h0] at hns
      exact inst2_idle_succ hns hv1
    · rw [if_neg h0] at hns
      have he' := pctEndCnt_s2_succ hs (by omega)
      rw [show n + 2 = n + 1 + 1 from rfl, inst2_s2_succ hns, if_pos he']

theorem inst0Data2packetsDone_succ {n : Nat} (hi : (topAt pw sw x n).inst2.currentState = .idle) :
    (topAt pw sw x (n + 1)).inst0Data2packetsDone = true := by
  have h : (topAt pw sw x (n + 1)).inst0Data2packetsDone =
      if (topAt pw sw x n).inst2.pctState (packedAt pw sw x n).valid = 0b00 then true else false := rfl
  rw [h, Data2Packets.pctState, hi]
  rfl

/-- The wait for the end of a packet is no longer than the packer's delay and five cycles. -/
theorem not_wait_for {n p : Nat} (hr : reads pw sw x n = sw.smplRdSize * (p + 1)) :
    ¬ ∀ i ≤ sw.latency + 5, (topAt pw sw x (n + i)).inst0.currentState = .waitData2packetsDone := by
  intro hall
  have hreads : ∀ i ≤ sw.latency + 5, reads pw sw x (n + i) = sw.smplRdSize * (p + 1) := fun i hi => by
    rw [reads_eq_of_ne fun j hj => by rw [hall j (by omega)]; decide, hr]
  have hphase : ∀ {m}, n ≤ m → m ≤ n + sw.latency + 5 → FsmAt pw sw x m p ∧ FormAt pw sw x m p := by
    intro m hlo hhi
    obtain ⟨i, rfl⟩ : ∃ i, m = n + i := ⟨m - n, by omega⟩
    obtain ⟨q, hf, hd, _⟩ := @exists_formed pw sw x (n + i)
    obtain rfl := eq_of_fsmAt_wait (hall i (by omega)) hf (hreads i (by omega))
    exact ⟨hf, hd⟩
  have hpacked : ∀ i ≤ 4, packed pw sw x (n + sw.latency + 1 + i) =
      sw.payloadWords * p + sw.payloadWords := fun i hi => by
    rw [packed_eq, show n + sw.latency + 1 + i - (sw.latency + 1) = n + i by omega, hreads i (by omega),
      ← Nat.mul_assoc, ← packet_bits, Nat.mul_assoc, Nat.mul_div_cancel_left _ (by omega), Nat.mul_succ]
  -- The two words left in the registers of `data2packets` take two cycles, its flag one more.
  have hidle := inst2_idle_of_packed (hphase (by omega) (by omega)).2 (hpacked 0 (by omega))
    (fun i hi => not_valid_of_packed (hphase (by omega) (by omega)).1 (hpacked i (by omega)))
  have hdone := inst0Data2packetsDone_succ hidle
  have hwait := hall (sw.latency + 4) (by omega)
  have hend := hall (sw.latency + 5) (by omega)
  have hns := @inst0_currentState_succ pw sw x (n + (sw.latency + 4))
  simp only [Data2PacketsFsm.nextState] at hns hwait hend
  rw [hwait, show n + (sw.latency + 4) = n + sw.latency + 1 + 2 + 1 by omega, hdone,
    show n + sw.latency + 1 + 2 + 1 + 1 = n + (sw.latency + 5) by omega, hend] at hns
  cases hns

/-- The wait for the end of a packet ends. -/
theorem exists_idle {n p : Nat} (hs : (topAt pw sw x n).inst0.currentState = .waitData2packetsDone)
    (hr : reads pw sw x n = sw.smplRdSize * (p + 1)) :
    ∃ m, n < m ∧ (topAt pw sw x m).inst0.currentState = .idle ∧ reads pw sw x m = sw.smplRdSize * (p + 1) := by
  rcases stays_or_leaves (f := fun m => (topAt pw sw x m).inst0.currentState) hs (sw.latency + 5) with
    hall | ⟨i, hall, hne⟩
  · exact absurd hall (not_wait_for hr)
  · have hwait := hall i (Nat.le_refl _)
    have hns := @inst0_currentState_succ pw sw x (n + i)
    simp only [Data2PacketsFsm.nextState] at hns hwait hne
    rw [hwait] at hns
    have hreads : reads pw sw x (n + (i + 1)) = reads pw sw x n :=
      reads_eq_of_ne fun j hj => by rw [hall j (by omega)]; decide
    refine ⟨n + i + 1, by omega, ?_, hreads.trans hr⟩
    cases hdone : (topAt pw sw x (n + i)).inst0Data2packetsDone with
    | true => rw [hdone] at hns; exact hns
    | false => rw [hdone] at hns; exact absurd hns hne

/-- A burst of reads ends after the words of the packet. -/
theorem exists_wait {n p : Nat} (hs : (topAt pw sw x n).inst0.currentState = .rdSmplBuff)
    (hf : FsmAt pw sw x n p) (hd : FormAt pw sw x n p) :
    ∃ m, n < m ∧ (topAt pw sw x m).inst0.currentState = .waitData2packetsDone ∧
      reads pw sw x m = sw.smplRdSize * (p + 1) := by
  obtain ⟨k, hk⟩ : ∃ k, k = sw.smplRdSize - (topAt pw sw x n).inst0.smplBuffRdCnt := ⟨_, rfl⟩
  induction k generalizing n with
  | zero => simp only [FsmAt, hs] at hf; omega
  | succ k ih =>
      have hf' := fsmAt_rdSmplBuff hs hf hd
      have hd' := formAt_succ hf hd
      have hns := @inst0_currentState_succ pw sw x n
      simp only [Data2PacketsFsm.nextState, hs] at hns
      cases hdone : (topAt pw sw x n).inst0.smplBuffRdDone with
      | true =>
          rw [hdone] at hns
          simp only [FsmAt, hns] at hf'
          exact ⟨n + 1, by omega, hns, by rw [Nat.mul_succ]; exact hf'.2.1⟩
      | false =>
          have hns' : (topAt pw sw x (n + 1)).inst0.currentState = .rdSmplBuff := by rw [hns, hdone]; rfl
          have hcnt : (topAt pw sw x (n + 1)).inst0.smplBuffRdCnt =
              (topAt pw sw x n).inst0.smplBuffRdCnt + 1 := by
            simp only [FsmAt, hs] at hf
            simp only [FsmAt, hns'] at hf'
            have hr := reads_succ pw sw x n
            rw [smplBuffRdreq_eq hs] at hr
            have : reads pw sw x (n + 1) = reads pw sw x n + 1 := hr
            omega
          obtain ⟨m, hm, hsm, hrm⟩ := ih hns' hf' hd' (by omega)
          exact ⟨m, by omega, hsm, hrm⟩

/-- From every cycle on the reader becomes idle. -/
theorem exists_idle_from (n : Nat) : ∃ m, n ≤ m ∧ (topAt pw sw x m).inst0.currentState = .idle := by
  have hrd : ∀ {n}, (topAt pw sw x n).inst0.currentState = .rdSmplBuff →
      ∃ m, n ≤ m ∧ (topAt pw sw x m).inst0.currentState = .idle := by
    intro n hs
    obtain ⟨p, hf, hd, _⟩ := @exists_formed pw sw x n
    obtain ⟨m1, _, hm1, hr1⟩ := exists_wait hs hf hd
    obtain ⟨m2, _, hm2, _⟩ := exists_idle hm1 hr1
    exact ⟨m2, by omega, hm2⟩
  cases hs : (topAt pw sw x n).inst0.currentState with
  | idle => exact ⟨n, Nat.le_refl _, hs⟩
  | checkPctBuff =>
      have hs' : (topAt pw sw x (n + 1)).inst0.currentState = .rdSmplBuff := by
        rw [inst0_currentState_succ, Data2PacketsFsm.nextState, hs]
      obtain ⟨m, hm, hidle⟩ := hrd hs'
      exact ⟨m, by omega, hidle⟩
  | rdSmplBuff => exact hrd hs
  | waitData2packetsDone =>
      obtain ⟨p, hf, _⟩ := @exists_formed pw sw x n
      simp only [FsmAt, hs] at hf
      obtain ⟨m, hm, hidle, _⟩ := exists_idle hs (by rw [Nat.mul_succ]; exact hf.2.1)
      exact ⟨m, by omega, hidle⟩

/-- A sample word comes in every cycle and the word count of the sample FIFO is exact. -/
def Saturated (x : Nat → Data2PacketsRigIn) : Prop :=
  ∀ n, (x n).smplFifoWr.isSome = true ∧ 1024 ≤ (x n).smplFifoRdusedwAtMost

theorem usedw_of_idle (hx : Saturated x) {n : Nat} : ∀ {i : Nat},
    (∀ j < i, (topAt pw sw x (n + j)).inst0.currentState = .idle) →
      min i 1024 ≤ (stateAt pw sw x (n + i)).smplFifo.usedw
  | 0, _ => by simp
  | i + 1, h => by
      have ih := usedw_of_idle hx (i := i) fun j hj => h j (by omega)
      have hrd : (topAt pw sw x (n + i)).smplBuffRdreq = false := smplBuffRdreq_eq (h i (by omega))
      obtain ⟨w, hw⟩ := Option.isSome_iff_exists.mp (hx (n + i)).1
      rw [← Nat.add_assoc, smplFifo_succ, hrd, Fifo.usedw, Fifo.next_store, List.length_append, hw]
      simp only [Bool.false_eq_true, if_false, List.drop_zero]
      cases hfull : (stateAt pw sw x (n + i)).smplFifo.isFull with
      | true =>
          have := Fifo.isFull_eq_true.mp hfull
          rw [Fifo.usedw] at this
          omega
      | false =>
          rw [Fifo.accepted_of_not_full hfull]
          rw [Fifo.usedw] at ih
          simp only [Option.toList_some, List.length_singleton]
          omega

/-- With samples coming the reader begins the next packet. -/
theorem exists_check (hx : Saturated x) {n p : Nat} (hs : (topAt pw sw x n).inst0.currentState = .idle)
    (hr : reads pw sw x n = sw.smplRdSize * p) :
    ∃ m, n < m ∧ (topAt pw sw x m).inst0.currentState = .checkPctBuff ∧ reads pw sw x m = sw.smplRdSize * p := by
  have hb := sw.smplRdSize_bounds
  rcases stays_or_leaves (f := fun m => (topAt pw sw x m).inst0.currentState) hs 684 with hall | ⟨i, hall, hne⟩
  · have hused := usedw_of_idle hx (n := n) (i := 681) fun j hj => hall j (by omega)
    have hreg : (topAt pw sw x (n + 681 + 1)).smplBuffRdusedwReg = (stateAt pw sw x (n + 681)).smplFifo.usedw := by
      have h : (topAt pw sw x (n + 681 + 1)).smplBuffRdusedwReg =
          min (x (n + 681)).smplFifoRdusedwAtMost (stateAt pw sw x (n + 681)).smplFifo.usedw := rfl
      have hle := (stateAt pw sw x (n + 681)).smplFifo.usedw_le
      rw [h, Nat.min_eq_right (Nat.le_trans hle (hx (n + 681)).2)]
    have hrdy : (topAt pw sw x (n + 681 + 2)).inst0SmplBuffRdy = true := by
      have h : (topAt pw sw x (n + 681 + 2)).inst0SmplBuffRdy =
          if (topAt pw sw x (n + 681 + 1)).smplBuffRdusedwReg >
            (topAt pw sw x (n + 681 + 1)).smplBuffRdusedwMin then true else false := rfl
      rw [h, hreg, smplBuffRdusedwMin_eq, if_pos (by omega)]
    have hidle := hall 683 (by omega)
    have hend := hall 684 (by omega)
    have hns := @inst0_currentState_succ pw sw x (n + 683)
    simp only [Data2PacketsFsm.nextState] at hns hidle hend
    rw [hidle, show n + 683 = n + 681 + 2 by omega, hrdy, show n + 681 + 2 + 1 = n + 684 by omega, hend] at hns
    cases hns
  · have hidle := hall i (Nat.le_refl _)
    have hns := @inst0_currentState_succ pw sw x (n + i)
    simp only [Data2PacketsFsm.nextState] at hns hidle hne
    rw [hidle] at hns
    have hreads : reads pw sw x (n + (i + 1)) = reads pw sw x n :=
      reads_eq_of_ne fun j hj => by rw [hall j (by omega)]; decide
    refine ⟨n + i + 1, by omega, ?_, hreads.trans hr⟩
    cases hrdy : (topAt pw sw x (n + i)).inst0SmplBuffRdy with
    | true => rw [hrdy] at hns; exact hns
    | false => rw [hrdy] at hns; exact absurd hns hne

/-- With samples coming every packet is begun, in its turn. -/
theorem exists_packet_start (hx : Saturated x) (p : Nat) :
    ∃ n, (topAt pw sw x n).inst0.currentState = .rdSmplBuff ∧ reads pw sw x n = sw.smplRdSize * p := by
  have hstart : ∀ {m q}, (topAt pw sw x m).inst0.currentState = .checkPctBuff →
      reads pw sw x m = sw.smplRdSize * q →
      ∃ n, (topAt pw sw x n).inst0.currentState = .rdSmplBuff ∧ reads pw sw x n = sw.smplRdSize * q := by
    intro m q hm hr
    refine ⟨m + 1, ?_, ?_⟩
    · rw [inst0_currentState_succ, Data2PacketsFsm.nextState, hm]
    · rw [reads_succ, smplBuffRdreq_eq hm, hr]
      rfl
  induction p with
  | zero =>
      obtain ⟨m, _, hm, hr⟩ := @exists_check pw sw x hx 0 0 rfl rfl
      exact hstart hm hr
  | succ p ih =>
      obtain ⟨n, hn, hr⟩ := ih
      obtain ⟨q, hf, hd, _⟩ := @exists_formed pw sw x n
      obtain rfl := eq_of_fsmAt_rd hn hf hr
      obtain ⟨m1, _, hm1, hr1⟩ := exists_wait hn hf hd
      obtain ⟨m2, _, hm2, hr2⟩ := exists_idle hm1 hr1
      obtain ⟨m3, _, hm3, hr3⟩ := exists_check hx hm2 hr2
      exact hstart hm3 hr3

/-- With samples coming every packet is formed. -/
theorem exists_packet (hx : Saturated x) (k : Nat) : ∃ n pk, (formed pw sw x n)[k]? = some pk := by
  have hb := sw.smplRdSize_bounds
  obtain ⟨n, hn, hr⟩ := exists_packet_start hx k
  obtain ⟨q, hf, hd, _⟩ := @exists_formed pw sw x n
  obtain rfl := eq_of_fsmAt_rd hn hf hr
  obtain ⟨m1, _, hm1, hr1⟩ := exists_wait hn hf hd
  obtain ⟨m2, _, hm2, hr2⟩ := exists_idle hm1 hr1
  obtain ⟨p, hf2, _, hformed⟩ := @exists_formed pw sw x m2
  simp only [FsmAt, hm2] at hf2
  obtain rfl : p = q + 1 := Nat.eq_of_mul_eq_mul_left (by omega) (hf2.1.symm.trans hr2)
  obtain ⟨_, hlen, _⟩ | ⟨hlt, _⟩ := hformed
  · exact ⟨m2, _, List.getElem?_eq_getElem (show q < (formed pw sw x m2).length by omega)⟩
  · omega

end Data2PacketsRig

end LimeSdrQpcie
