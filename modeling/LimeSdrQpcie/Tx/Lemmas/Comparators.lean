import LimeSdrQpcie.Tx.Lemmas.SmplBuff

/-!
# The comparators

A comparator says three cycles later what it was asked. The writer waits so long for its comparator that the
answer is about the packet in hand, and a packet is long enough for the reader's answers to be about it.
-/

namespace LimeSdrQpcie

open Hdl

/-! ## The writer's comparator -/

namespace P2dWrFsm

variable {nb : NBuff} {s : P2dWrFsm nb} {i : P2dWrFsmIn nb}

/-- At least `j` cycles of `wait_cmpr_pipe` are over. -/
def Waited (j : Nat) (s : P2dWrFsm nb) : Prop :=
  s.currentState = .checkSmplNr ∨ (s.currentState = .waitCmprPipe ∧ j ≤ s.pipeCnt)

theorem waited_of_next {j : Nat} (hph : s.Phase) (hj : j ≤ 4) (h : Waited (j + 1) (s.next i)) : Waited j s := by
  have hns : (s.next i).currentState = s.nextState i := rfl
  cases hs : s.currentState with
  | checkSmplNr => exact Or.inl hs
  | waitCmprPipe =>
      refine Or.inr ⟨hs, ?_⟩
      rcases h with h | ⟨-, h⟩
      · rw [hns, nextState, hs] at h
        by_cases hp : s.pipeCnt > 3
        · omega
        · simp [hp] at h
      · simp only [Phase, hs] at hph
        simp [next, hs] at h
        omega
  | rdHdr =>
      rcases h with h | ⟨-, h⟩
      · simp [hns, nextState, hs] at h
      · simp [next, hs] at h
  | _ =>
      have hno : s.nextState i ≠ .checkSmplNr ∧ s.nextState i ≠ .waitCmprPipe := by
        simp only [nextState, hs]
        repeat' split
        all_goals simp
      rcases h with h | ⟨h, -⟩
      · exact absurd h hno.1
      · exact absurd h hno.2

theorem hdrWord_of_waited (hph : s.Phase) (h : Waited 2 s) : s.hdrWord = false := by
  rcases h with h | ⟨h, hp⟩
  · simp only [Phase, Settled, h] at hph
    simp [hdrWord, hph]
  · simp only [Phase, h] at hph
    have hv : s.inPctDataValid = false := by rw [hph.2.2.2.1]; simp; omega
    simp [hdrWord, hv]

theorem waited_mono {j k : Nat} (h : Waited k s) (hjk : j ≤ k) : Waited j s := by
  rcases h with h | ⟨h, hp⟩
  · exact Or.inl h
  · exact Or.inr ⟨h, by omega⟩

/-- The header register has not changed since the comparator was asked. -/
theorem pctHdr1Reg_next_of_waited (hph : s.Phase) (h : Waited 2 s) : (s.next i).pctHdr1Reg = s.pctHdr1Reg := by
  simp [next, hdrWord_of_waited hph h]

theorem nextState_clrFifo (h : s.nextState i = .clrFifo) : s.currentState = .checkSmplNr ∧
    s.cmpr.alb = true ∧ s.crntPctSyncDis = false ∧ i.pctSyncDis = false := by
  cases hs : s.currentState with
  | checkSmplNr =>
      simp only [nextState, hs] at h
      split at h
      next hc => exact ⟨rfl, hc⟩
      next =>
        split at h <;> cases h
  | _ =>
      simp only [nextState, hs] at h
      repeat' split at h
      all_goals cases h

end P2dWrFsm

namespace P2dRd

variable {nb : NBuff} {s : P2dRd nb} {i : P2dRdIn nb}

theorem nextState_clrBuff (h : s.nextState i = .clrBuff) : s.currentState = .idle ∧ s.crntBuffRdy = true ∧
    i.synchDis = false ∧ s.crntBuffPctSynchDis = false ∧ s.crntBuffPctSmplNrLess = true := by
  cases hs : s.currentState with
  | idle =>
      simp only [nextState, hs] at h
      cases hr : s.crntBuffRdy <;> cases hd : i.synchDis <;> cases hp : s.crntBuffPctSynchDis <;>
        cases he : s.crntBuffPctSmplNrEqual <;> cases hl : s.crntBuffPctSmplNrLess <;> simp_all
  | _ =>
      simp only [nextState, hs] at h
      repeat' split at h
      all_goals cases h

theorem nextState_rdBuff (hs : s.currentState = .idle) (h : s.nextState i = .rdBuff) : s.crntBuffRdy = true ∧
    (i.synchDis = true ∨ s.crntBuffPctSynchDis = true ∨ s.crntBuffPctSmplNrEqual = true) := by
  simp only [nextState, hs] at h
  cases hr : s.crntBuffRdy with
  | false => simp [hr] at h
  | true =>
      refine ⟨rfl, ?_⟩
      by_contra hno
      simp only [not_or, Bool.not_eq_true] at hno
      obtain ⟨hd, hp, he⟩ := hno
      cases hl : s.crntBuffPctSmplNrLess <;> simp [hr, hd, hp, he, hl] at h

end P2dRd

namespace Packets2Data

variable {nb : NBuff}

theorem inst0_run_succ (x : Nat → Packets2DataIn nb) (n : Nat) :
    ((circuit nb 0x400).run x (n + 1)).inst0 =
      ((circuit nb 0x400).run x n).inst0.next (((circuit nb 0x400).run x n).inst0In (x n)) := rfl

/-- A packet has been waited for: it is not the first cycle. -/
theorem exists_pred_of_waited {x : Nat → Packets2DataIn nb} {n j : Nat}
    (h : P2dWrFsm.Waited j ((circuit nb 0x400).run x n).inst0) : ∃ m, n = m + 1 := by
  cases n with
  | zero => rcases h with h | ⟨h, -⟩ <;> cases h
  | succ m => exact ⟨m, rfl⟩

/-- When the writer decides, the comparator's answer is about the header it holds. -/
theorem wr_alb (x : Nat → Packets2DataIn nb) (n : Nat)
    (h : ((circuit nb 0x400).run x n).inst0.currentState = .checkSmplNr) :
    ∃ m, n = m + 3 ∧ ((circuit nb 0x400).run x n).inst0.cmpr.alb =
      ((circuit nb 0x400).run x n).inst0.pctHdr1Reg.ult (x m).sampleNr := by
  have hph : ∀ m, ((circuit nb 0x400).run x m).inst0.Phase := fun m => (pctRing_run x m).phase
  have h5 : P2dWrFsm.Waited 5 ((circuit nb 0x400).run x n).inst0 := Or.inl h
  obtain ⟨n2, rfl⟩ := exists_pred_of_waited h5
  have h4 := P2dWrFsm.waited_of_next (hph n2) (by omega) (inst0_run_succ x n2 ▸ h5)
  obtain ⟨n1, rfl⟩ := exists_pred_of_waited h4
  have h3 := P2dWrFsm.waited_of_next (hph n1) (by omega) (inst0_run_succ x n1 ▸ h4)
  obtain ⟨n0, rfl⟩ := exists_pred_of_waited h3
  have h2 := P2dWrFsm.waited_of_next (hph n0) (by omega) (inst0_run_succ x n0 ▸ h3)
  have e2 := P2dWrFsm.pctHdr1Reg_next_of_waited (i := ((circuit nb 0x400).run x (n0 + 1 + 1)).inst0In (x (n0 + 1 + 1)))
    (hph _) (P2dWrFsm.waited_mono h4 (by omega))
  have e1 := P2dWrFsm.pctHdr1Reg_next_of_waited (i := ((circuit nb 0x400).run x (n0 + 1)).inst0In (x (n0 + 1)))
    (hph _) (P2dWrFsm.waited_mono h3 (by omega))
  have e0 := P2dWrFsm.pctHdr1Reg_next_of_waited (i := ((circuit nb 0x400).run x n0).inst0In (x n0)) (hph _) h2
  refine ⟨n0, rfl, ?_⟩
  rw [inst0_run_succ, e2, inst0_run_succ, e1, inst0_run_succ, e0]
  rfl

/-- When the writer decides, what it sees is about the packet in hand. -/
theorem wr_answer (x : Nat → Packets2DataIn nb) (n : Nat)
    (hs : ((circuit nb 0x400).run x n).inst0.currentState = .checkSmplNr) :
    ∃ p m, (log x n).wr.inHand = some p ∧ n = m + 3 ∧
      ((circuit nb 0x400).run x n).inst0.crntPctSyncDis = p.syncDis ∧
      ((circuit nb 0x400).run x n).inst0.cmpr.alb = p.hdr1.ult (x m).sampleNr := by
  have htr := (pctRing_run x n).wr
  simp only [WrLog.Tracks, hs] at htr
  obtain ⟨⟨p, hp, -, h0, h1⟩, -⟩ := htr
  obtain ⟨m, hm, halb⟩ := wr_alb x n hs
  exact ⟨p, m, hp, hm, by rw [P2dWrFsm.crntPctSyncDis, h0, TxPct.syncDis], by rw [halb, h1]⟩

/-! ## The reader's comparators -/

theorem log_succ (x : Nat → Packets2DataIn nb) (n : Nat) :
    log x (n + 1) = (log x n).next ((circuit nb 0x400).run x n) (x n) := rfl

theorem step_run (x : Nat → Packets2DataIn nb) (n : Nat) :
    WrLog.Step ((circuit nb 0x400).run x n).inst0 (x n).inPctData (log x n).wr (log x (n + 1)).wr :=
  WrLog.step_next (i := ((circuit nb 0x400).run x n).inst0In (x n)) (pctRing_run x n).phase (pctRing_run x n).wr

theorem fates_length_mono (x : Nat → Packets2DataIn nb) (m j : Nat) :
    (log x m).fates.length ≤ (log x (m + j)).fates.length := by
  induction j with
  | zero => exact Nat.le_refl _
  | succ j ih =>
      refine Nat.le_trans ih ?_
      rw [← Nat.add_assoc, log_succ, TxLog.next, P2dRd.fatesNext_length]
      exact P2dRd.le_doneNext

/-- A packet with `j` words has been in the record for `j` cycles. -/
theorem pcts_back (x : Nat → Packets2DataIn nb) (m : Nat) {k : Nat} {p : TxPct} (j : Nat)
    (hp : (log x (m + j)).wr.pcts[k]? = some p) (hj : j ≤ p.data.length) :
    ∃ q, (log x m).wr.pcts[k]? = some q ∧ q.hdr = p.hdr ∧ p.data.length ≤ q.data.length + j := by
  induction j generalizing p with
  | zero => exact ⟨p, hp, rfl, Nat.le_refl _⟩
  | succ j ih =>
      rcases (step_run x (m + j)).pcts_getElem? hp with ⟨-, -, hnew⟩ | ⟨q, hq, hhdr, hlen⟩
      · simp [hnew] at hj
      · obtain ⟨q', hq', hhdr', hlen'⟩ := ih hq (by omega)
        exact ⟨q', hq', hhdr'.trans hhdr, by omega⟩

/-- The header registers hold the header of a stored packet for longer than a comparator needs. -/
theorem pctHdrArray_back (x : Nat → Packets2DataIn nb) (m j : Nat) {k : Nat} {p : TxPct} (hj : j < 255)
    (hf : (log x (m + j)).fates.length ≤ k) (hp : (log x (m + j)).wr.stored[k]? = some p) :
    ((circuit nb 0x400).run x m).inst3.pctHdr0Array (Ring.slot nb.n k) = p.hdr0 ∧
      ((circuit nb 0x400).run x m).inst3.pctHdr1Array (Ring.slot nb.n k) = p.hdr1 := by
  have hwhole := (pctRing_run x (m + j)).whole p (List.mem_of_getElem? hp)
  obtain ⟨q, hq, hhdr, hlen⟩ := pcts_back x m j (PctRing.stored_getElem? hp) (by omega)
  have hring := pctRing_run x m
  have hfm : (log x m).fates.length ≤ k := Nat.le_trans (fates_length_mono x m j) hf
  have hk := (List.getElem?_eq_some_iff.mp hq).1
  have hwin : (log x m).wr.pcts.length ≤ (log x m).fates.length + nb.n := by
    rw [← PctRing.payloads_length]
    exact hring.ring.window
  have hno : ∀ p', (log x m).wr.inHand = some p' → p'.data = [] →
      Ring.slot nb.n k ≠ Ring.slot nb.n (log x m).wr.stored.length := by
    intro p' hp' he hslot
    rw [WrLog.pcts_of_some hp'] at hk hwin hq
    rw [List.length_append, List.length_singleton] at hk hwin
    have hks : k = (log x m).wr.stored.length := Ring.slot_inj hslot (by omega) (by omega)
    rw [hks, List.getElem?_concat_length] at hq
    rw [← Option.some.inj hq, he, List.length_nil] at hlen
    omega
  have hv0 : ((circuit nb 0x400).run x m).inst0.pctHdr0Valid (Ring.slot nb.n k) = false := by
    refine Bool.eq_false_iff.mpr fun hv => ?_
    obtain ⟨hslot, p', hp', he, -⟩ := hring.hdr0.port _ hv
    exact hno p' hp' he hslot
  have hv1 : ((circuit nb 0x400).run x m).inst0.pctHdr1Valid (Ring.slot nb.n k) = false := by
    refine Bool.eq_false_iff.mpr fun hv => ?_
    obtain ⟨hslot, p', hp', he, -⟩ := hring.hdr1.port _ hv
    exact hno p' hp' he hslot
  rw [hring.hdr0.held k q hfm hq hv0, hring.hdr1.held k q hfm hq hv1]
  exact ⟨by rw [TxPct.hdr0, TxPct.hdr0, hhdr], by rw [TxPct.hdr1, TxPct.hdr1, hhdr]⟩

/-- When the reader has a packet before it, the answers it sees are about this packet's header. -/
theorem rd_answers (x : Nat → Packets2DataIn nb) (n : Nat)
    (hs : ((circuit nb 0x400).run x n).inst3.currentState = .idle)
    (hr : ((circuit nb 0x400).run x n).inst3.crntBuffRdy = true) :
    ∃ p m, n = m + 4 ∧ (log x n).wr.stored[(log x n).fates.length]? = some p ∧
      ((circuit nb 0x400).run x n).inst3.crntBuffPctSynchDis = p.syncDis ∧
      ((circuit nb 0x400).run x n).inst3.crntBuffPctSmplNrEqual = (p.hdr1 == (x m).sampleNr) ∧
      ((circuit nb 0x400).run x n).inst3.crntBuffPctSmplNrLess = p.hdr1.ult (x m).sampleNr := by
  have hring := pctRing_run x n
  have hrd := hring.rd
  simp only [P2dRd.Tracks, hs] at hrd
  obtain ⟨hc, hfull⟩ := hrd
  have hlt := hring.stored_of_full (hfull hr)
  obtain ⟨p, hp⟩ : ∃ p, (log x n).wr.stored[(log x n).fates.length]? = some p :=
    ⟨_, List.getElem?_eq_getElem hlt⟩
  have hwhole := hring.whole p (List.mem_of_getElem? hp)
  obtain ⟨m, rfl⟩ : ∃ m, n = m + 4 := by
    refine ⟨n - 4, ?_⟩
    by_contra hn
    obtain ⟨q, hq, -⟩ := pcts_back x 0 n (by rw [Nat.zero_add]; exact PctRing.stored_getElem? hp) (by omega)
    simp [log, TxLog.run, TxLog.empty, WrLog.empty, WrLog.pcts] at hq
  have hcnt : ((circuit nb 0x400).run x (m + 3)).inst3.crntBuffCnt =
      Ring.slot nb.n (log x (m + 4)).fates.length := by
    have hsw : ((circuit nb 0x400).run x (m + 3)).inst3.currentState ≠ .switchNextBuff := by
      intro he
      have hst : ((circuit nb 0x400).run x (m + 4)).inst3.currentState =
          ((circuit nb 0x400).run x (m + 3)).inst3.nextState
            (((circuit nb 0x400).run x (m + 3)).inst3In (x (m + 3))) := rfl
      rw [hst, P2dRd.nextState, he] at hs
      cases hs
    rw [← hc]
    exact (if_neg hsw).symm
  obtain ⟨-, h1⟩ := pctHdrArray_back x m 4 (by omega) (Nat.le_refl _) hp
  obtain ⟨h0, -⟩ := pctHdrArray_back x (m + 3) 1 (by omega) (Nat.le_refl _) hp
  refine ⟨p, m, rfl, hp, ?_, ?_, ?_⟩
  · rw [TxPct.syncDis, ← h0, ← hcnt]
    rfl
  · rw [← h1, ← hcnt]
    rfl
  · rw [← h1, ← hcnt]
    rfl

end Packets2Data

end LimeSdrQpcie
