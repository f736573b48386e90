import LimeSdrQpcie.Tx.P2dWrFsm

/-!
# The phases of the writer

What the counters and the read pipeline of `p2d_wr_fsm` hold in each state, whatever the inputs are. From
it: when a header and when a payload word comes, and that a packet has 255 of the latter.
-/

namespace LimeSdrQpcie

open Hdl

namespace P2dWrFsm

variable {nb : NBuff} {s : P2dWrFsm nb} {i : P2dWrFsmIn nb}

theorem nextBuffCnt_of_ne (h : s.currentState ≠ .switchNextBuff) : (s.next i).nextBuffCnt = s.nextBuffCnt :=
  if_neg h

theorem currentBuffCnt_of_ne (h : s.currentState ≠ .checkNextBuf) : (s.next i).currentBuffCnt = s.currentBuffCnt :=
  if_neg h

theorem nextBuffRdy_next : (s.next i).nextBuffRdy = i.pctBuffRdy s.nextBuffCnt := rfl

/-- Nothing has been requested that has not come. -/
def Settled (s : P2dWrFsm nb) : Prop := s.inPctRdreqInt = false ∧ s.inPctDataValid = false

/-- The counters and the read pipeline in each state. -/
def Phase (s : P2dWrFsm nb) : Prop :=
  match s.currentState with
  | .idle => s.Settled ∧ s.pipeCnt = 0
  | .rdHdr => s.Settled ∧ s.pipeCnt = 0 ∧ s.rdCnt = 0 ∧ s.pctDataWrreqCnt = 0
  | .waitCmprPipe => s.pipeCnt ≤ 4 ∧ s.rdCnt = 1 ∧ s.inPctRdreqInt = (s.pipeCnt == 0) ∧
      s.inPctDataValid = (s.pipeCnt == 1) ∧ s.pctDataWrreqCnt = if s.pipeCnt ≤ 1 then 0 else 1
  | .checkSmplNr | .clrFifo | .switchNextBuff => s.Settled ∧ s.rdCnt = 1 ∧ s.pctDataWrreqCnt = 1
  | .rdPct => 1 ≤ s.rdCnt ∧ s.rdCnt ≤ 255 ∧ s.inPctRdreqInt = decide (2 ≤ s.rdCnt) ∧
      s.inPctDataValid = decide (3 ≤ s.rdCnt) ∧ s.pctDataWrreqCnt = max 1 (s.rdCnt - 2)
  | .waitWrEnd => (s.inPctRdreqInt = true ∧ s.inPctDataValid = true ∧ s.pctDataWrreqCnt = 254) ∨
      (s.inPctRdreqInt = false ∧ s.inPctDataValid = true ∧ s.pctDataWrreqCnt = 255) ∨
      (s.Settled ∧ s.pctDataWrreqCnt = 256 ∧ s.pctDataWrreq s.currentBuffCnt = true)
  | .checkNextBuf | .switchCurrentBuff => s.Settled ∧ s.pctDataWrreqCnt = 256

theorem phase_next (h : s.Phase) : (s.next i).Phase := by
  unfold Phase at h
  cases hs : s.currentState with
  | idle =>
      simp only [Settled, hs] at h
      cases hr : i.inPctRdy <;> simp [Phase, Settled, next, nextState, hs, hr, h]
  | rdHdr =>
      simp only [Settled, hs] at h
      simp [Phase, next, nextState, hs, h]
  | waitCmprPipe =>
      simp only [hs] at h
      obtain ⟨hp, hr, hrd, hv, hc⟩ := h
      obtain h0 | h0 | h0 | h0 | h0 : s.pipeCnt = 0 ∨ s.pipeCnt = 1 ∨ s.pipeCnt = 2 ∨ s.pipeCnt = 3 ∨
          s.pipeCnt = 4 := by omega
      all_goals simp [h0] at hrd hv hc
      all_goals simp [Phase, Settled, next, nextState, hs, h0, hr, hrd, hv, hc]
  | checkSmplNr =>
      simp only [Settled, hs] at h
      by_cases hl : s.cmpr.alb = true ∧ s.crntPctSyncDis = false ∧ i.pctSyncDis = false
      · simp [Phase, Settled, next, nextState, hs, hl, h]
      · cases hb : s.currentBuffRdy <;> simp [Phase, Settled, next, nextState, hs, hl, hb, h]
  | clrFifo =>
      simp only [Settled, hs] at h
      simp [Phase, Settled, next, nextState, hs, h]
  | switchNextBuff =>
      simp only [Settled, hs] at h
      simp [Phase, next, nextState, hs, h]
  | rdPct =>
      simp only [hs] at h
      obtain ⟨hlo, hhi, hrd, hv, hc⟩ := h
      by_cases hlt : s.rdCnt < 255
      · have hm : (s.rdCnt + 1) % 65536 = s.rdCnt + 1 := Nat.mod_eq_of_lt (by omega)
        simp [Phase, next, nextState, hs, hrd, hv, hc, hlt, hm]
        split <;> omega
      · simp [Phase, next, nextState, hs, hrd, hv, hc, show s.rdCnt = 255 by omega]
  | waitWrEnd =>
      simp only [Settled, hs] at h
      rcases h with ⟨hrd, hv, hc⟩ | ⟨hrd, hv, hc⟩ | ⟨⟨hrd, hv⟩, hc, _⟩
      · simp [Phase, Settled, next, nextState, hs, hrd, hv, hc]
      · simp [Phase, Settled, next, nextState, dataWord, hs, hrd, hv, hc]
      · simp [Phase, Settled, next, nextState, hs, hrd, hv, hc]
  | checkNextBuf =>
      simp only [Settled, hs] at h
      cases hb : s.nextBuffRdy <;> simp [Phase, Settled, next, nextState, hs, hb, h]
  | switchCurrentBuff =>
      simp only [Settled, hs] at h
      simp [Phase, Settled, next, nextState, hs, h]

end P2dWrFsm

end LimeSdrQpcie
