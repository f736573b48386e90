import LimeSdrQpcie.Tx.Lemmas.P2dWrFsm
import LimeSdrQpcie.Tx.PctLog

/-!
# The writer and its record

The writer's buffer pointers count the stored packets. A buffer is taken only after it has been seen empty.
-/

namespace LimeSdrQpcie

open Hdl

instance (nb : NBuff) : NeZero nb.n := ⟨Nat.ne_of_gt nb.n_pos⟩

namespace NBuff

variable {nb : NBuff}

theorem one_lt_n (nb : NBuff) : 1 < nb.n := by cases nb <;> decide

theorem zero_eq_slot : nb.zero = Ring.slot nb.n 0 := Fin.ext (Nat.zero_mod _).symm

/-- The buffer counter goes from one packet's buffer to the next one's. -/
theorem succ_slot (k : Nat) : succ (Ring.slot nb.n k) = Ring.slot nb.n (k + 1) := by
  have hlt := nb.one_lt_n
  have h := Nat.mod_lt k nb.n_pos
  have hmod : (k + 1) % nb.n = (k % nb.n + 1) % nb.n := by rw [Nat.add_mod, Nat.mod_eq_of_lt hlt]
  apply Fin.ext
  change (succ (Ring.slot nb.n k)).val = (k + 1) % nb.n
  by_cases hc : k % nb.n < nb.n - 1
  · rw [hmod, Nat.mod_eq_of_lt (by omega), succ, dif_pos (show (Ring.slot nb.n k).val < nb.n - 1 from hc)]
    rfl
  · rw [hmod, show k % nb.n + 1 = nb.n by omega, Nat.mod_self, succ,
      dif_neg (show ¬ (Ring.slot nb.n k).val < nb.n - 1 from hc)]
    rfl

end NBuff

namespace WrLog

variable {nb : NBuff} {s : P2dWrFsm nb} {i : P2dWrFsmIn nb} {l : WrLog} {f : Nat}

/-- The packet in hand is the one whose header the writer holds, with the payload words counted so far. -/
def Begun (s : P2dWrFsm nb) (l : WrLog) : Prop :=
  ∃ p, l.inHand = some p ∧ p.data.length + 1 = s.pctDataWrreqCnt ∧ s.pctHdr0Reg = p.hdr0 ∧
    s.pctHdr1Reg = p.hdr1

/-- Between two packets. -/
def Between (s : P2dWrFsm nb) (l : WrLog) : Prop :=
  l.inHand = none ∧ s.nextBuffCnt = Ring.slot nb.n l.stored.length

/-- The writer's registers and the record, when the reader is done with `f` packets. -/
def Tracks (s : P2dWrFsm nb) (l : WrLog) (f : Nat) : Prop :=
  match s.currentState with
  | .idle | .rdHdr | .switchCurrentBuff => Between s l ∧
      s.currentBuffCnt = Ring.slot nb.n l.stored.length ∧ l.stored.length < f + nb.n
  | .waitCmprPipe => (if s.pipeCnt ≤ 1 then l.inHand = none else Begun s l) ∧
      s.nextBuffCnt = Ring.slot nb.n l.stored.length ∧
      s.currentBuffCnt = Ring.slot nb.n l.stored.length ∧ l.stored.length < f + nb.n
  | .checkSmplNr | .clrFifo | .switchNextBuff => Begun s l ∧
      s.nextBuffCnt = Ring.slot nb.n l.stored.length ∧
      s.currentBuffCnt = Ring.slot nb.n l.stored.length ∧ l.stored.length < f + nb.n
  | .rdPct => Begun s l ∧ s.nextBuffCnt = Ring.slot nb.n (l.stored.length + 1) ∧
      s.currentBuffCnt = Ring.slot nb.n l.stored.length ∧ l.stored.length < f + nb.n ∧
      (2 ≤ s.rdCnt → s.nextBuffRdy = true → l.stored.length + 1 < f + nb.n)
  | .waitWrEnd => Begun s l ∧ s.nextBuffCnt = Ring.slot nb.n (l.stored.length + 1) ∧
      s.currentBuffCnt = Ring.slot nb.n l.stored.length ∧ l.stored.length < f + nb.n ∧
      (s.nextBuffRdy = true → l.stored.length + 1 < f + nb.n)
  | .checkNextBuf => Between s l ∧ (s.nextBuffRdy = true → l.stored.length < f + nb.n)

theorem pcts_of_none (h : l.inHand = none) : l.pcts = l.stored := by
  simp [pcts, h]

theorem pcts_of_some {p : TxPct} (h : l.inHand = some p) : l.pcts = l.stored ++ [p] := by
  simp [pcts, h]

/-! ## A step of the record -/

theorem next_of_not_valid (hv : s.inPctDataValid = false) (hc : s.currentState ≠ .clrFifo)
    (hw : s.currentState ≠ .waitWrEnd) : l.next s i = l := by
  simp [next, P2dWrFsm.hdrWord, P2dWrFsm.dataWord, hv, hc, hw]

theorem next_of_hdrWord (h : s.hdrWord = true) :
    l.next s i = { l with inHand := some ⟨i.inPctData, []⟩ } := by
  simp [next, h]

theorem next_of_dataWord (h : s.dataWord = true) :
    l.next s i = { l with inHand := l.inHand.map (·.add i.inPctData) } := by
  have hh : s.hdrWord = false := by
    simp only [P2dWrFsm.dataWord, Bool.and_eq_true, decide_eq_true_eq] at h
    simp [P2dWrFsm.hdrWord, Nat.ne_of_gt h.2]
  simp [next, h, hh]

theorem begun_of_hdrWord (h : s.hdrWord = true) : Begun (s.next i) (l.next s i) := by
  rw [next_of_hdrWord h]
  have hv := h
  simp only [P2dWrFsm.hdrWord, Bool.and_eq_true, beq_iff_eq] at hv
  exact ⟨⟨i.inPctData, []⟩, rfl, by simp [P2dWrFsm.next, hv.1, hv.2], by simp [P2dWrFsm.next, h, TxPct.hdr0],
    by simp [P2dWrFsm.next, h, TxPct.hdr1]⟩

/-- A packet that has been begun is carried on, with the words that come. -/
theorem Begun.next (hb : Begun s l) (hc : s.pctDataWrreqCnt ≤ 256) (hi : s.currentState ≠ .idle)
    (hf : s.currentState ≠ .clrFifo) (hw : s.currentState = .waitWrEnd → s.inPctDataValid = true) :
    Begun (s.next i) (l.next s i) ∧ (l.next s i).stored = l.stored := by
  obtain ⟨p, hp, hd, h0, h1⟩ := hb
  have hpos : 0 < s.pctDataWrreqCnt := by omega
  have hh : s.hdrWord = false := by simp [P2dWrFsm.hdrWord, Nat.ne_of_gt hpos]
  have h0' : (s.next i).pctHdr0Reg = p.hdr0 := by simp [P2dWrFsm.next, hh, h0]
  have h1' : (s.next i).pctHdr1Reg = p.hdr1 := by simp [P2dWrFsm.next, hh, h1]
  cases hv : s.inPctDataValid with
  | false =>
      have hl : l.next s i = l := next_of_not_valid hv hf fun he => by simp [hw he] at hv
      rw [hl]
      exact ⟨⟨p, hp, by simp [P2dWrFsm.next, hv, hi, hd], h0', h1'⟩, rfl⟩
  | true =>
      have hl := next_of_dataWord (l := l) (i := i) (s := s) (by simp [P2dWrFsm.dataWord, hv, hpos])
      rw [hl, hp]
      refine ⟨⟨p.add i.inPctData, rfl, ?_, h0', h1'⟩, rfl⟩
      simp [P2dWrFsm.next, hv, TxPct.add]
      omega

theorem Begun.length_pcts (hb : Begun s l) : l.pcts.length = l.stored.length + 1 := by
  obtain ⟨p, hp, -⟩ := hb
  simp [pcts_of_some hp]

/-- While a packet is carried on the buffer pointers stay, the next one `d` buffers ahead of the packet. -/
theorem Begun.carries {f' d : Nat} (hb : Begun s l) (hc : s.pctDataWrreqCnt ≤ 256)
    (hs : s.currentState = .waitCmprPipe ∨ s.currentState = .checkSmplNr ∨ s.currentState = .rdPct ∨
      s.currentState = .waitWrEnd ∧ s.inPctDataValid = true)
    (hn : s.nextBuffCnt = Ring.slot nb.n (l.stored.length + d))
    (hcur : s.currentBuffCnt = Ring.slot nb.n l.stored.length) (hk : l.stored.length < f' + nb.n) :
    Begun (s.next i) (l.next s i) ∧ (s.next i).nextBuffCnt = Ring.slot nb.n ((l.next s i).stored.length + d) ∧
      (s.next i).currentBuffCnt = Ring.slot nb.n (l.next s i).stored.length ∧
      (l.next s i).stored.length < f' + nb.n := by
  have hcarry : s.currentState ≠ .idle ∧ s.currentState ≠ .clrFifo ∧ s.currentState ≠ .switchNextBuff ∧
      s.currentState ≠ .checkNextBuf ∧ (s.currentState = .waitWrEnd → s.inPctDataValid = true) := by
    rcases hs with hs | hs | hs | ⟨hs, hv⟩
    · simp [hs]
    · simp [hs]
    · simp [hs]
    · simp [hs, hv]
  obtain ⟨hi, hclr, hsw, hck, hw⟩ := hcarry
  obtain ⟨hbeg, hst⟩ := hb.next (i := i) hc hi hclr hw
  rw [hst, P2dWrFsm.nextBuffCnt_of_ne hsw, P2dWrFsm.currentBuffCnt_of_ne hck]
  exact ⟨hbeg, hn, hcur, hk⟩

/-- A buffer that is seen empty is free. -/
theorem ready_next {f' k : Nat} (hn : s.nextBuffCnt = Ring.slot nb.n k)
    (hfree : i.pctBuffRdy (Ring.slot nb.n k) = true → k < f' + nb.n) :
    (s.next i).nextBuffRdy = true → k < f' + nb.n := by
  rw [P2dWrFsm.nextBuffRdy_next, hn]
  exact hfree

section Next

variable {f' : Nat} (hph : s.Phase) (h : Tracks s l f) (hf : f ≤ f')
  (hfree : i.pctBuffRdy (Ring.slot nb.n l.pcts.length) = true → l.pcts.length < f' + nb.n)

include hph h hf

/-- The header comes two cycles after its request, and with it a packet begins. -/
theorem tracks_next_waitCmprPipe (hs : s.currentState = .waitCmprPipe) :
    Tracks (s.next i) (l.next s i) f' := by
  unfold P2dWrFsm.Phase P2dWrFsm.Settled at hph
  unfold Tracks at h
  simp only [hs] at h hph
  obtain ⟨hp, hr, hrd, hv, hc⟩ := hph
  obtain ⟨hb, hn, hcur, hk⟩ := h
  have hk' : l.stored.length < f' + nb.n := by omega
  have hn' : (s.next i).nextBuffCnt = Ring.slot nb.n l.stored.length := by
    rw [P2dWrFsm.nextBuffCnt_of_ne (by simp [hs]), hn]
  have hcur' : (s.next i).currentBuffCnt = Ring.slot nb.n l.stored.length := by
    rw [P2dWrFsm.currentBuffCnt_of_ne (by simp [hs]), hcur]
  have hpipe : (s.next i).pipeCnt = s.pipeCnt + 1 := by simp [P2dWrFsm.next, hs]; omega
  have hns : (s.next i).currentState = if s.pipeCnt > 3 then .checkSmplNr else .waitCmprPipe := by
    simp [P2dWrFsm.next, P2dWrFsm.nextState, hs]
  obtain h0 | h0 | h0 : s.pipeCnt = 0 ∨ s.pipeCnt = 1 ∨ 2 ≤ s.pipeCnt := by omega
  · have hl : l.next s i = l := next_of_not_valid (by simp [hv, h0]) (by simp [hs]) (by simp [hs])
    simp [Tracks, hns, hl, hn', hcur', hpipe, h0] at hb ⊢
    exact ⟨hb, hk'⟩
  · have hh : s.hdrWord = true := by simp [P2dWrFsm.hdrWord, hv, hc, h0]
    have hbeg := begun_of_hdrWord (l := l) (i := i) hh
    have hst : (l.next s i).stored = l.stored := by rw [next_of_hdrWord hh]
    simp [Tracks, hns, hpipe, h0, hst, hn', hcur']
    exact ⟨hbeg, hk'⟩
  · rw [if_neg (by omega)] at hb
    have hcar := hb.carries (i := i) (d := 0) (by rw [hc]; split <;> omega) (Or.inl hs) hn hcur hk'
    by_cases hlt : s.pipeCnt > 3
    · simp only [Tracks, hns, if_pos hlt]
      exact hcar
    · simp only [Tracks, hns, if_neg hlt]
      rw [if_neg (by omega)]
      exact hcar

/-- The packet waits for a free buffer, or is too late. -/
theorem tracks_next_checkSmplNr (hs : s.currentState = .checkSmplNr) :
    Tracks (s.next i) (l.next s i) f' := by
  unfold P2dWrFsm.Phase P2dWrFsm.Settled at hph
  unfold Tracks at h
  simp only [hs] at h hph
  obtain ⟨hb, hn, hcur, hk⟩ := h
  have hk' : l.stored.length < f' + nb.n := by omega
  have hcar := hb.carries (i := i) (d := 0) (by omega) (Or.inr (Or.inl hs)) hn hcur hk'
  have hns : (s.next i).currentState =
      if s.cmpr.alb = true ∧ s.crntPctSyncDis = false ∧ i.pctSyncDis = false then .clrFifo
      else if s.currentBuffRdy then .switchNextBuff else .checkSmplNr := by
    simp [P2dWrFsm.next, P2dWrFsm.nextState, hs]
  by_cases hl : s.cmpr.alb = true ∧ s.crntPctSyncDis = false ∧ i.pctSyncDis = false
  · rw [if_pos hl] at hns
    simp only [Tracks, hns]
    exact hcar
  · rw [if_neg hl] at hns
    cases hr : s.currentBuffRdy
    all_goals
      simp only [hr] at hns
      simp only [Tracks, hns]
      exact hcar

include hfree

/-- The words of the packet go to its buffer. -/
theorem tracks_next_rdPct (hs : s.currentState = .rdPct) :
    Tracks (s.next i) (l.next s i) f' := by
  unfold P2dWrFsm.Phase P2dWrFsm.Settled at hph
  unfold Tracks at h
  simp only [hs] at h hph
  obtain ⟨hlo, hhi, hrd, hv, hc⟩ := hph
  obtain ⟨hb, hn, hcur, hk, _⟩ := h
  have hk' : l.stored.length < f' + nb.n := by omega
  obtain ⟨hbeg, hn', hcur', hk'⟩ :=
    hb.carries (i := i) (d := 1) (by omega) (Or.inr (Or.inr (Or.inl hs))) hn hcur hk'
  rw [hb.length_pcts] at hfree
  have hst := (hb.next (i := i) (by omega) (by simp [hs]) (by simp [hs]) (by simp [hs])).2
  have hrdy : (s.next i).nextBuffRdy = true → (l.next s i).stored.length + 1 < f' + nb.n := by
    rw [hst]
    exact ready_next hn hfree
  have hns : (s.next i).currentState = if s.rdCnt < 255 then .rdPct else .waitWrEnd := by
    simp [P2dWrFsm.next, P2dWrFsm.nextState, hs]
  by_cases hlt : s.rdCnt < 255
  · rw [if_pos hlt] at hns
    simp only [Tracks, hns]
    exact ⟨hbeg, hn', hcur', hk', fun _ => hrdy⟩
  · rw [if_neg hlt] at hns
    simp only [Tracks, hns]
    exact ⟨hbeg, hn', hcur', hk', hrdy⟩

/-- The packet is stored when its last word has come. -/
theorem tracks_next_waitWrEnd (hs : s.currentState = .waitWrEnd) :
    Tracks (s.next i) (l.next s i) f' := by
  unfold P2dWrFsm.Phase P2dWrFsm.Settled at hph
  unfold Tracks at h
  simp only [hs] at h hph
  obtain ⟨hb, hn, hcur, hk, _⟩ := h
  rw [hb.length_pcts] at hfree
  have hrdy := ready_next hn hfree
  cases hv : s.inPctDataValid with
  | true =>
      have hc : s.pctDataWrreqCnt ≤ 256 := by
        simp [hv] at hph
        omega
      have hst := (hb.next (i := i) hc (by simp [hs]) (by simp [hs]) (fun _ => hv)).2
      have hk' : l.stored.length < f' + nb.n := by omega
      obtain ⟨hbeg, hn', hcur', hk'⟩ :=
        hb.carries (i := i) (d := 1) hc (Or.inr (Or.inr (Or.inr ⟨hs, hv⟩))) hn hcur hk'
      have hns : (s.next i).currentState = .waitWrEnd := by
        simp [P2dWrFsm.next, P2dWrFsm.nextState, hs, hv]
      simp only [Tracks, hns]
      exact ⟨hbeg, hn', hcur', hk', by rw [hst]; exact hrdy⟩
  | false =>
      have hns : (s.next i).currentState = .checkNextBuf := by
        simp [P2dWrFsm.next, P2dWrFsm.nextState, hs, hv]
      have hl : l.next s i = ⟨l.pcts, none⟩ := by
        simp [next, P2dWrFsm.hdrWord, P2dWrFsm.dataWord, hs, hv, pcts]
      simp only [Tracks, Between, hns, hl, hb.length_pcts]
      exact ⟨⟨trivial, (P2dWrFsm.nextBuffCnt_of_ne (by simp [hs])).trans hn⟩, hrdy⟩

/-- The next buffer is the current one as soon as it is seen empty. -/
theorem tracks_next_checkNextBuf (hs : s.currentState = .checkNextBuf) :
    Tracks (s.next i) (l.next s i) f' := by
  unfold P2dWrFsm.Phase P2dWrFsm.Settled at hph
  unfold Tracks at h
  simp only [hs] at h hph
  obtain ⟨⟨hb, hn⟩, hrdy⟩ := h
  rw [next_of_not_valid hph.1.2 (by simp [hs]) (by simp [hs])]
  have hn' : (s.next i).nextBuffCnt = Ring.slot nb.n l.stored.length := by
    rw [P2dWrFsm.nextBuffCnt_of_ne (by simp [hs]), hn]
  rw [pcts_of_none hb] at hfree
  cases hr : s.nextBuffRdy with
  | true =>
      have hns : (s.next i).currentState = .switchCurrentBuff := by
        simp [P2dWrFsm.next, P2dWrFsm.nextState, hs, hr]
      have := hrdy hr
      simp only [Tracks, Between, hns]
      exact ⟨⟨hb, hn'⟩, by simp [P2dWrFsm.next, hs, hn], by omega⟩
  | false =>
      have hns : (s.next i).currentState = .checkNextBuf := by
        simp [P2dWrFsm.next, P2dWrFsm.nextState, hs, hr]
      simp only [Tracks, Between, hns]
      exact ⟨⟨hb, hn'⟩, ready_next hn hfree⟩

theorem tracks_next : Tracks (s.next i) (l.next s i) f' := by
  unfold P2dWrFsm.Phase P2dWrFsm.Settled at hph
  unfold Tracks at h
  cases hs : s.currentState with
  | idle =>
      simp only [hs] at h hph
      obtain ⟨⟨hb, hn⟩, hcur, hk⟩ := h
      have hk' : l.stored.length < f' + nb.n := by omega
      rw [next_of_not_valid hph.1.2 (by simp [hs]) (by simp [hs])]
      cases hr : i.inPctRdy <;>
        simp [Tracks, Between, P2dWrFsm.next, P2dWrFsm.nextState, hs, hr, hb, hn, hcur, hk']
  | rdHdr =>
      simp only [hs] at h hph
      obtain ⟨⟨hb, hn⟩, hcur, hk⟩ := h
      have hk' : l.stored.length < f' + nb.n := by omega
      rw [next_of_not_valid hph.1.2 (by simp [hs]) (by simp [hs])]
      simp [Tracks, P2dWrFsm.next, P2dWrFsm.nextState, hs, hb, hn, hcur, hk', hph]
  | waitCmprPipe => exact tracks_next_waitCmprPipe hph h hf hs
  | checkSmplNr => exact tracks_next_checkSmplNr hph h hf hs
  | clrFifo =>
      simp only [hs] at h hph
      obtain ⟨hb, hn, hcur, hk⟩ := h
      have hk' : l.stored.length < f' + nb.n := by omega
      have hl : l.next s i = { l with inHand := none } := by
        simp [next, P2dWrFsm.hdrWord, P2dWrFsm.dataWord, hs, hph.1.2]
      rw [hl]
      simp [Tracks, Between, P2dWrFsm.next, P2dWrFsm.nextState, hs, hn, hcur, hk']
  | switchNextBuff =>
      simp only [hs] at h hph
      obtain ⟨hb, hn, hcur, hk⟩ := h
      obtain ⟨hbeg, hst⟩ := hb.next (i := i) (by omega) (by simp [hs]) (by simp [hs]) (by simp [hs])
      have hns : (s.next i).currentState = .rdPct := by simp [P2dWrFsm.next, P2dWrFsm.nextState, hs]
      simp only [Tracks, hns, hst]
      refine ⟨hbeg, by simp [P2dWrFsm.next, hs, hn, NBuff.succ_slot], by simp [P2dWrFsm.next, hs, hcur],
        by omega, ?_⟩
      -- `next_buff_rdy` is still that of the buffer before.
      intro h2
      simp [P2dWrFsm.next, hs, hph] at h2
  | rdPct => exact tracks_next_rdPct hph h hf hfree hs
  | waitWrEnd => exact tracks_next_waitWrEnd hph h hf hfree hs
  | checkNextBuf => exact tracks_next_checkNextBuf hph h hf hfree hs
  | switchCurrentBuff =>
      simp only [hs] at h hph
      obtain ⟨⟨hb, hn⟩, hcur, hk⟩ := h
      have hk' : l.stored.length < f' + nb.n := by omega
      rw [next_of_not_valid hph.1.2 (by simp [hs]) (by simp [hs])]
      simp [Tracks, Between, P2dWrFsm.next, P2dWrFsm.nextState, hs, hb, hn, hcur, hk']

end Next

/-! ## What a step adds and takes away -/

theorem dataWord_spec (hph : s.Phase) (h : Tracks s l f) (hd : s.dataWord = true) :
    s.currentBuffCnt = Ring.slot nb.n l.stored.length ∧ l.stored.length < f + nb.n ∧ ∃ p, l.inHand = some p := by
  simp only [P2dWrFsm.dataWord, Bool.and_eq_true, decide_eq_true_eq] at hd
  unfold P2dWrFsm.Phase P2dWrFsm.Settled at hph
  unfold Tracks at h
  cases hs : s.currentState with
  | rdPct =>
      simp only [hs] at h
      obtain ⟨⟨p, hp, -⟩, -, hcur, hk, -⟩ := h
      exact ⟨hcur, hk, p, hp⟩
  | waitWrEnd =>
      simp only [hs] at h
      obtain ⟨⟨p, hp, -⟩, -, hcur, hk, -⟩ := h
      exact ⟨hcur, hk, p, hp⟩
  | waitCmprPipe =>
      simp only [hs] at hph
      obtain ⟨-, -, -, hv, hc⟩ := hph
      rw [hd.1] at hv
      have h1 : s.pipeCnt = 1 := by simpa using hv.symm
      rw [h1] at hc
      simp at hc
      omega
  | _ => simp_all

theorem hdrWord_spec (hph : s.Phase) (h : Tracks s l f) (hd : s.hdrWord = true) :
    s.currentBuffCnt = Ring.slot nb.n l.stored.length ∧ l.stored.length < f + nb.n ∧ l.inHand = none := by
  simp only [P2dWrFsm.hdrWord, Bool.and_eq_true, beq_iff_eq] at hd
  unfold P2dWrFsm.Phase P2dWrFsm.Settled at hph
  unfold Tracks at h
  cases hs : s.currentState with
  | waitCmprPipe =>
      simp only [hs] at h hph
      obtain ⟨-, -, -, hv, hc⟩ := hph
      rw [hd.1] at hv
      have h1 : s.pipeCnt = 1 := by simpa using hv.symm
      rw [h1, if_pos (Nat.le_refl 1)] at h
      exact ⟨h.2.2.1, h.2.2.2, h.1⟩
  | rdPct =>
      simp only [hs] at hph
      omega
  | waitWrEnd =>
      simp only [hs] at hph
      omega
  | _ => simp_all

theorem begun_of_some {p : TxPct} (h : Tracks s l f) (hp : l.inHand = some p) : Begun s l := by
  unfold Tracks Between at h
  cases hs : s.currentState with
  | waitCmprPipe =>
      simp only [hs] at h
      obtain ⟨hb, -⟩ := h
      split at hb
      · rw [hb] at hp
        cases hp
      · exact hb
  | checkSmplNr | clrFifo | switchNextBuff | rdPct | waitWrEnd =>
      simp only [hs] at h
      exact h.1
  | idle | rdHdr | switchCurrentBuff | checkNextBuf =>
      simp [hs, hp] at h

theorem length_of_some {p : TxPct} (h : Tracks s l f) (hp : l.inHand = some p) :
    p.data.length + 1 = s.pctDataWrreqCnt := by
  obtain ⟨q, hq, hlen, -⟩ := begun_of_some h hp
  rw [hp] at hq
  rw [Option.some.inj hq, hlen]

/-- While the last word is on its way to the buffer it is on the write port. -/
theorem length_le {p : TxPct} (hph : s.Phase) (h : Tracks s l f) (hp : l.inHand = some p) :
    p.data.length ≤ 254 ∨ p.data.length = 255 ∧ s.pctDataWrreq (Ring.slot nb.n l.stored.length) = true := by
  have hlen := length_of_some h hp
  unfold P2dWrFsm.Phase at hph
  unfold Tracks Between at h
  cases hs : s.currentState with
  | waitWrEnd =>
      simp only [hs] at h hph
      rcases hph with ⟨-, -, hc⟩ | ⟨-, -, hc⟩ | ⟨-, hc, hw⟩
      · exact Or.inl (by omega)
      · exact Or.inl (by omega)
      · exact Or.inr ⟨by omega, by rwa [h.2.2.1] at hw⟩
  | rdPct =>
      simp only [hs] at hph
      exact Or.inl (by omega)
  | waitCmprPipe =>
      simp only [hs] at hph
      obtain ⟨-, -, -, -, hc⟩ := hph
      exact Or.inl (by split at hc <;> omega)
  | checkSmplNr | clrFifo | switchNextBuff =>
      simp only [hs] at hph
      exact Or.inl (by omega)
  | idle | rdHdr | switchCurrentBuff | checkNextBuf =>
      simp [hs, hp] at h

/-- What a clock edge does to the record. -/
inductive Step (s : P2dWrFsm nb) (w : BitVec 128) (l : WrLog) : WrLog → Prop
  | quiet (hh : s.hdrWord = false) (hd : s.dataWord = false) : Step s w l l
  | hdr (hh : s.hdrWord = true) (hd : s.dataWord = false) (hn : l.inHand = none) :
      Step s w l ⟨l.stored, some ⟨w, []⟩⟩
  | data (p : TxPct) (hh : s.hdrWord = false) (hd : s.dataWord = true) (hp : l.inHand = some p) :
      Step s w l ⟨l.stored, some (p.add w)⟩
  | discard (p : TxPct) (hh : s.hdrWord = false) (hd : s.dataWord = false) (hp : l.inHand = some p)
      (he : p.data = []) : Step s w l ⟨l.stored, none⟩
  | store (p : TxPct) (hh : s.hdrWord = false) (hd : s.dataWord = false) (hp : l.inHand = some p)
      (hw : p.data.length = 255) : Step s w l ⟨l.stored ++ [p], none⟩

theorem step_next (hph : s.Phase) (h : Tracks s l f) : Step s i.inPctData l (l.next s i) := by
  cases hh : s.hdrWord with
  | true =>
      have hd : s.dataWord = false := by
        simp only [P2dWrFsm.hdrWord, Bool.and_eq_true, beq_iff_eq] at hh
        simp [P2dWrFsm.dataWord, hh.2]
      rw [next_of_hdrWord hh]
      exact Step.hdr hh hd (hdrWord_spec hph h hh).2.2
  | false =>
      cases hd : s.dataWord with
      | true =>
          obtain ⟨-, -, p, hp⟩ := dataWord_spec hph h hd
          rw [next_of_dataWord hd, hp]
          exact Step.data p hh hd hp
      | false =>
          unfold P2dWrFsm.Phase P2dWrFsm.Settled at hph
          unfold Tracks at h
          by_cases hc : s.currentState = .clrFifo
          · simp only [hc] at h hph
            obtain ⟨⟨p, hp, hlen, -⟩, -⟩ := h
            have he : p.data = [] := List.length_eq_zero_iff.mp (by omega)
            simp only [next, hh, hd, hc]
            exact Step.discard p hh hd hp he
          · by_cases hw : s.currentState = .waitWrEnd
            · simp only [hw] at h hph
              obtain ⟨⟨p, hp, hlen, -⟩, -⟩ := h
              simp only [next, hh, hd, hw, hp]
              refine Step.store p hh hd hp ?_
              simp only [P2dWrFsm.dataWord, Bool.and_eq_false_iff, decide_eq_false_iff_not] at hd
              rcases hph with ⟨-, hv, -⟩ | ⟨-, hv, -⟩ | ⟨-, hcnt, -⟩
              · simp [hv] at hd; omega
              · simp [hv] at hd; omega
              · omega
            · simp only [next, hh, hd, if_neg hc, if_neg hw]
              exact Step.quiet hh hd

/-- The stored packets are whole. -/
def Whole (l : WrLog) : Prop := ∀ p ∈ l.stored, p.data.length = 255

theorem Step.whole {w : BitVec 128} {l' : WrLog} (h : Step s w l l') (hl : l.Whole) : l'.Whole := by
  cases h with
  | store p _ _ _ hw =>
      intro q hq
      rcases List.mem_append.mp hq with hq | hq
      · exact hl q hq
      · rw [List.mem_singleton.mp hq, hw]
  | _ => exact hl

theorem Step.of_dataWord {w : BitVec 128} {l' : WrLog} (h : Step s w l l') (hd : s.dataWord = true) :
    l'.stored = l.stored ∧ ∃ p, l'.inHand = some p := by
  cases h with
  | data p => exact ⟨rfl, _, rfl⟩
  | quiet _ hd' | hdr _ hd' | discard _ _ hd' | store _ _ hd' => simp [hd] at hd'

theorem Step.length_le {w : BitVec 128} {l' : WrLog} (h : Step s w l l') : l.stored.length ≤ l'.stored.length := by
  cases h with
  | store p => simp
  | _ => exact Nat.le_refl _

end WrLog

end LimeSdrQpcie
