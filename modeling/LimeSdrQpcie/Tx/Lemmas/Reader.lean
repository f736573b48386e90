import LimeSdrQpcie.Tx.Lemmas.Writer

/-!
# The reader and its decisions

The reader's buffer pointer counts the packets it is done with, and it touches a buffer only after it has
seen a whole packet in it.
-/

namespace LimeSdrQpcie

open Hdl

namespace P2dRd

variable {nb : NBuff} {s : P2dRd nb} {i : P2dRdIn nb} {u u' : Fin nb.n → Nat} {f k k' : Nat}

/-- How many words the reader has taken from the packet it is at. -/
def rdWords (s : P2dRd nb) : Nat :=
  match s.currentState with
  | .rdBuff | .rdHold => s.rdCnt
  | _ => 0

/-- The reader only waits for a packet. -/
def Waits (s : P2dRd nb) : Prop := s.currentState = .idle ∨ s.currentState = .checkNextBuf

/-- The reader's registers, when it is done with `f` packets of the `k` stored ones and the buffers hold `u`
words. -/
def Tracks (s : P2dRd nb) (u : Fin nb.n → Nat) (f k : Nat) : Prop :=
  match s.currentState with
  | .idle => s.crntBuffCnt = Ring.slot nb.n f ∧ (s.crntBuffRdy = true → u (Ring.slot nb.n f) = 510)
  | .checkNextBuf => s.crntBuffCnt = Ring.slot nb.n f
  | .rdBuff | .rdHold => s.crntBuffCnt = Ring.slot nb.n f ∧ f < k ∧ s.rdCnt < 510
  | .clrBuff => s.crntBuffCnt = Ring.slot nb.n f ∧ f < k
  | .switchNextBuff => NBuff.succ s.crntBuffCnt = Ring.slot nb.n f

/-- A buffer that is said to be ready holds a whole packet, unless it is the one the reader is at. -/
def RdySound (s : P2dRd nb) (rdy : Fin nb.n → Bool) (u : Fin nb.n → Nat) : Prop :=
  ∀ b, rdy b = true → u b = 510 ∨ (b = s.crntBuffCnt ∧ ¬ s.Waits)

/-- How many packets the reader is done with after a clock edge. -/
def doneNext (s : P2dRd nb) (i : P2dRdIn nb) (f : Nat) : Nat :=
  if s.nextState i = .switchNextBuff then f + 1 else f

theorem fatesNext_length (s : P2dRd nb) (i : P2dRdIn nb) (fates : List Fate) :
    (fatesNext s i fates).length = s.doneNext i fates.length := by
  unfold fatesNext doneNext
  split
  · rw [List.length_append, List.length_singleton]
  · rfl

theorem rdReqInt_eq_true {af : Bool} :
    s.rdReqInt af = true ↔ s.currentState = .rdBuff ∧ af = false := by
  simp [rdReqInt]

theorem tracks_next (h : Tracks s u f k) (hrdy : RdySound s i.pctBuffRdy u)
    (hfull : u (Ring.slot nb.n f) = 510 → f < k) (hk : k ≤ k')
    (hkeep : s.Waits → u (Ring.slot nb.n f) = 510 → u' (Ring.slot nb.n f) = 510) :
    Tracks (s.next i) u' (s.doneNext i f) k' := by
  unfold Tracks at h
  cases hs : s.currentState with
  | idle =>
      simp only [hs] at h
      obtain ⟨hc, hr⟩ := h
      have hc' : (s.next i).crntBuffCnt = Ring.slot nb.n f := by simp [next, hs, hc]
      have hrdy' : (s.next i).crntBuffRdy = true → u' (Ring.slot nb.n f) = 510 := by
        intro h1
        refine hkeep (Or.inl hs) ?_
        rcases hrdy _ h1 with h2 | h2
        · rwa [← hc]
        · exact absurd (Or.inl hs) h2.2
      have hns : (s.next i).currentState = s.nextState i := rfl
      cases hb : s.crntBuffRdy with
      | false =>
          have hst : s.nextState i = .idle := by simp [nextState, hs, hb]
          simp only [Tracks, doneNext, hns, hst]
          exact ⟨hc', hrdy'⟩
      | true =>
          have hfk := hfull (hr hb)
          have hcnt : (s.next i).rdCnt = 0 := by simp [next, hs]
          have hst : s.nextState i = .rdBuff ∨ s.nextState i = .clrBuff ∨ s.nextState i = .idle := by
            simp only [nextState, hs, hb, if_true]
            split
            · exact Or.inl rfl
            · split
              · exact Or.inl rfl
              · split
                · exact Or.inr (Or.inl rfl)
                · exact Or.inr (Or.inr rfl)
          rcases hst with hst | hst | hst
          · simp only [Tracks, doneNext, hns, hst]
            exact ⟨hc', by simp; omega, by omega⟩
          · simp only [Tracks, doneNext, hns, hst]
            exact ⟨hc', by simp; omega⟩
          · simp only [Tracks, doneNext, hns, hst]
            exact ⟨hc', hrdy'⟩
  | clrBuff =>
      simp only [hs] at h
      have hst : s.nextState i = .switchNextBuff := by simp [nextState, hs]
      have hns : (s.next i).currentState = .switchNextBuff := hst
      simp only [Tracks, doneNext, hns, hst]
      simp [next, hs, h.1, NBuff.succ_slot]
  | rdBuff =>
      simp only [hs] at h
      obtain ⟨hc, hfk, hcnt⟩ := h
      have hc' : (s.next i).crntBuffCnt = Ring.slot nb.n f := by simp [next, hs, hc]
      cases ha : i.smplBuffAlmostFull with
      | true =>
          have hst : s.nextState i = .rdHold := by simp [nextState, hs, ha]
          have hns : (s.next i).currentState = .rdHold := hst
          simp only [Tracks, doneNext, hns, hst]
          exact ⟨hc', by simp; omega, by simpa [next, hs, rdReqInt, ha] using hcnt⟩
      | false =>
          by_cases hlt : s.rdCnt < 509
          · have hst : s.nextState i = .rdBuff := by simp [nextState, hs, ha, hlt]
            have hns : (s.next i).currentState = .rdBuff := hst
            simp only [Tracks, doneNext, hns, hst]
            exact ⟨hc', by simp; omega, by simp [next, hs, rdReqInt, ha]; omega⟩
          · have hst : s.nextState i = .switchNextBuff := by simp [nextState, hs, ha, hlt]
            have hns : (s.next i).currentState = .switchNextBuff := hst
            simp only [Tracks, doneNext, hns, hst]
            simp [hc', NBuff.succ_slot]
  | rdHold =>
      simp only [hs] at h
      obtain ⟨hc, hfk, hcnt⟩ := h
      have hc' : (s.next i).crntBuffCnt = Ring.slot nb.n f := by simp [next, hs, hc]
      have hcnt' : (s.next i).rdCnt < 510 := by simpa [next, hs, rdReqInt] using hcnt
      cases ha : i.smplBuffAlmostFull with
      | true =>
          have hst : s.nextState i = .rdHold := by simp [nextState, hs, ha]
          have hns : (s.next i).currentState = .rdHold := hst
          simp only [Tracks, doneNext, hns, hst]
          exact ⟨hc', by simp; omega, hcnt'⟩
      | false =>
          have hst : s.nextState i = .rdBuff := by simp [nextState, hs, ha]
          have hns : (s.next i).currentState = .rdBuff := hst
          simp only [Tracks, doneNext, hns, hst]
          exact ⟨hc', by simp; omega, hcnt'⟩
  | switchNextBuff =>
      simp only [hs] at h
      have hst : s.nextState i = .checkNextBuf := by simp [nextState, hs]
      have hns : (s.next i).currentState = .checkNextBuf := hst
      simp only [Tracks, doneNext, hns, hst]
      simp [next, hs, h]
  | checkNextBuf =>
      simp only [hs] at h
      have hst : s.nextState i = .idle := by simp [nextState, hs]
      have hns : (s.next i).currentState = .idle := hst
      simp only [Tracks, doneNext, hns, hst]
      refine ⟨by simp [next, hs, h], fun h1 => hkeep (Or.inr hs) ?_⟩
      rcases hrdy _ h1 with h2 | h2
      · rwa [← h]
      · exact absurd (Or.inr hs) h2.2

theorem Tracks.mono (h : Tracks s u f k) (hk : k ≤ k') : Tracks s u f k' := by
  unfold Tracks at h ⊢
  cases hs : s.currentState with
  | rdBuff | rdHold | clrBuff =>
      simp only [hs] at h ⊢
      omega
  | _ => simpa only [hs] using h

theorem rdWords_eq_zero (h : Tracks s u f k) (hk : k ≤ f) : s.rdWords = 0 := by
  unfold Tracks at h
  cases hs : s.currentState with
  | rdBuff | rdHold =>
      simp only [hs] at h
      omega
  | _ => simp [rdWords, hs]

theorem rdWords_lt (h : Tracks s u f k) : s.rdWords < 510 := by
  unfold Tracks at h
  cases hs : s.currentState with
  | rdBuff | rdHold =>
      simp only [hs] at h
      simp [rdWords, hs, h]
  | _ => simp [rdWords, hs]

/-- What a clock edge does to the packet the reader is at. -/
inductive Step (s : P2dRd nb) (i : P2dRdIn nb) : Prop
  | quiet (hr : s.rdReqInt i.smplBuffAlmostFull = false) (hc : s.currentState ≠ .clrBuff)
      (hn : s.nextState i ≠ .switchNextBuff) (hw : (s.next i).rdWords = s.rdWords) : Step s i
  | read (hr : s.rdReqInt i.smplBuffAlmostFull = true) (hs : s.currentState = .rdBuff)
      (hn : s.nextState i ≠ .switchNextBuff) (hw : (s.next i).rdWords = s.rdWords + 1) : Step s i
  | last (hr : s.rdReqInt i.smplBuffAlmostFull = true) (hs : s.currentState = .rdBuff)
      (hn : s.nextState i = .switchNextBuff) (hcnt : s.rdWords = 509) (hw : (s.next i).rdWords = 0) : Step s i
  | clear (hs : s.currentState = .clrBuff) (hn : s.nextState i = .switchNextBuff) (h0 : s.rdWords = 0)
      (hw : (s.next i).rdWords = 0) : Step s i

theorem step_next (h : Tracks s u f k) : Step s i := by
  have hlt := rdWords_lt h
  have hns : (s.next i).currentState = s.nextState i := rfl
  cases hs : s.currentState with
  | idle =>
      have hcnt : (s.next i).rdCnt = 0 := by simp [next, hs]
      refine Step.quiet (by simp [rdReqInt, hs]) (by simp [hs]) ?_ ?_
      · simp only [nextState, hs]
        repeat' split
        all_goals simp
      · simp only [rdWords, hcnt, hs]
        split <;> rfl
  | switchNextBuff =>
      have hst : s.nextState i = .checkNextBuf := by simp [nextState, hs]
      exact Step.quiet (by simp [rdReqInt, hs]) (by simp [hs]) (by simp [hst]) (by simp [rdWords, hns, hst, hs])
  | checkNextBuf =>
      have hst : s.nextState i = .idle := by simp [nextState, hs]
      exact Step.quiet (by simp [rdReqInt, hs]) (by simp [hs]) (by simp [hst]) (by simp [rdWords, hns, hst, hs])
  | rdHold =>
      have hcnt : (s.next i).rdCnt = s.rdCnt := by simp [next, rdReqInt, hs]
      cases ha : i.smplBuffAlmostFull with
      | true =>
          have hst : s.nextState i = .rdHold := by simp [nextState, hs, ha]
          exact Step.quiet (by simp [rdReqInt, hs]) (by simp [hs]) (by simp [hst])
            (by simp [rdWords, hns, hst, hs, hcnt])
      | false =>
          have hst : s.nextState i = .rdBuff := by simp [nextState, hs, ha]
          exact Step.quiet (by simp [rdReqInt, hs]) (by simp [hs]) (by simp [hst])
            (by simp [rdWords, hns, hst, hs, hcnt])
  | clrBuff =>
      have hst : s.nextState i = .switchNextBuff := by simp [nextState, hs]
      exact Step.clear hs hst (by simp [rdWords, hs]) (by simp [rdWords, hns, hst])
  | rdBuff =>
      have hw : s.rdWords = s.rdCnt := by simp [rdWords, hs]
      cases ha : i.smplBuffAlmostFull with
      | true =>
          have hcnt : (s.next i).rdCnt = s.rdCnt := by simp [next, rdReqInt, hs, ha]
          have hst : s.nextState i = .rdHold := by simp [nextState, hs, ha]
          exact Step.quiet (by simp [rdReqInt, ha]) (by simp [hs]) (by simp [hst])
            (by simp [rdWords, hns, hst, hs, hcnt])
      | false =>
          have hr : s.rdReqInt i.smplBuffAlmostFull = true := by simp [rdReqInt, hs, ha]
          by_cases h509 : s.rdCnt < 509
          · have hcnt : (s.next i).rdCnt = s.rdCnt + 1 := by simp [next, hs, hr]; omega
            have hst : s.nextState i = .rdBuff := by simp [nextState, hs, ha, h509]
            exact Step.read hr hs (by simp [hst]) (by simp [rdWords, hns, hst, hs, hcnt])
          · have hst : s.nextState i = .switchNextBuff := by simp [nextState, hs, ha, h509]
            exact Step.last hr hs hst (by omega) (by simp [rdWords, hns, hst])

theorem doneNext_le (h : Tracks s u f k) (hk : f ≤ k) : s.doneNext i f ≤ k := by
  have hstep : Step s i := step_next h
  unfold Tracks at h
  unfold doneNext
  cases hstep with
  | quiet _ _ hn => rw [if_neg hn]; exact hk
  | read _ _ hn => rw [if_neg hn]; exact hk
  | last _ hs hn =>
      simp only [hs] at h
      rw [if_pos hn]
      omega
  | clear hs hn =>
      simp only [hs] at h
      rw [if_pos hn]
      omega

theorem le_doneNext : f ≤ s.doneNext i f := by
  unfold doneNext
  split <;> omega

end P2dRd

end LimeSdrQpcie
