import LimeSdrQpcie.Tx.Lemmas.Comparators

/-!
# Why a packet was sent or thrown away

Over a whole run of `packets2data`: every packet that was emitted was due in the cycle in which the reader began with
it, and every packet that was dropped or discarded was late in the cycle in which that was decided.
-/

namespace LimeSdrQpcie

open Hdl

namespace P2dRd

variable {nb : NBuff} {s : P2dRd nb} {i : P2dRdIn nb}

theorem nextState_switchNextBuff (h : s.nextState i = .switchNextBuff) :
    s.currentState = .rdBuff ∨ s.currentState = .clrBuff := by
  cases hs : s.currentState with
  | rdBuff => exact Or.inl rfl
  | clrBuff => exact Or.inr rfl
  | _ =>
      simp only [nextState, hs] at h
      repeat' split at h
      all_goals cases h

theorem nextState_rdHold (h : s.nextState i = .rdHold) :
    s.currentState = .rdBuff ∨ s.currentState = .rdHold := by
  cases hs : s.currentState with
  | rdBuff => exact Or.inl rfl
  | rdHold => exact Or.inr rfl
  | _ =>
      simp only [nextState, hs] at h
      repeat' split at h
      all_goals cases h

end P2dRd

namespace Packets2Data

variable {nb : NBuff}

/-- In cycle `m` the reader, at packet `k`, leaves `idle` for `st`. -/
structure Decides (x : Nat → Packets2DataIn nb) (k m : Nat) (st : P2dRdState) : Prop where
  packet : (log x m).fates.length = k
  stored : k < (log x m).wr.stored.length
  idle : ((circuit nb 0x400).run x m).inst3.currentState = .idle
  next : ((circuit nb 0x400).run x (m + 1)).inst3.currentState = st

/-- In cycle `n` a packet is late by the sample number of cycle `m`. -/
def Passed (x : Nat → Packets2DataIn nb) (n m : Nat) (p : TxPct) : Prop :=
  p.syncDis = false ∧ (x n).pctSyncDis = false ∧ p.hdr1 < (x m).sampleNr

/-- The reader began with packet `k` before cycle `n`. Then the packet was not synchronised, or synchronisation was off,
or the sample number four cycles before was its own. -/
def Due (x : Nat → Packets2DataIn nb) (n k : Nat) (p : TxPct) : Prop :=
  ∃ m, m + 4 < n ∧ Decides x k (m + 4) .rdBuff ∧
    ((x (m + 4)).pctSyncDis = true ∨ p.syncDis = true ∨ p.hdr1 = (x m).sampleNr)

/-- The reader gave packet `k` up before cycle `n`, by the sample number four cycles before. -/
def Late (x : Nat → Packets2DataIn nb) (n k : Nat) (p : TxPct) : Prop :=
  ∃ m, m + 4 < n ∧ Decides x k (m + 4) .clrBuff ∧ Passed x (m + 4) m p

/-- What a fate says about its packet. -/
def Earned (x : Nat → Packets2DataIn nb) (n k : Nat) (p : TxPct) : Fate → Prop
  | .emitted => Due x n k p
  | .dropped => Late x n k p

variable {x : Nat → Packets2DataIn nb} {k m n : Nat} {p : TxPct}

theorem Due.mono (h : Due x m k p) (hmn : m ≤ n) : Due x n k p := by
  obtain ⟨j, hj, h⟩ := h
  exact ⟨j, Nat.lt_of_lt_of_le hj hmn, h⟩

theorem Late.mono (h : Late x m k p) (hmn : m ≤ n) : Late x n k p := by
  obtain ⟨j, hj, h⟩ := h
  exact ⟨j, Nat.lt_of_lt_of_le hj hmn, h⟩

theorem Earned.mono {f : Fate} (h : Earned x m k p f) (hmn : m ≤ n) : Earned x n k p f := by
  cases f with
  | emitted => exact Due.mono h hmn
  | dropped => exact Late.mono h hmn

/-! ## The reader -/

/-- What the reader's state says about the packet `k` it is at. -/
def Reading (x : Nat → Packets2DataIn nb) (n k : Nat) (p : TxPct) : P2dRdState → Prop
  | .rdBuff | .rdHold => Due x n k p
  | .clrBuff => Late x n k p
  | .idle | .switchNextBuff | .checkNextBuf => True

theorem due_of_rdBuff (x : Nat → Packets2DataIn nb) (n : Nat)
    (hs : ((circuit nb 0x400).run x n).inst3.currentState = .idle)
    (hc : ((circuit nb 0x400).run x (n + 1)).inst3.currentState = .rdBuff) :
    ∃ p, (log x n).wr.stored[(log x n).fates.length]? = some p ∧ Due x (n + 1) (log x n).fates.length p := by
  obtain ⟨hr, hcause⟩ := P2dRd.nextState_rdBuff hs hc
  obtain ⟨p, m, rfl, hp, hd, he, -⟩ := rd_answers x n hs hr
  refine ⟨p, hp, m, Nat.lt_succ_self _, ⟨rfl, (List.getElem?_eq_some_iff.mp hp).1, hs, hc⟩, ?_⟩
  rcases hcause with hcause | hcause | hcause
  · exact Or.inl hcause
  · exact Or.inr (Or.inl (hd.symm.trans hcause))
  · exact Or.inr (Or.inr (beq_iff_eq.mp (he.symm.trans hcause)))

theorem late_of_clrBuff (x : Nat → Packets2DataIn nb) (n : Nat)
    (hc : ((circuit nb 0x400).run x (n + 1)).inst3.currentState = .clrBuff) :
    ∃ p, (log x n).wr.stored[(log x n).fates.length]? = some p ∧ Late x (n + 1) (log x n).fates.length p := by
  obtain ⟨hs, hr, hsync, hdis, hless⟩ := P2dRd.nextState_clrBuff hc
  obtain ⟨p, m, rfl, hp, hd, -, hl⟩ := rd_answers x n hs hr
  exact ⟨p, hp, m, Nat.lt_succ_self _, ⟨rfl, (List.getElem?_eq_some_iff.mp hp).1, hs, hc⟩, hd.symm.trans hdis, hsync,
    BitVec.ult_iff_lt.mp (hl.symm.trans hless)⟩

/-- The reader is at a stored packet while it reads or clears a buffer. -/
theorem stored_of_reading (x : Nat → Packets2DataIn nb) (n : Nat)
    (hs : ((circuit nb 0x400).run x n).inst3.currentState = .rdBuff ∨
      ((circuit nb 0x400).run x n).inst3.currentState = .rdHold ∨
      ((circuit nb 0x400).run x n).inst3.currentState = .clrBuff) :
    ∃ p, (log x n).wr.stored[(log x n).fates.length]? = some p := by
  have hrd := (pctRing_run x n).rd
  have hlt : (log x n).fates.length < (log x n).wr.stored.length := by
    unfold P2dRd.Tracks at hrd
    rcases hs with hs | hs | hs <;> simp only [hs] at hrd
    · exact hrd.2.1
    · exact hrd.2.1
    · exact hrd.2
  exact ⟨_, List.getElem?_eq_getElem hlt⟩

/-- A stored packet stays at its place. -/
theorem stored_succ {k : Nat} (hp : (log x n).wr.stored[k]? = some p) :
    (log x (n + 1)).wr.stored[k]? = some p := by
  obtain ⟨ps, hps⟩ := (step_run x n).stored_append
  rw [hps, List.getElem?_append_left (List.getElem?_eq_some_iff.mp hp).1, hp]

theorem fates_succ (x : Nat → Packets2DataIn nb) (n : Nat) : (log x (n + 1)).fates =
    if ((circuit nb 0x400).run x (n + 1)).inst3.currentState = .switchNextBuff then
      (log x n).fates ++
        [if ((circuit nb 0x400).run x n).inst3.currentState = .clrBuff then .dropped else .emitted]
    else (log x n).fates := rfl

/-- The fates so far, and the packet that the reader is at. -/
structure FatesEarned (x : Nat → Packets2DataIn nb) (n : Nat) : Prop where
  done : ∀ (k : Nat) p f, (log x n).wr.stored[k]? = some p → (log x n).fates[k]? = some f → Earned x n k p f
  reading : ∀ p, (log x n).wr.stored[(log x n).fates.length]? = some p →
    Reading x n (log x n).fates.length p ((circuit nb 0x400).run x n).inst3.currentState

theorem FatesEarned.done_succ (h : FatesEarned x n) (k : Nat) (p : TxPct) (f : Fate)
    (hp : (log x (n + 1)).wr.stored[k]? = some p) (hf : (log x (n + 1)).fates[k]? = some f) :
    Earned x (n + 1) k p f := by
  have hle := (pctRing_run x n).done
  have hold : ∀ q, (log x n).wr.stored[k]? = some q → q = p := fun q hq =>
    Option.some.inj ((stored_succ hq).symm.trans hp)
  have hbefore : (log x n).fates[k]? = some f → Earned x (n + 1) k p f := by
    intro hf
    have hk := (List.getElem?_eq_some_iff.mp hf).1
    have hq := List.getElem?_eq_getElem (show k < (log x n).wr.stored.length by omega)
    rw [← hold _ hq]
    exact (h.done k _ f hq hf).mono (Nat.le_succ n)
  rw [fates_succ] at hf
  split at hf
  next hsw =>
    rcases Nat.lt_or_ge k (log x n).fates.length with hk | hk
    · rw [List.getElem?_append_left hk] at hf
      exact hbefore hf
    · -- The new fate is that of the packet the reader was at.
      have hkeq : k = (log x n).fates.length := by
        have := (List.getElem?_eq_some_iff.mp hf).1
        rw [List.length_append, List.length_singleton] at this
        omega
      subst hkeq
      rw [List.getElem?_concat_length] at hf
      obtain ⟨q, hq⟩ := stored_of_reading x n (by
        rcases P2dRd.nextState_switchNextBuff hsw with hs | hs
        · exact Or.inl hs
        · exact Or.inr (Or.inr hs))
      have hread := h.reading q hq
      rw [← hold q hq, ← Option.some.inj hf]
      rcases P2dRd.nextState_switchNextBuff hsw with hs | hs
      · rw [hs] at hread
        rw [hs, if_neg (by decide)]
        exact Due.mono hread (Nat.le_succ n)
      · rw [hs] at hread
        rw [hs, if_pos rfl]
        exact Late.mono hread (Nat.le_succ n)
  next => exact hbefore hf

theorem FatesEarned.reading_succ (h : FatesEarned x n) (p : TxPct)
    (hp : (log x (n + 1)).wr.stored[(log x (n + 1)).fates.length]? = some p) :
    Reading x (n + 1) (log x (n + 1)).fates.length p ((circuit nb 0x400).run x (n + 1)).inst3.currentState := by
  have hsame : ((circuit nb 0x400).run x (n + 1)).inst3.currentState ≠ .switchNextBuff →
      ∀ q, (log x n).wr.stored[(log x n).fates.length]? = some q → q = p := by
    intro hsw q hq
    rw [fates_succ, if_neg hsw, stored_succ hq] at hp
    exact Option.some.inj hp
  have hlen : ((circuit nb 0x400).run x (n + 1)).inst3.currentState ≠ .switchNextBuff →
      (log x (n + 1)).fates.length = (log x n).fates.length := fun hsw => by rw [fates_succ, if_neg hsw]
  cases hc : ((circuit nb 0x400).run x (n + 1)).inst3.currentState with
  | idle | switchNextBuff | checkNextBuf => trivial
  | clrBuff =>
      obtain ⟨q, hq, hlate⟩ := late_of_clrBuff x n hc
      rw [← hsame (by rw [hc]; decide) q hq, hlen (by rw [hc]; decide)]
      exact hlate
  | rdHold =>
      have hs := P2dRd.nextState_rdHold hc
      obtain ⟨q, hq⟩ := stored_of_reading x n (by
        rcases hs with hs | hs
        · exact Or.inl hs
        · exact Or.inr (Or.inl hs))
      rw [← hsame (by rw [hc]; decide) q hq, hlen (by rw [hc]; decide)]
      have hread := h.reading q hq
      rcases hs with hs | hs <;> rw [hs] at hread <;> exact Due.mono hread (Nat.le_succ n)
  | rdBuff =>
      have hne : ((circuit nb 0x400).run x (n + 1)).inst3.currentState ≠ .switchNextBuff := by rw [hc]; decide
      cases hs : ((circuit nb 0x400).run x n).inst3.currentState with
      | idle =>
          obtain ⟨q, hq, hdue⟩ := due_of_rdBuff x n hs hc
          rw [← hsame hne q hq, hlen hne]
          exact hdue
      | rdBuff =>
          obtain ⟨q, hq⟩ := stored_of_reading x n (Or.inl hs)
          have hread := h.reading q hq
          rw [hs] at hread
          rw [← hsame hne q hq, hlen hne]
          exact Due.mono hread (Nat.le_succ n)
      | rdHold =>
          obtain ⟨q, hq⟩ := stored_of_reading x n (Or.inr (Or.inl hs))
          have hread := h.reading q hq
          rw [hs] at hread
          rw [← hsame hne q hq, hlen hne]
          exact Due.mono hread (Nat.le_succ n)
      | clrBuff | switchNextBuff | checkNextBuf =>
          have hst : ((circuit nb 0x400).run x n).inst3.nextState
              (((circuit nb 0x400).run x n).inst3In (x n)) = .rdBuff := hc
          simp only [P2dRd.nextState, hs] at hst
          cases hst

theorem fatesEarned_run (x : Nat → Packets2DataIn nb) : ∀ n, FatesEarned x n
  | 0 => ⟨fun k p f hp => by simp [log, TxLog.run, TxLog.empty, WrLog.empty] at hp,
      fun p hp => by simp [log, TxLog.run, TxLog.empty, WrLog.empty] at hp⟩
  | n + 1 => ⟨(fatesEarned_run x n).done_succ, (fatesEarned_run x n).reading_succ⟩

/-! ## The writer -/

/-- The packet that the writer discards was late in the cycle before, by the sample number three cycles before that. -/
theorem passed_of_clrFifo (x : Nat → Packets2DataIn nb) (n : Nat)
    (hc : ((circuit nb 0x400).run x n).inst0.currentState = .clrFifo) :
    ∃ p m, n = m + 4 ∧ (log x n).wr.inHand = some p ∧
      ((circuit nb 0x400).run x (m + 3)).inst0.currentState = .checkSmplNr ∧ Passed x (m + 3) m p := by
  cases n with
  | zero => cases hc
  | succ n =>
      obtain ⟨hs, halb, hdis, hsync⟩ := P2dWrFsm.nextState_clrFifo hc
      obtain ⟨p, m, hp, rfl, hd, ha⟩ := wr_answer x n hs
      have hph := (pctRing_run x (m + 3)).phase
      simp only [P2dWrFsm.Phase, hs] at hph
      have hwr : (log x (m + 3 + 1)).wr = (log x (m + 3)).wr :=
        WrLog.next_of_not_valid hph.1.2 (by rw [hs]; decide) (by rw [hs]; decide)
      exact ⟨p, m, rfl, by rw [hwr, hp], hs, hd.symm.trans hdis, hsync, BitVec.ult_iff_lt.mp (ha.symm.trans halb)⟩

end Packets2Data

end LimeSdrQpcie
