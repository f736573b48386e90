import LimeSdrQpcie.DynPs.SmplCmp
import Mathlib.Data.Nat.Find

/-!
# The course of a comparison

A start is followed by five cycles of waiting, in which samples from before the start leave the error registers,
and then by the comparison proper. An error flag shows the sample of three cycles ago.
-/

namespace LimeSdrQpcie

open Hdl

variable {smplWidth : Nat}

/-! ## Samples -/

/-- The sample is one of channel A. -/
def SmplCmpIn.chA (i : SmplCmpIn smplWidth) : Bool := SmplCmp.iqSel i.diqH == i.fidm

/-- Both halves carry the same frame bit, and the sample is the expected one of its channel. -/
structure SmplCmpIn.Matches (c : SmplCmpCfg smplWidth) (i : SmplCmpIn smplWidth) : Prop where
  iqSel_eq : SmplCmp.iqSel i.diqH = SmplCmp.iqSel i.diqL
  chA_eq : i.chA = true → SmplCmp.smpl i.diqL = c.cmpAI ∧ SmplCmp.smpl i.diqH = c.cmpAQ
  chB_eq : i.chA = false → SmplCmp.smpl i.diqL = c.cmpBI ∧ SmplCmp.smpl i.diqH = c.cmpBQ

namespace SmplCmp

variable (c : SmplCmpCfg smplWidth) (x : Nat → SmplCmpIn smplWidth)

/-- The comparator in cycle `n`. -/
def cmpAt (n : Nat) : SmplCmp smplWidth := (circuit c).run x n

/-- The start rises in cycle `n`. -/
def StartEdge (n : Nat) : Prop := (x n).cmpStart = true ∧ ∀ m, m + 1 = n → (x m).cmpStart = false

/-- A start is held until done is reported. -/
def StartHeld : Prop :=
  ∀ n, (x n).cmpStart = true → (x (n + 1)).cmpStart = false → (cmpAt c x (n + 1)).cmpDoneReg = true

variable {c x}

theorem cmpAt_succ (n : Nat) : cmpAt c x (n + 1) = (cmpAt c x n).next c (x n) := rfl

/-! ## Errors -/

theorem isChA_succ (n : Nat) (h : iqSel (x n).diqH = iqSel (x n).diqL) : (cmpAt c x (n + 1)).isChA = (x n).chA := by
  have hs : (cmpAt c x (n + 1)).isChA = ((x n).chA && iqSel (x n).diqL == (x n).fidm) := rfl
  rw [hs, ← h, SmplCmpIn.chA, Bool.and_self]

theorem isChB_succ (n : Nat) (h : iqSel (x n).diqH = iqSel (x n).diqL) : (cmpAt c x (n + 1)).isChB = !(x n).chA := by
  have hs : (cmpAt c x (n + 1)).isChB = (!(x n).chA && iqSel (x n).diqL != (x n).fidm) := rfl
  rw [hs, ← h, SmplCmpIn.chA, bne, Bool.and_self]

theorem smplErr_succ (n : Nat) : (cmpAt c x (n + 1)).smplErr = ((cmpAt c x n).aiErr || (cmpAt c x n).aqErr ||
    (cmpAt c x n).biErr || (cmpAt c x n).bqErr || (cmpAt c x n).iqSelErr) := rfl

/-- Without an error the sample of three cycles ago matched. -/
theorem matches_of_smplErr {n : Nat} (h : (cmpAt c x (n + 3)).smplErr = false) : (x n).Matches c := by
  rw [smplErr_succ] at h
  simp only [Bool.or_eq_false_iff] at h
  obtain ⟨⟨⟨⟨hai, haq⟩, hbi⟩, hbq⟩, hsel⟩ := h
  have hiq : iqSel (x n).diqH = iqSel (x n).diqL := bne_eq_false_iff_eq.mp hsel
  have hA := isChA_succ (c := c) n hiq
  have hB := isChB_succ (c := c) n hiq
  rw [cmpAt_succ, next] at hai haq hbi hbq
  refine ⟨hiq, fun h => ?_, fun h => ?_⟩
  · rw [h] at hA
    simp only [hA, if_true] at hai haq
    exact ⟨bne_eq_false_iff_eq.mp hai, bne_eq_false_iff_eq.mp haq⟩
  · rw [h] at hB
    simp only [hB, Bool.not_false, if_true] at hbi hbq
    exact ⟨bne_eq_false_iff_eq.mp hbi, bne_eq_false_iff_eq.mp hbq⟩

/-- A sample of channel A that matches clears the flags of its channel and keeps those of the other. -/
theorem errs_of_chA {n : Nat} (h : (x n).Matches c) (hch : (x n).chA = true) :
    (cmpAt c x (n + 2)).aiErr = false ∧ (cmpAt c x (n + 2)).aqErr = false ∧
      (cmpAt c x (n + 2)).biErr = (cmpAt c x (n + 1)).biErr ∧
      (cmpAt c x (n + 2)).bqErr = (cmpAt c x (n + 1)).bqErr := by
  have hA : (cmpAt c x (n + 1)).isChA = true := (isChA_succ n h.iqSel_eq).trans hch
  have hB : (cmpAt c x (n + 1)).isChB = false := (isChB_succ n h.iqSel_eq).trans (by rw [hch]; rfl)
  obtain ⟨hi, hq⟩ := h.chA_eq hch
  rw [cmpAt_succ (n + 1), next]
  simp only [hA, hB, if_true, Bool.false_eq_true, if_false, and_self, and_true]
  exact ⟨bne_eq_false_iff_eq.mpr hi, bne_eq_false_iff_eq.mpr hq⟩

theorem errs_of_chB {n : Nat} (h : (x n).Matches c) (hch : (x n).chA = false) :
    (cmpAt c x (n + 2)).biErr = false ∧ (cmpAt c x (n + 2)).bqErr = false ∧
      (cmpAt c x (n + 2)).aiErr = (cmpAt c x (n + 1)).aiErr ∧
      (cmpAt c x (n + 2)).aqErr = (cmpAt c x (n + 1)).aqErr := by
  have hA : (cmpAt c x (n + 1)).isChA = false := (isChA_succ n h.iqSel_eq).trans hch
  have hB : (cmpAt c x (n + 1)).isChB = true := (isChB_succ n h.iqSel_eq).trans (by rw [hch]; rfl)
  obtain ⟨hi, hq⟩ := h.chB_eq hch
  rw [cmpAt_succ (n + 1), next]
  simp only [hA, hB, if_true, Bool.false_eq_true, if_false, and_self, and_true]
  exact ⟨bne_eq_false_iff_eq.mpr hi, bne_eq_false_iff_eq.mpr hq⟩

/-- Two samples of different channels that match leave no error flag up. -/
theorem smplErr_of_matches {n : Nat} (h0 : (x n).Matches c) (h1 : (x (n + 1)).Matches c)
    (hch : (x (n + 1)).chA ≠ (x n).chA) : (cmpAt c x (n + 4)).smplErr = false := by
  have hsel : (cmpAt c x (n + 3)).iqSelErr = false := bne_eq_false_iff_eq.mpr h1.iqSel_eq
  rw [smplErr_succ, hsel]
  cases hc0 : (x n).chA with
  | true =>
      have hc1 : (x (n + 1)).chA = false := by simpa [hc0] using hch
      obtain ⟨hai, haq, _⟩ := errs_of_chA h0 hc0
      obtain ⟨hbi, hbq, hai', haq'⟩ := errs_of_chB h1 hc1
      rw [hbi, hbq, hai', haq', hai, haq]
      rfl
  | false =>
      have hc1 : (x (n + 1)).chA = true := by simpa [hc0] using hch
      obtain ⟨hbi, hbq, _⟩ := errs_of_chB h0 hc0
      obtain ⟨hai, haq, hbi', hbq'⟩ := errs_of_chA h1 hc1
      rw [hai, haq, hbi', hbq', hbi, hbq]
      rfl

/-! ## Between two comparisons -/

/-- Without a start the comparator rests; with one it has either reported done or is at work. -/
structure Paused (st : SmplCmp smplWidth) : Prop where
  rests : st.cmpStartReg = false → st.currentState = .idle ∧ st.cmpDoneReg = false ∧ st.cmpErrorReg = false
  works : st.cmpStartReg = true → (st.currentState = .idle ↔ st.cmpDoneReg = true)

theorem Paused.next {st : SmplCmp smplWidth} (h : Paused st) (i : SmplCmpIn smplWidth)
    (hheld : st.cmpStartReg = true → i.cmpStart = false → st.cmpDoneReg = true) : Paused (st.next c i) := by
  have hreg : (st.next c i).cmpStartReg = i.cmpStart := rfl
  constructor
  · rw [hreg]
    intro hi
    have hidle : st.currentState = .idle := by
      cases hs : st.cmpStartReg with
      | false => exact (h.rests hs).1
      | true => exact (h.works hs).mpr (hheld hs hi)
    refine ⟨?_, ?_, ?_⟩
    · simp [SmplCmp.next, nextState, hidle, hi]
    · simp [SmplCmp.next, hidle, hi]
    · simp [SmplCmp.next, hidle, hi]
  · rw [hreg]
    intro hi
    cases hs : st.cmpStartReg with
    | false =>
        obtain ⟨hidle, hdone, _⟩ := h.rests hs
        simp [SmplCmp.next, nextState, hidle, hdone, hi, hs]
    | true =>
        have hw := h.works hs
        cases hst : st.currentState with
        | idle => simp [SmplCmp.next, nextState, hst, hs, hi, hw.mp hst]
        | compareDone => simp [SmplCmp.next, nextState, hst]
        | waitCyc =>
            have hdone : st.cmpDoneReg = false := by simpa [hst] using hw
            simp only [SmplCmp.next, nextState, hst, hdone]
            split <;> simp
        | compare =>
            have hdone : st.cmpDoneReg = false := by simpa [hst] using hw
            simp only [SmplCmp.next, nextState, hst, hdone]
            split <;> simp

theorem paused (h : StartHeld c x) (n : Nat) : Paused (cmpAt c x n) := by
  induction n with
  | zero => exact ⟨fun _ => ⟨rfl, rfl, rfl⟩, fun h => by cases h⟩
  | succ n ih =>
      refine ih.next (x n) fun hs hi => ?_
      cases n with
      | zero => cases hs
      | succ n => exact h n hs hi

/-! ## From the start to the comparison -/

/-- The registers at a start. -/
theorem rests_of_startEdge (h : StartHeld c x) {s : Nat} (he : StartEdge x s) :
    (cmpAt c x s).cmpStartReg = false ∧ (cmpAt c x s).currentState = .idle ∧
      (cmpAt c x s).cmpDoneReg = false ∧ (cmpAt c x s).cmpErrorReg = false := by
  have hreg : (cmpAt c x s).cmpStartReg = false := by
    cases s with
    | zero => rfl
    | succ s => exact he.2 s rfl
  exact ⟨hreg, (paused h s).rests hreg⟩

/-- Cycle `k` of the wait. -/
structure Waits (k : Nat) (st : SmplCmp smplWidth) : Prop where
  state : st.currentState = .waitCyc
  cnt : st.waitCnt = BitVec.ofNat 4 k
  compareCnt : st.compareCnt = 0
  done : st.cmpDoneReg = false
  error : st.cmpErrorReg = false

/-- Cycle `k` of the comparison. -/
structure Compares (c : SmplCmpCfg smplWidth) (k : Nat) (st : SmplCmp smplWidth) : Prop where
  state : st.currentState = .compare
  compareCnt : st.compareCnt = BitVec.ofNat 16 k
  stop : st.compareStop = decide (c.cmpLength ≠ 0 ∧ c.cmpLength.toNat < k)
  done : st.cmpDoneReg = false
  error : st.cmpErrorReg = false

theorem waits_zero (h : StartHeld c x) {s : Nat} (he : StartEdge x s) : Waits 0 (cmpAt c x (s + 1)) := by
  obtain ⟨hreg, hidle, hdone, herr⟩ := rests_of_startEdge h he
  have hstart := he.1
  refine ⟨?_, ?_, ?_, ?_, ?_⟩ <;> simp [cmpAt_succ, next, nextState, hreg, hidle, hdone, herr, hstart]

theorem Waits.next {k : Nat} {st : SmplCmp smplWidth} (h : Waits k st) (hk : k < 4) (i : SmplCmpIn smplWidth) :
    Waits (k + 1) (st.next c i) := by
  have hcnt : ¬ st.waitCnt > 3 := by
    rw [h.cnt, gt_iff_lt, BitVec.lt_def, BitVec.toNat_ofNat]
    simp
    omega
  refine ⟨?_, ?_, ?_, ?_, ?_⟩
  · simp only [SmplCmp.next, nextState, h.state, hcnt, if_false]
  · simp only [SmplCmp.next, h.state, h.cnt, if_true]
    exact (BitVec.ofNat_add k 1).symm
  · simp [SmplCmp.next, h.state]
  · simp [SmplCmp.next, h.state, h.done]
  · simp [SmplCmp.next, h.state, h.error]

theorem waits_run (h : StartHeld c x) {s : Nat} (he : StartEdge x s) : ∀ k ≤ 4, Waits k (cmpAt c x (s + 1 + k))
  | 0, _ => waits_zero h he
  | k + 1, hk => (waits_run h he k (Nat.le_of_succ_le hk)).next hk _

/-- The limit is `cmp_length - 1` in 16 bits, which no count exceeds when the length is zero. -/
theorem compareCnt_gt_iff {k : Nat} (hk : c.cmpLength ≠ 0 → k < 2 ^ 16) :
    BitVec.ofNat 16 k > c.cmpLength - 1 ↔ c.cmpLength ≠ 0 ∧ c.cmpLength.toNat < k + 1 := by
  have hlt := c.cmpLength.isLt
  rw [gt_iff_lt, BitVec.lt_def, BitVec.toNat_sub, BitVec.toNat_ofNat]
  by_cases h0 : c.cmpLength = 0
  · simp [h0]
    omega
  · have hk := hk h0
    have hpos : 0 < c.cmpLength.toNat := by
      apply Nat.pos_of_ne_zero
      exact fun h => h0 (BitVec.eq_of_toNat_eq h)
    have hone : (1 : BitVec 16).toNat = 1 := rfl
    simp only [ne_eq, h0, not_false_eq_true, true_and, hone]
    omega

theorem compares_zero (h : StartHeld c x) {s : Nat} (he : StartEdge x s) : Compares c 0 (cmpAt c x (s + 6)) := by
  have hw := waits_run h he 4 (Nat.le_refl 4)
  rw [show s + 1 + 4 = s + 5 from rfl] at hw
  refine ⟨?_, ?_, ?_, ?_, ?_⟩
  · simp [cmpAt_succ (s + 5), next, nextState, hw.state, hw.cnt]
  · simp [cmpAt_succ (s + 5), next, hw.state]
  · have hstop := compareCnt_gt_iff (c := c) (k := 0) fun _ => by decide
    simp only [cmpAt_succ (s + 5), next, hw.compareCnt]
    refine decide_eq_decide.mpr (hstop.trans (and_congr_right fun h0 => ?_))
    have hpos : c.cmpLength.toNat ≠ 0 := fun h => h0 (BitVec.eq_of_toNat_eq h)
    omega
  · simp [cmpAt_succ (s + 5), next, hw.state, hw.done]
  · simp [cmpAt_succ (s + 5), next, hw.state, hw.error]

theorem Compares.next {k : Nat} {st : SmplCmp smplWidth} (h : Compares c k st) (hs : st.smplErr = false)
    (hk : c.cmpLength ≠ 0 → k ≤ c.cmpLength.toNat) (i : SmplCmpIn smplWidth) : Compares c (k + 1) (st.next c i) := by
  have hstop : st.compareStop = false := by
    rw [h.stop, decide_eq_false_iff_not]
    exact fun hlt => Nat.not_lt.mpr (hk hlt.1) hlt.2
  refine ⟨?_, ?_, ?_, ?_, ?_⟩
  · simp [SmplCmp.next, nextState, h.state, hstop, hs]
  · simp only [SmplCmp.next, h.state, h.compareCnt, if_true]
    exact (BitVec.ofNat_add k 1).symm
  · simp only [SmplCmp.next, h.compareCnt]
    exact decide_eq_decide.mpr (compareCnt_gt_iff fun h0 => Nat.lt_of_le_of_lt (hk h0) c.cmpLength.isLt)
  · simp [SmplCmp.next, h.state, h.done]
  · simp [SmplCmp.next, h.state, h.error, hs]

theorem compares_run (h : StartHeld c x) {s : Nat} (he : StartEdge x s) (k : Nat)
    (hs : ∀ j < k, (cmpAt c x (s + 6 + j)).smplErr = false)
    (hk : c.cmpLength ≠ 0 → k ≤ c.cmpLength.toNat + 1) : Compares c k (cmpAt c x (s + 6 + k)) := by
  induction k with
  | zero => exact compares_zero h he
  | succ k ih =>
      have hc := ih (fun j hj => hs j (Nat.lt_succ_of_lt hj)) fun h0 => Nat.le_of_succ_le (hk h0)
      exact hc.next (hs k (Nat.lt_succ_self k)) (fun h0 => Nat.le_of_succ_le_succ (hk h0)) _

/-! ## The verdict -/

/-- How the comparison ends after its cycle `k`: two cycles later done is reported, with the error flag of that
cycle. -/
theorem Compares.ends {k n : Nat} (h : Compares c k (cmpAt c x n))
    (hend : (cmpAt c x n).compareStop = true ∨ (cmpAt c x n).smplErr = true) :
    (cmpAt c x (n + 1)).cmpDoneReg = false ∧ (cmpAt c x (n + 2)).currentState = .idle ∧
      (cmpAt c x (n + 2)).cmpDoneReg = true ∧ (cmpAt c x (n + 2)).cmpErrorReg = (cmpAt c x n).smplErr := by
  have hstate : (cmpAt c x (n + 1)).currentState = .compareDone := by
    simp only [cmpAt_succ n, SmplCmp.next, nextState, h.state, hend, if_true]
  have herr : (cmpAt c x (n + 1)).cmpErrorReg = (cmpAt c x n).smplErr := by
    cases hs : (cmpAt c x n).smplErr <;> simp [cmpAt_succ n, SmplCmp.next, h.state, h.error, hs]
  refine ⟨?_, ?_, ?_, ?_⟩
  · simp [cmpAt_succ n, SmplCmp.next, h.state, h.done]
  · simp [cmpAt_succ (n + 1), SmplCmp.next, nextState, hstate]
  · simp [cmpAt_succ (n + 1), SmplCmp.next, hstate]
  · rw [← herr]
    simp [cmpAt_succ (n + 1), SmplCmp.next, hstate]

/-- While the start is held, done and the verdict stay. -/
theorem holds_of_held {d n : Nat} (hidle : (cmpAt c x d).currentState = .idle)
    (hdone : (cmpAt c x d).cmpDoneReg = true) (hreg : (cmpAt c x d).cmpStartReg = true) (hn : d ≤ n)
    (hstart : ∀ m, d ≤ m → m < n → (x m).cmpStart = true) :
    (cmpAt c x n).currentState = .idle ∧ (cmpAt c x n).cmpStartReg = true ∧ (cmpAt c x n).cmpDoneReg = true ∧
      (cmpAt c x n).cmpErrorReg = (cmpAt c x d).cmpErrorReg := by
  induction n, hn using Nat.le_induction with
  | base => exact ⟨hidle, hreg, hdone, rfl⟩
  | succ n hn ih =>
      obtain ⟨h1, h2, h3, h4⟩ := ih fun m h1 h2 => hstart m h1 (Nat.lt_succ_of_lt h2)
      have hs := hstart n hn (Nat.lt_succ_self n)
      rw [← h4, cmpAt_succ n, next]
      simp [nextState, h1, h2, h3, hs]

variable (c x)

/-- The comparison that a start in cycle `s` begins is decided in cycle `d`. -/
structure Decided (s d : Nat) : Prop where
  lt : s < d
  done : (cmpAt c x d).cmpDoneReg = true
  not_done : ∀ n, s ≤ n → n < d → (cmpAt c x n).cmpDoneReg = false
  holds : ∀ n, d ≤ n → (∀ m, d ≤ m → m < n → (x m).cmpStart = true) →
    (cmpAt c x n).cmpDoneReg = true ∧ (cmpAt c x n).cmpErrorReg = (cmpAt c x d).cmpErrorReg
  sound : (cmpAt c x d).cmpErrorReg = false →
    ∃ a, s < a ∧ a + c.cmpLength.toNat ≤ d ∧ ∀ j < c.cmpLength.toNat, (x (a + j)).Matches c
  complete : (∀ n, s ≤ n → n < d → (x n).Matches c) → (∀ n, s ≤ n → n + 1 < d → (x (n + 1)).chA ≠ (x n).chA) →
    (cmpAt c x d).cmpErrorReg = false

variable {c x}

theorem cmpStart_of_not_done (h : StartHeld c x) {s d : Nat} (he : StartEdge x s)
    (hnd : ∀ n, s ≤ n → n < d → (cmpAt c x n).cmpDoneReg = false) : ∀ n, s ≤ n → n < d → (x n).cmpStart = true := by
  intro n hn
  induction n, hn using Nat.le_induction with
  | base => exact fun _ => he.1
  | succ n hn ih =>
      intro hlt
      by_contra hs
      have hdone := h n (ih (Nat.lt_of_succ_lt hlt)) (Bool.eq_false_iff.mpr hs)
      rw [hnd (n + 1) (Nat.le_succ_of_le hn) hlt] at hdone
      cases hdone

theorem not_done_before (h : StartHeld c x) {s k : Nat} (he : StartEdge x s)
    (hs : ∀ j < k, (cmpAt c x (s + 6 + j)).smplErr = false) (hk : c.cmpLength ≠ 0 → k ≤ c.cmpLength.toNat + 1) :
    ∀ n, s ≤ n → n ≤ s + 6 + k → (cmpAt c x n).cmpDoneReg = false := by
  intro n hn hle
  obtain ⟨m, rfl⟩ := Nat.exists_eq_add_of_le hn
  rcases Nat.eq_zero_or_pos m with rfl | hpos
  · exact (rests_of_startEdge h he).2.2.1
  · by_cases h6 : m < 6
    · have hw := waits_run h he (m - 1) (by omega)
      rw [show s + 1 + (m - 1) = s + m by omega] at hw
      exact hw.done
    · have hc := compares_run h he (m - 6) (fun j hj => hs j (by omega)) fun h0 => by have := hk h0; omega
      rw [show s + 6 + (m - 6) = s + m by omega] at hc
      exact hc.done

/-- The cycle in which the comparison ends: that of the first error or the one after the last sample. -/
theorem exists_end (n : Nat) (b : Nat → Bool) :
    ∃ k ≤ n, (∀ j < k, b j = false) ∧ (b k = true ∨ k = n) := by
  classical
  by_cases hex : ∃ k, b k = true
  · by_cases hle : Nat.find hex ≤ n
    · exact ⟨Nat.find hex, hle, fun j hj => Bool.eq_false_iff.mpr (Nat.find_min hex hj), Or.inl (Nat.find_spec hex)⟩
    · exact ⟨n, Nat.le_refl n, fun j hj => Bool.eq_false_iff.mpr (Nat.find_min hex (by omega)), Or.inr rfl⟩
  · exact ⟨n, Nat.le_refl n, fun j _ => Bool.eq_false_iff.mpr fun hb => hex ⟨j, hb⟩, Or.inr rfl⟩

theorem decided_of_length_ne (h : StartHeld c x) (h0 : c.cmpLength ≠ 0) {s : Nat} (he : StartEdge x s) :
    ∃ d ≤ s + c.cmpLength.toNat + 9, Decided c x s d := by
  obtain ⟨k, hk, hbefore, hend⟩ := exists_end (c.cmpLength.toNat + 1) fun j => (cmpAt c x (s + 6 + j)).smplErr
  have hc := compares_run h he k hbefore fun _ => hk
  have hstop : (cmpAt c x (s + 6 + k)).compareStop = true ∨ (cmpAt c x (s + 6 + k)).smplErr = true := by
    rcases hend with hb | rfl
    · exact Or.inr hb
    · exact Or.inl (by rw [hc.stop]; exact decide_eq_true ⟨h0, Nat.lt_succ_self _⟩)
  obtain ⟨hnd, hidle, hdone, herr⟩ := hc.ends hstop
  have hnot : ∀ n, s ≤ n → n < s + 6 + k + 2 → (cmpAt c x n).cmpDoneReg = false := by
    intro n hn hlt
    rcases Nat.lt_or_ge n (s + 6 + k + 1) with hlt' | hge
    · exact not_done_before h he hbefore (fun _ => hk) n hn (Nat.le_of_lt_succ hlt')
    · rw [Nat.le_antisymm (Nat.le_of_lt_succ hlt) hge]
      exact hnd
  have hreg : (cmpAt c x (s + 6 + k + 2)).cmpStartReg = true :=
    cmpStart_of_not_done h he hnot (s + 6 + k + 1) (by omega) (by omega)
  refine ⟨s + 6 + k + 2, by omega, by omega, hdone, hnot, fun n hn hs => ?_, fun hok => ?_, fun hm hch => ?_⟩
  · exact (holds_of_held hidle hdone hreg hn hs).2.2
  · rw [herr] at hok
    have hkL : k = c.cmpLength.toNat + 1 := hend.resolve_left (by rw [hok]; exact Bool.false_ne_true)
    refine ⟨s + 3, by omega, by omega, fun j hj => matches_of_smplErr ?_⟩
    rw [show s + 3 + j + 3 = s + 6 + j by omega]
    exact hbefore j (by omega)
  · rw [herr]
    have hok := smplErr_of_matches (n := s + 2 + k) (hm _ (by omega) (by omega)) (hm _ (by omega) (by omega))
      (hch _ (by omega) (by omega))
    rwa [show s + 2 + k + 4 = s + 6 + k by omega] at hok

/-! ## A length of zero -/

/-- A start that is held, and samples that all match. -/
def expected (c : SmplCmpCfg smplWidth) (n : Nat) : SmplCmpIn smplWidth :=
  { fidm := false, cmpStart := true
    diqH := BitVec.cons (n % 2 == 1) (if n % 2 = 1 then c.cmpBQ else c.cmpAQ)
    diqL := BitVec.cons (n % 2 == 1) (if n % 2 = 1 then c.cmpBI else c.cmpAI) }

theorem startEdge_expected : StartEdge (expected c) 0 := ⟨rfl, fun m hm => absurd hm (Nat.succ_ne_zero m)⟩

theorem startHeld_expected : StartHeld c (expected c) := fun _ _ hs => by cases hs

theorem chA_expected (n : Nat) : (expected c n).chA = (n % 2 == 0) := by
  rw [SmplCmpIn.chA, expected, iqSel, BitVec.getLsbD_cons]
  rcases Nat.mod_two_eq_zero_or_one n with h | h <;> simp [h]

theorem matches_expected (n : Nat) : (expected c n).Matches c := by
  have hch := chA_expected (c := c) n
  refine ⟨?_, fun h => ?_, fun h => ?_⟩
  · simp only [expected, iqSel, BitVec.getLsbD_cons, if_true]
  · rw [hch, beq_iff_eq] at h
    simp [expected, smpl, h]
  · rw [hch, beq_eq_false_iff_ne] at h
    have h1 : n % 2 = 1 := Nat.mod_two_ne_zero.mp h
    simp [expected, smpl, h1]

theorem never_done (h0 : c.cmpLength = 0) (n : Nat) : (cmpAt c (expected c) n).cmpDoneReg = false := by
  have hok : ∀ j < n, (cmpAt c (expected c) (0 + 6 + j)).smplErr = false := by
    intro j _
    have h := smplErr_of_matches (n := j + 2) (matches_expected (c := c) _) (matches_expected (c := c) _)
      (by rw [chA_expected, chA_expected]; rcases Nat.mod_two_eq_zero_or_one j with h | h <;> simp <;> omega)
    rwa [show j + 2 + 4 = 0 + 6 + j by omega] at h
  exact not_done_before startHeld_expected startEdge_expected hok (fun h => absurd h0 h) n (Nat.zero_le n) (by omega)

end SmplCmp

end LimeSdrQpcie
