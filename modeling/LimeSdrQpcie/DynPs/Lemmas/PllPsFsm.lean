import LimeSdrQpcie.DynPs.PllPsFsm
import Mathlib.Tactic.Common

/-!
# The course of a phase search

Comparison `j` of the scan is made at position `j * s`, where `s` is the step size. The scan goes on as long as
the next position is below 1023. When a lower edge was accepted it is followed by a final shift, which the state
machine computes from its step counter.
-/

namespace LimeSdrQpcie

open Hdl

namespace PhaseSearch

open PllPsFsm

variable (s : BitVec 10) (err : Nat → Bool)

/-! ## The results of the comparisons -/

/-- None of the first `k` comparisons is a lower edge. -/
def NoLower (k : Nat) : Prop := ∀ j < k, 2 < j * s.toNat → err j = true

/-- Comparison `k₀` is the lower edge, and from it on the first `k` comparisons have passed. -/
structure Window (k₀ k : Nat) : Prop where
  two_lt : 2 < k₀ * s.toNat
  lt : k₀ < k
  noLower : NoLower s err k₀
  pass : ∀ j, k₀ ≤ j → j < k → err j = false

variable {s err}

theorem NoLower.succ {k : Nat} (h : NoLower s err k) (hk : 2 < k * s.toNat → err k = true) :
    NoLower s err (k + 1) := by
  intro j hj hs
  rcases Nat.lt_succ_iff_lt_or_eq.mp hj with hlt | rfl
  · exact h j hlt hs
  · exact hk hs

theorem Window.succ {k₀ k : Nat} (h : Window s err k₀ k) (hk : err k = false) : Window s err k₀ (k + 1) := by
  refine ⟨h.two_lt, Nat.lt_succ_of_lt h.lt, h.noLower, fun j h0 hj => ?_⟩
  rcases Nat.lt_succ_iff_lt_or_eq.mp hj with hlt | rfl
  · exact h.pass j h0 hlt
  · exact hk

theorem NoLower.window {k : Nat} (h : NoLower s err k) (hs : 2 < k * s.toNat) (hk : err k = false) :
    Window s err k (k + 1) := by
  refine ⟨hs, Nat.lt_succ_self k, h, fun j h0 hj => ?_⟩
  rw [Nat.le_antisymm (Nat.le_of_lt_succ hj) h0]
  exact hk

theorem Window.mul_le {k₀ k : Nat} (h : Window s err k₀ (k + 1)) : k₀ * s.toNat ≤ k * s.toNat :=
  Nat.mul_le_mul_right _ (Nat.le_of_lt_succ h.lt)

theorem Window.pos {k₀ k : Nat} (h : Window s err k₀ k) : s.toNat ≤ k₀ * s.toNat := by
  cases k₀ with
  | zero => have := h.two_lt; omega
  | succ k₀ => exact Nat.le_mul_of_pos_left _ (Nat.succ_pos k₀)

variable (s err)

/-! ## The registers during the scan -/

/-- What no state of the scan changes. -/
structure ScanRegs (st : PhaseSearch) : Prop where
  psEnReg : st.fsm.psEnReg = true
  psStepSizeReg : st.fsm.psStepSizeReg = s
  psCtrlPhaseReg : st.fsm.psCtrlPhaseReg = s
  psCtrlUpdwnReg : st.fsm.psCtrlUpdwnReg = st.fsm.psUpdwnReg
  findMax : st.fsm.findMax = true
  stepCntMax : st.fsm.stepCntMax = stepCntMaxConstant
  wrapped : st.wrapped = false

/-- After `k` comparisons either no lower edge was found, or the window goes on. -/
def Edge (k : Nat) (st : PhaseSearch) : Prop :=
  (st.fsm.findMin = true ∧ st.posMin = none ∧ NoLower s err k) ∨
    ∃ k₀ l, k = l + 1 ∧ st.fsm.findMin = false ∧ st.posMin = some ((k₀ * s.toNat : Nat) : Int) ∧
      st.fsm.stepCntMin.toNat = k₀ * s.toNat ∧ st.posMax = some ((l * s.toNat : Nat) : Int) ∧ Window s err k₀ (l + 1)

/-- The step counter and the position of comparison `k`. -/
structure At (k : Nat) (st : PhaseSearch) : Prop where
  stepCnt : st.fsm.stepCnt.toNat = k * s.toNat
  position : st.position = (k * s.toNat : Nat)
  lt : k * s.toNat < 1023

/-! ## The registers of the final shift -/

/-- The phase that the state machine takes for the end of the window: comparison `l` was the last that passed,
and either the next one failed (`up`) or the range ended. -/
def high (up : Bool) (l : Nat) : Nat := if up then l * s.toNat else 1023

/-- The middle of the window, as it is computed. -/
def middle (up : Bool) (k₀ l : Nat) : Nat := k₀ * s.toNat + (high s up l - k₀ * s.toNat) / 2

/-- How far the final shift goes back. -/
def back (up : Bool) (k₀ l : Nat) : Nat := (l + 1) * s.toNat - middle s up k₀ l

/-- How many comparisons the scan took. -/
def scanned (up : Bool) (l : Nat) : Nat := if up then l + 2 else l + 1

/-- The position at the end of the scan. -/
def scanEnd (up : Bool) (l : Nat) : Nat := if up then (l + 1) * s.toNat else l * s.toNat

/-- The scan ended with the window from comparison `k₀` to comparison `l`. -/
structure Closed (up : Bool) (k₀ l : Nat) (st : PhaseSearch) : Prop where
  psEnReg : st.fsm.psEnReg = true
  findMin : st.fsm.findMin = false
  stepCnt : st.fsm.stepCnt.toNat = (l + 1) * s.toNat % 2 ^ 10
  stepCntMin : st.fsm.stepCntMin.toNat = k₀ * s.toNat
  stepCntMax : st.fsm.stepCntMax.toNat = high s up l
  posMin : st.posMin = some ((k₀ * s.toNat : Nat) : Int)
  posMax : st.posMax = some ((l * s.toNat : Nat) : Int)
  window : Window s err k₀ (l + 1)
  lt : scanEnd s up l < 1023
  ended : if up then err (l + 1) = true else 1023 ≤ (l + 1) * s.toNat
  wrapped : st.wrapped = decide (2 ^ 10 ≤ (l + 1) * s.toNat)

/-! ## All states -/

/-- What the registers and the observer hold in each state of a search. -/
inductive Inv : PhaseSearch → Prop
  | lock {st : PhaseSearch} (hst : st.fsm.currentState = .rstPll ∨ st.fsm.currentState = .waitPllLock)
      (hr : ScanRegs s st) (he : Edge s err 0 st) (hc : st.compareCnt = 0) (ha : At s 0 st) : Inv st
  | compare {st : PhaseSearch} (k : Nat)
      (hst : st.fsm.currentState = .checkCmpStatus ∨ st.fsm.currentState = .cmpSmpls)
      (hm : st.fsm.stepCntMaxReg = stepCntMaxConstant - s) (hr : ScanRegs s st) (he : Edge s err k st)
      (hc : st.compareCnt = k) (ha : At s k st) : Inv st
  | minFound {st : PhaseSearch} (k : Nat) (hst : st.fsm.currentState = .minFound)
      (hm : st.fsm.stepCntMaxReg = stepCntMaxConstant - s) (hr : ScanRegs s st) (hw : Window s err k (k + 1))
      (hp : st.posMax = some ((k * s.toNat : Nat) : Int)) (hc : st.compareCnt = k + 1) (ha : At s k st) : Inv st
  | maxFound {st : PhaseSearch} (k₀ l : Nat) (hst : st.fsm.currentState = .maxFound) (hr : ScanRegs s st)
      (hf : st.fsm.findMin = false) (hq : st.posMin = some ((k₀ * s.toNat : Nat) : Int))
      (hn : st.fsm.stepCntMin.toNat = k₀ * s.toNat) (hp : st.posMax = some ((l * s.toNat : Nat) : Int))
      (hw : Window s err k₀ (l + 1)) (hx : err (l + 1) = true) (hc : st.compareCnt = l + 2)
      (ha : At s (l + 1) st) : Inv st
  | checkMaxSteps {st : PhaseSearch} (k : Nat) (hst : st.fsm.currentState = .checkMaxSteps)
      (hm : st.fsm.stepCntMaxReg = stepCntMaxConstant - s) (hr : ScanRegs s st) (he : Edge s err (k + 1) st)
      (hc : st.compareCnt = k + 1) (ha : At s k st) : Inv st
  | phShift {st : PhaseSearch} (k : Nat) (hst : st.fsm.currentState = .phShift)
      (hm : st.fsm.stepCntMaxReg = stepCntMaxConstant - s) (hr : ScanRegs s st) (he : Edge s err (k + 1) st)
      (hc : st.compareCnt = k + 1) (hs : st.fsm.stepCnt.toNat = (k + 1) * s.toNat)
      (hp : st.position = (k * s.toNat : Nat)) (hlt : (k + 1) * s.toNat < 1023) : Inv st
  | waitAfterPhShift {st : PhaseSearch} (k : Nat) (hst : st.fsm.currentState = .waitAfterPhShift)
      (hm : st.fsm.stepCntMaxReg = stepCntMaxConstant - s) (hr : ScanRegs s st) (he : Edge s err k st)
      (hc : st.compareCnt = k) (ha : At s k st) : Inv st
  | prepPhase {st : PhaseSearch} (up : Bool) (k₀ l : Nat) (hst : st.fsm.currentState = .prepPhase)
      (hcl : Closed s err up k₀ l st) (hc : st.compareCnt = scanned up l)
      (hp : st.position = (scanEnd s up l : Nat)) (hcnt : st.fsm.prepPhaseCnt.toNat ≤ 3)
      (h1 : 1 ≤ st.fsm.prepPhaseCnt.toNat →
        st.fsm.findMax = false ∧ st.fsm.stepCntDiff = st.fsm.stepCntMax - st.fsm.stepCntMin)
      (h2 : 2 ≤ st.fsm.prepPhaseCnt.toNat → st.fsm.stepCntMiddle.toNat = middle s up k₀ l)
      (h3 : 3 ≤ st.fsm.prepPhaseCnt.toNat → st.fsm.stepCntReverse.toNat = back s up k₀ l) : Inv st
  | finalShift {st : PhaseSearch} (up : Bool) (k₀ l : Nat) (hst : st.fsm.currentState = .phShift)
      (hcl : Closed s err up k₀ l st) (hf : st.fsm.findMax = false) (hc : st.compareCnt = scanned up l)
      (hp : st.position = (scanEnd s up l : Nat)) (hr : st.fsm.psCtrlPhaseReg.toNat = back s up k₀ l)
      (hd : st.fsm.psCtrlUpdwnReg = !st.fsm.psUpdwnReg) : Inv st
  | finalCompare {st : PhaseSearch} (up : Bool) (k₀ l : Nat)
      (hst : st.fsm.currentState = .waitAfterPhShift ∨ st.fsm.currentState = .checkCmpStatus ∨
        st.fsm.currentState = .cmpSmpls)
      (hcl : Closed s err up k₀ l st) (hf : st.fsm.findMax = false) (hc : st.compareCnt = scanned up l)
      (hp : st.position = (scanEnd s up l : Nat) - (back s up k₀ l : Nat)) : Inv st
  | endNone {st : PhaseSearch} (k : Nat) (hst : st.fsm.currentState = .endSrch) (he : st.fsm.psEnReg = true)
      (hq : st.posMin = none) (hn : NoLower s err (k + 1)) (hc : st.compareCnt = k + 1)
      (hlt : k * s.toNat < 1023) (hle : 1023 ≤ (k + 1) * s.toNat) : Inv st
  | endFinal {st : PhaseSearch} (up : Bool) (k₀ l : Nat) (hst : st.fsm.currentState = .endSrch)
      (hcl : Closed s err up k₀ l st) (hc : st.compareCnt = scanned up l + 1)
      (hp : st.position = (scanEnd s up l : Nat) - (back s up k₀ l : Nat)) : Inv st
  | ended {st : PhaseSearch} (hst : st.fsm.currentState = .idle) (he : st.fsm.psEnReg = true) : Inv st

variable {s err}

/-! ## One cycle -/

variable {st : PhaseSearch} {i : PllPsFsmIn}

theorem ScanRegs.next (h : ScanRegs s st) (hen : i.psEn = true) (h1 : st.fsm.currentState ≠ .idle)
    (h2 : st.fsm.currentState ≠ .maxFound) (h3 : st.fsm.currentState ≠ .prepPhase)
    (h4 : st.fsm.currentState = .checkMaxSteps → st.fsm.stepCnt.toNat + s.toNat < 2 ^ 10) :
    ScanRegs s (st.next i) := by
  have hrise : st.fsm.psEnRising i = false := by simp [psEnRising, h.psEnReg]
  refine ⟨hen, ?_, ?_, ?_, ?_, ?_, ?_⟩
  · simp [PhaseSearch.next, PllPsFsm.next, hrise, h.psStepSizeReg]
  · simp [PhaseSearch.next, PllPsFsm.next, h1, h3, h.psCtrlPhaseReg]
  · simp [PhaseSearch.next, PllPsFsm.next, hrise, h1, h3, h.psCtrlUpdwnReg]
  · simp [PhaseSearch.next, PllPsFsm.next, h1, h2, h3, h.findMax]
  · simp [PhaseSearch.next, PllPsFsm.next, h1, h2, h.stepCntMax]
  · simp [PhaseSearch.next, h.wrapped, h.psStepSizeReg]
    exact fun hc => by have := h4 hc; omega

theorem Edge.next {k : Nat} (h : Edge s err k st) (h1 : st.fsm.currentState ≠ .idle)
    (h2 : st.fsm.currentState ≠ .minFound) (h3 : st.compared i = false) : Edge s err k (st.next i) := by
  unfold Edge at h ⊢
  simpa [PhaseSearch.next, PllPsFsm.next, h1, h2, h3] using h

theorem At.next {k : Nat} (h : At s k st) (h1 : st.fsm.currentState ≠ .idle)
    (h2 : st.fsm.currentState ≠ .checkMaxSteps) (h3 : st.fsm.currentState ≠ .phShift) : At s k (st.next i) := by
  refine ⟨?_, ?_, h.lt⟩
  · simpa [PhaseSearch.next, PllPsFsm.next, h1, h2] using h.stepCnt
  · simpa [PhaseSearch.next, PhaseSearch.shift, h3] using h.position

theorem next_currentState : (st.next i).fsm.currentState = st.fsm.nextState i := rfl

theorem next_stepCntMaxReg (h : st.fsm.psStepSizeReg = s) :
    (st.next i).fsm.stepCntMaxReg = stepCntMaxConstant - s := by
  rw [← h]
  rfl

theorem compared_of_ne (h : st.fsm.currentState ≠ .cmpSmpls) : st.compared i = false := by
  simp [compared, h]

theorem next_compareCnt (h : st.compared i = false) : (st.next i).compareCnt = st.compareCnt := by
  simp [PhaseSearch.next, h]

/-- The comparison that is made tells whether the next position is still in the range. -/
theorem stepCnt_lt_iff {k : Nat} (hm : st.fsm.stepCntMaxReg = stepCntMaxConstant - s) (ha : At s k st) :
    st.fsm.stepCnt < st.fsm.stepCntMaxReg ↔ (k + 1) * s.toNat < 1023 := by
  have hc := ha.stepCnt
  have hs := s.isLt
  have hmax : (stepCntMaxConstant - s).toNat = 1023 - s.toNat := by
    rw [stepCntMaxConstant, BitVec.toNat_sub, BitVec.toNat_allOnes]
    omega
  rw [BitVec.lt_def, hm, hmax, hc, Nat.succ_mul]
  omega

theorem inv_start {fsm : PllPsFsm} (hst : fsm.currentState = .idle) (hreg : fsm.psEnReg = false)
    (hen : i.psEn = true) (hmode : i.psMode = true) : Inv i.psStepSize err ((start fsm).next i) := by
  have hrise : fsm.psEnRising i = true := by simp [psEnRising, hen, hreg]
  have hstate : ((start fsm).next i).fsm.currentState = .rstPll ∨
      ((start fsm).next i).fsm.currentState = .waitPllLock := by
    cases hr : i.psResetAtStart with
    | true => exact Or.inl (by simp [next_currentState, start, nextState, hst, hrise, hmode, hr])
    | false => exact Or.inr (by simp [next_currentState, start, nextState, hst, hrise, hmode, hr])
  refine .lock hstate ⟨hen, ?_, ?_, ?_, ?_, ?_, ?_⟩ (Or.inl ⟨?_, ?_, ?_⟩) ?_ ⟨?_, ?_, ?_⟩
  all_goals simp [PhaseSearch.next, PllPsFsm.next, start, shift, compared, hst, hrise, NoLower]

theorem inv_next_lock (hen : i.psEn = true)
    (hst : st.fsm.currentState = .rstPll ∨ st.fsm.currentState = .waitPllLock) (hr : ScanRegs s st)
    (he : Edge s err 0 st) (hc : st.compareCnt = 0) (ha : At s 0 st) : Inv s err (st.next i) := by
  have hidle : st.fsm.currentState ≠ .idle := by rcases hst with h | h <;> simp [h]
  have hcmp : st.compared i = false := compared_of_ne (by rcases hst with h | h <;> simp [h])
  have hr' : ScanRegs s (st.next i) := hr.next hen hidle (by rcases hst with h | h <;> simp [h])
    (by rcases hst with h | h <;> simp [h]) (by rcases hst with h | h <;> simp [h])
  have he' : Edge s err 0 (st.next i) := he.next hidle (by rcases hst with h | h <;> simp [h]) hcmp
  have ha' : At s 0 (st.next i) := ha.next hidle (by rcases hst with h | h <;> simp [h])
    (by rcases hst with h | h <;> simp [h])
  have hc' : (st.next i).compareCnt = 0 := (next_compareCnt hcmp).trans hc
  rcases hst with h | h
  · refine .lock ?_ hr' he' hc' ha'
    rw [next_currentState, nextState, h]
    cases i.pllLocked
    · exact Or.inr rfl
    · exact Or.inl rfl
  · cases hl : i.pllLocked with
    | false => exact .lock (Or.inr (by simp [next_currentState, nextState, h, hl])) hr' he' hc' ha'
    | true =>
        refine .compare 0 (Or.inl ?_) (next_stepCntMaxReg hr.psStepSizeReg) hr' he' hc' ha'
        simp [next_currentState, nextState, h, hl, hr.findMax]

/-- A comparison is answered: the edge is found, the window goes on or it has ended. -/
theorem inv_next_answer {k : Nat} (hen : i.psEn = true) (hst : st.fsm.currentState = .cmpSmpls)
    (hdone : i.smplCmpDone = true) (herr : i.smplCmpError = err k) (hr : ScanRegs s st) (he : Edge s err k st)
    (hc : st.compareCnt = k) (ha : At s k st) : Inv s err (st.next i) := by
  have hr' : ScanRegs s (st.next i) := hr.next hen (by simp [hst]) (by simp [hst]) (by simp [hst]) (by simp [hst])
  have ha' : At s k (st.next i) := ha.next (by simp [hst]) (by simp [hst]) (by simp [hst])
  have hm' := next_stepCntMaxReg (i := i) hr.psStepSizeReg
  have hcmp : st.compared i = true := by simp [compared, hst, hdone]
  have hc' : (st.next i).compareCnt = k + 1 := by simp [PhaseSearch.next, hcmp, hc]
  have hmin' : (st.next i).fsm.findMin = st.fsm.findMin := by simp [PhaseSearch.next, PllPsFsm.next, hst]
  have hpmin' : (st.next i).posMin = st.posMin := by simp [PhaseSearch.next, hst]
  have hstate : (st.next i).fsm.currentState = st.fsm.nextState i := rfl
  have htwo : st.fsm.stepCnt > 2 ↔ 2 < k * s.toNat := by rw [gt_iff_lt, BitVec.lt_def, ha.stepCnt]; rfl
  cases hx : err k with
  | true =>
      have hpmax' : (st.next i).posMax = st.posMax := by simp [PhaseSearch.next, herr, hx]
      rcases he with ⟨hf, hq, hn⟩ | ⟨k₀, l, hl, hf, hq, hmin, hp, hw⟩
      · refine .checkMaxSteps k ?_ hm' hr' (Or.inl ⟨?_, ?_, hn.succ fun _ => hx⟩) hc' ha'
        · simp [hstate, nextState, hst, hdone, hf, herr, hx]
        · rw [hmin', hf]
        · rw [hpmin', hq]
      · subst hl
        refine .maxFound k₀ l ?_ hr' ?_ ?_ ?_ ?_ hw hx hc' ha'
        · simp [hstate, nextState, hst, hdone, hf, hr.findMax, herr, hx]
        · rw [hmin', hf]
        · rw [hpmin', hq]
        · rw [← hmin]
          simp [PhaseSearch.next, PllPsFsm.next, hst]
        · rw [hpmax', hp]
  | false =>
      have hpmax' : (st.next i).posMax = some ((k * s.toNat : Nat) : Int) := by
        simp [PhaseSearch.next, hcmp, herr, hx, hr.findMax, ha.position]
      rcases he with ⟨hf, hq, hn⟩ | ⟨k₀, l, hl, hf, hq, hmin, hp, hw⟩
      · by_cases h2 : 2 < k * s.toNat
        · refine .minFound k ?_ hm' hr' (hn.window h2 hx) hpmax' hc' ha'
          simp only [hstate, nextState, hst, hdone, hf, if_true, herr, hx, htwo, h2, and_self]
        · refine .checkMaxSteps k ?_ hm' hr' (Or.inl ⟨?_, ?_, hn.succ fun h => absurd h h2⟩) hc' ha'
          · simp only [hstate, nextState, hst, hdone, hf, if_true, htwo, h2, and_false, if_false]
          · rw [hmin', hf]
          · rw [hpmin', hq]
      · subst hl
        refine .checkMaxSteps (l + 1) ?_ hm' hr' (Or.inr ⟨k₀, l + 1, rfl, ?_, ?_, ?_, hpmax', hw.succ hx⟩) hc' ha'
        · simp [hstate, nextState, hst, hdone, hf, hr.findMax, herr, hx]
        · rw [hmin', hf]
        · rw [hpmin', hq]
        · rw [← hmin]
          simp [PhaseSearch.next, PllPsFsm.next, hst]

theorem inv_next_compare {k : Nat} (hen : i.psEn = true)
    (herr : st.compared i = true → i.smplCmpError = err st.compareCnt)
    (hst : st.fsm.currentState = .checkCmpStatus ∨ st.fsm.currentState = .cmpSmpls) (hr : ScanRegs s st)
    (he : Edge s err k st) (hc : st.compareCnt = k) (ha : At s k st) : Inv s err (st.next i) := by
  have hidle : st.fsm.currentState ≠ .idle := by rcases hst with h | h <;> simp [h]
  have hstay : st.compared i = false → (st.next i).fsm.currentState = .checkCmpStatus ∨
      (st.next i).fsm.currentState = .cmpSmpls → Inv s err (st.next i) := fun hcmp h' =>
    .compare k h' (next_stepCntMaxReg hr.psStepSizeReg)
      (hr.next hen hidle (by rcases hst with h | h <;> simp [h]) (by rcases hst with h | h <;> simp [h])
        (by rcases hst with h | h <;> simp [h]))
      (he.next hidle (by rcases hst with h | h <;> simp [h]) hcmp) ((next_compareCnt hcmp).trans hc)
      (ha.next hidle (by rcases hst with h | h <;> simp [h]) (by rcases hst with h | h <;> simp [h]))
  rcases hst with h | h
  · refine hstay (compared_of_ne (by simp [h])) ?_
    rw [next_currentState, nextState, h]
    cases i.smplCmpDone
    · exact Or.inr rfl
    · exact Or.inl rfl
  · cases hdone : i.smplCmpDone with
    | false =>
        exact hstay (by simp [compared, hdone]) (Or.inr (by simp [next_currentState, nextState, h, hdone]))
    | true =>
        have hx := herr (by simp [compared, h, hdone])
        rw [hc] at hx
        exact inv_next_answer hen h hdone hx hr he hc ha

theorem inv_next_minFound {k : Nat} (hen : i.psEn = true) (hst : st.fsm.currentState = .minFound)
    (hr : ScanRegs s st) (hw : Window s err k (k + 1)) (hp : st.posMax = some ((k * s.toNat : Nat) : Int))
    (hc : st.compareCnt = k + 1) (ha : At s k st) : Inv s err (st.next i) := by
  have hcmp : st.compared i = false := compared_of_ne (by simp [hst])
  refine .checkMaxSteps k (by simp [next_currentState, nextState, hst]) (next_stepCntMaxReg hr.psStepSizeReg)
    (hr.next hen (by simp [hst]) (by simp [hst]) (by simp [hst]) (by simp [hst]))
    (Or.inr ⟨k, k, rfl, ?_, ?_, ?_, ?_, hw⟩) ((next_compareCnt hcmp).trans hc)
    (ha.next (by simp [hst]) (by simp [hst]) (by simp [hst]))
  · simp [PhaseSearch.next, PllPsFsm.next, hst]
  · simp [PhaseSearch.next, hst, ha.position]
  · simpa [PhaseSearch.next, PllPsFsm.next, hst] using ha.stepCnt
  · simpa [PhaseSearch.next, hcmp] using hp

/-- The range goes on, or it ends inside the window or without one. -/
theorem inv_next_checkMaxSteps {k : Nat} (hen : i.psEn = true) (hst : st.fsm.currentState = .checkMaxSteps)
    (hm : st.fsm.stepCntMaxReg = stepCntMaxConstant - s) (hr : ScanRegs s st) (he : Edge s err (k + 1) st)
    (hc : st.compareCnt = k + 1) (ha : At s k st) : Inv s err (st.next i) := by
  have hcmp : st.compared i = false := compared_of_ne (by simp [hst])
  have he' : Edge s err (k + 1) (st.next i) := he.next (by simp [hst]) (by simp [hst]) hcmp
  have hc' : (st.next i).compareCnt = k + 1 := (next_compareCnt hcmp).trans hc
  have hmul : (k + 1) * s.toNat = k * s.toNat + s.toNat := Nat.succ_mul k s.toNat
  have hcnt : (st.next i).fsm.stepCnt.toNat = (k + 1) * s.toNat % 2 ^ 10 := by
    have h : (st.next i).fsm.stepCnt = st.fsm.stepCnt + s := by
      simp [PhaseSearch.next, PllPsFsm.next, hst, hr.psStepSizeReg]
    rw [h, BitVec.toNat_add, ha.stepCnt, hmul]
  have hpos : (st.next i).position = (k * s.toNat : Nat) := by
    simpa [PhaseSearch.next, shift, hst] using ha.position
  have hlt := stepCnt_lt_iff hm ha
  by_cases hin : (k + 1) * s.toNat < 1023
  · refine .phShift k ?_ (next_stepCntMaxReg hr.psStepSizeReg) (hr.next hen (by simp [hst]) (by simp [hst])
      (by simp [hst]) fun _ => ?_) he' hc' ?_ hpos hin
    · simp [next_currentState, nextState, hst, hlt.mpr hin]
    · have := ha.stepCnt
      omega
    · rw [hcnt]
      omega
  · have hge : 1023 ≤ (k + 1) * s.toNat := Nat.le_of_not_lt hin
    rcases he' with ⟨hf', hq', hn⟩ | ⟨k₀, l, hl, hf', hq', hmin', hp', hw⟩
    · have hf : st.fsm.findMin = true := by simpa [PhaseSearch.next, PllPsFsm.next, hst] using hf'
      refine .endNone k ?_ hen hq' hn hc' ha.lt hge
      simp only [next_currentState, nextState, hst, hlt, hin, if_false, hf, Bool.true_eq_false]
    · have hf : st.fsm.findMin = false := by simpa [PhaseSearch.next, PllPsFsm.next, hst] using hf'
      obtain rfl : k = l := Nat.succ.inj hl
      refine .prepPhase false k₀ k ?_ ⟨hen, hf', hcnt, hmin', ?_, hq', hp', hw, ha.lt, hge, ?_⟩ hc' hpos ?_ ?_ ?_ ?_
      · simp only [next_currentState, nextState, hst, hlt, hin, if_false, hf, if_true]
      · have h : (st.next i).fsm.stepCntMax = stepCntMaxConstant := by
          simpa [PhaseSearch.next, PllPsFsm.next, hst] using hr.stepCntMax
        rw [h]
        rfl
      · simp only [PhaseSearch.next, hr.wrapped, hst, true_and, Bool.false_or, ha.stepCnt, hr.psStepSizeReg, hmul]
      all_goals simp [PhaseSearch.next, PllPsFsm.next, hst]

theorem inv_next_phShift {k : Nat} (hen : i.psEn = true) (hst : st.fsm.currentState = .phShift)
    (hr : ScanRegs s st) (he : Edge s err (k + 1) st) (hc : st.compareCnt = k + 1)
    (hs : st.fsm.stepCnt.toNat = (k + 1) * s.toNat) (hp : st.position = (k * s.toNat : Nat))
    (hlt : (k + 1) * s.toNat < 1023) : Inv s err (st.next i) := by
  have hcmp : st.compared i = false := compared_of_ne (by simp [hst])
  have hr' : ScanRegs s (st.next i) := hr.next hen (by simp [hst]) (by simp [hst]) (by simp [hst]) (by simp [hst])
  have he' : Edge s err (k + 1) (st.next i) := he.next (by simp [hst]) (by simp [hst]) hcmp
  have hc' : (st.next i).compareCnt = k + 1 := (next_compareCnt hcmp).trans hc
  have hm' := next_stepCntMaxReg (i := i) hr.psStepSizeReg
  have hs' : (st.next i).fsm.stepCnt.toNat = (k + 1) * s.toNat := by
    simpa [PhaseSearch.next, PllPsFsm.next, hst] using hs
  cases hfall : st.fsm.psCtrlBusyFalling i with
  | false =>
      refine .phShift k (by simp [next_currentState, nextState, hst, hfall]) hm' hr' he' hc' hs' ?_ hlt
      simpa [PhaseSearch.next, shift, hfall] using hp
  | true =>
      refine .waitAfterPhShift (k + 1) (by simp [next_currentState, nextState, hst, hfall]) hm' hr' he' hc'
        ⟨hs', ?_, hlt⟩
      simp only [PhaseSearch.next, shift, hst, hfall, and_self, if_true, hr.psCtrlUpdwnReg, hr.psCtrlPhaseReg, hp,
        Nat.succ_mul]
      exact (Int.natCast_add _ _).symm

theorem inv_next_waitAfterPhShift {k : Nat} (hen : i.psEn = true) (hst : st.fsm.currentState = .waitAfterPhShift)
    (hr : ScanRegs s st) (he : Edge s err k st) (hc : st.compareCnt = k) (ha : At s k st) :
    Inv s err (st.next i) := by
  have hcmp : st.compared i = false := compared_of_ne (by simp [hst])
  have hr' : ScanRegs s (st.next i) := hr.next hen (by simp [hst]) (by simp [hst]) (by simp [hst]) (by simp [hst])
  have he' : Edge s err k (st.next i) := he.next (by simp [hst]) (by simp [hst]) hcmp
  have hc' : (st.next i).compareCnt = k := (next_compareCnt hcmp).trans hc
  have hm' := next_stepCntMaxReg (i := i) hr.psStepSizeReg
  have ha' : At s k (st.next i) := ha.next (by simp [hst]) (by simp [hst]) (by simp [hst])
  by_cases hcnt : st.fsm.waitAfterPhShiftCnt > 0xFD
  · exact .compare k (Or.inl (by simp only [next_currentState, nextState, hst, hcnt, if_true])) hm' hr' he' hc' ha'
  · exact .waitAfterPhShift k (by simp only [next_currentState, nextState, hst, hcnt, if_false]) hm' hr' he' hc' ha'

/-! ## The final shift -/

theorem inv_next_maxFound {k₀ l : Nat} (hen : i.psEn = true) (hst : st.fsm.currentState = .maxFound)
    (hr : ScanRegs s st) (hf : st.fsm.findMin = false) (hq : st.posMin = some ((k₀ * s.toNat : Nat) : Int))
    (hn : st.fsm.stepCntMin.toNat = k₀ * s.toNat) (hp : st.posMax = some ((l * s.toNat : Nat) : Int))
    (hw : Window s err k₀ (l + 1)) (hx : err (l + 1) = true) (hc : st.compareCnt = l + 2)
    (ha : At s (l + 1) st) : Inv s err (st.next i) := by
  have hcmp : st.compared i = false := compared_of_ne (by simp [hst])
  have hmul : (l + 1) * s.toNat = l * s.toNat + s.toNat := Nat.succ_mul l s.toNat
  have hlt := ha.lt
  refine .prepPhase true k₀ l (by simp [next_currentState, nextState, hst])
    ⟨hen, ?_, ?_, ?_, ?_, ?_, ?_, hw, hlt, hx, ?_⟩ ((next_compareCnt hcmp).trans hc) ?_ ?_ ?_ ?_ ?_
  · simpa [PhaseSearch.next, PllPsFsm.next, hst] using hf
  · have h : (st.next i).fsm.stepCnt = st.fsm.stepCnt := by simp [PhaseSearch.next, PllPsFsm.next, hst]
    rw [h, ha.stepCnt, Nat.mod_eq_of_lt (by omega)]
  · simpa [PhaseSearch.next, PllPsFsm.next, hst] using hn
  · have h : (st.next i).fsm.stepCntMax = st.fsm.stepCnt - s := by
      simp [PhaseSearch.next, PllPsFsm.next, hst, hr.psStepSizeReg]
    have hcnt := ha.stepCnt
    rw [h, BitVec.toNat_sub, high, if_pos rfl]
    omega
  · simpa [PhaseSearch.next, hst] using hq
  · simpa [PhaseSearch.next, hcmp] using hp
  · rw [decide_eq_false (by omega)]
    simp [PhaseSearch.next, hst, hr.wrapped]
  · have h : (st.next i).position = st.position := by simp [PhaseSearch.next, shift, hst]
    rw [h]
    exact ha.position
  all_goals simp [PhaseSearch.next, PllPsFsm.next, hst]

/-- The end of the window is not below its beginning, and both are in the range of the counters. -/
theorem Closed.bounds {up : Bool} {k₀ l : Nat} (h : Closed s err up k₀ l st) :
    k₀ * s.toNat ≤ high s up l ∧ high s up l ≤ 1023 ∧ middle s up k₀ l ≤ (l + 1) * s.toNat ∧
      back s up k₀ l ≤ scanEnd s up l := by
  have hmul : (l + 1) * s.toNat = l * s.toNat + s.toNat := Nat.succ_mul l s.toNat
  have hle := h.window.mul_le
  have hpos := h.window.pos
  have hlt := h.lt
  have hend := h.ended
  unfold back middle
  cases up with
  | true =>
      simp only [high, scanEnd, if_true] at *
      omega
  | false =>
      simp only [high, scanEnd, Bool.false_eq_true, if_false] at *
      omega

theorem Closed.next {up : Bool} {k₀ l : Nat} (h : Closed s err up k₀ l st) (hen : i.psEn = true)
    (h1 : st.fsm.currentState = .prepPhase ∨ st.fsm.currentState = .phShift ∨
      st.fsm.currentState = .waitAfterPhShift ∨ st.fsm.currentState = .checkCmpStatus ∨
      st.fsm.currentState = .cmpSmpls) (hf : st.fsm.findMax = false ∨ st.fsm.currentState ≠ .cmpSmpls) :
    Closed s err up k₀ l (st.next i) := by
  have hidle : st.fsm.currentState ≠ .idle := by rcases h1 with h | h | h | h | h <;> simp [h]
  have hmin : st.fsm.currentState ≠ .minFound := by rcases h1 with h | h | h | h | h <;> simp [h]
  have hmax : st.fsm.currentState ≠ .maxFound := by rcases h1 with h | h | h | h | h <;> simp [h]
  have hchk : st.fsm.currentState ≠ .checkMaxSteps := by rcases h1 with h | h | h | h | h <;> simp [h]
  have hq : (st.next i).posMax = st.posMax := by
    rcases hf with hf | hne
    · simp [PhaseSearch.next, h.findMin, hf]
    · simp [PhaseSearch.next, compared_of_ne hne]
  refine ⟨hen, ?_, ?_, ?_, ?_, ?_, hq.trans h.posMax, h.window, h.lt, h.ended, ?_⟩
  · simpa [PhaseSearch.next, PllPsFsm.next, hidle, hmin] using h.findMin
  · simpa [PhaseSearch.next, PllPsFsm.next, hidle, hchk] using h.stepCnt
  · simpa [PhaseSearch.next, PllPsFsm.next, hidle, hmin] using h.stepCntMin
  · simpa [PhaseSearch.next, PllPsFsm.next, hidle, hmax] using h.stepCntMax
  · simpa [PhaseSearch.next, hmin] using h.posMin
  · simpa [PhaseSearch.next, hchk] using h.wrapped

/-- The three stages of the calculation take three cycles, and the fourth one loads the result. -/
theorem inv_next_prepPhase {up : Bool} {k₀ l : Nat} (hen : i.psEn = true) (hst : st.fsm.currentState = .prepPhase)
    (hcl : Closed s err up k₀ l st) (hc : st.compareCnt = scanned up l)
    (hp : st.position = (scanEnd s up l : Nat)) (hcnt : st.fsm.prepPhaseCnt.toNat ≤ 3)
    (h1 : 1 ≤ st.fsm.prepPhaseCnt.toNat →
      st.fsm.findMax = false ∧ st.fsm.stepCntDiff = st.fsm.stepCntMax - st.fsm.stepCntMin)
    (h2 : 2 ≤ st.fsm.prepPhaseCnt.toNat → st.fsm.stepCntMiddle.toNat = middle s up k₀ l)
    (h3 : 3 ≤ st.fsm.prepPhaseCnt.toNat → st.fsm.stepCntReverse.toNat = back s up k₀ l) :
    Inv s err (st.next i) := by
  have hcmp : st.compared i = false := compared_of_ne (by simp [hst])
  have hcl' : Closed s err up k₀ l (st.next i) := hcl.next hen (Or.inl hst) (Or.inr (by simp [hst]))
  have hc' : (st.next i).compareCnt = scanned up l := (next_compareCnt hcmp).trans hc
  have hp' : (st.next i).position = (scanEnd s up l : Nat) := by simpa [PhaseSearch.next, shift, hst] using hp
  have hf' : (st.next i).fsm.findMax = false := by simp [PhaseSearch.next, PllPsFsm.next, hst]
  have hcnt' : (st.next i).fsm.prepPhaseCnt = st.fsm.prepPhaseCnt + 1 := by
    simp [PhaseSearch.next, PllPsFsm.next, hst]
  have hgt : st.fsm.prepPhaseCnt > 2 ↔ 3 ≤ st.fsm.prepPhaseCnt.toNat := by
    rw [gt_iff_lt, BitVec.lt_def]
    exact Iff.rfl
  by_cases hlast : 3 ≤ st.fsm.prepPhaseCnt.toNat
  · refine .finalShift up k₀ l ?_ hcl' hf' hc' hp' ?_ ?_
    · simp only [next_currentState, nextState, hst, hgt, hlast, if_true]
    · rw [← h3 hlast]
      simp [PhaseSearch.next, PllPsFsm.next, hst]
    · simp [PhaseSearch.next, PllPsFsm.next, hst, psEnRising, hcl.psEnReg]
  · have hsucc : (st.next i).fsm.prepPhaseCnt.toNat = st.fsm.prepPhaseCnt.toNat + 1 := by
      rw [hcnt', BitVec.toNat_add]
      exact Nat.mod_eq_of_lt (by simp; omega)
    obtain ⟨hlow, hhigh, hmid, _⟩ := hcl.bounds
    refine .prepPhase up k₀ l ?_ hcl' hc' hp' (by omega) (fun _ => ⟨hf', ?_⟩) (fun h => ?_) (fun h => ?_)
    · simp only [next_currentState, nextState, hst, hgt, hlast, if_false]
    · simp [PhaseSearch.next, PllPsFsm.next, hst]
    · have hdiff := (h1 (by omega)).2
      have hm : (st.next i).fsm.stepCntMiddle = (st.fsm.stepCntDiff >>> 1) + st.fsm.stepCntMin := rfl
      have hmax := hcl.stepCntMax
      have hmin := hcl.stepCntMin
      rw [hm, hdiff, BitVec.toNat_add, BitVec.toNat_ushiftRight, BitVec.toNat_sub, hmax, hmin, middle,
        Nat.shiftRight_eq_div_pow]
      omega
    · have hm := h2 (by omega)
      have hr : (st.next i).fsm.stepCntReverse = st.fsm.stepCnt - st.fsm.stepCntMiddle := rfl
      have hs := hcl.stepCnt
      have hback : back s up k₀ l ≤ scanEnd s up l := hcl.bounds.2.2.2
      have hlt := hcl.lt
      rw [hr, BitVec.toNat_sub, hs, hm]
      unfold back at hback ⊢
      omega

theorem inv_next_finalShift {up : Bool} {k₀ l : Nat} (hen : i.psEn = true) (hst : st.fsm.currentState = .phShift)
    (hcl : Closed s err up k₀ l st) (hf : st.fsm.findMax = false) (hc : st.compareCnt = scanned up l)
    (hp : st.position = (scanEnd s up l : Nat)) (hr : st.fsm.psCtrlPhaseReg.toNat = back s up k₀ l)
    (hd : st.fsm.psCtrlUpdwnReg = !st.fsm.psUpdwnReg) : Inv s err (st.next i) := by
  have hcmp : st.compared i = false := compared_of_ne (by simp [hst])
  have hcl' : Closed s err up k₀ l (st.next i) := hcl.next hen (Or.inr (Or.inl hst)) (Or.inl hf)
  have hc' : (st.next i).compareCnt = scanned up l := (next_compareCnt hcmp).trans hc
  have hf' : (st.next i).fsm.findMax = false := by simpa [PhaseSearch.next, PllPsFsm.next, hst] using hf
  cases hfall : st.fsm.psCtrlBusyFalling i with
  | false =>
      refine .finalShift up k₀ l (by simp [next_currentState, nextState, hst, hfall]) hcl' hf' hc' ?_ ?_ ?_
      · simpa [PhaseSearch.next, shift, hfall] using hp
      · simpa [PhaseSearch.next, PllPsFsm.next, hst] using hr
      · simpa [PhaseSearch.next, PllPsFsm.next, hst, psEnRising, hcl.psEnReg] using hd
  | true =>
      refine .finalCompare up k₀ l (Or.inl (by simp [next_currentState, nextState, hst, hfall])) hcl' hf' hc' ?_
      simp only [PhaseSearch.next, shift, hst, hfall, and_self, if_true, hd, Bool.not_eq_self, if_false, hp, hr]
      rfl

theorem inv_next_finalCompare {up : Bool} {k₀ l : Nat} (hen : i.psEn = true)
    (hst : st.fsm.currentState = .waitAfterPhShift ∨ st.fsm.currentState = .checkCmpStatus ∨
      st.fsm.currentState = .cmpSmpls)
    (hcl : Closed s err up k₀ l st) (hf : st.fsm.findMax = false) (hc : st.compareCnt = scanned up l)
    (hp : st.position = (scanEnd s up l : Nat) - (back s up k₀ l : Nat)) : Inv s err (st.next i) := by
  have hcl' : Closed s err up k₀ l (st.next i) := hcl.next hen (Or.inr (Or.inr hst)) (Or.inl hf)
  have hp' : (st.next i).position = (scanEnd s up l : Nat) - (back s up k₀ l : Nat) := by
    rcases hst with h | h | h <;> simpa [PhaseSearch.next, shift, h] using hp
  have hf' : (st.next i).fsm.findMax = false := by
    rcases hst with h | h | h <;> simpa [PhaseSearch.next, PllPsFsm.next, h] using hf
  have hstay : st.compared i = false → (st.next i).fsm.currentState = .waitAfterPhShift ∨
      (st.next i).fsm.currentState = .checkCmpStatus ∨ (st.next i).fsm.currentState = .cmpSmpls →
      Inv s err (st.next i) := fun hcmp h' =>
    .finalCompare up k₀ l h' hcl' hf' ((next_compareCnt hcmp).trans hc) hp'
  rcases hst with h | h | h
  · refine hstay (compared_of_ne (by simp [h])) ?_
    rw [next_currentState, nextState, h]
    by_cases hcnt : st.fsm.waitAfterPhShiftCnt > 0xFD
    · exact Or.inr (Or.inl (if_pos hcnt))
    · exact Or.inl (if_neg hcnt)
  · refine hstay (compared_of_ne (by simp [h])) ?_
    rw [next_currentState, nextState, h]
    cases i.smplCmpDone
    · exact Or.inr (Or.inr rfl)
    · exact Or.inr (Or.inl rfl)
  · cases hdone : i.smplCmpDone with
    | false =>
        exact hstay (by simp [compared, hdone])
          (Or.inr (Or.inr (by simp [next_currentState, nextState, h, hdone])))
    | true =>
        refine .endFinal up k₀ l ?_ hcl' ?_ hp'
        · simp [next_currentState, nextState, h, hdone, hcl.findMin, hf]
        · simp [PhaseSearch.next, compared, h, hdone, hc]

/-! ## All states -/

theorem inv_next (h : Inv s err st) (hen : i.psEn = true)
    (herr : st.compared i = true → i.smplCmpError = err st.compareCnt) : Inv s err (st.next i) := by
  cases h with
  | lock hst hr he hc ha => exact inv_next_lock hen hst hr he hc ha
  | compare k hst hm hr he hc ha => exact inv_next_compare hen herr hst hr he hc ha
  | minFound k hst hm hr hw hp hc ha => exact inv_next_minFound hen hst hr hw hp hc ha
  | maxFound k₀ l hst hr hf hq hn hp hw hx hc ha => exact inv_next_maxFound hen hst hr hf hq hn hp hw hx hc ha
  | checkMaxSteps k hst hm hr he hc ha => exact inv_next_checkMaxSteps hen hst hm hr he hc ha
  | phShift k hst hm hr he hc hs hp hlt => exact inv_next_phShift hen hst hr he hc hs hp hlt
  | waitAfterPhShift k hst hm hr he hc ha => exact inv_next_waitAfterPhShift hen hst hr he hc ha
  | prepPhase up k₀ l hst hcl hc hp hcnt h1 h2 h3 => exact inv_next_prepPhase hen hst hcl hc hp hcnt h1 h2 h3
  | finalShift up k₀ l hst hcl hf hc hp hr hd => exact inv_next_finalShift hen hst hcl hf hc hp hr hd
  | finalCompare up k₀ l hst hcl hf hc hp => exact inv_next_finalCompare hen hst hcl hf hc hp
  | endNone k hst he hq hn hc hlt hle => exact .ended (by simp [next_currentState, nextState, hst]) hen
  | endFinal up k₀ l hst hcl hc hp => exact .ended (by simp [next_currentState, nextState, hst]) hen
  | ended hst he => exact .ended (by simp [next_currentState, nextState, hst, psEnRising, he]) hen

end PhaseSearch

end LimeSdrQpcie
