import LimeSdrQpcie.DynPs.Lemmas.PllPsFsm
import Mathlib.Data.Nat.Find

/-!
# Runs of the phase search

What a search has done when it reports done, and that it does: as long as the PLL, the comparator and the shift
control answer, one comparison comes after another, and a step that is not zero leaves room for 1024 of them.
-/

namespace LimeSdrQpcie

open Hdl

namespace PhaseSearch

open PllPsFsm

variable {s : BitVec 10} {err : Nat → Bool} {st : PhaseSearch} {i : PllPsFsmIn}

variable (fsm : PllPsFsm) (x : Nat → PllPsFsmIn)

/-- The search in cycle `n`. -/
def searchAt (n : Nat) : PhaseSearch := (circuit fsm).run x n

/-- An automatic search begins: the state machine is idle, the enable rises and stays. -/
structure Starts : Prop where
  currentState : fsm.currentState = .idle
  psEnReg : fsm.psEnReg = false
  psDoneReg : fsm.psDoneReg = false
  psEn : ∀ n, (x n).psEn = true
  psMode : ∀ n, (x n).psMode = true

/-- Comparison `k` is answered with the error flag `err k`. -/
def Results (err : Nat → Bool) : Prop :=
  ∀ n, (searchAt fsm x n).compared (x n) = true → (x n).smplCmpError = err (searchAt fsm x n).compareCnt

/-- The PLL, the comparator and the shift control answer after finitely many cycles. -/
structure Answers : Prop where
  unlocked : ∀ n, (searchAt fsm x n).fsm.currentState = .rstPll → ∃ m, n ≤ m ∧ (!(x m).pllLocked) = true
  locked : ∀ n, (searchAt fsm x n).fsm.currentState = .waitPllLock → ∃ m, n ≤ m ∧ (x m).pllLocked = true
  cleared : ∀ n, (searchAt fsm x n).fsm.currentState = .checkCmpStatus → ∃ m, n ≤ m ∧ (!(x m).smplCmpDone) = true
  compared : ∀ n, (searchAt fsm x n).fsm.currentState = .cmpSmpls → ∃ m, n ≤ m ∧ (x m).smplCmpDone = true
  shifted : ∀ n, (searchAt fsm x n).fsm.currentState = .phShift →
    ∃ m, n ≤ m ∧ (searchAt fsm x m).fsm.psCtrlBusyFalling (x m) = true

/-- The search reports done after cycle `n`. -/
def Reports (n : Nat) : Prop :=
  (searchAt fsm x n).fsm.psDoneReg = false ∧ (searchAt fsm x (n + 1)).fsm.psDoneReg = true

instance (n : Nat) : Decidable (Reports fsm x n) := inferInstanceAs (Decidable (_ ∧ _))

/-- The scan finds a lower edge, and every comparison from it to the end of the range passes. -/
def OpenAtEnd (s : BitVec 10) (err : Nat → Bool) : Prop :=
  ∃ k, 2 < k * s.toNat ∧ k * s.toNat < 1023 ∧ NoLower s err k ∧ ∀ j, k ≤ j → j * s.toNat < 1023 → err j = false

variable {fsm x}

theorem searchAt_succ (n : Nat) : searchAt fsm x (n + 1) = (searchAt fsm x n).next (x n) := rfl

theorem inv_run (h : Starts fsm x) (hres : Results fsm x err) (n : Nat) :
    Inv (x 0).psStepSize err (searchAt fsm x (n + 1)) := by
  induction n with
  | zero => exact inv_start h.currentState h.psEnReg (h.psEn 0) (h.psMode 0)
  | succ n ih => exact inv_next ih (h.psEn (n + 1)) (hres (n + 1))

theorem of_reports (h : Starts fsm x) {n : Nat} (hd : Reports fsm x n) :
    (searchAt fsm x n).fsm.currentState = .endSrch := by
  obtain ⟨h0, h1⟩ := hd
  rw [searchAt_succ] at h1
  simp only [PhaseSearch.next, PllPsFsm.next, h.psEn n, Bool.true_eq_false, if_false, h0] at h1
  by_contra hne
  rw [if_neg hne] at h1
  cases h1

/-- What an ended search leaves: no lower edge up to the end of the range, or a window and the final shift. -/
theorem inv_reports (h : Starts fsm x) (hres : Results fsm x err) {n : Nat} (hd : Reports fsm x n) :
    (∃ k, (searchAt fsm x n).posMin = none ∧ NoLower (x 0).psStepSize err (k + 1) ∧
        (searchAt fsm x n).compareCnt = k + 1 ∧ k * (x 0).psStepSize.toNat < 1023 ∧
        1023 ≤ (k + 1) * (x 0).psStepSize.toNat) ∨
      ∃ up k₀ l, Closed (x 0).psStepSize err up k₀ l (searchAt fsm x n) ∧
        (searchAt fsm x n).compareCnt = scanned up l + 1 ∧
        (searchAt fsm x n).position =
          (scanEnd (x 0).psStepSize up l : Nat) - (back (x 0).psStepSize up k₀ l : Nat) := by
  have hend := of_reports h hd
  cases n with
  | zero =>
      have hidle : (searchAt fsm x 0).fsm.currentState = .idle := h.currentState
      rw [hidle] at hend
      cases hend
  | succ n =>
      cases inv_run h hres n with
      | endNone k hst he hq hn hc hlt hle => exact Or.inl ⟨k, hq, hn, hc, hlt, hle⟩
      | endFinal up k₀ l hst hcl hc hp => exact Or.inr ⟨up, k₀, l, hcl, hc, hp⟩
      | lock hst hr he hc ha => rcases hst with h | h <;> rw [h] at hend <;> cases hend
      | compare k hst hm hr he hc ha => rcases hst with h | h <;> rw [h] at hend <;> cases hend
      | finalCompare up k₀ l hst hcl hf hc hp => rcases hst with h | h | h <;> rw [h] at hend <;> cases hend
      | minFound k hst => rw [hst] at hend; cases hend
      | maxFound k₀ l hst => rw [hst] at hend; cases hend
      | checkMaxSteps k hst => rw [hst] at hend; cases hend
      | phShift k hst => rw [hst] at hend; cases hend
      | waitAfterPhShift k hst => rw [hst] at hend; cases hend
      | prepPhase up k₀ l hst => rw [hst] at hend; cases hend
      | finalShift up k₀ l hst => rw [hst] at hend; cases hend
      | ended hst => rw [hst] at hend; cases hend

/-! ## The upper edge -/

theorem Window.eq_of_noLower {k₀ k n : Nat} (h : Window s err k₀ n) (hs : 2 < k * s.toNat) (hn : NoLower s err k)
    (hk : err k = false) : k = k₀ := by
  rcases Nat.lt_trichotomy k k₀ with hlt | heq | hgt
  · rw [h.noLower k hlt hs] at hk
    cases hk
  · exact heq
  · have hpass := h.pass k₀ (Nat.le_refl _) h.lt
    rw [hn k₀ hgt h.two_lt] at hpass
    cases hpass

/-- A closed window has an upper edge unless it was closed by the end of the range. -/
theorem Closed.openAtEnd_iff {up : Bool} {k₀ l : Nat} (h : Closed s err up k₀ l st) :
    OpenAtEnd s err ↔ up = false := by
  have hend := h.ended
  have hlt := h.lt
  constructor
  · rintro ⟨k, hs, hk, hn, hall⟩
    cases up with
    | false => rfl
    | true =>
        have hkk := h.window.eq_of_noLower hs hn (hall k (Nat.le_refl k) hk)
        have hpass := hall (l + 1) (by rw [hkk]; exact Nat.le_of_lt h.window.lt) hlt
        rw [show err (l + 1) = true from hend] at hpass
        cases hpass
  · rintro rfl
    refine ⟨k₀, h.window.two_lt, Nat.lt_of_le_of_lt h.window.mul_le hlt, h.window.noLower, fun j hj hlt' => ?_⟩
    refine h.window.pass j hj (Nat.lt_of_mul_lt_mul_right (a := s.toNat) ?_)
    exact Nat.lt_of_lt_of_le hlt' hend

/-- The final shift ends in the middle of the window, if its end was found, and else a step below the middle
between the lower edge and the end of the range. -/
theorem Closed.middle_iff {up : Bool} {k₀ l : Nat} (h : Closed s err up k₀ l st) :
    ((scanEnd s up l : Nat) - (back s up k₀ l : Nat) : Int) =
        (k₀ * s.toNat : Nat) + ((l * s.toNat : Nat) - (k₀ * s.toNat : Nat)) / 2 ↔
      ¬ OpenAtEnd s err ∨ s = 1 ∧ (k₀ * s.toNat) % 2 = 1 := by
  rw [h.openAtEnd_iff]
  have hmul : (l + 1) * s.toNat = l * s.toNat + s.toNat := Nat.succ_mul l s.toNat
  have hle := h.window.mul_le
  have hpos := h.window.pos
  have htwo := h.window.two_lt
  obtain ⟨h1, h2, h3, h4⟩ := h.bounds
  have hlt := h.lt
  have hend := h.ended
  have hone : s = 1 ↔ s.toNat = 1 := by rw [← BitVec.toNat_inj]; rfl
  rw [hone]
  unfold back middle at *
  cases up with
  | true =>
      simp only [high, scanEnd, if_true, Bool.true_eq_false, not_false_eq_true, true_or, iff_true] at *
      generalize (l + 1) * s.toNat = M at *
      generalize l * s.toNat = L at *
      generalize k₀ * s.toNat = P at *
      omega
  | false =>
      simp only [high, scanEnd, Bool.false_eq_true, if_false, not_true_eq_false, false_or] at *
      generalize (l + 1) * s.toNat = M at *
      generalize l * s.toNat = L at *
      generalize k₀ * s.toNat = P at *
      omega

/-! ## The step counter -/

theorem not_openAtEnd {k : Nat} (hn : NoLower s err (k + 1)) (hle : 1023 ≤ (k + 1) * s.toNat) :
    ¬ OpenAtEnd s err := by
  rintro ⟨j, hs, hlt, _, hall⟩
  have hj : j < k + 1 := Nat.lt_of_mul_lt_mul_right (a := s.toNat) (Nat.lt_of_lt_of_le hlt hle)
  have hpass := hall j (Nat.le_refl j) hlt
  rw [hn j hj hs] at hpass
  cases hpass

/-- The counter is advanced to the first multiple of the step outside the range. -/
theorem Closed.dvd_of_not_wrapped {up : Bool} {k₀ l : Nat} (h : Closed s err up k₀ l st) (ho : OpenAtEnd s err)
    (hw : st.wrapped = false) : 1023 % s.toNat = 0 := by
  obtain rfl := h.openAtEnd_iff.mp ho
  have hend : 1023 ≤ (l + 1) * s.toNat := h.ended
  have hwrap := h.wrapped
  rw [hw, eq_comm, decide_eq_false_iff_not] at hwrap
  rw [show 1023 = (l + 1) * s.toNat by omega]
  exact Nat.mul_mod_left _ _

theorem Closed.not_wrapped {up : Bool} {k₀ l : Nat} (h : Closed s err up k₀ l st)
    (hd : 1023 % s.toNat = 0 ∨ ¬ OpenAtEnd s err) : st.wrapped = false := by
  rw [h.wrapped, decide_eq_false_iff_not, Nat.not_le]
  have hlt := h.lt
  cases up with
  | true => exact Nat.lt_succ_of_lt hlt
  | false =>
      obtain ⟨c, hc⟩ := Nat.dvd_of_mod_eq_zero (hd.resolve_right (not_not.mpr (h.openAtEnd_iff.mpr rfl)))
      have hlc : l < c := by
        refine Nat.lt_of_mul_lt_mul_right (a := s.toNat) ?_
        rw [Nat.mul_comm c, ← hc]
        exact hlt
      have hle : (l + 1) * s.toNat ≤ 1023 := by
        rw [hc, Nat.mul_comm s.toNat]
        exact Nat.mul_le_mul_right _ hlc
      omega

/-! ## The search ends -/

theorem currentState_succ (n : Nat) : (searchAt fsm x (n + 1)).fsm.currentState =
    (searchAt fsm x n).fsm.nextState (x n) := rfl

/-- A comparison is answered, or the search ends. -/
def Comes (fsm : PllPsFsm) (x : Nat → PllPsFsmIn) (n : Nat) : Prop :=
  ∃ m, n ≤ m ∧ ((searchAt fsm x m).compared (x m) = true ∨ (searchAt fsm x m).fsm.currentState = .endSrch)

theorem Comes.of_le {n m : Nat} (h : Comes fsm x m) (hle : n ≤ m) : Comes fsm x n := by
  obtain ⟨k, hk, hc⟩ := h
  exact ⟨k, Nat.le_trans hle hk, hc⟩

section Answered

variable (ha : Answers fsm x) {n : Nat}

include ha in
theorem comes_of_cmpSmpls (hst : (searchAt fsm x n).fsm.currentState = .cmpSmpls) : Comes fsm x n := by
  obtain ⟨m, hm, hs, hd⟩ := stays_until (f := fun n => (searchAt fsm x n).fsm.currentState)
    (c := fun m => (x m).smplCmpDone) (fun m h hd => by simp [currentState_succ, nextState, h, hd]) hst
    (ha.compared n hst)
  exact ⟨m, hm, Or.inl (by simp [PhaseSearch.compared, hs, hd])⟩

include ha in
theorem comes_of_checkCmpStatus (hst : (searchAt fsm x n).fsm.currentState = .checkCmpStatus) : Comes fsm x n := by
  obtain ⟨m, hm, hs, hd⟩ := stays_until (f := fun n => (searchAt fsm x n).fsm.currentState)
    (c := fun m => !(x m).smplCmpDone) (fun m h hd => by simp_all [currentState_succ, nextState]) hst
    (ha.cleared n hst)
  refine (comes_of_cmpSmpls ha (n := m + 1) ?_).of_le (Nat.le_succ_of_le hm)
  simp_all [currentState_succ, nextState]

include ha in
theorem comes_of_waitPllLock (hst : (searchAt fsm x n).fsm.currentState = .waitPllLock)
    (hf : ∀ m, (searchAt fsm x m).fsm.currentState = .waitPllLock → (searchAt fsm x m).fsm.findMax = true) :
    Comes fsm x n := by
  obtain ⟨m, hm, hs, hd⟩ := stays_until (f := fun n => (searchAt fsm x n).fsm.currentState)
    (c := fun m => (x m).pllLocked) (fun m h hd => by simp [currentState_succ, nextState, h, hd]) hst
    (ha.locked n hst)
  refine (comes_of_checkCmpStatus ha (n := m + 1) ?_).of_le (Nat.le_succ_of_le hm)
  simp [currentState_succ, nextState, hs, hd, hf m hs]

include ha in
theorem comes_of_rstPll (hst : (searchAt fsm x n).fsm.currentState = .rstPll)
    (hf : ∀ m, (searchAt fsm x m).fsm.currentState = .waitPllLock → (searchAt fsm x m).fsm.findMax = true) :
    Comes fsm x n := by
  obtain ⟨m, hm, hs, hd⟩ := stays_until (f := fun n => (searchAt fsm x n).fsm.currentState)
    (c := fun m => !(x m).pllLocked) (fun m h hd => by simp_all [currentState_succ, nextState]) hst
    (ha.unlocked n hst)
  refine (comes_of_waitPllLock ha (n := m + 1) ?_ hf).of_le (Nat.le_succ_of_le hm)
  simp_all [currentState_succ, nextState]

/-- A state that is left when its counter is above the limit, and until then counts. -/
theorem comes_of_count {state : PllPsState} {w : Nat} (cnt : PllPsFsm → BitVec w) (limit : BitVec w)
    (hlimit : limit.toNat + 1 < 2 ^ w)
    (hleave : ∀ m, (searchAt fsm x m).fsm.currentState = state → cnt (searchAt fsm x m).fsm > limit →
      Comes fsm x (m + 1))
    (hstay : ∀ m, (searchAt fsm x m).fsm.currentState = state → ¬ cnt (searchAt fsm x m).fsm > limit →
      (searchAt fsm x (m + 1)).fsm.currentState = state ∧
        cnt (searchAt fsm x (m + 1)).fsm = cnt (searchAt fsm x m).fsm + 1#w)
    (k : Nat) (hst : (searchAt fsm x n).fsm.currentState = state)
    (hk : limit.toNat < (cnt (searchAt fsm x n).fsm).toNat + k) : Comes fsm x n := by
  induction k generalizing n with
  | zero => exact (hleave n hst (BitVec.lt_def.mpr hk)).of_le (Nat.le_succ n)
  | succ k ih =>
      by_cases hgt : cnt (searchAt fsm x n).fsm > limit
      · exact (hleave n hst hgt).of_le (Nat.le_succ n)
      · obtain ⟨hst', hcnt⟩ := hstay n hst hgt
        rw [gt_iff_lt, BitVec.lt_def, Nat.not_lt] at hgt
        have hw : 0 < w := Nat.pos_of_ne_zero fun h0 => by simp [h0] at hlimit
        have hone : (cnt (searchAt fsm x (n + 1)).fsm).toNat = (cnt (searchAt fsm x n).fsm).toNat + 1 := by
          rw [hcnt, BitVec.toNat_add, BitVec.toNat_one hw, Nat.mod_eq_of_lt (by omega)]
        exact (ih hst' (by omega)).of_le (Nat.le_succ n)

include ha in
theorem comes_of_waitAfterPhShift (k : Nat) (hst : (searchAt fsm x n).fsm.currentState = .waitAfterPhShift)
    (hk : 253 < (searchAt fsm x n).fsm.waitAfterPhShiftCnt.toNat + k) : Comes fsm x n := by
  refine comes_of_count waitAfterPhShiftCnt 0xFD (by decide) (fun m hm hgt => ?_) (fun m hm hgt => ?_) k hst hk
  · exact comes_of_checkCmpStatus ha (by simp only [currentState_succ, nextState, hm, hgt, if_true])
  · exact ⟨by simp only [currentState_succ, nextState, hm, hgt, if_false],
      by simp [searchAt_succ, PhaseSearch.next, PllPsFsm.next, hm]⟩

include ha in
theorem comes_of_phShift (hst : (searchAt fsm x n).fsm.currentState = .phShift) : Comes fsm x n := by
  obtain ⟨m, hm, hs, hd⟩ := stays_until (f := fun n => (searchAt fsm x n).fsm.currentState)
    (c := fun m => (searchAt fsm x m).fsm.psCtrlBusyFalling (x m))
    (fun m h hd => by simp [currentState_succ, nextState, h, hd]) hst (ha.shifted n hst)
  refine (comes_of_waitAfterPhShift ha 254 (n := m + 1) ?_ (by omega)).of_le (Nat.le_succ_of_le hm)
  simp [currentState_succ, nextState, hs, hd]

include ha in
theorem comes_of_prepPhase (k : Nat) (hst : (searchAt fsm x n).fsm.currentState = .prepPhase)
    (hk : 2 < (searchAt fsm x n).fsm.prepPhaseCnt.toNat + k) : Comes fsm x n := by
  refine comes_of_count prepPhaseCnt 2 (by decide) (fun m hm hgt => ?_) (fun m hm hgt => ?_) k hst hk
  · exact comes_of_phShift ha (by simp only [currentState_succ, nextState, hm, hgt, if_true])
  · exact ⟨by simp only [currentState_succ, nextState, hm, hgt, if_false],
      by simp [searchAt_succ, PhaseSearch.next, PllPsFsm.next, hm]⟩

include ha in
theorem comes_of_checkMaxSteps (hst : (searchAt fsm x n).fsm.currentState = .checkMaxSteps) : Comes fsm x n := by
  refine Comes.of_le (m := n + 1) ?_ (Nat.le_succ n)
  have hnext := @currentState_succ fsm x n
  simp only [nextState, hst] at hnext
  split at hnext
  · exact comes_of_phShift ha hnext
  · split at hnext
    · exact comes_of_prepPhase ha 3 hnext (by omega)
    · exact ⟨n + 1, Nat.le_refl _, Or.inr hnext⟩

end Answered

theorem currentState_one (h : Starts fsm x) : (searchAt fsm x 1).fsm.currentState = .rstPll ∨
    (searchAt fsm x 1).fsm.currentState = .waitPllLock := by
  have hs : (searchAt fsm x 1).fsm.currentState = fsm.nextState (x 0) := rfl
  have hrise : fsm.psEnRising (x 0) = true := by simp [psEnRising, h.psEnReg, h.psEn 0]
  rw [hs, nextState, h.currentState]
  simp only [hrise, h.psMode 0, and_self, if_true]
  cases (x 0).psResetAtStart
  · exact Or.inr rfl
  · exact Or.inl rfl

theorem idle_of_nextState {fsm : PllPsFsm} {i : PllPsFsmIn} (h : fsm.nextState i = .idle) :
    fsm.currentState = .idle ∨ fsm.currentState = .endSrch := by
  cases hs : fsm.currentState <;> simp only [nextState, hs] at h <;> grind

/-- Before the end of the search the state machine is not idle. -/
theorem currentState_ne_idle (h : Starts fsm x) {n : Nat}
    (hne : ∀ m ≤ n, (searchAt fsm x m).fsm.currentState ≠ .endSrch) :
    (searchAt fsm x (n + 1)).fsm.currentState ≠ .idle := by
  induction n with
  | zero => rcases currentState_one h with h | h <;> rw [h] <;> exact PllPsState.noConfusion
  | succ n ih =>
      intro hidle
      rcases idle_of_nextState hidle with h0 | h0
      · exact ih (fun m hm => hne m (Nat.le_succ_of_le hm)) h0
      · exact hne (n + 1) (Nat.le_refl _) h0

theorem comes_of_ne_idle (h : Starts fsm x) (hres : Results fsm x err) (ha : Answers fsm x) {n : Nat}
    (hne : (searchAt fsm x (n + 1)).fsm.currentState ≠ .idle) : Comes fsm x (n + 1) := by
  have hf : ∀ m, (searchAt fsm x m).fsm.currentState = .waitPllLock → (searchAt fsm x m).fsm.findMax = true := by
    intro m hm
    cases m with
    | zero =>
        have h0 : (searchAt fsm x 0).fsm.currentState = .idle := h.currentState
        rw [h0] at hm
        cases hm
    | succ m =>
        cases inv_run h hres m with
        | lock hst hr => exact hr.findMax
        | compare k hst => rcases hst with h | h <;> rw [h] at hm <;> cases hm
        | finalCompare up k₀ l hst => rcases hst with h | h | h <;> rw [h] at hm <;> cases hm
        | minFound k hst | maxFound k l hst | checkMaxSteps k hst | phShift k hst | waitAfterPhShift k hst
        | prepPhase up k l hst | finalShift up k l hst | endNone k hst | endFinal up k l hst | ended hst =>
            rw [hst] at hm
            cases hm
  cases inv_run h hres n with
  | lock hst =>
      rcases hst with hst | hst
      · exact comes_of_rstPll ha hst hf
      · exact comes_of_waitPllLock ha hst hf
  | compare k hst =>
      rcases hst with hst | hst
      · exact comes_of_checkCmpStatus ha hst
      · exact comes_of_cmpSmpls ha hst
  | minFound k hst =>
      refine (comes_of_checkMaxSteps ha (n := n + 2) ?_).of_le (Nat.le_succ _)
      simp [currentState_succ (n + 1), nextState, hst]
  | maxFound k l hst =>
      refine (comes_of_prepPhase ha 3 (n := n + 2) ?_ (by omega)).of_le (Nat.le_succ _)
      simp [currentState_succ (n + 1), nextState, hst]
  | checkMaxSteps k hst => exact comes_of_checkMaxSteps ha hst
  | phShift k hst | finalShift up k l hst => exact comes_of_phShift ha hst
  | waitAfterPhShift k hst => exact comes_of_waitAfterPhShift ha 254 hst (by omega)
  | prepPhase up k l hst => exact comes_of_prepPhase ha 3 hst (by omega)
  | finalCompare up k l hst =>
      rcases hst with hst | hst | hst
      · exact comes_of_waitAfterPhShift ha 254 hst (by omega)
      · exact comes_of_checkCmpStatus ha hst
      · exact comes_of_cmpSmpls ha hst
  | endNone k hst | endFinal up k l hst => exact ⟨n + 1, Nat.le_refl _, Or.inr hst⟩
  | ended hst => exact absurd hst hne

/-- A step that is not zero leaves room for 1023 comparisons in the range, and one follows the final shift. -/
theorem Inv.compareCnt_le (h : Inv s err st) (hs : s ≠ 0) (hne : st.fsm.currentState ≠ .idle) :
    st.compareCnt ≤ 1024 := by
  have hpos : 1 ≤ s.toNat := Nat.one_le_iff_ne_zero.mpr fun h0 => hs (BitVec.eq_of_toNat_eq h0)
  have hk : ∀ {k : Nat}, k * s.toNat < 1023 → k < 1023 := fun hk =>
    Nat.lt_of_le_of_lt (Nat.le_mul_of_pos_right _ hpos) hk
  have hscan : ∀ {up : Bool} {k₀ l : Nat}, Closed s err up k₀ l st → scanned up l ≤ 1023 := by
    intro up k₀ l hcl
    have hlt := hcl.lt
    cases up with
    | true => exact hk hlt
    | false => exact hk hlt
  cases h with
  | lock hst hr he hc => omega
  | compare k hst hm hr he hc ha =>
      have := hk ha.lt
      omega
  | minFound k hst hm hr hw hp hc ha | checkMaxSteps k hst hm hr he hc ha
  | waitAfterPhShift k hst hm hr he hc ha | maxFound k₀ k hst hr hf hq hn hp hw hx hc ha =>
      have := hk ha.lt
      omega
  | phShift k hst hm hr he hc hs hp hlt =>
      have := hk hlt
      omega
  | prepPhase up k₀ l hst hcl hc | finalShift up k₀ l hst hcl hf hc | finalCompare up k₀ l hst hcl hf hc
  | endFinal up k₀ l hst hcl hc =>
      have := hscan hcl
      omega
  | endNone k hst he hq hn hc hlt hle =>
      have := hk hlt
      omega
  | ended hst he => exact absurd hst hne

theorem compareCnt_succ (n : Nat) : (searchAt fsm x (n + 1)).compareCnt =
    (searchAt fsm x n).compareCnt + ((searchAt fsm x n).compared (x n)).toNat := rfl

theorem exists_endSrch (h : Starts fsm x) (hres : Results fsm x err) (ha : Answers fsm x)
    (hs : (x 0).psStepSize ≠ 0) : ∃ n, (searchAt fsm x n).fsm.currentState = .endSrch := by
  by_contra hno
  have hne : ∀ n, (searchAt fsm x n).fsm.currentState ≠ .endSrch := fun n hn => hno ⟨n, hn⟩
  have hidle : ∀ n, (searchAt fsm x (n + 1)).fsm.currentState ≠ .idle := fun n =>
    currentState_ne_idle h fun m _ => hne m
  have hle : ∀ n, (searchAt fsm x (n + 1)).compareCnt ≤ 1024 := fun n =>
    (inv_run h hres n).compareCnt_le hs (hidle n)
  have hcomes : ∀ n, ∃ m, n ≤ m ∧ (searchAt fsm x (m + 1)).compared (x (m + 1)) = true := by
    intro n
    obtain ⟨m, hm, hc⟩ := comes_of_ne_idle h hres ha (hidle n)
    rcases hc with hc | hc
    · exact ⟨m - 1, by omega, by rwa [show m - 1 + 1 = m by omega]⟩
    · exact absurd hc (hne m)
  have hend : ∃ m, 0 ≤ m ∧ False := by
    refine eventually_of_falls (v := fun n => 1025 - (searchAt fsm x (n + 1)).compareCnt) hcomes
      (fun n _ => ?_) (fun n _ hb => ?_) 0
    · simp only [compareCnt_succ (n + 1)]
      omega
    · have h1 := hle n
      simp only [compareCnt_succ (n + 1), hb, Bool.toNat_true]
      omega
  exact hend.elim fun _ hm => hm.2

theorem psDoneReg_of_ne (h : Starts fsm x) {n : Nat}
    (hne : ∀ m < n, (searchAt fsm x m).fsm.currentState ≠ .endSrch) : (searchAt fsm x n).fsm.psDoneReg = false := by
  induction n with
  | zero => exact h.psDoneReg
  | succ n ih =>
      have hn := hne n (Nat.lt_succ_self n)
      simp [searchAt_succ, PhaseSearch.next, PllPsFsm.next, hn, ih fun m hm => hne m (Nat.lt_succ_of_lt hm)]

/-- The first end of the search is reported. -/
theorem exists_reports (h : Starts fsm x) (hex : ∃ n, (searchAt fsm x n).fsm.currentState = .endSrch) :
    ∃ n, Reports fsm x n := by
  classical
  refine ⟨Nat.find hex, psDoneReg_of_ne h fun m hm => Nat.find_min hex hm, ?_⟩
  simp [searchAt_succ, PhaseSearch.next, PllPsFsm.next, h.psEn, Nat.find_spec hex]

theorem not_reports_of_zero (h : Starts fsm x) (hres : Results fsm x err) (hs : (x 0).psStepSize = 0) (n : Nat) :
    ¬ Reports fsm x n := by
  intro hd
  rcases inv_reports h hres hd with ⟨k, _, _, _, _, hle⟩ | ⟨up, k₀, l, hcl, _⟩
  · rw [hs] at hle
    exact absurd hle (by simp)
  · have htwo := hcl.window.two_lt
    rw [hs] at htwo
    exact absurd htwo (by simp)

end PhaseSearch

end LimeSdrQpcie
