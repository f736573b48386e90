import LimeSdrQpcie.DynPs.PhaseSystem
import LimeSdrQpcie.DynPs.Lemmas.PhaseLoop
import LimeSdrQpcie.DynPs.Lemmas.PllPsTop
import Mathlib.Algebra.Ring.Int.Defs

/-!
# Runs of the closed loop with the shift controller

The writes that the bus has taken move the phase of the PLL to the position of the search, whenever no shift is under
way.
-/

namespace LimeSdrQpcie

open Hdl

/-! ## What the writes of shifts do -/

def PsCtrl.steps (p : PsCtrl) : Int := if p.updown then p.phase.toNat else -p.phase.toNat

theorem dpsSteps_dpsWord (p : PsCtrl) : dpsSteps (dpsWord p.updown p.cnt (p.phase.setWidth 16)) = p.steps := by
  have hlow : (dpsWord p.updown p.cnt (p.phase.setWidth 16)).setWidth 16 = p.phase.setWidth 16 := by
    refine BitVec.eq_of_getLsbD_eq fun k hk => ?_
    rw [BitVec.getLsbD_setWidth, dpsWord, BitVec.getLsbD_append, if_pos hk, decide_eq_true hk, Bool.true_and]
  have hbit : (dpsWord p.updown p.cnt (p.phase.setWidth 16)).getLsbD 21 = p.updown := by
    rw [dpsWord]
    simp only [BitVec.getLsbD_append]
    simp
  have hphase : (p.phase.setWidth 16).toNat = p.phase.toNat := BitVec.toNat_setWidth_of_le (by decide)
  rw [dpsSteps, hbit, hlow, PsCtrl.steps, hphase]

theorem foldl_write_flatMap (s : DpsCore) (l : List PsCtrl) :
    ((l.flatMap PsCtrl.writes).foldl DpsCore.write s).moved = s.moved + (l.map PsCtrl.steps).sum := by
  induction l generalizing s with
  | nil => simp
  | cons p l ih =>
      rw [List.flatMap_cons, List.foldl_append, ih, List.map_cons, List.sum_cons, ← dpsSteps_dpsWord]
      simp [PsCtrl.writes, DpsCore.write, Int.add_assoc]

theorem moved_flatMap (l : List PsCtrl) : moved (l.flatMap PsCtrl.writes) = (l.map PsCtrl.steps).sum := by
  rw [moved, foldl_write_flatMap, Int.zero_add]

namespace PhaseSystem

variable {smplWidth : Nat} (c : SmplCmpCfg smplWidth) (cap : Capture smplWidth) (cnt : BitVec 5) (fsm : PllPsFsm)
  (x : Nat → PhaseSystemIn)

/-- The system at edge `n` of `free_running_clk`. -/
def sysAt (n : Nat) : PhaseSystem smplWidth := (circuit c cap cnt fsm).run x n

def loopInAt (n : Nat) : PhaseLoopIn := (sysAt c cap cnt fsm x n).loopIn (x n)

def inst0InAt (n : Nat) : PllPsAvIn := (sysAt c cap cnt fsm x n).inst0In cnt (x n)

/-- The writes that the bus has taken. -/
def writesAt (n : Nat) : List (BitVec 6 × BitVec 32) :=
  words (fun m => (sysAt c cap cnt fsm x m).inst0.write (x m).mgmtWaitrequest) n

/-- The shifts that the search has seen come to their ends. -/
def shiftsAt (n : Nat) : List PsCtrl :=
  words (fun m => (sysAt c cap cnt fsm x m).loop.search.fsm.shifted cnt
    ((sysAt c cap cnt fsm x m).loop.fsmIn (loopInAt c cap cnt fsm x m))) n

/-- How far the phase of the PLL has moved in the direction of the search. -/
def phaseAt (n : Nat) : Int :=
  if (x 0).loop.psUpdwn then moved (writesAt c cap cnt fsm x n) else -moved (writesAt c cap cnt fsm x n)

/-- The bus keeps the controller waiting when it has not asked in this cycle and the one before. -/
def Waits : Prop := ∀ n, (sysAt c cap cnt fsm x n).inst0.access = false →
  (sysAt c cap cnt fsm x (n + 1)).inst0.access = false → (x (n + 1)).mgmtWaitrequest = true

/-- The PLL loses its lock in a reset and finds it again, no access waits for ever, and `MCLK2` goes on. -/
structure Environment : Prop where
  unlocked : ∀ n, (sysAt c cap cnt fsm x n).loop.search.fsm.currentState = .rstPll →
    ∃ m, n ≤ m ∧ (!(x m).loop.pllLocked) = true
  locked : ∀ n, (sysAt c cap cnt fsm x n).loop.search.fsm.currentState = .waitPllLock →
    ∃ m, n ≤ m ∧ (x m).loop.pllLocked = true
  waits : Waits c cap cnt fsm x
  answers : PllPsFsm.ShiftRun.Answers (fun n => (sysAt c cap cnt fsm x n).inst0) (inst0InAt c cap cnt fsm x)
  clock : ∀ n, ∃ m, n ≤ m ∧ decide (0 < (x m).loop.mclk2Edges) = true

variable {c cap cnt fsm x}

theorem loop_eq (n : Nat) : (sysAt c cap cnt fsm x n).loop =
    PhaseLoop.loopAt c cap fsm (loopInAt c cap cnt fsm x) n :=
  Circuit.run_part (d := PhaseLoop.circuit c cap fsm) (fun s : PhaseSystem smplWidth => s.loop) (fun s i => s.loopIn i)
    rfl (fun _ _ => rfl) x n

theorem search_succ (n : Nat) : (sysAt c cap cnt fsm x (n + 1)).loop.search =
    (sysAt c cap cnt fsm x n).loop.search.next
      ((sysAt c cap cnt fsm x n).loop.fsmIn (loopInAt c cap cnt fsm x n)) :=
  PhaseLoop.next_search _ _

theorem shiftRun (hst : fsm.currentState = .idle) (hen : fsm.psCtrlEnReg = false) (hw : Waits c cap cnt fsm x) :
    PllPsFsm.ShiftRun cnt (fun n => (sysAt c cap cnt fsm x n).loop.search.fsm)
      (fun n => (sysAt c cap cnt fsm x n).inst0)
      (fun n => (sysAt c cap cnt fsm x n).loop.fsmIn (loopInAt c cap cnt fsm x n)) (inst0InAt c cap cnt fsm x) where
  currentState := hst
  psCtrlEnReg := hen
  reset := rfl
  fsm_succ n := congrArg PhaseSearch.fsm (search_succ n)
  av_succ _ := rfl
  busy _ := rfl
  resetAtStart _ := rfl
  drives _ := ⟨rfl, fun _ => rfl, fun _ => rfl, fun _ => rfl⟩
  waits := hw

theorem shift_eq_steps (cnt : BitVec 5) (st : PhaseSearch) (i : PllPsFsmIn) : st.shift i =
    (if st.fsm.psUpdwnReg then 1 else -1) * ((st.fsm.shifted cnt i).toList.map PsCtrl.steps).sum := by
  by_cases h : st.fsm.currentState = .phShift ∧ st.fsm.psCtrlBusyFalling i = true
  · rw [PhaseSearch.shift, PllPsFsm.shifted, if_pos h, if_pos h]
    cases hd : st.fsm.psCtrlUpdwnReg <;> cases hu : st.fsm.psUpdwnReg <;>
      simp [PllPsFsm.psCtrl, PsCtrl.steps, hd]
  · rw [PhaseSearch.shift, PllPsFsm.shifted, if_neg h, if_neg h]
    simp

/-- The direction of a search is latched where it begins. -/
theorem psUpdwnReg_succ (hreg : fsm.psEnReg = false) (hen : ∀ n, (x n).loop.psEn = true) (n : Nat) :
    (sysAt c cap cnt fsm x (n + 1)).loop.search.fsm.psUpdwnReg = (x 0).loop.psUpdwn ∧
      (sysAt c cap cnt fsm x (n + 1)).loop.search.fsm.psEnReg = true := by
  induction n with
  | zero =>
      have hen0 : ((sysAt c cap cnt fsm x 0).loop.fsmIn (loopInAt c cap cnt fsm x 0)).psEn = true := hen 0
      have hreg0 : (sysAt c cap cnt fsm x 0).loop.search.fsm.psEnReg = false := hreg
      rw [search_succ]
      refine ⟨?_, hen 0⟩
      simp only [PhaseSearch.next, PllPsFsm.next, PllPsFsm.psEnRising, hen0, hreg0]
      rfl
  | succ n ih =>
      rw [search_succ]
      refine ⟨?_, hen (n + 1)⟩
      simp [PhaseSearch.next, PllPsFsm.next, PllPsFsm.psEnRising, ih.1, ih.2]

/-- The position is what the shifts that are over add up to. -/
theorem position_eq_shifts (hst : fsm.currentState = .idle) (hreg : fsm.psEnReg = false)
    (hen : ∀ n, (x n).loop.psEn = true) (n : Nat) : (sysAt c cap cnt fsm x n).loop.search.position =
      (if (x 0).loop.psUpdwn then 1 else -1) * ((shiftsAt c cap cnt fsm x n).map PsCtrl.steps).sum := by
  induction n with
  | zero => simp [shiftsAt, sysAt, circuit, PhaseLoop.start, PhaseSearch.start]
  | succ n ih =>
      have hshift : (sysAt c cap cnt fsm x n).loop.search.shift
          ((sysAt c cap cnt fsm x n).loop.fsmIn (loopInAt c cap cnt fsm x n)) =
            (if (x 0).loop.psUpdwn then 1 else -1) * (((sysAt c cap cnt fsm x n).loop.search.fsm.shifted cnt
              ((sysAt c cap cnt fsm x n).loop.fsmIn (loopInAt c cap cnt fsm x n))).toList.map PsCtrl.steps).sum := by
        rw [shift_eq_steps cnt]
        cases n with
        | zero =>
            have hidle : (sysAt c cap cnt fsm x 0).loop.search.fsm.currentState = .idle := hst
            simp [PllPsFsm.shifted, hidle]
        | succ n => rw [(psUpdwnReg_succ hreg hen n).1]
      rw [search_succ, shiftsAt, words_succ, List.map_append, List.sum_append, Int.mul_add, ← hshift]
      exact congrArg (· + _) ih

/-- The writes have moved the phase to the position, whenever no shift is under way. -/
theorem phaseAt_eq_position (hst : fsm.currentState = .idle) (hreg : fsm.psEnReg = false)
    (hctrl : fsm.psCtrlEnReg = false) (hen : ∀ n, (x n).loop.psEn = true) (hw : Waits c cap cnt fsm x) (n : Nat)
    (hne : (sysAt c cap cnt fsm x n).loop.search.fsm.currentState ≠ .phShift) :
    phaseAt c cap cnt fsm x n = (sysAt c cap cnt fsm x n).loop.search.position := by
  have hwrites : writesAt c cap cnt fsm x n = (shiftsAt c cap cnt fsm x n).flatMap PsCtrl.writes := by
    have hrun := (shiftRun hst hctrl hw).writes_run n
    rw [PllPsFsm.pending, if_neg hne, List.take_zero, List.append_nil] at hrun
    exact hrun
  rw [phaseAt, hwrites, moved_flatMap, position_eq_shifts hst hreg hen]
  split <;> simp

theorem environment (hst : fsm.currentState = .idle) (hctrl : fsm.psCtrlEnReg = false)
    (he : Environment c cap cnt fsm x) : PhaseLoop.Environment c cap fsm (loopInAt c cap cnt fsm x) := by
  refine ⟨fun n h => he.unlocked n ?_, fun n h => he.locked n ?_, fun n h => ?_, he.clock⟩
  · rwa [loop_eq]
  · rwa [loop_eq]
  · rw [← loop_eq] at h
    obtain ⟨m, hm, hfall, -⟩ := (shiftRun hst hctrl he.waits).exists_shifted he.answers h
    refine ⟨m, hm, ?_⟩
    rw [← loop_eq]
    simpa [PllPsFsm.psCtrlBusyFalling, PhaseLoop.fsmIn] using hfall

end PhaseSystem

end LimeSdrQpcie
