import LimeSdrQpcie.DynPs.Lemmas.PhaseSystem

/-!
# The automatic phase search

What a verdict of the sample comparator says, where the search goes back to, and when it ends with a step counter
that has not wrapped around. The last two go wrong when the range ends inside the window: the step counter is
advanced once more than the phase, and the end of the range is taken for the end of the window.
-/

namespace LimeSdrQpcie

open Hdl

/-! ## The verdict -/

namespace SmplCmp

variable {smplWidth : Nat}

/-- Every start that is held until done leads to a verdict within `cmp_length` cycles and `k` more, if and only
if the length is not zero. -/
theorem decided_iff (k : Nat) (hk : 9 ≤ k) (c : SmplCmpCfg smplWidth) :
    (∀ x : Nat → SmplCmpIn smplWidth, StartHeld c x → ∀ s, StartEdge x s →
      ∃ d ≤ s + c.cmpLength.toNat + k, Decided c x s d) ↔ c.cmpLength ≠ 0 := by
  constructor
  · intro hall h0
    obtain ⟨d, _, hd⟩ := hall (expected c) startHeld_expected 0 startEdge_expected
    have hdone := hd.done
    rw [never_done h0 d] at hdone
    cases hdone
  · intro h0 x h s he
    obtain ⟨d, hle, hd⟩ := decided_of_length_ne h h0 he
    exact ⟨d, Nat.le_trans hle (by omega), hd⟩

/-- 12 bit samples that are expected to be zero. -/
def zeros (cmpLength : BitVec 16) : SmplCmpCfg 12 := ⟨cmpLength, 0, 0, 0, 0⟩

theorem decided_zeros : (∀ x : Nat → SmplCmpIn 12, StartHeld (zeros 255) x → ∀ s, StartEdge x s →
    ∃ d ≤ s + (zeros 255).cmpLength.toNat + 9, Decided (zeros 255) x s d) ↔ (zeros 255).cmpLength ≠ 0 :=
  decided_iff 9 (Nat.le_refl 9) (zeros 255)

/-- With a length of zero and samples that all match, done is never reported. -/
theorem never_decided : StartHeld (zeros 0) (expected (zeros 0)) ∧ StartEdge (expected (zeros 0)) 0 ∧
    (∀ n, (expected (zeros 0) n).Matches (zeros 0)) ∧
    ∀ d, (cmpAt (zeros 0) (expected (zeros 0)) d).cmpDoneReg = false ∧
      ¬ Decided (zeros 0) (expected (zeros 0)) 0 d := by
  refine ⟨startHeld_expected, startEdge_expected, matches_expected, fun d => ⟨never_done rfl d, fun hd => ?_⟩⟩
  have hdone := hd.done
  rw [never_done rfl d] at hdone
  cases hdone

end SmplCmp

namespace PhaseSearch

/-! ## The middle of the window -/

/-- A search that reports done after it accepted a lower edge stands in the middle of the positions at which the
comparison passed, if and only if the upper edge was found; only with a step of one and an odd lower edge the
end of the range serves as well. -/
theorem middle_of_window_iff (fsm : PllPsFsm) (x : Nat → PllPsFsmIn) (err : Nat → Bool) (h : Starts fsm x)
    (hres : Results fsm x err) (n : Nat) (hd : Reports fsm x n) (p : Int) (hp : (searchAt fsm x n).posMin = some p) :
    ∃ q, (searchAt fsm x n).posMax = some q ∧
      ((searchAt fsm x n).position = p + (q - p) / 2 ↔
        ¬ OpenAtEnd (x 0).psStepSize err ∨ (x 0).psStepSize = 1 ∧ p % 2 = 1) := by
  rcases inv_reports h hres hd with ⟨k, hnone, _⟩ | ⟨up, k₀, l, hcl, _, hpos⟩
  · rw [hnone] at hp
    cases hp
  · have hpk : ((k₀ * (x 0).psStepSize.toNat : Nat) : Int) = p := Option.some.inj (hcl.posMin.symm.trans hp)
    refine ⟨_, hcl.posMax, ?_⟩
    rw [hpos, ← hpk, hcl.middle_iff]
    exact or_congr_right (and_congr_right fun _ => by omega)

/-- Everything is answered at once, and every comparison with the same error flag. -/
def atOnce (step : BitVec 10) (error : Bool) (n : Nat) : PllPsFsmIn :=
  { psEn := true, psResetAtStart := false, psMode := true, psUpdwn := true, psStepSize := step,
    pllLocked := n % 2 == 1, psCtrlBusy := n % 2 == 1, smplCmpDone := n % 2 == 1, smplCmpError := error }

theorem starts_atOnce (step : BitVec 10) (error : Bool) : Starts PllPsFsm.reset (atOnce step error) :=
  ⟨rfl, rfl, rfl, fun _ => rfl, fun _ => rfl⟩

theorem results_atOnce (step : BitVec 10) (error : Bool) :
    Results PllPsFsm.reset (atOnce step error) fun _ => error := fun _ _ => rfl

theorem reports_600 : Reports PllPsFsm.reset (atOnce 600 false) 528 ∧
    (searchAt PllPsFsm.reset (atOnce 600 false) 528).posMin = some 600 := by
  decide +kernel

theorem middle_of_window_600 : ∃ q, (searchAt PllPsFsm.reset (atOnce 600 false) 528).posMax = some q ∧
    ((searchAt PllPsFsm.reset (atOnce 600 false) 528).position = 600 + (q - 600) / 2 ↔
      ¬ OpenAtEnd (atOnce 600 false 0).psStepSize (fun _ => false) ∨
        (atOnce 600 false 0).psStepSize = 1 ∧ (600 : Int) % 2 = 1) :=
  middle_of_window_iff _ _ _ (starts_atOnce 600 false) (results_atOnce 600 false) 528 reports_600.1 600 reports_600.2

/-- With a step of 600 the range ends at the lower edge, and the search goes back from 600 to 211. -/
theorem middle_missed_600 : (Reports PllPsFsm.reset (atOnce 600 false) 528 ∧
    (searchAt PllPsFsm.reset (atOnce 600 false) 528).posMin = some 600 ∧
    (searchAt PllPsFsm.reset (atOnce 600 false) 528).posMax = some 600) ∧
    (searchAt PllPsFsm.reset (atOnce 600 false) 528).position = 211 ∧ (211 : Int) ≠ 600 + (600 - 600) / 2 := by
  decide +kernel

/-! ## The end of the search -/

/-- The search reports done after at most 1024 comparisons, and its step counter has not wrapped around if there
was a final shift. -/
def Ends (fsm : PllPsFsm) (x : Nat → PllPsFsmIn) : Prop :=
  ∃ n, Reports fsm x n ∧ (searchAt fsm x n).compareCnt ≤ 1024 ∧
    ((searchAt fsm x n).posMin ≠ none → (searchAt fsm x n).wrapped = false)

/-- When everything is answered, the search ends as it should if and only if the step is not zero and either divides
the range or the range does not end inside the window. -/
theorem ends_iff (fsm : PllPsFsm) (x : Nat → PllPsFsmIn) (err : Nat → Bool) (h : Starts fsm x)
    (hres : Results fsm x err) (ha : Answers fsm x) :
    Ends fsm x ↔ (x 0).psStepSize ≠ 0 ∧
      (1023 % (x 0).psStepSize.toNat = 0 ∨ ¬ OpenAtEnd (x 0).psStepSize err) := by
  constructor
  · rintro ⟨n, hd, _, hw⟩
    have hs : (x 0).psStepSize ≠ 0 := fun hs => not_reports_of_zero h hres hs n hd
    refine ⟨hs, ?_⟩
    rcases inv_reports h hres hd with ⟨k, _, hn, _, hlt, hle⟩ | ⟨up, k₀, l, hcl, _⟩
    · exact Or.inr fun ho => not_openAtEnd hn hle ho
    · by_cases ho : OpenAtEnd (x 0).psStepSize err
      · exact Or.inl (hcl.dvd_of_not_wrapped ho (hw (by rw [hcl.posMin]; exact Option.some_ne_none _)))
      · exact Or.inr ho
  · rintro ⟨hs, hdvd⟩
    obtain ⟨n, hd⟩ := exists_reports h (exists_endSrch h hres ha hs)
    refine ⟨n, hd, ?_, fun hne => ?_⟩
    · cases n with
      | zero => exact Nat.zero_le _
      | succ n =>
          refine (inv_run h hres n).compareCnt_le hs ?_
          rw [of_reports h hd]
          exact PllPsState.noConfusion
    · rcases inv_reports h hres hd with ⟨k, hnone, _⟩ | ⟨up, k₀, l, hcl, _⟩
      · exact absurd hnone hne
      · exact hcl.not_wrapped hdvd

theorem answers_atOnce (step : BitVec 10) (error : Bool) : Answers PllPsFsm.reset (atOnce step error) := by
  have heven : ∀ n, ∃ m, n ≤ m ∧ (!(m % 2 == 1)) = true := fun n => ⟨2 * n, by omega, by simp⟩
  have hodd : ∀ n, ∃ m, n ≤ m ∧ (m % 2 == 1) = true := fun n => ⟨2 * n + 1, by omega, by simp⟩
  refine ⟨fun n _ => heven n, fun n _ => hodd n, fun n _ => heven n, fun n _ => hodd n, fun n _ => ?_⟩
  refine ⟨2 * n + 1 + 1, by omega, ?_⟩
  have hreg : (searchAt PllPsFsm.reset (atOnce step error) (2 * n + 1 + 1)).fsm.psCtrlBusyReg =
      (atOnce step error (2 * n + 1)).psCtrlBusy := rfl
  have h1 : (2 * n + 1) % 2 = 1 := by omega
  have h0 : (2 * n + 1 + 1) % 2 = 0 := by omega
  rw [PllPsFsm.psCtrlBusyFalling, hreg]
  simp [atOnce, h1, h0]

theorem ends_600 : Ends PllPsFsm.reset (atOnce 600 true) ↔ (atOnce 600 true 0).psStepSize ≠ 0 ∧
    (1023 % (atOnce 600 true 0).psStepSize.toNat = 0 ∨
      ¬ OpenAtEnd (atOnce 600 true 0).psStepSize fun _ => true) :=
  ends_iff _ _ _ (starts_atOnce 600 true) (results_atOnce 600 true) (answers_atOnce 600 true)

/-- A step of zero never ends, and with a step of 600 the final shift is computed from a counter that has wrapped
around. -/
theorem ends_missed :
    (Starts PllPsFsm.reset (atOnce 0 false) ∧ Answers PllPsFsm.reset (atOnce 0 false) ∧
      ¬ Ends PllPsFsm.reset (atOnce 0 false)) ∧
    Reports PllPsFsm.reset (atOnce 600 false) 528 ∧
    (searchAt PllPsFsm.reset (atOnce 600 false) 528).posMin = some 600 ∧
    (searchAt PllPsFsm.reset (atOnce 600 false) 528).wrapped = true := by
  refine ⟨⟨starts_atOnce 0 false, answers_atOnce 0 false, ?_⟩, by decide +kernel⟩
  rintro ⟨n, hd, _⟩
  exact not_reports_of_zero (starts_atOnce 0 false) (results_atOnce 0 false) rfl n hd

end PhaseSearch

/-! ## The shift controller -/

namespace PllPsTop

/-- In automatic mode with one counter selected throughout, whatever the enable, the test mode and the comparator do:
the writes that the bus has taken are those of the shifts that are over, each three writes in their order, and the
first ones of the present shift; a shift that the search asks for comes to its end, and is the next one. -/
theorem shifts_are_written (x : Nat → PllPsTopIn) (cnt : BitVec 5) (hmode : ∀ n, (x n).psMode = true)
    (hcnt : ∀ n, (x n).psCnt = cnt) (hw : Waits x) (ha : Answers x) (n : Nat) :
    (∃ k, writesAt x n = (shiftsAt x n).flatMap PsCtrl.writes ++ ((topAt x n).inst1.psCtrl cnt).writes.take k ∧
      ((topAt x n).inst1.currentState ≠ .phShift → k = 0)) ∧
      ((topAt x n).inst1.currentState = .phShift → ∃ m, n < m ∧
        (topAt x m).inst1.currentState = .waitAfterPhShift ∧
        writesAt x m = (shiftsAt x n).flatMap PsCtrl.writes ++ ((topAt x n).inst1.psCtrl cnt).writes) := by
  have hrun := shiftRun hmode hcnt hw
  refine ⟨⟨PllPsFsm.pending (topAt x n).inst1 (topAt x n).inst0, ?_, fun hst => if_neg hst⟩, fun hst => ?_⟩
  · rw [shiftsAt_eq hcnt]
    exact hrun.writes_run n
  · obtain ⟨m, hm, -, hst', hshifts⟩ := hrun.exists_shifted ha hst
    refine ⟨m + 1, Nat.lt_succ_of_le hm, hst', ?_⟩
    have hwrites := hrun.writes_run (m + 1)
    rw [hshifts, PllPsFsm.pending, if_neg (by rw [hst']; exact PllPsState.noConfusion), List.take_zero, List.append_nil,
      List.flatMap_append, List.flatMap_singleton, ← shiftsAt_eq hcnt] at hwrites
    exact hwrites

/-- A search with steps of 10 where the PLL, the comparator and the bus answer at once. -/
def answering (s : PllPsTop) : PllPsTopIn :=
  { psEn := true, psMode := true, psTst := false, psCnt := 3, psUpdwn := true, psPhase := 0, psStepSize := 10
    pllMgmtReaddata := 1, pllMgmtWaitrequest := !s.inst0.access
    pllLocked := decide (s.inst1.currentState ≠ .rstPll)
    smplCmpDone := decide (s.inst1.currentState = .cmpSmpls), smplCmpError := false }

def answeringAt (n : Nat) : PllPsTopIn := answering (circuit.driven answering n)

theorem answeringAt_eq (n : Nat) : answeringAt n = answering (topAt answeringAt n) :=
  congrArg answering (Circuit.run_driven circuit answering n).symm

theorem waits_answeringAt : Waits answeringAt := fun n _ h => by
  rw [answeringAt_eq]
  simp [answering, h]

theorem answers_answeringAt : Answers answeringAt := by
  refine ⟨fun n h => ⟨n, Nat.le_refl n, ?_⟩, fun n h => ⟨n, Nat.le_refl n, ?_, ?_⟩⟩
  · have hm := h n (Nat.le_refl n)
    simp [inst0In, answeringAt_eq n, answering, PllPsAv.access, hm]
  · simp [inst0In, answeringAt_eq n, answering]
  · have hm := h n (Nat.le_refl n)
    simp [inst0In, answeringAt_eq n, answering, PllPsAv.access, hm]

/-- The first shift of a search. -/
theorem shifts_are_written_first :
    (∃ k, writesAt answeringAt 12 = (shiftsAt answeringAt 12).flatMap PsCtrl.writes ++
        ((topAt answeringAt 12).inst1.psCtrl 3).writes.take k ∧
      ((topAt answeringAt 12).inst1.currentState ≠ .phShift → k = 0)) ∧
      ((topAt answeringAt 12).inst1.currentState = .phShift → ∃ m, 12 < m ∧
        (topAt answeringAt m).inst1.currentState = .waitAfterPhShift ∧
        writesAt answeringAt m =
          (shiftsAt answeringAt 12).flatMap PsCtrl.writes ++ ((topAt answeringAt 12).inst1.psCtrl 3).writes) :=
  shifts_are_written answeringAt 3 (fun _ => rfl) (fun _ => rfl) waits_answeringAt answers_answeringAt 12

end PllPsTop

/-! ## The closed loop -/

namespace PhaseLoop

/-- The samples that `diq2fifo` expects in the window, and halves with different frame bits outside. -/
def windowCapture {smplWidth : Nat} (c : SmplCmpCfg smplWidth) (lo hi : Int) : Capture smplWidth := fun p k =>
  if lo ≤ p ∧ p ≤ hi then ((SmplCmp.expected c k).diqH, (SmplCmp.expected c k).diqL)
  else (BitVec.cons true 0, BitVec.cons false 0)

theorem follows_windowCapture {smplWidth : Nat} {c : SmplCmpCfg smplWidth} (h0 : c.cmpLength ≠ 0) (lo hi : Int) :
    (windowCapture c lo hi).Follows c (outside lo hi) := by
  have hgood : ∀ p, outside lo hi p = false → ∀ k, (windowCapture c lo hi).smplCmpIn p k = SmplCmp.expected c k :=
    fun p hp k => by
      rw [Capture.smplCmpIn, windowCapture, if_pos (outside_eq_false.mp hp)]
      rfl
  refine ⟨fun p hp k => ?_, fun p hp k => ?_, fun p hp k => ⟨0, ?_, fun hm => ?_⟩⟩
  · rw [hgood p hp]
    exact SmplCmp.matches_expected k
  · rw [hgood p hp, hgood p hp, SmplCmp.chA_expected, SmplCmp.chA_expected]
    rcases Nat.mod_two_eq_zero_or_one k with h | h <;> simp <;> omega
  · exact Nat.pos_of_ne_zero fun h => h0 (BitVec.eq_of_toNat_eq h)
  · have hsel := hm.iqSel_eq
    rw [Capture.smplCmpIn, windowCapture, if_neg (outside_eq_true.mp hp)] at hsel
    simp [SmplCmp.iqSel] at hsel

end PhaseLoop

namespace PhaseSystem

open PhaseLoop

/-- What a search for the window from `lo` to `hi` does. -/
structure FindsWindow {smplWidth : Nat} (c : SmplCmpCfg smplWidth) (cap : Capture smplWidth) (cnt : BitVec 5)
    (fsm : PllPsFsm) (x : Nat → PhaseSystemIn) (lo hi : Int) : Prop where
  /-- At all times the writes that the bus has taken have moved the phase of the PLL to the position that the samples
  depend on, unless a shift is under way. -/
  phase : ∀ n, (sysAt c cap cnt fsm x n).loop.search.fsm.currentState ≠ .phShift →
    phaseAt c cap cnt fsm x n = (sysAt c cap cnt fsm x n).loop.search.position
  /-- Every verdict the search goes by is that of a comparison made as a whole at this position. -/
  verdict : ∀ n, (sysAt c cap cnt fsm x n).loop.search.compared
      ((sysAt c cap cnt fsm x n).loop.fsmIn (loopInAt c cap cnt fsm x n)) = true →
    HasVerdict c cap (sysAt c cap cnt fsm x n).loop (sysAt c cap cnt fsm x n).loop.smplCmpErrorSync.syncOut
  /-- The search ends. The writes have moved the phase to the middle of the window, and the status says that the
  comparison passes there. -/
  ends : ∃ n, (sysAt c cap cnt fsm x n).loop.search.fsm.psDoneReg = false ∧
    (sysAt c cap cnt fsm x (n + 1)).loop.search.fsm.psDoneReg = true ∧
    MiddleOfWindow (x 0).loop.psStepSize.toNat lo hi (phaseAt c cap cnt fsm x n) ∧
    lo ≤ phaseAt c cap cnt fsm x n ∧ phaseAt c cap cnt fsm x n ≤ hi ∧
    (sysAt c cap cnt fsm x (n + 1)).loop.search.fsm.psStatusReg = false

/-- However the two clocks run and the bus answers, when the capture is good from `lo` to `hi`, the scan meets this
window and the range goes on after it. -/
theorem search_moves_pll {smplWidth : Nat} (c : SmplCmpCfg smplWidth) (cap : Capture smplWidth) (cnt : BitVec 5)
    (fsm : PllPsFsm) (x : Nat → PhaseSystemIn) (lo hi : Int) (hf : cap.Follows c (outside lo hi))
    (h0 : c.cmpLength ≠ 0) (hb : Begins fsm fun n => (x n).loop) (hctrl : fsm.psCtrlEnReg = false)
    (he : Environment c cap cnt fsm x)
    (hmeets : ∃ k : Nat, 2 < k * (x 0).loop.psStepSize.toNat ∧ k * (x 0).loop.psStepSize.toNat < 1023 ∧
      lo ≤ (k * (x 0).loop.psStepSize.toNat : Nat) ∧ ((k * (x 0).loop.psStepSize.toNat : Nat) : Int) ≤ hi)
    (hends : ∃ k : Nat, hi < (k * (x 0).loop.psStepSize.toNat : Nat) ∧ k * (x 0).loop.psStepSize.toNat < 1023) :
    FindsWindow c cap cnt fsm x lo hi := by
  have hphase := phaseAt_eq_position hb.currentState hb.psEnReg hctrl hb.psEn he.waits
  have hb' : Begins fsm (loopInAt c cap cnt fsm x) :=
    ⟨hb.currentState, hb.psEnReg, hb.psDoneReg, hb.smplCmpEnReg, hb.psEn, hb.psMode⟩
  refine ⟨hphase, fun n hc => ?_, ?_⟩
  · rw [PhaseSearch.compared, Bool.and_eq_true] at hc
    rw [loop_eq] at hc ⊢
    exact (inv_run hb' hf h0 n).hasVerdict hf h0 hc.1 hc.2
  · obtain ⟨n, hd, hmid, hlo, hhi, hstatus⟩ :=
      exists_middle hb' hf h0 (environment hb.currentState hctrl he) hmeets hends
    have hend := PhaseSearch.of_reports (starts hb') hd
    obtain ⟨hdone, hdone'⟩ := hd
    rw [← search_eq, ← loop_eq] at hend hdone hdone'
    rw [← loop_eq] at hmid hlo hhi hstatus
    have hpos := hphase n (by rw [hend]; exact PllPsState.noConfusion)
    rw [← hpos] at hmid hlo hhi
    exact ⟨n, hdone, hdone', hmid, hlo, hhi, hstatus⟩

/-- Both clocks run at one pace, the PLL locks at once, and the bus takes every access in the cycle it is asked for. -/
def inStep {smplWidth : Nat} (step : BitVec 10) (s : PhaseSystem smplWidth) : PhaseSystemIn :=
  { loop :=
      { mclk2Edges := 1, psEn := true, psResetAtStart := true, psMode := true, psUpdwn := true, psStepSize := step
        pllLocked := decide (s.loop.search.fsm.currentState ≠ .rstPll), psCtrlBusy := false }
    mgmtReaddata := 1
    mgmtWaitrequest := !s.inst0.access }

section InStep

variable {smplWidth : Nat} (c : SmplCmpCfg smplWidth) (cap : Capture smplWidth) (cnt : BitVec 5) (step : BitVec 10)

def inStepAt (n : Nat) : PhaseSystemIn := inStep step ((circuit c cap cnt PllPsFsm.reset).driven (inStep step) n)

theorem environment_inStep : Environment c cap cnt PllPsFsm.reset (inStepAt c cap cnt step) := by
  have hsys : ∀ n, inStepAt c cap cnt step n = inStep step
      (sysAt c cap cnt PllPsFsm.reset (inStepAt c cap cnt step) n) :=
    fun n => congrArg (inStep step) (Circuit.run_driven _ (inStep step) n).symm
  refine ⟨fun n h => ⟨n, Nat.le_refl n, ?_⟩, fun n h => ⟨n, Nat.le_refl n, ?_⟩, fun n _ h => ?_,
    ⟨fun n h => ⟨n, Nat.le_refl n, ?_⟩, fun n h => ⟨n, Nat.le_refl n, ?_, ?_⟩⟩, fun n => ⟨n, Nat.le_refl n, rfl⟩⟩
  · simp [hsys n, inStep, h]
  · simp [hsys n, inStep, h]
  · simp [hsys (n + 1), inStep, h]
  · have hm := h n (Nat.le_refl n)
    simp [inst0InAt, inst0In, hsys n, inStep, PllPsAv.access, hm]
  · simp [inst0InAt, inst0In, hsys n, inStep]
  · have hm := h n (Nat.le_refl n)
    simp [inst0InAt, inst0In, hsys n, inStep, PllPsAv.access, hm]

end InStep

/-- What `diq2fifo` compares with. -/
def cmp12 (cmpLength : BitVec 16) : SmplCmpCfg 12 := ⟨cmpLength, 0xAAA, 0x555, 0xAAA, 0x555⟩

def window12 : Capture 12 := windowCapture (cmp12 255) 100 200

/-- A window from 100 to 200, looked for in steps of 10. -/
theorem search_moves_pll_100_200 :
    FindsWindow (cmp12 255) window12 3 PllPsFsm.reset (inStepAt (cmp12 255) window12 3 10) 100 200 :=
  search_moves_pll (cmp12 255) window12 3 PllPsFsm.reset (inStepAt (cmp12 255) window12 3 10) 100 200
    (follows_windowCapture (by decide) 100 200) (by decide) ⟨rfl, rfl, rfl, rfl, fun _ => rfl, fun _ => rfl⟩ rfl
    (environment_inStep (cmp12 255) window12 3 10) ⟨10, by decide⟩ ⟨21, by decide⟩

end PhaseSystem

end LimeSdrQpcie
