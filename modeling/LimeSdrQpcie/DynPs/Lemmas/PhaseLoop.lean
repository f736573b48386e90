import LimeSdrQpcie.DynPs.PhaseLoop
import LimeSdrQpcie.DynPs.Lemmas.PhaseSearch
import LimeSdrQpcie.DynPs.Lemmas.SmplCmp
import LimeSdrQpcie.Hdl.Handshake
import Mathlib.Order.Bounds.Basic

/-!
# Runs of the closed loop

The enable of the comparator goes to the clock of the samples, and done comes back, as a handshake. So every verdict
the search takes is that of a comparison made as a whole at the present position, however the clocks run.
-/

namespace LimeSdrQpcie

open Hdl

namespace PhaseSearch

open PllPsFsm

variable {s : BitVec 10} {bad : Int → Bool} {st : PhaseSearch} {i : PllPsFsmIn}

theorem next_position (h : st.fsm.currentState ≠ .phShift) : (st.next i).position = st.position := by
  simp [PhaseSearch.next, shift, h]

/-- A scan whose comparisons are answered by the position. -/
theorem inv_next_of_position (h : Inv s (fun k => bad (k * s.toNat : Nat)) st) (hen : i.psEn = true)
    (herr : st.compared i = true → i.smplCmpError = bad st.position) :
    Inv s (fun k => bad (k * s.toNat : Nat)) (st.next i) := by
  have hne : st.fsm.currentState ≠ .cmpSmpls → Inv s (fun k => bad (k * s.toNat : Nat)) (st.next i) := fun hst =>
    inv_next h hen fun hc => absurd hc (by simp [compared_of_ne hst])
  cases h with
  | compare k hst hm hr he hc ha =>
      refine inv_next_compare hen (fun hcmp => ?_) hst hr he hc ha
      rw [herr hcmp, ha.position, hc]
  | finalCompare up k₀ l hst hcl hf hc hp => exact inv_next_finalCompare hen hst hcl hf hc hp
  | lock hst => exact hne (by rcases hst with h | h <;> simp [h])
  | minFound k hst => exact hne (by simp [hst])
  | maxFound k₀ l hst => exact hne (by simp [hst])
  | checkMaxSteps k hst => exact hne (by simp [hst])
  | phShift k hst => exact hne (by simp [hst])
  | waitAfterPhShift k hst => exact hne (by simp [hst])
  | prepPhase up k₀ l hst => exact hne (by simp [hst])
  | finalShift up k₀ l hst => exact hne (by simp [hst])
  | endNone k hst => exact hne (by simp [hst])
  | endFinal up k₀ l hst => exact hne (by simp [hst])
  | ended hst => exact hne (by simp [hst])

variable {err : Nat → Bool}

/-- The end of a search: no lower edge up to the end of the range, or a window and the final shift. -/
theorem Inv.of_endSrch (h : Inv s err st) (hend : st.fsm.currentState = .endSrch) :
    (∃ k, NoLower s err (k + 1) ∧ 1023 ≤ (k + 1) * s.toNat) ∨
      ∃ up k₀ l, Closed s err up k₀ l st ∧ st.position = (scanEnd s up l : Nat) - (back s up k₀ l : Nat) := by
  cases h with
  | endNone k hst he hq hn hc hlt hle => exact Or.inl ⟨k, hn, hle⟩
  | endFinal up k₀ l hst hcl hc hp => exact Or.inr ⟨up, k₀, l, hcl, hp⟩
  | lock hst => rcases hst with h | h <;> rw [h] at hend <;> cases hend
  | compare k hst => rcases hst with h | h <;> rw [h] at hend <;> cases hend
  | finalCompare up k₀ l hst => rcases hst with h | h | h <;> rw [h] at hend <;> cases hend
  | minFound k hst => rw [hst] at hend; cases hend
  | maxFound k₀ l hst => rw [hst] at hend; cases hend
  | checkMaxSteps k hst => rw [hst] at hend; cases hend
  | phShift k hst => rw [hst] at hend; cases hend
  | waitAfterPhShift k hst => rw [hst] at hend; cases hend
  | prepPhase up k₀ l hst => rw [hst] at hend; cases hend
  | finalShift up k₀ l hst => rw [hst] at hend; cases hend
  | ended hst => rw [hst] at hend; cases hend

variable {fsm : PllPsFsm} {x : Nat → PllPsFsmIn}

/-- Every run answers its comparisons in some way. -/
theorem exists_results (fsm : PllPsFsm) (x : Nat → PllPsFsmIn) : ∃ err, Results fsm x err := by
  classical
  have hcount : ∀ n, (searchAt fsm x n).compareCnt = count (fun m => (searchAt fsm x m).compared (x m)) n := by
    intro n
    induction n with
    | zero => rfl
    | succ n ih => rw [compareCnt_succ, count_succ, ih]
  refine ⟨fun k => decide (∃ n, (searchAt fsm x n).compared (x n) = true ∧ (searchAt fsm x n).compareCnt = k ∧
    (x n).smplCmpError = true), fun n hn => ?_⟩
  cases he : (x n).smplCmpError with
  | true => exact (decide_eq_true ⟨n, hn, rfl, he⟩).symm
  | false =>
      refine (decide_eq_false ?_).symm
      rintro ⟨m, hm, hmn, hem⟩
      rw [hcount, hcount] at hmn
      rw [count_inj hm hn hmn, he] at hem
      cases hem

end PhaseSearch

/-! ## A window of positions -/

/-- The position is not in the window from `lo` to `hi`. -/
def outside (lo hi p : Int) : Bool := !decide (lo ≤ p ∧ p ≤ hi)

theorem outside_eq_false {lo hi p : Int} : outside lo hi p = false ↔ lo ≤ p ∧ p ≤ hi := by
  rw [outside, Bool.not_eq_false', decide_eq_true_iff]

theorem outside_eq_true {lo hi p : Int} : outside lo hi p = true ↔ ¬ (lo ≤ p ∧ p ≤ hi) := by
  rw [← outside_eq_false, Bool.not_eq_false]

/-- The middle between the first position of the scan that is above 2 and not below `lo`, and the last one up to `hi`,
when a step is `s`. -/
def MiddleOfWindow (s : Nat) (lo hi p : Int) : Prop :=
  ∃ k l : Nat, IsLeast {k : Nat | 2 < k * s ∧ lo ≤ (k * s : Nat)} k ∧
    IsGreatest {l : Nat | ((l * s : Nat) : Int) ≤ hi} l ∧ p = (k * s : Nat) + ((l * s : Nat) - (k * s : Nat)) / 2

namespace PhaseSearch

variable {s : BitVec 10} {lo hi : Int} {st : PhaseSearch}

theorem mul_le_mul_cast {a b n : Nat} (h : a ≤ b) : ((a * n : Nat) : Int) ≤ (b * n : Nat) :=
  Int.ofNat_le.mpr (Nat.mul_le_mul_right _ h)

/-- A search that met the window, which ends before the range does, has gone back to its middle. -/
theorem Closed.middleOfWindow {up : Bool} {k₀ l e : Nat}
    (h : Closed s (fun k => outside lo hi (k * s.toNat : Nat)) up k₀ l st)
    (hhi : hi < (e * s.toNat : Nat)) (he : e * s.toNat < 1023) :
    MiddleOfWindow s.toNat lo hi ((scanEnd s up l : Nat) - (back s up k₀ l : Nat)) ∧
      lo ≤ (scanEnd s up l : Nat) - (back s up k₀ l : Nat) ∧
      ((scanEnd s up l : Nat) : Int) - (back s up k₀ l : Nat) ≤ hi := by
  have hfirst := outside_eq_false.mp (h.window.pass k₀ (Nat.le_refl _) h.window.lt)
  have hlast := outside_eq_false.mp (h.window.pass l (Nat.le_of_lt_succ h.window.lt) (Nat.lt_succ_self l))
  have hnot : ¬ OpenAtEnd s fun k => outside lo hi (k * s.toNat : Nat) := by
    rintro ⟨j, -, hjlt, -, hall⟩
    have hj := outside_eq_false.mp (hall j (Nat.le_refl j) hjlt)
    have hje : j ≤ e := by
      by_contra hlt
      have hle := mul_le_mul_cast (n := s.toNat) (Nat.le_of_not_le hlt)
      omega
    have hend := outside_eq_false.mp (hall e hje he)
    omega
  have hup : up = true := Bool.eq_true_of_not_eq_false fun hup => hnot (h.openAtEnd_iff.mpr hup)
  have hmid := h.middle_iff.mpr (Or.inl hnot)
  have hended : ¬ (lo ≤ (((l + 1) * s.toNat : Nat) : Int) ∧ (((l + 1) * s.toNat : Nat) : Int) ≤ hi) := by
    have hend := h.ended
    rw [hup] at hend
    exact outside_eq_true.mp hend
  have hkl := mul_le_mul_cast (n := s.toNat) (Nat.le_of_lt_succ h.window.lt)
  rw [hmid]
  refine ⟨⟨k₀, l, ⟨⟨h.window.two_lt, hfirst.1⟩, fun j hj => ?_⟩, ⟨hlast.2, fun j hj => ?_⟩, rfl⟩, by omega, by omega⟩
  · by_contra hlt
    have hjk := mul_le_mul_cast (n := s.toNat) (Nat.le_of_not_le hlt)
    have hout := outside_eq_true.mp (h.window.noLower j (Nat.lt_of_not_le hlt) hj.1)
    exact hout ⟨hj.2, Int.le_trans hjk hfirst.2⟩
  · by_contra hlt
    have hjl : (((l + 1) * s.toNat : Nat) : Int) ≤ (j * s.toNat : Nat) := mul_le_mul_cast (Nat.lt_of_not_le hlt)
    have hl1 : ((l * s.toNat : Nat) : Int) ≤ ((l + 1) * s.toNat : Nat) := mul_le_mul_cast (Nat.le_succ l)
    exact hended ⟨Int.le_trans hfirst.1 (Int.le_trans hkl hl1), Int.le_trans hjl hj⟩

end PhaseSearch

/-! ## The verdict of the comparator -/

/-- At a position where the capture is good all samples match and the channels alternate; at a bad one, one of any
`cmp_length` consecutive samples does not match. -/
structure Capture.Follows {smplWidth : Nat} (cap : Capture smplWidth) (c : SmplCmpCfg smplWidth)
    (bad : Int → Bool) : Prop where
  matches_of_good : ∀ p, bad p = false → ∀ k, (cap.smplCmpIn p k).Matches c
  chA_of_good : ∀ p, bad p = false → ∀ k, (cap.smplCmpIn p (k + 1)).chA ≠ (cap.smplCmpIn p k).chA
  differs_of_bad : ∀ p, bad p = true → ∀ k, ∃ j < c.cmpLength.toNat, ¬ (cap.smplCmpIn p (k + j)).Matches c

namespace SmplCmp

variable {smplWidth : Nat} {c : SmplCmpCfg smplWidth} {cap : Capture smplWidth} {bad : Int → Bool}

/-- The samples from edge `k` on at the position `p`. -/
theorem startHeld_smplCmpIn (p : Int) (k : Nat) : StartHeld c fun j => cap.smplCmpIn p (k + j) :=
  fun _ _ hs => Bool.noConfusion hs

variable (cap) in
theorem startEdge_smplCmpIn (p : Int) (k : Nat) : StartEdge (fun j => cap.smplCmpIn p (k + j)) 0 :=
  ⟨rfl, fun m hm => absurd hm (Nat.succ_ne_zero m)⟩

theorem error_of_done (h : cap.Follows c bad) (h0 : c.cmpLength ≠ 0) {p : Int} {k n : Nat}
    (hdone : (cmpAt c (fun j => cap.smplCmpIn p (k + j)) n).cmpDoneReg = true) :
    (cmpAt c (fun j => cap.smplCmpIn p (k + j)) n).cmpErrorReg = bad p := by
  obtain ⟨d, -, hd⟩ := decided_of_length_ne (startHeld_smplCmpIn p k) h0 (startEdge_smplCmpIn cap p k)
  have hdn : d ≤ n := by
    by_contra hlt
    rw [hd.not_done n (Nat.zero_le n) (Nat.lt_of_not_le hlt)] at hdone
    cases hdone
  rw [(hd.holds n hdn fun _ _ _ => rfl).2]
  cases hb : bad p with
  | false => exact hd.complete (fun _ _ _ => h.matches_of_good p hb _) fun _ _ _ => h.chA_of_good p hb _
  | true =>
      by_contra hne
      obtain ⟨a, -, -, hall⟩ := hd.sound (Bool.eq_false_iff.mpr hne)
      obtain ⟨j, hj, hno⟩ := h.differs_of_bad p hb (k + a)
      exact hno (by rw [Nat.add_assoc]; exact hall j hj)

/-- The comparator has decided after `cmp_length` samples and nine more. -/
theorem done_of_le (h0 : c.cmpLength ≠ 0) {p : Int} {k n : Nat} (hn : c.cmpLength.toNat + 9 ≤ n) :
    (cmpAt c (fun j => cap.smplCmpIn p (k + j)) n).cmpDoneReg = true := by
  obtain ⟨d, hle, hd⟩ := decided_of_length_ne (startHeld_smplCmpIn p k) h0 (startEdge_smplCmpIn cap p k)
  exact (hd.holds n (by omega) fun _ _ _ => rfl).1

/-- A verdict that has been reported stays while the start does. -/
theorem Paused.holds {st : SmplCmp smplWidth} (h : Paused st) (hdone : st.cmpDoneReg = true) (p : Int) (k : Nat) :
    (st.next c (cap.smplCmpIn p k)).cmpDoneReg = true := by
  have hreg : st.cmpStartReg = true := by
    by_contra hne
    rw [(h.rests (Bool.eq_false_iff.mpr hne)).2.1] at hdone
    cases hdone
  have hidle := (h.works hreg).mpr hdone
  have hstart : (cap.smplCmpIn p k).cmpStart = true := rfl
  simp [SmplCmp.next, hidle, hdone, hstart]

end SmplCmp

namespace PhaseLoop

variable {smplWidth : Nat} {c : SmplCmpCfg smplWidth} {cap : Capture smplWidth} {bad : Int → Bool}
variable {s : PhaseLoop smplWidth} {i : PhaseLoopIn}

/-! ## The handshake -/

/-- The search waits for a verdict. -/
def comparing (s : PhaseLoop smplWidth) : Bool := decide (s.search.fsm.currentState = .cmpSmpls)

/-- The stages from the enable of the comparator to the done flag of the search. -/
def stages (s : PhaseLoop smplWidth) : List Bool :=
  [s.rxSmplCmpStartSync.syncReg0, s.rxSmplCmpStartSync.syncReg1, s.inst3.cmpDoneReg, s.smplCmpDoneSync.syncReg0,
    s.smplCmpDoneSync.syncReg1]

variable (c cap bad) in
/-- While the search waits, the comparator takes samples at the search's position; its verdict goes back with done and
is still there when a search ends. -/
structure Inv (s : PhaseLoop smplWidth) : Prop where
  handshake : Handshake s.comparing s.search.fsm.smplCmpEnReg s.stages
  paused : s.inst3.Paused
  clear : s.rxSmplCmpStartSync.syncReg1 = false → s.inst3 = SmplCmp.reset ∧ s.taken = 0
  samples : s.comparing = true → s.taken ≤ s.mclk2Edges ∧ s.inst3 =
    SmplCmp.cmpAt c (fun j => cap.smplCmpIn s.search.position (s.mclk2Edges - s.taken + j)) s.taken
  sync0 : s.comparing = true → s.smplCmpDoneSync.syncReg0 = true →
    s.smplCmpErrorSync.syncReg0 = bad s.search.position
  sync1 : s.comparing = true → s.smplCmpDoneSync.syncReg1 = true →
    s.smplCmpErrorSync.syncReg1 = bad s.search.position
  checked : s.search.fsm.currentState = .checkMaxSteps → s.search.fsm.findMin = true →
    s.smplCmpErrorSync.syncReg0 = bad s.search.position
  ended : s.search.fsm.currentState = .endSrch → s.smplCmpErrorSync.syncReg1 = bad s.search.position

theorem inv_start {fsm : PllPsFsm} (hst : fsm.currentState = .idle) (hen : fsm.smplCmpEnReg = false) :
    Inv c cap bad (start fsm) := by
  have hcmp : (start fsm : PhaseLoop smplWidth).comparing = false := by
    simp [comparing, start, PhaseSearch.start, hst]
  have hen' : (start fsm : PhaseLoop smplWidth).search.fsm.smplCmpEnReg = false := hen
  refine ⟨?_, ⟨fun _ => ⟨rfl, rfl, rfl⟩, fun h => by cases h⟩, fun _ => ⟨rfl, rfl⟩, fun h => ?_, fun h => ?_, fun h => ?_,
    fun h => ?_, fun h => ?_⟩
  · rw [hcmp, hen']
    exact Handshake.rest (by simp [stages, start, SmplCmp.reset])
  · rw [hcmp] at h
    cases h
  · rw [hcmp] at h
    cases h
  · rw [hcmp] at h
    cases h
  · exact PllPsState.noConfusion (hst.symm.trans h)
  · exact PllPsState.noConfusion (hst.symm.trans h)

theorem Inv.error_of_done (h : Inv c cap bad s) (hf : cap.Follows c bad) (h0 : c.cmpLength ≠ 0)
    (hcmp : s.comparing = true) (hdone : s.inst3.cmpDoneReg = true) :
    s.inst3.cmpErrorReg = bad s.search.position := by
  obtain ⟨-, heq⟩ := h.samples hcmp
  rw [heq] at hdone ⊢
  exact SmplCmp.error_of_done hf h0 hdone

/-- Done has come back to a search that waits: all stages say so. -/
theorem Inv.all_of_done (h : Inv c cap bad s) (hcmp : s.comparing = true) (hdone : s.smplCmpDoneSync.syncReg1 = true) :
    ∀ b ∈ s.stages, b = true := by
  have hlast : s.stages.getLast? = some true := by simp [stages, hdone]
  by_cases he : s.comparing = s.search.fsm.smplCmpEnReg
  · have hen : s.search.fsm.smplCmpEnReg = true := he.symm.trans hcmp
    have hw := h.handshake.wave he
    rw [hen] at hw
    exact hw.all hlast
  · have hall := h.handshake.changing he true (List.mem_of_getLast? hlast)
    exact absurd (hcmp.trans hall) he

variable (c cap) in
/-- The comparator has come to the verdict `error`. All samples since it left its reset, at one edge of `MCLK2` after
the other up to the last one, were those of the search's present position. -/
def HasVerdict (s : PhaseLoop smplWidth) (error : Bool) : Prop :=
  ∃ k d, k + d = s.mclk2Edges ∧
    s.inst3 = SmplCmp.cmpAt c (fun j => cap.smplCmpIn s.search.position (k + j)) d ∧
    s.inst3.cmpDoneReg = true ∧ s.inst3.cmpErrorReg = error

/-- The verdict that comes back with done is that of the comparator. -/
theorem Inv.hasVerdict (h : Inv c cap bad s) (hf : cap.Follows c bad) (h0 : c.cmpLength ≠ 0)
    (hcmp : s.comparing = true) (hdone : s.smplCmpDoneSync.syncReg1 = true) :
    HasVerdict c cap s s.smplCmpErrorSync.syncReg1 := by
  obtain ⟨hle, heq⟩ := h.samples hcmp
  have hcmpDone : s.inst3.cmpDoneReg = true := h.all_of_done hcmp hdone _ (by simp [stages])
  exact ⟨s.mclk2Edges - s.taken, s.taken, Nat.sub_add_cancel hle, heq, hcmpDone,
    (h.error_of_done hf h0 hcmp hcmpDone).trans (h.sync1 hcmp hdone).symm⟩

/-- Done is gone for a search that does not wait: no stage has it. -/
theorem Inv.all_of_not_done (h : Inv c cap bad s) (hcmp : s.comparing = false)
    (hdone : s.smplCmpDoneSync.syncReg1 = false) : ∀ b ∈ s.stages, b = false := by
  have hlast : s.stages.getLast? = some false := by simp [stages, hdone]
  by_cases he : s.comparing = s.search.fsm.smplCmpEnReg
  · have hen : s.search.fsm.smplCmpEnReg = false := he.symm.trans hcmp
    have hw := h.handshake.wave he
    rw [hen] at hw
    exact hw.all hlast
  · have hall := h.handshake.changing he false (List.mem_of_getLast? hlast)
    exact absurd (hcmp.trans hall) he

/-! ## An edge of `MCLK2` -/

theorem mclk2Edge_done (h : Inv c cap bad s) :
    (s.mclk2Edge c cap).inst3.cmpDoneReg = s.inst3.cmpDoneReg ∨
      (s.mclk2Edge c cap).inst3.cmpDoneReg = s.rxSmplCmpStartSync.syncReg0 := by
  cases h1 : s.rxSmplCmpStartSync.syncReg1 with
  | false =>
      left
      have hreset := (h.clear h1).1
      simp [mclk2Edge, SyncReg.syncOut, h1, hreset, SmplCmp.reset]
  | true =>
      cases h0 : s.rxSmplCmpStartSync.syncReg0 with
      | false => exact Or.inr (by simp [mclk2Edge, SyncReg.next, SyncReg.syncOut, h0, SmplCmp.reset])
      | true =>
          cases hdone : s.inst3.cmpDoneReg with
          | true =>
              have hstay : (s.inst3.next c (cap.smplCmpIn s.search.position s.mclk2Edges)).cmpDoneReg = true :=
                h.paused.holds hdone _ _
              exact Or.inl (by simpa [mclk2Edge, SyncReg.next, SyncReg.syncOut, h0, h1] using hstay)
          | false => cases (s.mclk2Edge c cap).inst3.cmpDoneReg <;> simp

theorem Inv.mclk2Edge (h : Inv c cap bad s) : Inv c cap bad (s.mclk2Edge c cap) := by
  have hstages : (s.mclk2Edge c cap).stages = [s.search.fsm.smplCmpEnReg, s.rxSmplCmpStartSync.syncReg0,
      (s.mclk2Edge c cap).inst3.cmpDoneReg, s.smplCmpDoneSync.syncReg0, s.smplCmpDoneSync.syncReg1] := rfl
  refine ⟨?_, ?_, fun h0 => ?_, fun hcmp => ?_, h.sync0, h.sync1, h.checked, h.ended⟩
  · have hshift := h.handshake.moves (.take _ (.take _ (.keep _ (.keep _ (.keep _ (.nil _))))))
    rw [hstages]
    rcases mclk2Edge_done h with hd | hd
    · rw [hd]
      exact hshift
    · rw [hd]
      exact hshift.moves (.keep _ (.keep _ (.take _ (.keep _ (.keep _ (.nil _))))))
  · show SmplCmp.Paused (if _ then _ else _)
    split
    · exact h.paused.next _ fun _ hs => Bool.noConfusion hs
    · exact ⟨fun _ => ⟨rfl, rfl, rfl⟩, fun h => by cases h⟩
  · have h0' : s.rxSmplCmpStartSync.syncReg0 = false := h0
    simp [PhaseLoop.mclk2Edge, SyncReg.next, SyncReg.syncOut, h0']
  · obtain ⟨hle, heq⟩ := h.samples hcmp
    cases hrun : s.rxSmplCmpStartSync.syncReg1 && s.rxSmplCmpStartSync.syncReg0 with
    | false => simp [PhaseLoop.mclk2Edge, SyncReg.next, SyncReg.syncOut, hrun, SmplCmp.cmpAt, SmplCmp.circuit]
    | true =>
        have htaken : (s.mclk2Edge c cap).taken = s.taken + 1 := by
          simp [PhaseLoop.mclk2Edge, SyncReg.next, SyncReg.syncOut, hrun]
        have hinst : (s.mclk2Edge c cap).inst3 = s.inst3.next c (cap.smplCmpIn s.search.position s.mclk2Edges) := by
          simp [PhaseLoop.mclk2Edge, SyncReg.next, SyncReg.syncOut, hrun]
        have hedges : (s.mclk2Edge c cap).mclk2Edges = s.mclk2Edges + 1 := rfl
        have hpos : (s.mclk2Edge c cap).search.position = s.search.position := rfl
        rw [htaken, hinst, hedges, hpos, Nat.add_sub_add_right, SmplCmp.cmpAt_succ, ← heq, Nat.sub_add_cancel hle]
        exact ⟨Nat.succ_le_succ hle, rfl⟩

theorem Inv.mclk2Run (h : Inv c cap bad s) (k : Nat) : Inv c cap bad (mclk2Run c cap k s) := by
  induction k with
  | zero => exact h
  | succ k ih => exact ih.mclk2Edge

@[simp] theorem mclk2Run_search (k : Nat) : (mclk2Run c cap k s).search = s.search := by
  induction k with
  | zero => rfl
  | succ k ih => exact ih

@[simp] theorem mclk2Run_smplCmpDoneSync (k : Nat) :
    (mclk2Run c cap k s).smplCmpDoneSync = s.smplCmpDoneSync := by
  induction k with
  | zero => rfl
  | succ k ih => exact ih

@[simp] theorem mclk2Run_smplCmpErrorSync (k : Nat) :
    (mclk2Run c cap k s).smplCmpErrorSync = s.smplCmpErrorSync := by
  induction k with
  | zero => rfl
  | succ k ih => exact ih

/-! ## An edge of `free_running_clk` -/

theorem next_search (s : PhaseLoop smplWidth) (i : PhaseLoopIn) : (s.next c cap i).search = s.search.next (s.fsmIn i) := by
  have hin : (PhaseLoop.mclk2Run c cap i.mclk2Edges s).fsmIn i = s.fsmIn i := by
    simp [fsmIn]
  show (PhaseLoop.mclk2Run c cap i.mclk2Edges s).search.next _ = s.search.next _
  rw [hin, mclk2Run_search]

theorem freeRunningEdge_currentState : (s.freeRunningEdge i).search.fsm.currentState =
    s.search.fsm.nextState (s.fsmIn i) := rfl

/-- The search begins to wait only when done is gone, and stops only when it has come. -/
theorem done_of_changes (h : (s.freeRunningEdge i).comparing ≠ s.comparing) :
    s.smplCmpDoneSync.syncReg1 = s.comparing := by
  by_cases hst : s.search.fsm.currentState = .cmpSmpls
  · have hcmp : s.comparing = true := decide_eq_true hst
    rw [hcmp]
    by_contra hne
    refine h ?_
    rw [hcmp, comparing, freeRunningEdge_currentState]
    simp [PllPsFsm.nextState, hst, fsmIn, SyncReg.syncOut, Bool.eq_false_iff.mpr hne]
  · have hcmp : s.comparing = false := decide_eq_false hst
    rw [hcmp]
    by_contra hne
    refine h ?_
    rw [hcmp, comparing, freeRunningEdge_currentState, decide_eq_false_iff_not]
    have hdone : (s.fsmIn i).smplCmpDone = true := Bool.eq_true_of_not_eq_false hne
    cases hs : s.search.fsm.currentState <;> simp only [PllPsFsm.nextState, hs, hdone] <;> grind

theorem stages_freeRunningEdge : (s.freeRunningEdge i).stages = [s.rxSmplCmpStartSync.syncReg0,
    s.rxSmplCmpStartSync.syncReg1, s.inst3.cmpDoneReg, s.inst3.cmpDoneReg, s.smplCmpDoneSync.syncReg0] := rfl

/-- The steps of a search to the state that looks for the end of the range, and to its end. -/
theorem before_checkMaxSteps (h : s.search.fsm.nextState (s.fsmIn i) = .checkMaxSteps) :
    s.search.fsm.currentState = .cmpSmpls ∧ s.smplCmpDoneSync.syncReg1 = true ∨
      s.search.fsm.currentState = .minFound := by
  have hdone : (s.fsmIn i).smplCmpDone = s.smplCmpDoneSync.syncReg1 := rfl
  cases hs : s.search.fsm.currentState <;> simp only [PllPsFsm.nextState, hs] at h <;> grind

theorem before_endSrch (h : s.search.fsm.nextState (s.fsmIn i) = .endSrch) :
    s.search.fsm.currentState = .cmpSmpls ∧ s.smplCmpDoneSync.syncReg1 = true ∨
      s.search.fsm.currentState = .checkMaxSteps ∧ s.search.fsm.findMin = true := by
  have hdone : (s.fsmIn i).smplCmpDone = s.smplCmpDoneSync.syncReg1 := rfl
  cases hs : s.search.fsm.currentState <;> simp only [PllPsFsm.nextState, hs] at h <;> grind

theorem Inv.freeRunningEdge (h : Inv c cap bad s) (hf : cap.Follows c bad) (h0 : c.cmpLength ≠ 0) :
    Inv c cap bad (s.freeRunningEdge i) := by
  have hpos : s.search.fsm.currentState ≠ .phShift →
      (s.freeRunningEdge i).search.position = s.search.position := PhaseSearch.next_position
  have hwait : s.comparing = true → (s.freeRunningEdge i).search.position = s.search.position := fun hcmp =>
    hpos (by rw [of_decide_eq_true hcmp]; exact PllPsState.noConfusion)
  -- A search that begins to wait finds every stage clear.
  have hclear : (s.freeRunningEdge i).comparing = true → s.comparing = true ∨ ∀ b ∈ s.stages, b = false := by
    intro hcmp'
    cases hcmp : s.comparing with
    | true => exact Or.inl rfl
    | false =>
        refine Or.inr (h.all_of_not_done hcmp ?_)
        rw [done_of_changes (i := i) (by rw [hcmp, hcmp']; exact Bool.noConfusion), hcmp]
  have hverdict : s.comparing = true → s.smplCmpDoneSync.syncReg1 = true →
      s.inst3.cmpErrorReg = bad s.search.position ∧ s.smplCmpErrorSync.syncReg0 = bad s.search.position :=
    fun hcmp hdone =>
      have hall := h.all_of_done hcmp hdone
      ⟨h.error_of_done hf h0 hcmp (hall _ (by simp [stages])), h.sync0 hcmp (hall _ (by simp [stages]))⟩
  refine ⟨?_, h.paused, h.clear, fun hcmp' => ?_, fun hcmp' hdone => ?_, fun hcmp' hdone => ?_, fun hst hmin => ?_,
    fun hst => ?_⟩
  · rw [stages_freeRunningEdge]
    refine h.handshake.next (.keep _ (.keep _ (.keep _ (.take _ (.take _ (.nil _)))))) fun hne => ?_
    simpa [stages] using done_of_changes hne
  · rcases hclear hcmp' with hcmp | hall
    · rw [hwait hcmp]
      exact h.samples hcmp
    · obtain ⟨hreset, htaken⟩ := h.clear (hall _ (by simp [stages]))
      have hreset' : (s.freeRunningEdge i).inst3 = SmplCmp.reset := hreset
      have htaken' : (s.freeRunningEdge i).taken = 0 := htaken
      rw [hreset', htaken']
      exact ⟨Nat.zero_le _, rfl⟩
  · have hdone' : s.inst3.cmpDoneReg = true := hdone
    rcases hclear hcmp' with hcmp | hall
    · rw [hwait hcmp]
      exact h.error_of_done hf h0 hcmp hdone'
    · rw [hall s.inst3.cmpDoneReg (by simp [stages])] at hdone'
      cases hdone'
  · have hdone' : s.smplCmpDoneSync.syncReg0 = true := hdone
    rcases hclear hcmp' with hcmp | hall
    · rw [hwait hcmp]
      exact h.sync0 hcmp hdone'
    · rw [hall s.smplCmpDoneSync.syncReg0 (by simp [stages])] at hdone'
      cases hdone'
  · rcases before_checkMaxSteps hst with ⟨hcs, hdone⟩ | hcs
    · have hcmp : s.comparing = true := decide_eq_true hcs
      rw [hwait hcmp]
      exact (hverdict hcmp hdone).1
    · have hno : (s.freeRunningEdge i).search.fsm.findMin = false := by
        simp [PhaseLoop.freeRunningEdge, PhaseSearch.next, PllPsFsm.next, hcs]
      rw [hno] at hmin
      cases hmin
  · rcases before_endSrch hst with ⟨hcs, hdone⟩ | ⟨hcs, hmin⟩
    · have hcmp : s.comparing = true := decide_eq_true hcs
      rw [hwait hcmp]
      exact (hverdict hcmp hdone).2
    · rw [hpos (by rw [hcs]; exact PllPsState.noConfusion)]
      exact h.checked hcs hmin

theorem Inv.next (h : Inv c cap bad s) (hf : cap.Follows c bad) (h0 : c.cmpLength ≠ 0) (i : PhaseLoopIn) :
    Inv c cap bad (s.next c cap i) := (h.mclk2Run i.mclk2Edges).freeRunningEdge hf h0

/-! ## Done comes and goes -/

/-- The enable and the stages behind it. -/
def line (s : PhaseLoop smplWidth) : List Bool := s.search.fsm.smplCmpEnReg :: s.stages

theorem Inv.advances_mclk2Edge (h : Inv c cap bad s) : Advances s.comparing s.line (s.mclk2Edge c cap).line := by
  have hline : (s.mclk2Edge c cap).line = [s.search.fsm.smplCmpEnReg, s.search.fsm.smplCmpEnReg,
      s.rxSmplCmpStartSync.syncReg0, (s.mclk2Edge c cap).inst3.cmpDoneReg, s.smplCmpDoneSync.syncReg0,
      s.smplCmpDoneSync.syncReg1] := rfl
  have hshift := Advances.of_moves h.handshake.wave_cons
    (.keep _ (.take _ (.take _ (.keep _ (.keep _ (.keep _ (.nil _)))))))
  rw [hline]
  rcases mclk2Edge_done h with hd | hd
  · rw [hd]
    exact hshift
  · rw [hd]
    exact hshift.trans (Advances.of_moves hshift.wave
      (.keep _ (.keep _ (.keep _ (.take _ (.keep _ (.keep _ (.nil _))))))))

theorem Inv.advances_mclk2Run (h : Inv c cap bad s) (k : Nat) :
    Advances s.comparing s.line (PhaseLoop.mclk2Run c cap k s).line := by
  induction k with
  | zero => exact Advances.refl h.handshake.wave_cons
  | succ k ih =>
      refine ih.trans ?_
      have hedge := (h.mclk2Run k).advances_mclk2Edge
      rwa [comparing, mclk2Run_search] at hedge

theorem Inv.advances_freeRunningEdge (h : Inv c cap bad s) :
    Advances s.comparing s.line (s.freeRunningEdge i).line :=
  Advances.of_moves h.handshake.wave_cons
    (.take _ (.keep _ (.keep _ (.keep _ (.take _ (.take _ (.nil _)))))))

theorem comparing_mclk2Run (k : Nat) : (mclk2Run c cap k s).comparing = s.comparing := by
  rw [comparing, mclk2Run_search, comparing]

theorem Inv.advances_next (h : Inv c cap bad s) (i : PhaseLoopIn) :
    Advances s.comparing s.line (s.next c cap i).line := by
  have hrun := h.advances_mclk2Run i.mclk2Edges
  have hedge := (h.mclk2Run i.mclk2Edges).advances_freeRunningEdge (i := i)
  rw [comparing_mclk2Run] at hedge
  exact hrun.trans hedge

/-- What the stages hold when an edge of both clocks changes none of them. -/
structure Still (s : PhaseLoop smplWidth) : Prop where
  enable : s.search.fsm.smplCmpEnReg = s.comparing
  start0 : s.rxSmplCmpStartSync.syncReg0 = s.comparing
  start1 : s.rxSmplCmpStartSync.syncReg1 = s.comparing
  done0 : s.smplCmpDoneSync.syncReg0 = s.inst3.cmpDoneReg
  done1 : s.smplCmpDoneSync.syncReg1 = s.inst3.cmpDoneReg

theorem still_of_line_eq (h : Inv c cap bad s) {k : Nat} (hk : i.mclk2Edges = k + 1)
    (hl : (s.next c cap i).line = s.line) :
    Still s ∧ Still (PhaseLoop.mclk2Run c cap k s) := by
  have hrun := h.advances_mclk2Run (k + 1)
  have hedge := (h.mclk2Run (k + 1)).advances_freeRunningEdge (i := i)
  rw [comparing_mclk2Run] at hedge
  have hlast : (s.next c cap i).line = ((PhaseLoop.mclk2Run c cap (k + 1) s).freeRunningEdge i).line := by
    rw [PhaseLoop.next, hk]
  rw [hlast] at hl
  have hall := hrun.eq_of_eq hedge hl
  have hbefore : (PhaseLoop.mclk2Run c cap k s).line = s.line := by
    have hstep := (h.mclk2Run k).advances_mclk2Edge
    rw [comparing_mclk2Run] at hstep
    exact (h.advances_mclk2Run k).eq_of_eq hstep hall
  simp only [line, stages, mclk2Run_search, List.cons.injEq, and_true, true_and] at hbefore
  obtain ⟨ht0, ht1, htd, htd0, htd1⟩ := hbefore
  have he0 : s.search.fsm.smplCmpEnReg = s.rxSmplCmpStartSync.syncReg0 := by
    have h2 := congrArg (fun l => l[1]?) hall
    rw [← (mclk2Run_search k : (PhaseLoop.mclk2Run c cap k s).search = s.search)]
    exact Option.some.inj h2
  have he1 : (PhaseLoop.mclk2Run c cap k s).rxSmplCmpStartSync.syncReg0 = s.rxSmplCmpStartSync.syncReg1 :=
    Option.some.inj (congrArg (fun l => l[2]?) hall)
  have hdone : (PhaseLoop.mclk2Run c cap (k + 1) s).inst3.cmpDoneReg = s.inst3.cmpDoneReg :=
    Option.some.inj (congrArg (fun l => l[3]?) hall)
  have hen : (PhaseLoop.mclk2Run c cap (k + 1) s).comparing = s.search.fsm.smplCmpEnReg :=
    Option.some.inj (congrArg (fun l => l[0]?) hl)
  have hd0 : (PhaseLoop.mclk2Run c cap (k + 1) s).inst3.cmpDoneReg = s.smplCmpDoneSync.syncReg0 :=
    Option.some.inj (congrArg (fun l => l[4]?) hl)
  have hd1 : (PhaseLoop.mclk2Run c cap (k + 1) s).smplCmpDoneSync.syncReg0 = s.smplCmpDoneSync.syncReg1 :=
    Option.some.inj (congrArg (fun l => l[5]?) hl)
  rw [comparing_mclk2Run] at hen
  rw [mclk2Run_smplCmpDoneSync] at hd1
  have hs : Still s :=
    ⟨hen.symm, (hen.trans he0).symm, (hen.trans (he0.trans (ht0.symm.trans he1))).symm, (hdone.symm.trans hd0).symm,
      (hdone.symm.trans (hd0.trans hd1)).symm⟩
  refine ⟨hs, ?_⟩
  constructor
  · rw [mclk2Run_search, comparing_mclk2Run, hs.enable]
  · rw [ht0, comparing_mclk2Run, hs.start0]
  · rw [ht1, comparing_mclk2Run, hs.start1]
  · rw [htd0, htd, hs.done0]
  · rw [htd1, htd, hs.done1]

/-- The samples that the verdict may still take. -/
def rest (c : SmplCmpCfg smplWidth) (s : PhaseLoop smplWidth) : Nat :=
  if s.inst3.cmpDoneReg then 0 else c.cmpLength.toNat + 10 - s.taken

/-- While the search waits, a start that has reached the comparator stays. -/
theorem Inv.start0_of_start1 (h : Inv c cap bad s) (hcmp : s.comparing = true)
    (h1 : s.rxSmplCmpStartSync.syncReg1 = true) : s.rxSmplCmpStartSync.syncReg0 = true := by
  have hw := h.handshake.wave_cons
  rw [hcmp] at hw
  have htail := (List.pairwise_cons.mp (List.pairwise_cons.mp hw).2).1
  exact htail _ (List.mem_cons_self ..) h1

theorem Inv.rest_mclk2Edge (h : Inv c cap bad s) (hcmp : s.comparing = true) (h0 : c.cmpLength ≠ 0) :
    rest c (s.mclk2Edge c cap) ≤ rest c s ∧ (s.rxSmplCmpStartSync.syncReg1 = true → s.inst3.cmpDoneReg = false →
      rest c (s.mclk2Edge c cap) < rest c s) := by
  cases h1 : s.rxSmplCmpStartSync.syncReg1 with
  | false =>
      obtain ⟨hreset, htaken⟩ := h.clear h1
      refine ⟨?_, fun hc => Bool.noConfusion hc⟩
      simp [rest, PhaseLoop.mclk2Edge, SyncReg.syncOut, h1, hreset, htaken]
  | true =>
      have hs0 := h.start0_of_start1 hcmp h1
      have hinst : (s.mclk2Edge c cap).inst3 = s.inst3.next c (cap.smplCmpIn s.search.position s.mclk2Edges) := by
        simp [PhaseLoop.mclk2Edge, SyncReg.next, SyncReg.syncOut, h1, hs0]
      have htaken : (s.mclk2Edge c cap).taken = s.taken + 1 := by
        simp [PhaseLoop.mclk2Edge, SyncReg.next, SyncReg.syncOut, h1, hs0]
      cases hdone : s.inst3.cmpDoneReg with
      | true =>
          have hstay : (s.inst3.next c (cap.smplCmpIn s.search.position s.mclk2Edges)).cmpDoneReg = true :=
            h.paused.holds hdone _ _
          exact ⟨by simp [rest, hinst, hstay], fun _ hc => Bool.noConfusion hc⟩
      | false =>
          have hlt : s.taken < c.cmpLength.toNat + 9 := by
            by_contra hge
            obtain ⟨-, heq⟩ := h.samples hcmp
            rw [heq, SmplCmp.done_of_le h0 (Nat.le_of_not_lt hge)] at hdone
            cases hdone
          have hrest : rest c s = c.cmpLength.toNat + 10 - s.taken := by simp [rest, hdone]
          have hfalls : rest c (s.mclk2Edge c cap) < rest c s := by
            rw [hrest, rest, htaken]
            split <;> omega
          exact ⟨Nat.le_of_lt hfalls, fun _ _ => hfalls⟩

theorem Inv.rest_mclk2Run (h : Inv c cap bad s) (hcmp : s.comparing = true) (h0 : c.cmpLength ≠ 0) (k : Nat) :
    rest c (PhaseLoop.mclk2Run c cap k s) ≤ rest c s := by
  induction k with
  | zero => exact Nat.le_refl _
  | succ k ih =>
      exact Nat.le_trans ((h.mclk2Run k).rest_mclk2Edge (by rw [comparing_mclk2Run]; exact hcmp) h0).1 ih

/-! ## Runs -/

variable (c cap) in
/-- The loop at edge `n` of `free_running_clk`. -/
def loopAt (fsm : PllPsFsm) (x : Nat → PhaseLoopIn) (n : Nat) : PhaseLoop smplWidth := (circuit c cap fsm).run x n

variable (c cap) in
/-- What the state machine gets at edge `n`. -/
def fsmInAt (fsm : PllPsFsm) (x : Nat → PhaseLoopIn) (n : Nat) : PllPsFsmIn := (loopAt c cap fsm x n).fsmIn (x n)

/-- A search begins: the enable rises in automatic mode and stays. -/
structure Begins (fsm : PllPsFsm) (x : Nat → PhaseLoopIn) : Prop where
  currentState : fsm.currentState = .idle
  psEnReg : fsm.psEnReg = false
  psDoneReg : fsm.psDoneReg = false
  smplCmpEnReg : fsm.smplCmpEnReg = false
  psEn : ∀ n, (x n).psEn = true
  psMode : ∀ n, (x n).psMode = true

variable (c cap) in
/-- The PLL and the shift control answer after finitely many edges, and `MCLK2` goes on. -/
structure Environment (fsm : PllPsFsm) (x : Nat → PhaseLoopIn) : Prop where
  unlocked : ∀ n, (loopAt c cap fsm x n).search.fsm.currentState = .rstPll → ∃ m, n ≤ m ∧ (!(x m).pllLocked) = true
  locked : ∀ n, (loopAt c cap fsm x n).search.fsm.currentState = .waitPllLock → ∃ m, n ≤ m ∧ (x m).pllLocked = true
  shifted : ∀ n, (loopAt c cap fsm x n).search.fsm.currentState = .phShift →
    ∃ m, n ≤ m ∧ (loopAt c cap fsm x m).search.fsm.psCtrlBusyReg = true ∧ (x m).psCtrlBusy = false
  clock : ∀ n, ∃ m, n ≤ m ∧ decide (0 < (x m).mclk2Edges) = true

section Run

variable {fsm : PllPsFsm} {x : Nat → PhaseLoopIn} (hb : Begins fsm x) (hf : cap.Follows c bad) (h0 : c.cmpLength ≠ 0)

theorem search_eq (n : Nat) : (loopAt c cap fsm x n).search = PhaseSearch.searchAt fsm (fsmInAt c cap fsm x) n :=
  Circuit.run_part (d := PhaseSearch.circuit fsm) (fun s : PhaseLoop smplWidth => s.search) (fun s i => s.fsmIn i) rfl
    (fun s i => next_search s i) x n

include hb in
theorem starts : PhaseSearch.Starts fsm (fsmInAt c cap fsm x) :=
  ⟨hb.currentState, hb.psEnReg, hb.psDoneReg, hb.psEn, hb.psMode⟩

include hb hf h0 in
theorem inv_run (n : Nat) : Inv c cap bad (loopAt c cap fsm x n) := by
  induction n with
  | zero => exact inv_start hb.currentState hb.smplCmpEnReg
  | succ n ih => exact ih.next hf h0 (x n)

include hb hf h0 in
/-- The flags that the search takes are those of its positions. -/
theorem error_of_compared (n : Nat) (hc : (PhaseSearch.searchAt fsm (fsmInAt c cap fsm x) n).compared
    (fsmInAt c cap fsm x n) = true) :
    (fsmInAt c cap fsm x n).smplCmpError = bad (PhaseSearch.searchAt fsm (fsmInAt c cap fsm x) n).position := by
  rw [← search_eq] at hc ⊢
  simp only [PhaseSearch.compared, Bool.and_eq_true] at hc
  exact (inv_run hb hf h0 n).sync1 hc.1 hc.2

include hb hf h0 in
theorem searchInv_run (n : Nat) : PhaseSearch.Inv (x 0).psStepSize
    (fun k => bad (k * (x 0).psStepSize.toNat : Nat)) (PhaseSearch.searchAt fsm (fsmInAt c cap fsm x) (n + 1)) := by
  induction n with
  | zero => exact PhaseSearch.inv_start (i := fsmInAt c cap fsm x 0) hb.currentState hb.psEnReg (hb.psEn 0) (hb.psMode 0)
  | succ n ih => exact PhaseSearch.inv_next_of_position ih (hb.psEn (n + 1)) (error_of_compared hb hf h0 (n + 1))

theorem loopAt_succ (n : Nat) : loopAt c cap fsm x (n + 1) = (loopAt c cap fsm x n).next c cap (x n) := rfl

theorem currentState_succ (n : Nat) : (loopAt c cap fsm x (n + 1)).search.fsm.currentState =
    (loopAt c cap fsm x n).search.fsm.nextState (fsmInAt c cap fsm x n) := by
  rw [search_eq, search_eq]
  rfl

include hb hf h0 in
/-- After a comparison the done flag goes away. -/
theorem exists_cleared (he : Environment c cap fsm x) {n : Nat}
    (hst : (loopAt c cap fsm x n).search.fsm.currentState = .checkCmpStatus) :
    ∃ m, n ≤ m ∧ (!(fsmInAt c cap fsm x m).smplCmpDone) = true := by
  have hlead := leads_to_of_falls (v := fun m => (loopAt c cap fsm x m).line.count true)
    (P := fun m => (loopAt c cap fsm x m).search.fsm.currentState = .checkCmpStatus)
    (Q := fun m => (loopAt c cap fsm x m).smplCmpDoneSync.syncReg1 = false) he.clock (fun m hm hq => ?_) hst
  · obtain ⟨m, hm, -, hd⟩ := hlead
    have hin : (fsmInAt c cap fsm x m).smplCmpDone = false := hd
    exact ⟨m, hm, by rw [hin]; rfl⟩
  · have hinv := inv_run hb hf h0 m
    have hdone : (loopAt c cap fsm x m).smplCmpDoneSync.syncReg1 = true := Bool.eq_true_of_not_eq_false hq
    have hin : (fsmInAt c cap fsm x m).smplCmpDone = true := hdone
    have hcmp : (loopAt c cap fsm x m).comparing = false := by simp [comparing, hm]
    have hadv := hinv.advances_next (x m)
    rw [hcmp] at hadv
    refine ⟨by simp [currentState_succ, PllPsFsm.nextState, hm, hin], hadv.le, fun hclk => hadv.lt fun hl => ?_⟩
    obtain ⟨k, hk⟩ := Nat.exists_eq_succ_of_ne_zero (Nat.ne_of_gt (of_decide_eq_true hclk))
    have hs := (still_of_line_eq hinv hk hl).1
    have hclear := (hinv.clear (hs.start1.trans hcmp)).1
    rw [hs.done1, hclear] at hdone
    cases hdone

include hb hf h0 in
/-- A comparison that was asked for is answered. -/
theorem exists_compared (he : Environment c cap fsm x) {n : Nat}
    (hst : (loopAt c cap fsm x n).search.fsm.currentState = .cmpSmpls) :
    ∃ m, n ≤ m ∧ (fsmInAt c cap fsm x m).smplCmpDone = true := by
  have hlead := leads_to_of_falls
    (v := fun m => (loopAt c cap fsm x m).line.count false + rest c (loopAt c cap fsm x m))
    (P := fun m => (loopAt c cap fsm x m).search.fsm.currentState = .cmpSmpls)
    (Q := fun m => (loopAt c cap fsm x m).smplCmpDoneSync.syncReg1 = true) he.clock (fun m hm hq => ?_) hst
  · obtain ⟨m, hm, -, hd⟩ := hlead
    exact ⟨m, hm, hd⟩
  · have hinv := inv_run hb hf h0 m
    have hdone : (loopAt c cap fsm x m).smplCmpDoneSync.syncReg1 = false := Bool.eq_false_iff.mpr hq
    have hin : (fsmInAt c cap fsm x m).smplCmpDone = false := hdone
    have hcmp : (loopAt c cap fsm x m).comparing = true := by simp [comparing, hm]
    have hadv := hinv.advances_next (x m)
    rw [hcmp] at hadv
    have hle : (loopAt c cap fsm x (m + 1)).line.count false ≤ (loopAt c cap fsm x m).line.count false := hadv.le
    have hrest : rest c (loopAt c cap fsm x (m + 1)) ≤ rest c (loopAt c cap fsm x m) :=
      hinv.rest_mclk2Run hcmp h0 (x m).mclk2Edges
    refine ⟨by simp [currentState_succ, PllPsFsm.nextState, hm, hin], Nat.add_le_add hle hrest, fun hclk => ?_⟩
    by_cases hl : (loopAt c cap fsm x (m + 1)).line = (loopAt c cap fsm x m).line
    · -- The stages wait for the comparator, which takes a sample.
      obtain ⟨k, hk⟩ := Nat.exists_eq_succ_of_ne_zero (Nat.ne_of_gt (of_decide_eq_true hclk))
      obtain ⟨-, hs⟩ := still_of_line_eq hinv hk hl
      have hcmp' : (mclk2Run c cap k (loopAt c cap fsm x m)).comparing = true := (comparing_mclk2Run k).trans hcmp
      have hd1 : (mclk2Run c cap k (loopAt c cap fsm x m)).smplCmpDoneSync.syncReg1 = false := by
        rw [mclk2Run_smplCmpDoneSync]
        exact hdone
      have hfalls := ((hinv.mclk2Run k).rest_mclk2Edge hcmp' h0).2 (hs.start1.trans hcmp') (hs.done1.symm.trans hd1)
      have hrun : rest c (mclk2Run c cap k (loopAt c cap fsm x m)) ≤ rest c (loopAt c cap fsm x m) :=
        hinv.rest_mclk2Run hcmp h0 k
      have heq : rest c (loopAt c cap fsm x (m + 1)) =
          rest c ((mclk2Run c cap k (loopAt c cap fsm x m)).mclk2Edge c cap) := by
        rw [loopAt_succ, PhaseLoop.next, hk]
        rfl
      exact Nat.add_lt_add_of_le_of_lt hle (by omega)
    · exact Nat.add_lt_add_of_lt_of_le (hadv.lt hl) hrest

include hb hf h0 in
theorem answers (he : Environment c cap fsm x) : PhaseSearch.Answers fsm (fsmInAt c cap fsm x) := by
  refine ⟨fun n hst => he.unlocked n ?_, fun n hst => he.locked n ?_, fun n hst => exists_cleared hb hf h0 he ?_,
    fun n hst => exists_compared hb hf h0 he ?_, fun n hst => ?_⟩
  · rwa [search_eq]
  · rwa [search_eq]
  · rwa [search_eq]
  · rwa [search_eq]
  · obtain ⟨m, hm, hreg, hbusy⟩ := he.shifted n (by rwa [search_eq])
    refine ⟨m, hm, ?_⟩
    rw [← search_eq, PllPsFsm.psCtrlBusyFalling, hreg]
    simp [fsmInAt, fsmIn, hbusy]

include hb hf h0 in
/-- A search with a step that is not zero ends. -/
theorem exists_reports (he : Environment c cap fsm x) (hs : (x 0).psStepSize ≠ 0) :
    ∃ n, PhaseSearch.Reports fsm (fsmInAt c cap fsm x) n := by
  obtain ⟨err, hres⟩ := PhaseSearch.exists_results fsm (fsmInAt c cap fsm x)
  exact PhaseSearch.exists_reports (starts hb)
    (PhaseSearch.exists_endSrch (starts hb) hres (answers hb hf h0 he) hs)

include hb hf h0 in
/-- The status that is reported is the verdict at the position where the search ends. -/
theorem psStatusReg_of_reports {n : Nat} (hd : PhaseSearch.Reports fsm (fsmInAt c cap fsm x) n) :
    (loopAt c cap fsm x (n + 1)).search.fsm.psStatusReg = bad (loopAt c cap fsm x n).search.position := by
  have hend : (loopAt c cap fsm x n).search.fsm.currentState = .endSrch := by
    rw [search_eq]
    exact PhaseSearch.of_reports (starts hb) hd
  have hstatus : (loopAt c cap fsm x (n + 1)).search.fsm.psStatusReg =
      (loopAt c cap fsm x n).smplCmpErrorSync.syncReg1 := by
    rw [search_eq, PhaseSearch.searchAt_succ, ← search_eq]
    simp [PhaseSearch.next, PllPsFsm.next, hend, fsmInAt, fsmIn, hb.psEn, SyncReg.syncOut]
  rw [hstatus]
  exact (inv_run hb hf h0 n).ended hend

include hb hf h0 in
theorem of_reports {n : Nat} (hd : PhaseSearch.Reports fsm (fsmInAt c cap fsm x) n) :
    (∃ k, PhaseSearch.NoLower (x 0).psStepSize (fun k => bad (k * (x 0).psStepSize.toNat : Nat)) (k + 1) ∧
        1023 ≤ (k + 1) * (x 0).psStepSize.toNat) ∨
      ∃ up k₀ l, PhaseSearch.Closed (x 0).psStepSize (fun k => bad (k * (x 0).psStepSize.toNat : Nat)) up k₀ l
          (loopAt c cap fsm x n).search ∧
        (loopAt c cap fsm x n).search.position = (PhaseSearch.scanEnd (x 0).psStepSize up l : Nat) -
          (PhaseSearch.back (x 0).psStepSize up k₀ l : Nat) := by
  have hend := PhaseSearch.of_reports (starts hb) hd
  rw [search_eq]
  cases n with
  | zero => exact PllPsState.noConfusion (hb.currentState.symm.trans hend)
  | succ n => exact (searchInv_run hb hf h0 n).of_endSrch hend

end Run

variable {fsm : PllPsFsm} {x : Nat → PhaseLoopIn}

/-- When the capture is good from `lo` to `hi`, the scan meets this window and the range goes on after it, then the
search ends, however the two clocks run; the phase stands in the middle of the window, and the status says that the
comparison passes there. -/
theorem exists_middle {lo hi : Int} (hb : Begins fsm x) (hf : cap.Follows c (outside lo hi)) (h0 : c.cmpLength ≠ 0)
    (he : Environment c cap fsm x)
    (hmeets : ∃ k : Nat, 2 < k * (x 0).psStepSize.toNat ∧ k * (x 0).psStepSize.toNat < 1023 ∧
      lo ≤ (k * (x 0).psStepSize.toNat : Nat) ∧ ((k * (x 0).psStepSize.toNat : Nat) : Int) ≤ hi)
    (hends : ∃ k : Nat, hi < (k * (x 0).psStepSize.toNat : Nat) ∧ k * (x 0).psStepSize.toNat < 1023) :
    ∃ n, PhaseSearch.Reports fsm (fsmInAt c cap fsm x) n ∧
      MiddleOfWindow (x 0).psStepSize.toNat lo hi (loopAt c cap fsm x n).search.position ∧
      lo ≤ (loopAt c cap fsm x n).search.position ∧ (loopAt c cap fsm x n).search.position ≤ hi ∧
      (loopAt c cap fsm x (n + 1)).search.fsm.psStatusReg = false := by
  obtain ⟨m, hm2, hmlt, hmlo, hmhi⟩ := hmeets
  obtain ⟨e, helo, helt⟩ := hends
  have hs : (x 0).psStepSize ≠ 0 := fun hs => by
    rw [hs] at hm2
    exact absurd hm2 (by simp)
  obtain ⟨n, hd⟩ := exists_reports hb hf h0 he hs
  refine ⟨n, hd, ?_⟩
  rw [psStatusReg_of_reports hb hf h0 hd]
  rcases of_reports hb hf h0 hd with ⟨k, hno, hle⟩ | ⟨up, k₀, l, hcl, hpos⟩
  · -- The scan has met the window.
    have hmk : m < k + 1 := Nat.lt_of_mul_lt_mul_right (Nat.lt_of_lt_of_le hmlt hle)
    exact absurd ⟨hmlo, hmhi⟩ (outside_eq_true.mp (hno m hmk hm2))
  · obtain ⟨hmid, hlo, hhi⟩ := hcl.middleOfWindow helo helt
    rw [← hpos] at hmid hlo hhi
    exact ⟨hmid, hlo, hhi, outside_eq_false.mpr ⟨hlo, hhi⟩⟩

end PhaseLoop

end LimeSdrQpcie
