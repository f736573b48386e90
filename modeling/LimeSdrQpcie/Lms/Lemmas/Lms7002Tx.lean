import LimeSdrQpcie.Iq.Lemmas.Txiq
import LimeSdrQpcie.Lms.Lms7002Tx

/-!
# From the sample FIFO to the double data rate cells

With the tests off `txiqmux` is a delay of three cycles, and `txiq` behind the selected FIFO takes its slots as it
does in the loop to the receive side.
-/

namespace LimeSdrQpcie

open Hdl

/-! ## txiqmux -/

namespace Txiqmux

variable {z : Nat → TxiqmuxIn}

theorem syncs_run (hptrn : ∀ n, (z n).testPtrnEn = false) (hsel : ∀ n, (z n).muxSel = false) (n : Nat) :
    (circuit.run z n).testPtrnEnSync = ⟨false, false⟩ ∧ (circuit.run z n).muxSelSync = ⟨false, false⟩ := by
  induction n with
  | zero => exact ⟨rfl, rfl⟩
  | succ n ih =>
      rw [Circuit.run_succ]
      constructor
      · change (circuit.run z n).testPtrnEnSync.next (z n).testPtrnEn = _
        rw [ih.1, hptrn]
        rfl
      · change (circuit.run z n).muxSelSync.next (z n).muxSel = _
        rw [ih.2, hsel]
        rfl

/-- With the tests off the halves come out three cycles later. -/
theorem diq_run (hptrn : ∀ n, (z n).testPtrnEn = false) (hsel : ∀ n, (z n).muxSel = false)
    (hdata : ∀ n, (z n).testDataEn = false) (n : Nat) : (circuit.run z (n + 3)).diq = (z n).txDiq := by
  have h2 : (circuit.run z (n + 3)).diq = (circuit.run z (n + 2)).mux1DiqReg := by
    change (circuit.run z (n + 2)).mux2Diq (z (n + 2)) = _
    rw [mux2Diq, hdata, if_pos rfl]
  have h1 : (circuit.run z (n + 2)).mux1DiqReg = (circuit.run z (n + 1)).mux0DiqReg := by
    change (circuit.run z (n + 1)).mux1Diq = _
    rw [mux1Diq, (syncs_run hptrn hsel (n + 1)).1]
    rfl
  have h0 : (circuit.run z (n + 1)).mux0DiqReg = (z n).txDiq := by
    change (circuit.run z n).mux0Diq (z n) = _
    rw [mux0Diq, (syncs_run hptrn hsel n).2]
    rfl
  rw [h2, h1, h0]

/-- Before that they are zero. -/
theorem diq_run_of_lt (hdata : ∀ n, (z n).testDataEn = false) {n : Nat} (hn : n < 3) :
    (circuit.run z n).diq = TxDiq.zero := by
  have hmux2 : ∀ s : Txiqmux, ∀ k, s.mux1DiqReg = TxDiq.zero → (s.next (z k)).diq = TxDiq.zero := by
    intro s k hs
    change s.mux2Diq (z k) = _
    rw [mux2Diq, hdata, if_pos rfl, hs]
  rcases (show n = 0 ∨ n = 1 ∨ n = 2 by omega) with rfl | rfl | rfl
  · rfl
  · exact hmux2 _ 0 rfl
  · exact hmux2 _ 1 rfl

end Txiqmux

/-! ## The slots -/

namespace Lms7002Tx

open Txiq

variable {m : IqMode} {y : Nat → Lms7002TxIn} {sel : Bool}

/-- What comes to the selected FIFO. -/
def fifoCome (sel : Bool) (i : Lms7002TxIn) : List (BitVec 64) := if sel = false then i.fifo0Come else i.fifo1Come

theorem fifo_next {s : Lms7002Tx} {i : Lms7002TxIn} (hi : i.txSrcSel = sel) :
    (s.next m i).fifo sel = (s.fifo sel).next (s.fifoRdreq sel) (fifoCome sel i) := by
  subst hi
  cases h : i.txSrcSel with
  | false => simp [fifo, next, h, fifoCome]
  | true => simp [fifo, next, h, fifoCome]

/-- The loop with the words of the selected FIFO. -/
def iqLoop (m : IqMode) (sel : Bool) (y : Nat → Lms7002TxIn) (n : Nat) : IqLoop :=
  (IqLoop.circuit m []).run (fun k => ⟨(fifoCome sel (y k)).map inst4FifoQ, false⟩) n

theorem iqLoop_run (hsel : ∀ n, (y n).txSrcSel = sel) (n : Nat) :
    (iqLoop m sel y n).txFifo = (((circuit m).run y n).fifo sel).known.map inst4FifoQ ∧
      (iqLoop m sel y n).fifoQ = inst4FifoQ (((circuit m).run y n).fifo sel).q ∧
      (iqLoop m sel y n).txiq = ((circuit m).run y n).inst4 := by
  induction n with
  | zero =>
      have hzero : inst4FifoQ 0 = 0 := by decide
      cases sel with
      | false | true => exact ⟨rfl, hzero.symm, rfl⟩
  | succ n ih =>
      generalize hs : (circuit m).run y n = s at ih
      generalize ht : iqLoop m sel y n = t at ih
      obtain ⟨hfifo, hq, htx⟩ := ih
      have hs1 : (circuit m).run y (n + 1) = s.next m (y n) := by rw [Circuit.run_succ, hs]; rfl
      have ht1 : iqLoop m sel y (n + 1) = t.next m ⟨(fifoCome sel (y n)).map inst4FifoQ, false⟩ := by
        rw [iqLoop, Circuit.run_succ, ← ht]
        rfl
      have hempty : t.txFifoRdempty = (s.fifo sel).rdempty := by
        rw [IqLoop.txFifoRdempty, hfifo, FifoInstRd.rdempty]
        cases (s.fifo sel).known <;> rfl
      have hrd : t.txFifoRdreq = s.fifoRdreq sel := by rw [IqLoop.txFifoRdreq, hempty, htx, fifoRdreq]
      rw [hs1, ht1, fifo_next (hsel n)]
      refine ⟨?_, ?_, ?_⟩
      · simp only [IqLoop.next, FifoInstRd.next, hrd, hfifo]
        split <;> simp
      · simp only [IqLoop.next, FifoInstRd.next, hrd, hfifo, hq]
        cases s.fifoRdreq sel with
        | false => rfl
        | true => cases (s.fifo sel).known <;> rfl
      · simp only [IqLoop.next, next, hempty, htx, hq, hsel]

theorem slot_eq (hsel : ∀ n, (y n).txSrcSel = sel) (n : Nat) :
    ((circuit m).run y n).slot sel = (iqLoop m sel y n).slot := by
  obtain ⟨hfifo, -, htx⟩ := iqLoop_run (m := m) hsel n
  have hrd : (iqLoop m sel y n).txFifoRdreq = ((circuit m).run y n).fifoRdreq sel := by
    rw [IqLoop.txFifoRdreq, IqLoop.txFifoRdempty, hfifo, htx, fifoRdreq, FifoInstRd.rdempty]
    cases (((circuit m).run y n).fifo sel).known <;> rfl
  rw [slot, IqLoop.slot, hrd, htx, hfifo, readWord, List.head?_map]
  cases ((circuit m).run y n).fifoRdreq sel <;> rfl

/-- The word of slot `k`. -/
def wordOfSlot (m : IqMode) (sel : Bool) (y : Nat → Lms7002TxIn) (k : Nat) : BitVec 48 :=
  IqLoop.wordOfSlot m [] (fun j => ⟨(fifoCome sel (y j)).map inst4FifoQ, false⟩) k

theorem slot_paced (hsel : ∀ n, (y n).txSrcSel = sel) :
    Paced (fun n => ((circuit m).run y n).slot sel) 1 (period m) (wordOfSlot m sel y) := by
  have hp := IqLoop.slot_paced m [] fun j => ⟨(fifoCome sel (y j)).map inst4FifoQ, false⟩
  have heq : (fun n => ((circuit m).run y n).slot sel) = fun n => (iqLoop m sel y n).slot := funext (slot_eq hsel)
  rw [heq]
  exact hp

theorem slot_spec {s : Lms7002Tx} {w : BitVec 48} (h : s.slot sel = some w) :
    (∃ v, s.readWord sel = some v ∧ w = inst4FifoQ v) ∨ s.readWord sel = none ∧ w = 0 := by
  unfold slot at h
  split at h
  · obtain ⟨v, hv, rfl⟩ := Option.map_eq_some_iff.mp h
    exact Or.inl ⟨v, hv, rfl⟩
  · rename_i hrd
    split at h
    · exact Or.inr ⟨if_neg hrd, (Option.some.inj h).symm⟩
    · cases h

theorem readWord_of_slot_none {s : Lms7002Tx} (h : s.slot sel = none) : s.readWord sel = none := by
  unfold slot at h
  split at h
  · exact Option.map_eq_none_iff.mp h
  · rename_i hrd
    exact if_neg hrd

/-- A slot takes a word when one was known in the cycle before. -/
theorem readWord_of_known {s : Lms7002Tx} {i : Lms7002TxIn} (hi : i.txSrcSel = sel)
    (hk : (s.fifo sel).known ≠ []) (hslot : ((s.next m i).slot sel).isSome = true) :
    ∃ v, (s.next m i).readWord sel = some v ∧ (s.next m i).slot sel = some (inst4FifoQ v) := by
  have hempty : (s.fifo sel).rdempty = false := by
    cases h : (s.fifo sel).known with
    | nil => exact absurd h hk
    | cons w ws => rw [FifoInstRd.rdempty, h]; rfl
  have hnz : (s.next m i).inst4.currentState ≠ .zeroSamples := by
    subst hi
    change Txiq.nextState s.inst4 _ ≠ _
    unfold Txiq.nextState
    simp only [hempty]
    cases s.inst4.currentState with
    | idle | rdSamples | zeroSamples => simp
    | waitRdCycles => simp only; split <;> simp
  unfold slot readWord at hslot ⊢
  cases hrd : (s.next m i).fifoRdreq sel with
  | false =>
      rw [hrd] at hslot
      simp [hnz] at hslot
  | true =>
      cases hk' : ((s.next m i).fifo sel).known with
      | nil =>
          rw [fifoRdreq, Txiq.fifoRdreq, FifoInstRd.rdempty, hk'] at hrd
          simp at hrd
      | cons v vs => exact ⟨v, rfl, rfl⟩

/-! ## The halves -/

/-- Position `j` of a word on the interface. -/
def diqOf (m : IqMode) (w : BitVec 48) (j : Fin 4) : TxDiq :=
  { diqH := positions (intFsyncH m) (muxPosH (intMode m) w) j
    diqL := positions (intFsyncL m) (muxPosL (intMode m) w) j }

/-- Both tests are off. -/
def TestsOff (y : Nat → Lms7002TxIn) : Prop := ∀ n, (y n).testPtrnEn = false ∧ (y n).testCntEn = false

theorem inst5_run (y : Nat → Lms7002TxIn) (n : Nat) : ((circuit m).run y n).inst5 = Txiqmux.circuit.run (fun k =>
    { testPtrnEn := (y k).testPtrnEn, testPtrnFidm := false, testPtrnI := (y k).testPtrnI
      testPtrnQ := (y k).testPtrnQ, testDataEn := (y k).testCntEn, muxSel := false
      txDiq := ⟨((circuit m).run y k).inst4.diqH, ((circuit m).run y k).inst4.diqL⟩, wfmDiq := TxDiq.zero }) n :=
  Circuit.run_part (c := circuit m) (d := Txiqmux.circuit) inst5
    (fun s i =>
      { testPtrnEn := i.testPtrnEn, testPtrnFidm := false, testPtrnI := i.testPtrnI, testPtrnQ := i.testPtrnQ,
        testDataEn := i.testCntEn, muxSel := false, txDiq := ⟨s.inst4.diqH, s.inst4.diqL⟩, wfmDiq := TxDiq.zero })
    rfl (fun _ _ => rfl) y n

theorem diq_eq (hoff : TestsOff y) (n : Nat) : ((circuit m).run y (n + 3)).diq =
    ⟨((circuit m).run y n).inst4.diqH, ((circuit m).run y n).inst4.diqL⟩ := by
  rw [diq, inst5_run]
  exact Txiqmux.diq_run (fun k => (hoff k).1) (fun _ => rfl) (fun k => (hoff k).2) n

/-- The word of a slot is on the interface from the fifth cycle after it on, one position a cycle. -/
theorem diq_run (hsel : ∀ n, (y n).txSrcSel = sel) (hoff : TestsOff y) (k : Nat) (j : Fin 4) (hj : j.val < period m) :
    ((circuit m).run y (6 + period m * k + j)).diq = diqOf m (wordOfSlot m sel y k) j := by
  have hrx := IqLoop.diq_run m [] (fun j => ⟨(fifoCome sel (y j)).map inst4FifoQ, false⟩) k j hj
  have htx := (iqLoop_run (m := m) hsel (3 + period m * k + j)).2.2
  have hH := congrArg RxDiq.diqL hrx
  have hL := congrArg RxDiq.diqH hrx
  rw [show 6 + period m * k + j.val = 3 + period m * k + j.val + 3 by omega, diq_eq hoff, ← htx]
  exact congrArg₂ TxDiq.mk hH hL

end Lms7002Tx

end LimeSdrQpcie
