import LimeSdrQpcie.Iq.Rxiq
import Mathlib.Logic.Function.Iterate

/-!
# The slots of the transmit side

From cycle `1` on `txiq` has a read slot every `period` cycles. The word of a slot stands on the interface two
cycles later, one position a cycle, until the word of the next slot replaces it.
-/

namespace LimeSdrQpcie

open Hdl

/-! ## The register arrays -/

namespace Txiq

theorem positions_zero (fsync : BitVec 4) (intMode : BitVec 2) :
    positions fsync (muxPosL intMode 0) = positions fsync (fun _ => 0) ∧
      positions fsync (muxPosH intMode 0) = positions fsync (fun _ => 0) := by
  have hL : muxPosL intMode 0 = fun _ => 0 := by
    funext pos
    match pos with
    | 0 | 1 | 2 | 3 => simp [muxPosL, diqSmpl]
  have hH : muxPosH intMode 0 = fun _ => 0 := by
    funext pos
    match pos with
    | 0 | 1 | 2 | 3 => simp [muxPosH, diqSmpl]
  rw [hL, hH]
  exact ⟨rfl, rfl⟩

/-- What stands at position `j` comes out after `j` cycles without a load. -/
theorem shifted_iterate (reg : Fin 4 → Diq) (j : Fin 4) : shifted^[j] reg 0 = reg j :=
  match j with
  | 0 | 1 | 2 | 3 => rfl

theorem nextReg_of_idle {s : Txiq} (hq : s.intFifoQValid = false) (hz : s.zeroValid = false) (fsync : BitVec 4)
    (mux reg : Fin 4 → _) : s.nextReg fsync mux reg = shifted reg := by
  rw [nextReg, hq, hz]
  rfl

/-- The cycles of a slot. -/
def period (m : IqMode) : Nat := (rdWaitCntMax m).toNat + 2

theorem period_of_both {m : IqMode} (h : intMode m = 0b00) : period m = 2 := by
  rw [period, rdWaitCntMax, if_pos h]
  rfl

theorem period_of_one {m : IqMode} (h : intMode m ≠ 0b00) : period m = 4 := by
  rw [period, rdWaitCntMax, if_neg h]
  split <;> rfl

theorem period_le (m : IqMode) : period m ≤ 4 := by
  by_cases h : intMode m = 0b00
  · rw [period_of_both h]
    exact Nat.le_add_left 2 2
  · exact Nat.le_of_eq (period_of_one h)

end Txiq

/-! ## The cycles of a slot -/

namespace IqLoop

open Txiq

variable {m : IqMode} {s : IqLoop} {i j : IqLoopIn}

/-- A read slot: the FIFO is read, which has a word then, or zeros are sent for a word. -/
def AtSlot (s : IqLoop) : Prop :=
  (s.txiq.currentState = .rdSamples ∧ s.txFifo ≠ []) ∨ s.txiq.currentState = .zeroSamples

/-- Cycle `k` of the wait between two slots. -/
structure Waits (m : IqMode) (k : Nat) (s : IqLoop) : Prop where
  state : s.txiq.currentState = .waitRdCycles
  cnt : s.txiq.rdWaitCnt.toNat = k
  cntMax : s.txiq.rdWaitCntMaxReg = rdWaitCntMax m

def slotWord (s : IqLoop) : BitVec 48 := s.slot.getD 0

theorem txFifoRdreq_of_rdSamples (hs : s.txiq.currentState = .rdSamples) (hne : s.txFifo ≠ []) :
    s.txFifoRdreq = true := by
  cases hf : s.txFifo with
  | nil => exact absurd hf hne
  | cons w ws => simp [txFifoRdreq, fifoRdreq, intFifoRdreq, txFifoRdempty, hs, hf]

theorem txFifoRdreq_of_ne (hs : s.txiq.currentState ≠ .rdSamples) : s.txFifoRdreq = false := by
  simp [txFifoRdreq, fifoRdreq, intFifoRdreq, hs]

theorem AtSlot.slot_eq (h : AtSlot s) : s.slot = some s.slotWord := by
  rcases h with ⟨hs, hne⟩ | hs
  · cases hf : s.txFifo with
    | nil => exact absurd hf hne
    | cons w ws => simp [slotWord, slot, txFifoRdreq_of_rdSamples hs hne, hf]
  · have hr : s.txFifoRdreq = false := txFifoRdreq_of_ne (by rw [hs]; exact fun h => nomatch h)
    simp [slotWord, slot, hr, hs]

theorem slot_of_wait (hs : s.txiq.currentState = .waitRdCycles) : s.slot = none := by
  have hr : s.txFifoRdreq = false := txFifoRdreq_of_ne (by rw [hs]; exact fun h => nomatch h)
  simp [slot, hr, hs]

theorem AtSlot.next_waits (h : AtSlot s) : Waits m 0 (s.next m i) := by
  rcases h with ⟨hs, _⟩ | hs
  · exact ⟨by simp [next, Txiq.next, nextState, hs], by simp [next, Txiq.next, hs], rfl⟩
  · exact ⟨by simp [next, Txiq.next, nextState, hs], by simp [next, Txiq.next, hs], rfl⟩

theorem Waits.next_waits {k : Nat} (h : Waits m k s) (hk : k < (rdWaitCntMax m).toNat) :
    Waits m (k + 1) (s.next m i) := by
  have hne : s.txiq.rdWaitCnt ≠ s.txiq.rdWaitCntMaxReg := by
    intro he
    rw [← h.cnt, he, h.cntMax] at hk
    exact Nat.lt_irrefl _ hk
  have hlt := (rdWaitCntMax m).isLt
  have hcnt := h.cnt
  refine ⟨by simp [next, Txiq.next, nextState, h.state, hne], ?_, rfl⟩
  have hc : (s.next m i).txiq.rdWaitCnt = s.txiq.rdWaitCnt + 1 := by simp [next, Txiq.next, h.state]
  rw [hc, BitVec.toNat_add, h.cnt]
  exact Nat.mod_eq_of_lt (by simp; omega)

/-- What a cycle in which the next slot is decided leads to. -/
theorem atSlot_next (hr : s.txFifoRdreq = false)
    (hst : (s.next m i).txiq.currentState = if s.txFifoRdempty = false then .rdSamples else .zeroSamples) :
    AtSlot (s.next m i) := by
  cases hf : s.txFifo with
  | nil =>
      refine Or.inr ?_
      rw [hst]
      simp [txFifoRdempty, hf]
  | cons w ws =>
      refine Or.inl ⟨?_, ?_⟩
      · rw [hst]
        simp [txFifoRdempty, hf]
      · simp [next, hr, hf]

theorem Waits.next_atSlot (h : Waits m (rdWaitCntMax m).toNat s) : AtSlot (s.next m i) := by
  have he : s.txiq.rdWaitCnt = s.txiq.rdWaitCntMaxReg := by
    rw [h.cntMax]
    exact BitVec.eq_of_toNat_eq h.cnt
  refine atSlot_next (txFifoRdreq_of_ne (by rw [h.state]; exact fun h => nomatch h)) ?_
  simp only [next, Txiq.next, nextState, h.state, he, if_true, and_true]
  cases s.txFifoRdempty <;> rfl

theorem reset_next_atSlot (txFifo : List (BitVec 48)) : AtSlot ((reset txFifo).next m i) := by
  refine atSlot_next rfl ?_
  simp only [next, Txiq.next, nextState, reset, Txiq.reset, if_true]

/-! ## The register arrays of a slot -/

/-- Two cycles after a slot the register arrays hold its word. -/
theorem AtSlot.load (h : AtSlot s) :
    ((s.next m i).next m j).txiq.diqLReg = positions (intFsyncL m) (muxPosL (intMode m) s.slotWord) ∧
      ((s.next m i).next m j).txiq.diqHReg = positions (intFsyncH m) (muxPosH (intMode m) s.slotWord) := by
  rcases h with ⟨hs, hne⟩ | hs
  · cases hf : s.txFifo with
    | nil => exact absurd hf hne
    | cons w ws =>
        have hr := txFifoRdreq_of_rdSamples hs hne
        have hw : s.slotWord = w := by simp [slotWord, slot, hr, hf]
        rw [hw]
        constructor
        · simp [next, Txiq.next, nextReg, intFifoRdreq, hs, hr, hf]
        · simp [next, Txiq.next, nextReg, intFifoRdreq, hs, hr, hf]
  · have hr : s.txFifoRdreq = false := txFifoRdreq_of_ne (by rw [hs]; exact fun h => nomatch h)
    have hw : s.slotWord = 0 := by simp [slotWord, slot, hr, hs]
    rw [hw, (positions_zero _ _).1, (positions_zero _ _).2]
    constructor
    · simp [next, Txiq.next, nextReg, intFifoRdreq, hs]
    · simp [next, Txiq.next, nextReg, intFifoRdreq, hs]

/-- A cycle of the wait loads nothing two cycles later. -/
theorem shift_of_wait (hs : s.txiq.currentState = .waitRdCycles) :
    ((s.next m i).next m j).txiq.diqLReg = shifted (s.next m i).txiq.diqLReg ∧
      ((s.next m i).next m j).txiq.diqHReg = shifted (s.next m i).txiq.diqHReg := by
  have hq : (s.next m i).txiq.intFifoQValid = false := by simp [next, Txiq.next, intFifoRdreq, hs]
  have hz : (s.next m i).txiq.zeroValid = false := by simp [next, Txiq.next, hs]
  exact ⟨nextReg_of_idle hq hz _ _ _, nextReg_of_idle hq hz _ _ _⟩

/-! ## Runs -/

variable (m : IqMode) (txFifo : List (BitVec 48)) (x : Nat → IqLoopIn)

theorem waits_run {n : Nat} (h : AtSlot ((circuit m txFifo).run x n)) :
    ∀ k ≤ (rdWaitCntMax m).toNat, Waits m k ((circuit m txFifo).run x (n + 1 + k))
  | 0, _ => h.next_waits
  | k + 1, hk => (waits_run h k (Nat.le_of_succ_le hk)).next_waits hk

/-- The slots. -/
theorem atSlot_run : ∀ k, AtSlot ((circuit m txFifo).run x (1 + period m * k))
  | 0 => reset_next_atSlot txFifo
  | k + 1 => by
      have hw := waits_run m txFifo x (atSlot_run k) (rdWaitCntMax m).toNat (Nat.le_refl _)
      have he : 1 + period m * (k + 1) = 1 + period m * k + 1 + (rdWaitCntMax m).toNat + 1 := by
        rw [Nat.mul_succ, period]
        omega
      rw [he]
      exact hw.next_atSlot

/-- The word of slot `k`. -/
def wordOfSlot (k : Nat) : BitVec 48 := ((circuit m txFifo).run x (1 + period m * k)).slotWord

theorem slot_paced :
    Paced (fun n => ((circuit m txFifo).run x n).slot) 1 (period m) (wordOfSlot m txFifo x) := by
  refine Paced.of_cycles (Nat.succ_pos _) (fun n hn => ?_) (fun k => (atSlot_run m txFifo x k).slot_eq)
    (fun k j h0 hj => ?_)
  · rw [Nat.lt_one_iff.mp hn]
    rfl
  · have hw := waits_run m txFifo x (atSlot_run m txFifo x k) (j - 1) (by rw [period] at hj; omega)
    rw [show 1 + period m * k + 1 + (j - 1) = 1 + period m * k + j by omega] at hw
    exact slot_of_wait hw.state

theorem regs_run (k : Nat) : ∀ j < period m,
    ((circuit m txFifo).run x (3 + period m * k + j)).txiq.diqLReg =
        shifted^[j] (positions (intFsyncL m) (muxPosL (intMode m) (wordOfSlot m txFifo x k))) ∧
      ((circuit m txFifo).run x (3 + period m * k + j)).txiq.diqHReg =
        shifted^[j] (positions (intFsyncH m) (muxPosH (intMode m) (wordOfSlot m txFifo x k)))
  | 0, _ => by
      have h := (atSlot_run m txFifo x k).load (m := m) (i := x (1 + period m * k)) (j := x (1 + period m * k + 1))
      rw [show 3 + period m * k + 0 = 1 + period m * k + 1 + 1 by omega]
      exact h
  | j + 1, hj => by
      have hw := waits_run m txFifo x (atSlot_run m txFifo x k) j (by rw [period] at hj; omega)
      have h := shift_of_wait (m := m) (i := x (1 + period m * k + 1 + j)) (j := x (1 + period m * k + 1 + j + 1))
        hw.state
      have ih := regs_run k j (Nat.lt_of_succ_lt hj)
      rw [show 3 + period m * k + j = 1 + period m * k + 1 + j + 1 by omega] at ih
      rw [show 3 + period m * k + (j + 1) = 1 + period m * k + 1 + j + 1 + 1 by omega,
        Function.iterate_succ_apply', Function.iterate_succ_apply', ← ih.1, ← ih.2]
      exact h

/-- The halves of the cycles that carry slot `k`. -/
theorem diq_run (k : Nat) (j : Fin 4) (hj : j.val < period m) :
    ((circuit m txFifo).run x (3 + period m * k + j)).rxDiq =
      { diqH := positions (intFsyncL m) (muxPosL (intMode m) (wordOfSlot m txFifo x k)) j
        diqL := positions (intFsyncH m) (muxPosH (intMode m) (wordOfSlot m txFifo x k)) j } := by
  have h := regs_run m txFifo x k j hj
  rw [rxDiq, diqL, diqH, h.1, h.2, shifted_iterate, shifted_iterate]

end IqLoop

end LimeSdrQpcie
