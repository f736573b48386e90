import LimeSdrQpcie.Wfm.WfmPlayer
import Mathlib.Algebra.Ring.Nat
import Mathlib.Tactic.Common

/-!
# The read address walks over the waveform

Once the waveform is loaded the two limits stand still, and the read address follows the number of words read,
modulo the length of the waveform. It is even, so that a burst ends at the end of the waveform or the last
word is read by itself.
-/

namespace LimeSdrQpcie

open Hdl

namespace WfmPlayer

variable (g : WfmGenerics) (x : Nat → WfmPlayerIn)

def stateAt (n : Nat) : WfmPlayer := (circuit g).run x n

/-- The read command of cycle `n`. -/
def readCmdAt (n : Nat) : Option AvlCmd := (stateAt g x n).readCmd (x n)

/-- The addresses that the read commands of the `n` cycles from `t` on cover, in order. -/
def readAddrs (t n : Nat) : List Nat := (words (fun m => readCmdAt g x (t + m)) n).flatMap AvlCmd.addrs

/-- From cycle `e` on no word is loaded any more, and `N` words have been counted. -/
structure Loaded (e N : Nat) : Prop where
  wfmLoad : ∀ n, e ≤ n → (x n).wfmLoad = false
  inst2WdataReq : ∀ n, e ≤ n → (x n).inst2WdataReq = false
  writeMaxWords : ∀ n, e ≤ n → (stateAt g x n).writeMaxWords = N

/-- Playback goes on in the `n` cycles from `t` on. -/
def Playing (t n : Nat) : Prop := ∀ m, t ≤ m → m < t + n → (x m).wfmPlayStop = true

/-- The load was on in the three cycles before `e`. -/
def LoadHeld (e : Nat) : Prop := ∃ c, e = c + 3 ∧ ∀ m, c ≤ m → m < e → (x m).wfmLoad = true

variable {g x}

theorem stateAt_succ (n : Nat) : stateAt g x (n + 1) = (stateAt g x n).next g (x n) := rfl

/-! ## The burst counts -/

theorem inst2ReadBurstcount_le (s : WfmPlayer) : s.inst2ReadBurstcount ≤ 2 := by
  unfold inst2ReadBurstcount
  split <;> decide

theorem inst2WriteBurstcount_le (s : WfmPlayer) : s.inst2WriteBurstcount ≤ 2 := by
  unfold inst2WriteBurstcount
  split <;> decide

theorem inst2WriteBurstcount_pos (s : WfmPlayer) : 0 < s.inst2WriteBurstcount := by
  unfold inst2WriteBurstcount
  split <;> decide

/-! ## The limits -/

namespace Loaded

variable {e N : Nat} (h : Loaded g x e N)

include h in
theorem readMaxAddr_eq (hN : 2 ≤ N) (hlt : N < 2 ^ g.avlAddrWidth) {n : Nat} (hn : e < n) :
    (stateAt g x n).readMaxAddr = N - 1 := by
  obtain ⟨m, rfl⟩ : ∃ m, n = m + 1 := ⟨n - 1, by omega⟩
  have hm : (stateAt g x (m + 1)).readMaxAddr =
      ((stateAt g x m).writeMaxWords + 2 ^ g.avlAddrWidth - 1) % 2 ^ g.avlAddrWidth := rfl
  rw [hm, h.writeMaxWords m (by omega), show N + 2 ^ g.avlAddrWidth - 1 = N - 1 + 2 ^ g.avlAddrWidth by omega,
    Nat.add_mod_right, Nat.mod_eq_of_lt (by omega)]

include h in
theorem readBurstMaxAddr_eq (hN : 2 ≤ N) (hlt : N < 2 ^ g.avlAddrWidth) {n : Nat} (hn : e < n) :
    (stateAt g x n).readBurstMaxAddr = N - 2 := by
  obtain ⟨m, rfl⟩ : ∃ m, n = m + 1 := ⟨n - 1, by omega⟩
  have hm : (stateAt g x (m + 1)).readBurstMaxAddr =
      ((stateAt g x m).writeMaxWords + 2 ^ g.avlAddrWidth - 2) % 2 ^ g.avlAddrWidth := rfl
  rw [hm, h.writeMaxWords m (by omega), show N + 2 ^ g.avlAddrWidth - 2 = N - 2 + 2 ^ g.avlAddrWidth by omega,
    Nat.add_mod_right, Nat.mod_eq_of_lt (by omega)]

include h in
/-- A pulse would set the number of words back. -/
theorem not_rising (hN : 2 ≤ N) {n : Nat} (hn : e ≤ n) : (stateAt g x n).wfmLoadRising = false := by
  cases hr : (stateAt g x n).wfmLoadRising with
  | false => rfl
  | true =>
      have h0 : (stateAt g x (n + 1)).writeMaxWords = 0 := by
        rw [stateAt_succ, next]
        simp only [hr, if_true]
      rw [h.writeMaxWords (n + 1) (by omega)] at h0
      omega

include h in
theorem resetN (hN : 2 ≤ N) {n : Nat} (hn : e < n) : (stateAt g x n).inst2ReadAddrResetN = true := by
  obtain ⟨m, rfl⟩ : ∃ m, n = m + 1 := ⟨n - 1, by omega⟩
  have hm : (stateAt g x (m + 1)).inst2ReadAddrResetN = !(stateAt g x m).wfmLoadRising := rfl
  rw [hm, h.not_rising hN (by omega)]
  rfl

end Loaded

/-! ## The read address -/

/-- The address steps by two and comes back to zero, so that it stays even. -/
theorem even_readAddr (hw : 0 < g.avlAddrWidth) (n : Nat) : (stateAt g x n).inst2ReadAddr % 2 = 0 := by
  obtain ⟨w, hw⟩ : ∃ w, g.avlAddrWidth = w + 1 := ⟨g.avlAddrWidth - 1, by omega⟩
  refine Circuit.invariant (c := circuit g) (P := fun s => s.inst2ReadAddr % 2 = 0) x rfl (fun s i h => ?_) n
  change s.nextReadAddr g i % 2 = 0
  unfold nextReadAddr
  split
  · rfl
  split
  · rfl
  split
  · split
    · rw [hw, Nat.pow_succ, Nat.mod_mul_left_mod]
      omega
    · rfl
  · exact h

/-- What a cycle of playback does to the read address and which addresses it reads. -/
theorem read_step {e N : Nat} (h : Loaded g x e N) (hN : 2 ≤ N) (hlt : N < 2 ^ g.avlAddrWidth) {n : Nat}
    (hn : e < n) (hplay : (x n).wfmPlayStop = true) (hin : (stateAt g x n).inst2ReadAddr < N) :
    ((readCmdAt g x n).toList.flatMap AvlCmd.addrs =
        (List.range ((readCmdAt g x n).toList.flatMap AvlCmd.addrs).length).map
          fun i => ((stateAt g x n).inst2ReadAddr + i) % N) ∧
      (stateAt g x (n + 1)).inst2ReadAddr = ((stateAt g x n).inst2ReadAddr +
        ((readCmdAt g x n).toList.flatMap AvlCmd.addrs).length) % N := by
  have hw : 0 < g.avlAddrWidth := by
    by_contra h0
    rw [show g.avlAddrWidth = 0 by omega] at hlt
    omega
  have heven := @even_readAddr g x hw n
  have hnext : (stateAt g x (n + 1)).inst2ReadAddr =
      if (stateAt g x n).inst2DoRead (x n) then
        if (stateAt g x n).inst2ReadAddr < N - 2 then
          ((stateAt g x n).inst2ReadAddr + 2) % 2 ^ g.avlAddrWidth
        else 0
      else (stateAt g x n).inst2ReadAddr := by
    have hs : (stateAt g x (n + 1)).inst2ReadAddr = (stateAt g x n).nextReadAddr g (x n) := rfl
    rw [hs, nextReadAddr, h.not_rising hN (by omega), h.resetN hN hn, hplay, h.readBurstMaxAddr_eq hN hlt hn]
    simp only [Bool.false_eq_true, Bool.true_eq_false, or_self, if_false]
  rw [hnext, readCmdAt, readCmd, inst2ReadBurstcount, h.readMaxAddr_eq hN hlt hn, h.writeMaxWords n (by omega)]
  generalize (stateAt g x n).inst2ReadAddr = a at *
  cases (stateAt g x n).inst2DoRead (x n) with
  | false => exact ⟨rfl, (Nat.mod_eq_of_lt hin).symm⟩
  | true =>
      by_cases hlast : a = N - 1 ∧ N % 2 = 1
      · -- The last word of an odd number of words.
        rw [if_pos rfl, if_pos rfl, if_pos hlast, if_neg (by omega)]
        have hz : (a + 1) % N = 0 := by rw [show a + 1 = N by omega, Nat.mod_self]
        simp [AvlCmd.addrs, Nat.mod_eq_of_lt hin, hz, List.range']
      · have hin1 : a + 1 < N := by omega
        rw [if_pos rfl, if_pos rfl, if_neg hlast]
        have hnew : (if a < N - 2 then (a + 2) % 2 ^ g.avlAddrWidth else 0) = (a + 2) % N := by
          split
          case isTrue hlow => rw [Nat.mod_eq_of_lt (by omega), Nat.mod_eq_of_lt (by omega)]
          case isFalse hhigh => rw [show a + 2 = N by omega, Nat.mod_self]
        rw [hnew]
        simp [AvlCmd.addrs, avlMaxBurstCount, List.range', List.range_succ, Nat.mod_eq_of_lt hin,
          Nat.mod_eq_of_lt hin1]

/-- From any address inside the waveform the addresses read go round the waveform. -/
theorem readAddrs_eq {e N : Nat} (h : Loaded g x e N) (hN : 2 ≤ N) (hlt : N < 2 ^ g.avlAddrWidth) {t : Nat}
    (ht : e < t) (hin : (stateAt g x t).inst2ReadAddr < N) {n : Nat} (hplay : Playing x t n) :
    (readAddrs g x t n = (List.range (readAddrs g x t n).length).map
        fun i => ((stateAt g x t).inst2ReadAddr + i) % N) ∧
      (stateAt g x (t + n)).inst2ReadAddr =
        ((stateAt g x t).inst2ReadAddr + (readAddrs g x t n).length) % N := by
  induction n with
  | zero => exact ⟨rfl, (Nat.mod_eq_of_lt hin).symm⟩
  | succ n ih =>
      obtain ⟨ih, ha⟩ := ih fun m h1 h2 => hplay m h1 (by omega)
      have hinn : (stateAt g x (t + n)).inst2ReadAddr < N := by rw [ha]; exact Nat.mod_lt _ (by omega)
      obtain ⟨hread, hnext⟩ := read_step h hN hlt (show e < t + n by omega) (hplay (t + n) (by omega) (by omega)) hinn
      have hcat : readAddrs g x t (n + 1) =
          readAddrs g x t n ++ (readCmdAt g x (t + n)).toList.flatMap AvlCmd.addrs := by
        rw [readAddrs, words_succ, List.flatMap_append, readAddrs]
      rw [ha] at hread hnext
      rw [hcat, List.length_append]
      refine ⟨?_, ?_⟩
      · rw [List.range_add, List.map_append, ← ih, List.map_map]
        refine congrArg _ (hread.trans (List.map_congr_left fun i _ => ?_))
        rw [Nat.mod_add_mod, Nat.add_assoc]
        rfl
      · rw [← Nat.add_assoc, hnext, Nat.mod_add_mod, Nat.add_assoc]

/-! ## Where playback begins -/

/-- A stop sets the read address back. -/
theorem readAddr_of_stop {s : Nat} (hs : (x s).wfmPlayStop = false) : (stateAt g x (s + 1)).inst2ReadAddr = 0 := by
  have h : (stateAt g x (s + 1)).inst2ReadAddr = (stateAt g x s).nextReadAddr g (x s) := rfl
  rw [h, nextReadAddr, hs]
  simp

theorem wfmLoad_of_checkWfmOutfifo {s : WfmPlayer} {i : WfmPlayerIn} (h : s.nextState g i = .checkWfmOutfifo) :
    i.wfmLoad = false := by
  cases hs : s.currentState <;> grind [nextState]

theorem of_doRead {s : WfmPlayer} {i : WfmPlayerIn} (h : s.nextState g i = .doRead) :
    s.currentState = .checkWfmOutfifo ∨ i.wfmLoad = false := by
  cases hs : s.currentState <;> grind [nextState]

/-- While the load is on nothing is read, and the read address has been set back. -/
structure HeldInv (s : WfmPlayer) : Prop where
  one : s.inst3.sigInReg0 = true → s.currentState ≠ .checkWfmOutfifo
  two : s.inst3.sigInReg0 = true → s.inst3.sigInReg1 = true → s.currentState ≠ .doRead
  three : s.inst3.sigInReg0 = true → s.inst3.sigInReg1 = true → s.wfmLoadRising = false → s.inst2ReadAddr = 0

theorem heldInv_next {s : WfmPlayer} (h : HeldInv s) (i : WfmPlayerIn) : HeldInv (s.next g i) := by
  refine ⟨fun h0 hs => ?_, fun h0 h1 hs => ?_, fun h0 h1 hr => ?_⟩
  · have hl : i.wfmLoad = true := h0
    rw [wfmLoad_of_checkWfmOutfifo hs] at hl
    cases hl
  · have hl : i.wfmLoad = true := h0
    rcases of_doRead hs with hfifo | hoff
    · exact h.one h1 hfifo
    · rw [hoff] at hl
      cases hl
  · have hr0 : s.inst3.sigInReg0 = true := h1
    have hrise : (s.inst3.sigInReg0 && !s.inst3.sigInReg1) = false := hr
    have hr1 : s.inst3.sigInReg1 = true := by
      cases hc : s.inst3.sigInReg1 with
      | true => rfl
      | false => rw [hr0, hc] at hrise; cases hrise
    have hread : s.inst2DoRead i = false := by
      rw [inst2DoRead, Bool.and_eq_false_iff]
      exact Or.inl (beq_eq_false_iff_ne.mpr (h.two hr0 hr1))
    change s.nextReadAddr g i = 0
    unfold nextReadAddr
    split
    · rfl
    case isFalse hne =>
      have hz : s.inst2ReadAddr = 0 := h.three hr0 hr1 (by simpa using fun hc => hne (Or.inl hc))
      simp [hread, hz]

theorem heldInv (n : Nat) : HeldInv (stateAt g x n) :=
  Circuit.invariant (c := circuit g) (P := HeldInv) x
    ⟨fun _ => WfmState.noConfusion, fun _ _ => WfmState.noConfusion, fun _ _ _ => rfl⟩
    (fun _ i h => heldInv_next h i) n

/-- After a load that was held nothing is read in the first cycle, and the read address stays zero. -/
theorem readAddr_of_loadHeld {e : Nat} (h : LoadHeld x e) :
    readCmdAt g x e = none ∧ (stateAt g x (e + 1)).inst2ReadAddr = 0 := by
  obtain ⟨c, rfl, hload⟩ := h
  have hr0 : (stateAt g x (c + 3)).inst3.sigInReg0 = true := hload (c + 2) (by omega) (by omega)
  have hr1 : (stateAt g x (c + 3)).inst3.sigInReg1 = true := hload (c + 1) (by omega) (by omega)
  have hrise : (stateAt g x (c + 3)).wfmLoadRising = false := by
    have hc : (stateAt g x (c + 3)).wfmLoadRising = ((x (c + 1)).wfmLoad && !(x c).wfmLoad) := rfl
    rw [hc, hload c (by omega) (by omega), Bool.not_true, Bool.and_false]
  have hinv := @heldInv g x (c + 3)
  have hread : (stateAt g x (c + 3)).inst2DoRead (x (c + 3)) = false := by
    rw [inst2DoRead, Bool.and_eq_false_iff]
    exact Or.inl (beq_eq_false_iff_ne.mpr (hinv.two hr0 hr1))
  refine ⟨by rw [readCmdAt, readCmd, hread]; rfl, ?_⟩
  change (stateAt g x (c + 3)).nextReadAddr g (x (c + 3)) = 0
  unfold nextReadAddr
  simp [hread, hinv.three hr0 hr1 hrise]

end WfmPlayer

end LimeSdrQpcie
