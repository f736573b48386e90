import LimeSdrQpcie.ShiftReg.Lemmas.IC74HC595

/-!
# The switches follow the control word

The main result about the shift register of the RF switches: when the control word changes at most once in the
time of a transfer, every word that is latched is a value of the control word, and the last one is stored.
-/

namespace LimeSdrQpcie

open Hdl

namespace ChangeDetect

/-- The cycles from a change of the control word to the end of its transfer. -/
def transferLength : Nat := 34

/-- Every latched word is a value that the control word had, and the control word is stored when it has been constant
for `b` cycles after its last change. -/
structure Converges (x : Nat → BitVec 16) (b : Nat) : Prop where
  whole : ∀ n w, latched x n = some w → ∃ m ≤ n, w = x m
  settles : ∀ c n, Changes x c → (∀ m, c < m → m < n → ¬ Changes x m) → c + b ≤ n → stored x n = some (x c)

/-- In every run in which two changes of the control word are always at least a transfer apart, the switches follow
the control word. -/
theorem converges_of_spaced (x : Nat → BitVec 16) (hs : Spaced x) : ∃ b ≤ 2 * transferLength, Converges x b := by
  refine ⟨35, by decide, fun n w hw => ?_, fun c n hc hlast hle => ?_⟩
  · obtain ⟨c, rfl, -, rfl⟩ := (latched_iff hs).mp hw
    exact ⟨c, Nat.le_add_right c 34, rfl⟩
  · obtain ⟨k, rfl⟩ := Nat.exists_eq_add_of_le hle
    exact stored_eq hs hc hlast

/-- A control word that changes again after the time of a transfer. -/
def twoWords (n : Nat) : BitVec 16 := if n < 34 then 0xf0f1 else 0x1234

theorem before_of_pos {x : Nat → BitVec 16} {n : Nat} (h : 0 < n) : before x n = x (n - 1) := by
  cases n with
  | zero => cases h
  | succ n => rfl

theorem twoWords_changes {n : Nat} (h : Changes twoWords n) : n = 0 ∨ n = 34 := by
  by_contra hno
  obtain ⟨h0, h34⟩ := not_or.mp hno
  refine h ?_
  rw [before_of_pos (Nat.pos_of_ne_zero h0)]
  unfold twoWords
  by_cases hlt : n < 34
  · rw [if_pos hlt, if_pos (by omega)]
  · rw [if_neg hlt, if_neg (by omega)]

theorem converges_twoWords : ∃ b ≤ 2 * transferLength, Converges twoWords b := by
  refine converges_of_spaced twoWords fun c c' hc hc' hlt => ?_
  rcases twoWords_changes hc with rfl | rfl
  · rcases twoWords_changes hc' with rfl | rfl
    · cases hlt
    · decide
  · rcases twoWords_changes hc' with rfl | rfl
    · cases hlt
    · exact absurd hlt (Nat.lt_irrefl 34)

/-- A control word that changes while its first value is sent. -/
def changedInTransfer (n : Nat) : BitVec 16 := if n < 9 then 0xffff else 0

/-- After the transfer nothing happens any more. -/
theorem changedInTransfer_rests (n : Nat) : stateAt changedInTransfer (n + 40) = ⟨0, false, IC74HC595.reset⟩ := by
  induction n with
  | zero => decide +kernel
  | succ n ih =>
      have hx : changedInTransfer (n + 40) = 0 := if_neg (by omega)
      have hnext : stateAt changedInTransfer (n + 1 + 40) =
          (stateAt changedInTransfer (n + 40)).next (changedInTransfer (n + 40)) := rfl
      rw [hnext, ih, hx]
      rfl

theorem changedInTransfer_stored (n : Nat) : stored changedInTransfer (n + 40) = some 0xf000 := by
  induction n with
  | zero => decide +kernel
  | succ n ih =>
      have hnone : latched changedInTransfer (n + 40) = none := by
        have hstcp : (stateAt changedInTransfer (n + 40 + 1)).inst0.stcpReg = false := by
          rw [Nat.add_right_comm, changedInTransfer_rests]
          rfl
        rw [latched, hstcp]
        exact if_neg fun h => absurd h.2 (by decide)
      rw [Nat.add_right_comm, stored, words_succ_of_none hnone]
      exact ih

/-- What is latched has the first bits of one value and the last bits of the other, and it stays. -/
theorem changedInTransfer_mixes :
    latched changedInTransfer 34 = some 0xf000 ∧ (∀ m, changedInTransfer m ≠ 0xf000) ∧
      (∀ n ≥ 40, stored changedInTransfer n = some 0xf000) ∧
      ¬ ∃ b ≤ 2 * transferLength, Converges changedInTransfer b := by
  have hlatched : latched changedInTransfer 34 = some 0xf000 := by decide +kernel
  have hne : ∀ m, changedInTransfer m ≠ 0xf000 := by
    intro m
    unfold changedInTransfer
    split <;> decide
  refine ⟨hlatched, hne, fun n hn => ?_, fun ⟨b, _, h⟩ => ?_⟩
  · obtain ⟨k, rfl⟩ := Nat.exists_eq_add_of_le hn
    rw [Nat.add_comm]
    exact changedInTransfer_stored k
  · obtain ⟨m, _, hm⟩ := h.whole 34 _ hlatched
    exact hne m hm.symm

end ChangeDetect

end LimeSdrQpcie
