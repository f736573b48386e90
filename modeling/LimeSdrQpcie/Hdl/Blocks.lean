import Mathlib.Algebra.Ring.Nat
import Mathlib.Data.List.Induction
import Mathlib.Tactic.Common

/-!
# Blocks of a stream

A stream is cut into blocks by a counter modulo `k` that begins at zero: the word at which the counter wraps is
the first one of a new block. The first block has one word less than the others.
-/

namespace Hdl

variable {α : Type}

/-- The complete blocks, and the words of the block that is being filled. -/
structure Blocks (α : Type) where
  done : List (List α)
  cur : List α

namespace Blocks

variable {k : Nat} {b : Blocks α}

def empty : Blocks α := ⟨[], []⟩

/-- The words of all blocks, in order. -/
def all (b : Blocks α) : List α := b.done.flatten ++ b.cur

def push (k : Nat) (b : Blocks α) (x : α) : Blocks α :=
  if k ∣ b.all.length + 1 then ⟨b.done ++ [b.cur], [x]⟩ else ⟨b.done, b.cur ++ [x]⟩

def ofList (k : Nat) (xs : List α) : Blocks α := xs.foldl (push k) empty

theorem ofList_concat (k : Nat) (xs : List α) (x : α) : ofList k (xs ++ [x]) = (ofList k xs).push k x :=
  List.foldl_append

theorem push_of_dvd (h : k ∣ b.all.length + 1) (x : α) : b.push k x = ⟨b.done ++ [b.cur], [x]⟩ := if_pos h

theorem push_of_not_dvd (h : ¬ k ∣ b.all.length + 1) (x : α) : b.push k x = ⟨b.done, b.cur ++ [x]⟩ := if_neg h

theorem all_push (k : Nat) (b : Blocks α) (x : α) : (b.push k x).all = b.all ++ [x] := by
  unfold push all
  split
  · simp
  · simp

/-- No word is lost and none is counted twice. -/
theorem all_ofList (k : Nat) (xs : List α) : (ofList k xs).all = xs := by
  induction xs using List.reverseRecOn with
  | nil => rfl
  | append_singleton xs x ih => rw [ofList_concat, all_push, ih]

/-- How far the block being filled has come; the first one begins with one step done. -/
def phase (b : Blocks α) : Nat := if b.done = [] then b.cur.length + 1 else b.cur.length

/-- The lengths of the blocks. -/
structure Sized (k : Nat) (b : Blocks α) : Prop where
  first : ∀ c, b.done[0]? = some c → c.length + 1 = k
  later : ∀ j c, b.done[j + 1]? = some c → c.length = k
  length : b.all.length + 1 = b.done.length * k + b.phase
  pos : 1 ≤ b.phase
  le : b.phase ≤ k

theorem Sized.dvd_iff (h : Sized k b) : k ∣ b.all.length + 1 ↔ b.phase = k := by
  rw [h.length, Nat.dvd_add_right (Nat.dvd_mul_left k _)]
  constructor
  · intro hd
    exact Nat.le_antisymm h.le (Nat.le_of_dvd h.pos hd)
  · intro he
    exact ⟨1, by rw [he, Nat.mul_one]⟩

theorem Sized.empty (hk : 0 < k) : Sized k (empty : Blocks α) where
  first c h := by cases h
  later j c h := by cases h
  length := by rw [show (Blocks.empty : Blocks α).done = [] from rfl, List.length_nil, Nat.zero_mul]; rfl
  pos := Nat.le_refl 1
  le := hk

theorem Sized.push (h : Sized k b) (x : α) : Sized k (b.push k x) := by
  have hlen : (b.push k x).all.length = b.all.length + 1 := by
    rw [all_push, List.length_append, List.length_singleton]
  by_cases hd : k ∣ b.all.length + 1
  · have hp := h.dvd_iff.mp hd
    have hph : (b.push k x).phase = 1 := by
      rw [push_of_dvd hd, phase, if_neg (by simp)]
      rfl
    have hdone : (b.push k x).done = b.done ++ [b.cur] := by rw [push_of_dvd hd]
    refine ⟨fun c hc => ?_, fun j c hc => ?_, ?_, by rw [hph], by rw [hph]; exact Nat.le_trans h.pos h.le⟩
    · rw [hdone] at hc
      cases hb : b.done with
      | nil =>
          rw [hb] at hc
          cases hc
          rw [phase, if_pos hb] at hp
          exact hp
      | cons d ds =>
          rw [hb] at hc
          exact h.first c (by rw [hb]; exact hc)
    · rw [hdone] at hc
      rcases Nat.lt_trichotomy (j + 1) b.done.length with hlt | heq | hgt
      · rw [List.getElem?_append_left hlt] at hc
        exact h.later j c hc
      · rw [heq, List.getElem?_concat_length] at hc
        cases hc
        rw [phase, if_neg (by rintro hb; rw [hb] at heq; cases heq)] at hp
        exact hp
      · rw [List.getElem?_eq_none (by simp; omega)] at hc
        cases hc
    · rw [hlen, hph, hdone, h.length, hp, List.length_append, List.length_singleton, Nat.succ_mul]
  · have hne : b.phase ≠ k := fun he => hd (h.dvd_iff.mpr he)
    have hph : (b.push k x).phase = b.phase + 1 := by
      rw [push_of_not_dvd hd]
      unfold phase
      rw [List.length_append, List.length_singleton]
      split <;> rfl
    have hdone : (b.push k x).done = b.done := by rw [push_of_not_dvd hd]
    refine ⟨hdone ▸ h.first, hdone ▸ h.later, ?_, ?_, ?_⟩
    · rw [hlen, hph, hdone, h.length, Nat.add_assoc]
    · rw [hph]
      exact Nat.le_add_left 1 _
    · rw [hph]
      exact Nat.lt_of_le_of_ne h.le hne

theorem sized_ofList (hk : 0 < k) (xs : List α) : Sized k (ofList k xs) := by
  induction xs using List.reverseRecOn with
  | nil => exact Sized.empty hk
  | append_singleton xs x ih => rw [ofList_concat]; exact ih.push x

theorem Sized.cur_le (h : Sized k b) : b.cur.length ≤ k := by
  refine Nat.le_trans ?_ h.le
  unfold phase
  split
  · exact Nat.le_succ _
  · exact Nat.le_refl _

end Blocks

end Hdl
