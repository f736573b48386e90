import Mathlib.Algebra.Ring.Nat
import Mathlib.Tactic.Common
import Mathlib.Data.Fin.Basic

/-!
# Rings of buffers

`N` buffers that are taken in turn: packet `i` of a sequence goes to the buffer `i` modulo `N`. A writer
appends to the last packet, a reader takes words from the oldest one and gives its buffer back.
-/

namespace Hdl

namespace Ring

variable {N : Nat} [NeZero N] {α : Type}

/-- The buffer of packet `i`. -/
def slot (N : Nat) [NeZero N] (i : Nat) : Fin N := Fin.ofNat N i

theorem slot_val (i : Nat) : (slot N i).val = i % N := rfl

/-- Packets less than a round apart have different buffers. -/
theorem slot_inj {i j : Nat} (h : slot N i = slot N j) (hij : i < j + N) (hji : j < i + N) : i = j := by
  have hmod : i % N = j % N := congrArg Fin.val h
  rcases Nat.le_total i j with hle | hle
  · have hdvd : N ∣ j - i := Nat.dvd_of_mod_eq_zero (Nat.sub_mod_eq_zero_of_mod_eq hmod.symm)
    have hzero : j - i = 0 := Nat.eq_zero_of_dvd_of_lt hdvd (by omega)
    omega
  · have hdvd : N ∣ i - j := Nat.dvd_of_mod_eq_zero (Nat.sub_mod_eq_zero_of_mod_eq hmod)
    have hzero : i - j = 0 := Nat.eq_zero_of_dvd_of_lt hdvd (by omega)
    omega

theorem slot_ne_succ (hN : 1 < N) (i : Nat) : slot N (i + 1) ≠ slot N i := by
  intro h
  have := slot_inj h (by omega) (by omega)
  omega

/-- The buffers hold the packets of `ps` from number `f` on, the oldest one without its first `rd` words. -/
structure Holds (ps : List (List α)) (f rd : Nat) (c : Fin N → List α) : Prop where
  le : f ≤ ps.length
  window : ps.length ≤ f + N
  held : ∀ i p, f ≤ i → ps[i]? = some p → c (slot N i) = p.drop (if i = f then rd else 0)
  free : ∀ b, (∀ i, f ≤ i → i < ps.length → slot N i ≠ b) → c b = []

namespace Holds

variable {ps : List (List α)} {f rd : Nat} {c c' : Fin N → List α} {p ws : List α}

theorem empty : Holds ([] : List (List α)) 0 0 (fun _ : Fin N => []) :=
  ⟨Nat.le_refl _, Nat.zero_le _, fun i p _ h => by simp at h, fun _ _ => rfl⟩

/-- The buffer that is next in turn is empty. -/
theorem next_nil (h : Holds ps f rd c) (hroom : ps.length < f + N) : c (slot N ps.length) = [] := by
  refine h.free _ fun i hfi hi he => ?_
  have := slot_inj he (by omega) (by omega)
  omega

/-- When the buffer that is next in turn is empty, there is room, unless it is the buffer of a packet that is
not the last one and has been read up. -/
theorem room_of_nil (h : Holds ps f rd c) (hnil : c (slot N ps.length) = []) (hN : 1 < N)
    (hold : f + 1 < ps.length → ∀ p, ps[f]? = some p → rd < p.length) : ps.length < f + N := by
  by_contra hfull
  have hlen : ps.length = f + N := by have := h.window; omega
  obtain ⟨q, hget⟩ : ∃ q, ps[f]? = some q := ⟨_, List.getElem?_eq_getElem (by omega)⟩
  have hslot : slot N ps.length = slot N f := by
    apply Fin.ext
    rw [slot_val, slot_val, hlen, Nat.add_mod_right]
  have hc := h.held f _ (Nat.le_refl _) hget
  rw [if_pos rfl, ← hslot, hnil] at hc
  have hlt := hold (by omega) _ hget
  have := List.drop_eq_nil_iff.mp hc.symm
  omega

/-- A buffer with words in it is the buffer of a packet. -/
theorem exists_of_ne_nil (h : Holds ps f rd c) {b : Fin N} (hb : c b ≠ []) :
    ∃ i, f ≤ i ∧ i < ps.length ∧ slot N i = b := by
  by_contra hno
  exact hb (h.free b fun i hfi hi he => hno ⟨i, hfi, hi, he⟩)

theorem oldest_of_ne_nil (h : Holds ps f rd c) (hb : c (slot N f) ≠ []) : f < ps.length := by
  obtain ⟨i, hfi, hi, he⟩ := h.exists_of_ne_nil hb
  have hw := h.window
  have hif : i = f := slot_inj he (by omega) (by omega)
  omega

/-! ## The writer -/

/-- A packet is begun. -/
theorem begin (h : Holds ps f rd c) (hroom : ps.length < f + N) : Holds (ps ++ [[]]) f rd c where
  le := by have := h.le; simp; omega
  window := by simp; omega
  held := by
    intro i p hfi hget
    rcases Nat.lt_trichotomy i ps.length with hlt | rfl | hgt
    · exact h.held i p hfi (by rwa [List.getElem?_append_left hlt] at hget)
    · have hp : p = [] := by simpa using hget.symm
      rw [h.next_nil hroom, hp, List.drop_nil]
    · simp [List.getElem?_eq_none (show (ps ++ [[]]).length ≤ i by simp; omega)] at hget
  free := fun b hb => h.free b fun i hfi hi => hb i hfi (by simp; omega)

/-- A packet that has been begun is given up. -/
theorem giveUp (h : Holds (ps ++ [[]]) f rd c) (hf : f ≤ ps.length) : Holds ps f rd c where
  le := hf
  window := by have := h.window; simp at this; omega
  held := by
    intro i p hfi hget
    have hlt := (List.getElem?_eq_some_iff.mp hget).1
    exact h.held i p hfi (by rw [List.getElem?_append_left hlt, hget])
  free := by
    intro b hb
    by_cases hlast : slot N ps.length = b
    · rw [← hlast, h.held ps.length [] hf (by simp), List.drop_nil]
    · refine h.free b fun i hfi hi => ?_
      rcases Nat.lt_or_eq_of_le (Nat.le_of_lt_succ (show i < ps.length + 1 by simpa using hi)) with hlt | rfl
      · exact hb i hfi hlt
      · exact hlast

/-- Words are added to the last packet. -/
theorem append (h : Holds (ps ++ [p]) f rd c) (hf : f ≤ ps.length) (hr : f = ps.length → rd = 0)
    (hs : c' (slot N ps.length) = c (slot N ps.length) ++ ws) (ho : ∀ b, b ≠ slot N ps.length → c' b = c b) :
    Holds (ps ++ [p ++ ws]) f rd c' where
  le := by simp; omega
  window := by have := h.window; simpa using this
  held := by
    have hw := h.window
    intro i q hfi hget
    rcases Nat.lt_trichotomy i ps.length with hlt | rfl | hgt
    · rw [List.getElem?_append_left hlt] at hget
      rw [ho _ (fun he => by have := slot_inj he (by omega) (by simp at hw; omega); omega)]
      exact h.held i q hfi (by rw [List.getElem?_append_left hlt, hget])
    · have hq : q = p ++ ws := by simpa using hget.symm
      have hrd : (if ps.length = f then rd else 0) = 0 := by
        split
        · exact hr (by omega)
        · rfl
      rw [hs, h.held ps.length p hfi (by simp), hrd, hq, List.drop_zero, List.drop_zero]
    · simp [List.getElem?_eq_none (show (ps ++ [p ++ ws]).length ≤ i by simp; omega)] at hget
  free := by
    intro b hb
    have hne : b ≠ slot N ps.length := fun he => hb ps.length hf (by simp) he.symm
    rw [ho b hne]
    exact h.free b fun i hfi hi => hb i hfi (by simpa using hi)

/-! ## The reader -/

/-- A word is taken from the oldest packet. -/
theorem read (h : Holds ps f rd c) (hf : f < ps.length) (hs : c' (slot N f) = (c (slot N f)).drop 1)
    (ho : ∀ b, b ≠ slot N f → c' b = c b) : Holds ps f (rd + 1) c' where
  le := h.le
  window := h.window
  held := by
    have hw := h.window
    intro i p hfi hget
    by_cases hi : i = f
    · rw [hi] at hget
      rw [hi, hs, h.held f p (Nat.le_refl _) hget, if_pos rfl, if_pos rfl, List.drop_drop]
    · have hlt := (List.getElem?_eq_some_iff.mp hget).1
      rw [ho _ (fun he => hi (slot_inj he (by omega) (by omega))), h.held i p hfi hget, if_neg hi, if_neg hi]
  free := by
    intro b hb
    rw [ho b (fun he => hb f (Nat.le_refl _) hf he.symm), h.free b hb]

/-- The buffer of the oldest packet is empty and is given back. -/
theorem release (h : Holds ps f rd c) (hf : f < ps.length) (hs : c' (slot N f) = [])
    (ho : ∀ b, b ≠ slot N f → c' b = c b) : Holds ps (f + 1) 0 c' where
  le := hf
  window := by have := h.window; omega
  held := by
    have hw := h.window
    intro i p hfi hget
    have hlt := (List.getElem?_eq_some_iff.mp hget).1
    have hif : i ≠ f := by omega
    rw [ho _ (fun he => hif (slot_inj he (by omega) (by omega))), h.held i p (by omega) hget, if_neg hif,
      ite_self]
  free := by
    intro b hb
    by_cases hbf : b = slot N f
    · rw [hbf, hs]
    · rw [ho b hbf]
      refine h.free b fun i hfi hi => ?_
      rcases Nat.lt_or_eq_of_le hfi with hlt | rfl
      · exact hb i hlt hi
      · exact fun he => hbf he.symm

end Holds

end Ring

end Hdl
