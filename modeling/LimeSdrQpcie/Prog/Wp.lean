import Mathlib.Algebra.Ring.Nat
import Mathlib.Tactic.Common

/-!
# Programs with faults

A program reads and writes a state and may stop with a fault. `wp` is the weakest condition on the state
before a run under which the run ends in `Q`, or stops with a fault that satisfies `E`.
-/

namespace Prog

variable {σ ε α β : Type}

/-- A program over the state `σ` that gives a value or stops with a fault. -/
abbrev Cmd (σ ε α : Type) := StateT σ (Except ε) α

def wp (m : Cmd σ ε α) (Q : α → σ → Prop) (E : ε → Prop) (s : σ) : Prop :=
  match m.run s with
  | .ok (a, s') => Q a s'
  | .error e => E e

section Rules

variable {Q Q' : α → σ → Prop} {E E' : ε → Prop} {s : σ}

@[simp] theorem wp_pure (a : α) : wp (pure a : Cmd σ ε α) Q E s ↔ Q a s := Iff.rfl

@[simp] theorem wp_bind (m : Cmd σ ε β) (f : β → Cmd σ ε α) :
    wp (m >>= f) Q E s ↔ wp m (fun b => wp (f b) Q E) E s := by
  simp only [wp, StateT.run_bind]
  cases m.run s with
  | ok r => rfl
  | error e => rfl

@[simp] theorem wp_get {Q : σ → σ → Prop} : wp (get : Cmd σ ε σ) Q E s ↔ Q s s := Iff.rfl

@[simp] theorem wp_modify {Q : Unit → σ → Prop} (f : σ → σ) :
    wp (modify f : Cmd σ ε Unit) Q E s ↔ Q () (f s) := Iff.rfl

@[simp] theorem wp_throw (e : ε) : wp (throw e : Cmd σ ε α) Q E s ↔ E e := Iff.rfl

theorem wp_mono {m : Cmd σ ε α} (h : wp m Q E s) (hQ : ∀ a s', Q a s' → Q' a s') (hE : ∀ e, E e → E' e) :
    wp m Q' E' s := by
  unfold wp at h ⊢
  split at h
  · exact hQ _ _ h
  · exact hE _ h

theorem wp_post {m : Cmd σ ε α} (h : wp m Q E s) (hQ : ∀ a s', Q a s' → Q' a s') : wp m Q' E s :=
  wp_mono h hQ fun _ he => he

/-- What a run ends in when it may not stop with a fault. -/
theorem wp_ok_iff {m : Cmd σ ε α} : wp m Q (fun _ => False) s ↔ ∃ r, m.run s = .ok r ∧ Q r.1 r.2 := by
  unfold wp
  cases m.run s with
  | ok r => exact ⟨fun h => ⟨r, rfl, h⟩, fun ⟨_, hr, h⟩ => by cases hr; exact h⟩
  | error e => exact ⟨False.elim, fun ⟨_, hr, _⟩ => by cases hr⟩

theorem run_of_wp {a : α} {t : σ} {m : Cmd σ ε α} (h : wp m (fun b u => b = a ∧ u = t) (fun _ => False) s) :
    m.run s = .ok (a, t) := by
  obtain ⟨⟨b, u⟩, hr, rfl, rfl⟩ := wp_ok_iff.mp h
  exact hr

/-- A run that ends in `Q` exactly under `P`. -/
theorem ok_iff_of_wp {P : Prop} {m : Cmd σ ε α} (h : wp m (fun a s' => Q a s' ↔ P) (fun _ => ¬ P) s) :
    (∃ r, m.run s = .ok r ∧ Q r.1 r.2) ↔ P := by
  unfold wp at h
  cases hm : m.run s with
  | ok r =>
      rw [hm] at h
      exact ⟨fun ⟨_, hr, hq⟩ => (by cases hr; exact h.mp hq), fun hp => ⟨r, rfl, h.mpr hp⟩⟩
  | error e =>
      rw [hm] at h
      exact ⟨fun ⟨_, hr, _⟩ => (by cases hr), fun hp => absurd hp h⟩

end Rules

/-! ## Counted loops -/

/-- `for (i = 0; i < n; i++) body(i)`. -/
def each (body : Nat → Cmd σ ε Unit) : Nat → Cmd σ ε Unit
  | 0 => pure ()
  | n + 1 => each body n >>= fun _ => body n

/-- The rule for a counted loop: `Inv i` holds when `i` turns are done. -/
theorem wp_each {body : Nat → Cmd σ ε Unit} {n : Nat} {E : ε → Prop} {s : σ} (Inv : Nat → σ → Prop)
    (h0 : Inv 0 s) (hstep : ∀ i < n, ∀ s, Inv i s → wp (body i) (fun _ => Inv (i + 1)) E s) :
    wp (each body n) (fun _ => Inv n) E s := by
  induction n with
  | zero => exact h0
  | succ n ih =>
      rw [each, wp_bind]
      exact wp_post (ih fun i hi => hstep i (Nat.lt_succ_of_lt hi)) fun _ s' hs' =>
        hstep n (Nat.lt_succ_self n) s' hs'

end Prog
