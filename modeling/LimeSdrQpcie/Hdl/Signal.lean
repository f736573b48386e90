import Mathlib.Algebra.Ring.Nat
import Mathlib.Tactic.Common
import Mathlib.Data.Nat.Init

/-!
# Clocked circuits and signals

A circuit is what its registers hold after reset and what a clock edge makes of them. A signal gives a
value for every cycle; the registers of a circuit are a signal of the inputs. Cycle `0` is the first cycle
after reset.
-/

namespace Hdl

/-- A synchronous circuit with registers `σ` and inputs `ι`. -/
structure Circuit (σ ι : Type) where
  reset : σ
  next : σ → ι → σ

variable {σ τ ι κ α β : Type}

namespace Circuit

/-- What the registers hold in cycle `n` when `x k` stands on the inputs in cycle `k`. -/
def run (c : Circuit σ ι) (x : Nat → ι) : Nat → σ
  | 0 => c.reset
  | n + 1 => c.next (c.run x n) (x n)

@[simp] theorem run_zero (c : Circuit σ ι) (x : Nat → ι) : c.run x 0 = c.reset := rfl

theorem run_succ (c : Circuit σ ι) (x : Nat → ι) (n : Nat) :
    c.run x (n + 1) = c.next (c.run x n) (x n) := rfl

/-- What holds after reset and is kept by every clock edge holds in every cycle. -/
theorem invariant {c : Circuit σ ι} {P : σ → Prop} (x : Nat → ι) (h0 : P c.reset)
    (hs : ∀ s i, P s → P (c.next s i)) : ∀ n, P (c.run x n)
  | 0 => h0
  | n + 1 => hs _ _ (invariant x h0 hs n)

/-- A part of a circuit's registers that moves as the registers of `d` do is a run of `d`. -/
theorem run_part {c : Circuit σ ι} {d : Circuit τ κ} (part : σ → τ) (inp : σ → ι → κ)
    (h0 : part c.reset = d.reset) (hs : ∀ s i, part (c.next s i) = d.next (part s) (inp s i))
    (x : Nat → ι) : ∀ n, part (c.run x n) = d.run (fun m => inp (c.run x m) (x m)) n
  | 0 => h0
  | n + 1 => by rw [run_succ, hs, run_part part inp h0 hs x n]; rfl

/-- A relation between two circuits that every clock edge keeps holds in every cycle. -/
theorem run_rel {c : Circuit σ ι} {d : Circuit τ κ} {R : σ → τ → Prop} (x : Nat → ι) (y : Nat → κ)
    (h0 : R c.reset d.reset)
    (hs : ∀ n, R (c.run x n) (d.run y n) → R (c.next (c.run x n) (x n)) (d.next (d.run y n) (y n))) :
    ∀ n, R (c.run x n) (d.run y n)
  | 0 => h0
  | n + 1 => hs n (run_rel x y h0 hs n)

/-- A circuit whose own reset is released after cycle `k` runs on the inputs from there on. -/
theorem run_of_resetN {c : Circuit σ ι} {s : Nat → σ} {resetN : Nat → Bool} {x : Nat → ι} {k : Nat}
    (h0 : s 0 = c.reset) (hs : ∀ n, s (n + 1) = if resetN n then c.next (s n) (x n) else c.reset)
    (hlow : ∀ n < k, resetN n = false) (hhigh : ∀ n, resetN (n + k) = true) (n : Nat) :
    s (n + k) = c.run (fun i => x (i + k)) n := by
  induction n with
  | zero =>
      rw [Nat.zero_add]
      cases k with
      | zero => exact h0
      | succ k => rw [hs, hlow k (Nat.lt_succ_self k)]; rfl
  | succ n ih => rw [Nat.add_right_comm, hs, hhigh, run_succ, ← ih]; rfl

/-- The run of a circuit whose inputs are answers to what its registers hold. -/
def driven (c : Circuit σ ι) (inp : σ → ι) : Nat → σ
  | 0 => c.reset
  | n + 1 => c.next (c.driven inp n) (inp (c.driven inp n))

theorem run_driven (c : Circuit σ ι) (inp : σ → ι) (n : Nat) :
    c.run (fun m => inp (c.driven inp m)) n = c.driven inp n := by
  induction n with
  | zero => rfl
  | succ n ih => rw [run_succ, ih, driven]

/-- The registers in cycle `n` depend only on the inputs of the cycles before it. -/
theorem run_congr {c : Circuit σ ι} {x y : Nat → ι} {n : Nat} (h : ∀ m < n, x m = y m) :
    c.run x n = c.run y n := by
  induction n with
  | zero => rfl
  | succ n ih =>
      rw [run_succ, run_succ, ih (fun m hm => h m (by omega)), h n (by omega)]

end Circuit

/-! ## Words on a signal -/

/-- The words a signal carries in the cycles before `n`, in order. -/
def words (p : Nat → Option α) : Nat → List α
  | 0 => []
  | n + 1 => words p n ++ (p n).toList

/-- In how many of the cycles before `n` the condition holds. -/
def count (b : Nat → Bool) : Nat → Nat
  | 0 => 0
  | n + 1 => count b n + (b n).toNat

@[simp] theorem words_zero (p : Nat → Option α) : words p 0 = [] := rfl

@[simp] theorem count_zero (b : Nat → Bool) : count b 0 = 0 := rfl

theorem words_succ (p : Nat → Option α) (n : Nat) : words p (n + 1) = words p n ++ (p n).toList := rfl

theorem count_succ (b : Nat → Bool) (n : Nat) : count b (n + 1) = count b n + (b n).toNat := rfl

theorem words_succ_of_none {p : Nat → Option α} {n : Nat} (h : p n = none) :
    words p (n + 1) = words p n := by
  simp [words_succ, h]

theorem words_succ_of_some {p : Nat → Option α} {n : Nat} {w : α} (h : p n = some w) :
    words p (n + 1) = words p n ++ [w] := by
  simp [words_succ, h]

theorem words_eq_replicate {p : Nat → Option α} {w : α} (h : ∀ n, p n = some w) (n : Nat) :
    words p n = List.replicate n w := by
  induction n with
  | zero => rfl
  | succ n ih => rw [words_succ_of_some (h n), ih, List.replicate_succ']

theorem words_map (f : α → β) (p : Nat → Option α) (n : Nat) :
    words (fun m => (p m).map f) n = (words p n).map f := by
  induction n with
  | zero => rfl
  | succ n ih => cases h : p n <;> simp [words_succ, ih, h]

theorem words_length (p : Nat → Option α) (n : Nat) :
    (words p n).length = count (fun m => (p m).isSome) n := by
  induction n with
  | zero => rfl
  | succ n ih => cases h : p n <;> simp [words_succ, count_succ, ih, h]

/-- The word of cycle `m` stands in the list where as many words are before it. -/
theorem words_getElem?_count {p : Nat → Option α} {m n : Nat} (hm : (p m).isSome = true) (h : m < n) :
    (words p n)[count (fun k => (p k).isSome) m]? = p m := by
  obtain ⟨a, ha⟩ := Option.isSome_iff_exists.mp hm
  induction n, h using Nat.le_induction with
  | base => rw [words_succ_of_some ha, ← words_length, List.getElem?_concat_length, ha]
  | succ n hn ih =>
      have hlt : count (fun k => (p k).isSome) m < (words p n).length := by
        by_contra hge
        rw [List.getElem?_eq_none (by omega), ha] at ih
        cases ih
      rw [words_succ, List.getElem?_append_left hlt, ih]

theorem words_prefix (p : Nat → Option α) {m n : Nat} (h : m ≤ n) : words p m <+: words p n := by
  induction n, h using Nat.le_induction with
  | base => exact List.prefix_rfl
  | succ n _ ih => exact ih.trans (by rw [words_succ]; exact List.prefix_append _ _)

theorem count_mono (b : Nat → Bool) {m n : Nat} (h : m ≤ n) : count b m ≤ count b n := by
  induction n, h using Nat.le_induction with
  | base => exact Nat.le_refl _
  | succ n _ ih => rw [count_succ]; omega

theorem words_length_mono (p : Nat → Option α) {m n : Nat} (h : m ≤ n) :
    (words p m).length ≤ (words p n).length := by
  rw [words_length, words_length]
  exact count_mono _ h

/-- At most one event a cycle. -/
theorem count_le_add (b : Nat → Bool) (m k : Nat) : count b (m + k) ≤ count b m + k := by
  induction k with
  | zero => exact Nat.le_refl _
  | succ k ih =>
      rw [← Nat.add_assoc, count_succ]
      have : (b (m + k)).toNat ≤ 1 := Bool.toNat_le _
      omega

/-- An event is known by the number of events before it. -/
theorem count_inj {b : Nat → Bool} {m n : Nat} (hm : b m = true) (hn : b n = true)
    (h : count b m = count b n) : m = n := by
  have hm' : count b (m + 1) = count b m + 1 := by rw [count_succ, hm]; rfl
  have hn' : count b (n + 1) = count b n + 1 := by rw [count_succ, hn]; rfl
  rcases Nat.lt_trichotomy m n with hlt | heq | hgt
  · have := count_mono b (show m + 1 ≤ n from hlt)
    omega
  · exact heq
  · have := count_mono b (show n + 1 ≤ m from hgt)
    omega

/-- Every number of events up to the count is that of the events before one of them. -/
theorem exists_of_lt_count {b : Nat → Bool} {n k : Nat} (h : k < count b n) :
    ∃ m < n, b m = true ∧ count b m = k := by
  induction n with
  | zero => exact absurd h (Nat.not_lt_zero k)
  | succ n ih =>
      by_cases hk : k < count b n
      · obtain ⟨m, hm, hbm, hcm⟩ := ih hk
        exact ⟨m, Nat.lt_succ_of_lt hm, hbm, hcm⟩
      · rw [count_succ] at h
        cases hb : b n with
        | true =>
            rw [hb, Bool.toNat_true] at h
            exact ⟨n, Nat.lt_succ_self n, hb, by omega⟩
        | false =>
            rw [hb, Bool.toNat_false] at h
            exact absurd h hk

/-- From a cycle with the value `a` on, the value stays for `k` cycles or it is left before. -/
theorem stays_or_leaves {f : Nat → α} {a : α} {n : Nat} (h : f n = a) (k : Nat) :
    (∀ i ≤ k, f (n + i) = a) ∨ ∃ i, (∀ j ≤ i, f (n + j) = a) ∧ f (n + i + 1) ≠ a := by
  induction k with
  | zero => exact Or.inl fun i hi => by rw [Nat.le_zero.mp hi]; exact h
  | succ k ih =>
      rcases ih with hall | hex
      · by_cases hk : f (n + k + 1) = a
        · refine Or.inl fun i hi => ?_
          rcases Nat.lt_or_eq_of_le hi with hlt | rfl
          · exact hall i (by omega)
          · exact hk
        · exact Or.inr ⟨k, hall, hk⟩
      · exact Or.inr hex

/-- A value that stays until a condition is met is there when the condition is first met. -/
theorem stays_until {f : Nat → α} {a : α} {c : Nat → Bool} (hstay : ∀ m, f m = a → c m = false → f (m + 1) = a)
    {n : Nat} (h : f n = a) (hc : ∃ m, n ≤ m ∧ c m = true) : ∃ m, n ≤ m ∧ f m = a ∧ c m = true := by
  obtain ⟨m, hm, hcm⟩ := hc
  obtain ⟨k, rfl⟩ := Nat.exists_eq_add_of_le hm
  induction k generalizing n with
  | zero => exact ⟨n, Nat.le_refl n, h, hcm⟩
  | succ k ih =>
      cases hn : c n with
      | true => exact ⟨n, Nat.le_refl n, h, hn⟩
      | false =>
          have hk : n + 1 + k = n + (k + 1) := by omega
          obtain ⟨m, hm, hf, hcm⟩ := ih (hstay n h hn) (by omega) (by rw [hk]; exact hcm)
          exact ⟨m, Nat.le_of_succ_le hm, hf, hcm⟩

/-- What a number that never grows, and falls in every cycle of `b`, counts down to. -/
theorem eventually_of_falls {v : Nat → Nat} {b : Nat → Bool} {P : Nat → Prop} (hb : ∀ n, ∃ m, n ≤ m ∧ b m = true)
    (hle : ∀ n, ¬ P n → v (n + 1) ≤ v n) (hlt : ∀ n, ¬ P n → b n = true → v (n + 1) < v n) (n : Nat) :
    ∃ m, n ≤ m ∧ P m := by
  by_contra hno
  have hnp : ∀ m, n ≤ m → ¬ P m := fun m hm hp => hno ⟨m, hm, hp⟩
  have hmono : ∀ m k, n ≤ m → v (m + k) ≤ v m := by
    intro m k hm
    induction k with
    | zero => exact Nat.le_refl _
    | succ k ih => exact Nat.le_trans (hle (m + k) (hnp _ (Nat.le_add_right_of_le hm))) ih
  have hfall : ∀ j, ∃ m, n ≤ m ∧ v m + j ≤ v n := by
    intro j
    induction j with
    | zero => exact ⟨n, Nat.le_refl _, Nat.le_refl _⟩
    | succ j ih =>
        obtain ⟨m, hm, hv⟩ := ih
        obtain ⟨m', hm', hbm⟩ := hb m
        obtain ⟨k, rfl⟩ := Nat.exists_eq_add_of_le hm'
        have h1 := hmono m k hm
        have h2 := hlt (m + k) (hnp _ (Nat.le_add_right_of_le hm)) hbm
        exact ⟨m + k + 1, by omega, by omega⟩
  obtain ⟨m, _, hv⟩ := hfall (v n + 1)
  omega

/-- What stays until it leads to `Q`, when a number never grows meanwhile and falls in every cycle of `b`. -/
theorem leads_to_of_falls {v : Nat → Nat} {b : Nat → Bool} {P Q : Nat → Prop} (hb : ∀ n, ∃ m, n ≤ m ∧ b m = true)
    (hstep : ∀ n, P n → ¬ Q n → P (n + 1) ∧ v (n + 1) ≤ v n ∧ (b n = true → v (n + 1) < v n)) {n : Nat} (hn : P n) :
    ∃ m, n ≤ m ∧ P m ∧ Q m := by
  by_contra hno
  have hstay : ∀ k, P (n + k) := by
    intro k
    induction k with
    | zero => exact hn
    | succ k ih => exact (hstep _ ih fun hq => hno ⟨n + k, Nat.le_add_right n k, ih, hq⟩).1
  have hb' : ∀ k, ∃ m, k ≤ m ∧ b (n + m) = true := by
    intro k
    obtain ⟨m, hm, hbm⟩ := hb (n + k)
    exact ⟨m - n, by omega, by rw [Nat.add_sub_cancel' (by omega)]; exact hbm⟩
  obtain ⟨m, -, hq⟩ := eventually_of_falls (v := fun k => v (n + k)) (P := fun k => Q (n + k)) hb'
    (fun k hk => (hstep _ (hstay k) hk).2.1) (fun k hk => (hstep _ (hstay k) hk).2.2) 0
  exact hno ⟨n + m, Nat.le_add_right n m, hstay m, hq⟩

/-- A number that grows again and again until it is `k` gets there. -/
theorem reaches_of_grows {f : Nat → Nat} {k n : Nat}
    (hgrow : ∀ m, n ≤ m → f m < k → ∃ m', m ≤ m' ∧ f m < f (m' + 1)) : ∃ m, n ≤ m ∧ k ≤ f m := by
  have hreach : ∀ j, ∃ m, n ≤ m ∧ min k j ≤ f m := by
    intro j
    induction j with
    | zero => exact ⟨n, Nat.le_refl n, by omega⟩
    | succ j ih =>
        obtain ⟨m, hm, hle⟩ := ih
        by_cases hk : k ≤ f m
        · exact ⟨m, hm, by omega⟩
        · obtain ⟨m', hm', hlt⟩ := hgrow m hm (by omega)
          exact ⟨m' + 1, by omega, by omega⟩
  obtain ⟨m, hm, hle⟩ := hreach k
  exact ⟨m, hm, by omega⟩

/-! ## Constant stretches -/

/-- The signal has had the value `a` in the `k` cycles before cycle `n`. -/
def Held (f : Nat → α) (a : α) (n k : Nat) : Prop := ∃ m, n = m + k ∧ ∀ j < k, f (m + j) = a

namespace Held

variable {f : Nat → α} {a : α} {n k j : Nat}

theorem zero : Held f a n 0 := ⟨n, rfl, fun _ h => absurd h (Nat.not_lt_zero _)⟩

theorem succ (h : Held f a n k) (hn : f n = a) : Held f a (n + 1) (k + 1) := by
  obtain ⟨m, rfl, hm⟩ := h
  refine ⟨m, rfl, fun j hj => ?_⟩
  rcases Nat.lt_succ_iff_lt_or_eq.mp hj with hlt | rfl
  · exact hm j hlt
  · exact hn

theorem one (hn : f n = a) : Held f a (n + 1) 1 := zero.succ hn

theorem mono (h : Held f a n k) (hj : j ≤ k) : Held f a n j := by
  obtain ⟨m, rfl, hm⟩ := h
  refine ⟨m + (k - j), by omega, fun i hi => ?_⟩
  rw [Nat.add_assoc]
  exact hm _ (by omega)

theorem pred (h : Held f a n (k + 1)) : ∃ m, n = m + 1 ∧ Held f a m k ∧ f m = a := by
  obtain ⟨m, rfl, hm⟩ := h
  exact ⟨m + k, rfl, ⟨m, rfl, fun j hj => hm j (Nat.lt_succ_of_lt hj)⟩, hm k (Nat.lt_succ_self k)⟩

theorem not_succ (h : ¬ Held f a n k) : ¬ Held f a (n + 1) (k + 1) := fun hs => by
  obtain ⟨m, hm, hk, -⟩ := hs.pred
  cases hm
  exact h hk

theorem last (h : Held f a (n + 1) (k + 1)) : f n = a := by
  obtain ⟨m, hm, -, hn⟩ := h.pred
  cases hm
  exact hn

theorem ne (h : Held f a n (k + 1)) {b : α} (hab : a ≠ b) : ¬ Held f b n (j + 1) := fun hb => by
  obtain ⟨m, rfl, -, hm⟩ := h.pred
  exact hab (hm.symm.trans hb.last)

end Held

/-! ## Clocks that do not tick in every cycle -/

namespace Circuit

/-- The circuit on a clock that ticks only when there is an input. -/
def gated (c : Circuit σ ι) : Circuit σ (Option ι) := ⟨c.reset, fun s i => i.elim s (c.next s)⟩

/-- On the ticks of its clock a circuit runs as on a clock that always ticks, on no other inputs than those of the
ticks and a given one. -/
theorem exists_run_gated_mem (c : Circuit σ ι) (x : Nat → Option ι) (i₀ : ι) :
    ∃ y : Nat → ι, (∀ k, y k = i₀ ∨ ∃ n, x n = some (y k)) ∧
      ∀ n, c.gated.run x n = c.run y (count (fun m => (x m).isSome) n) ∧
        ∀ i, x n = some i → y (count (fun m => (x m).isSome) n) = i := by
  have hex : ∀ k, ∃ j, (j = i₀ ∨ ∃ n, x n = some j) ∧
      ∀ n i, x n = some i → count (fun m => (x m).isSome) n = k → j = i := by
    intro k
    by_cases h : ∃ n j, x n = some j ∧ count (fun m => (x m).isSome) n = k
    · obtain ⟨m, j, hm, hk⟩ := h
      refine ⟨j, Or.inr ⟨m, hm⟩, fun n i hn hk' => ?_⟩
      have hmn : m = n := count_inj (by rw [hm]; rfl) (by rw [hn]; rfl) (hk.trans hk'.symm)
      rw [hmn, hn] at hm
      exact (Option.some.inj hm).symm
    · exact ⟨i₀, Or.inl rfl, fun n i hn hk => absurd ⟨n, i, hn, hk⟩ h⟩
  choose y hmem hy using hex
  refine ⟨y, hmem, fun n => ⟨?_, fun i hi => hy _ n i hi rfl⟩⟩
  induction n with
  | zero => rfl
  | succ n ih =>
      rw [run_succ, count_succ, ih]
      cases hx : x n with
      | none => rfl
      | some i =>
          rw [Option.isSome_some, Bool.toNat_true, run_succ, hy _ n i hx rfl]
          rfl

theorem exists_run_gated (c : Circuit σ ι) (x : Nat → Option ι) (i₀ : ι) :
    ∃ y : Nat → ι, ∀ n, c.gated.run x n = c.run y (count (fun m => (x m).isSome) n) ∧
      ∀ i, x n = some i → y (count (fun m => (x m).isSome) n) = i := by
  obtain ⟨y, -, hy⟩ := c.exists_run_gated_mem x i₀
  exact ⟨y, hy⟩

end Circuit

/-! ## Register delays -/

/-- The signal `p` after `k` registers that reset to no word. -/
def delay (k : Nat) (p : Nat → Option α) : Nat → Option α :=
  fun n => if n < k then none else p (n - k)

theorem delay_add (k : Nat) (p : Nat → Option α) (n : Nat) : delay k p (n + k) = p n := by
  simp [delay, show ¬ n + k < k by omega]

@[simp] theorem delay_zero (p : Nat → Option α) : delay 0 p = p := by
  funext n; simp [delay]

theorem delay_delay (j k : Nat) (p : Nat → Option α) : delay j (delay k p) = delay (k + j) p := by
  funext n
  simp only [delay]
  by_cases h1 : n < j
  · simp [h1, show n < k + j by omega]
  · by_cases h2 : n - j < k
    · simp [h1, h2, show n < k + j by omega]
    · simp [h1, h2, show ¬ n < k + j by omega, show n - j - k = n - (k + j) by omega]

/-- A register that resets to no word and loads `p` shows `p` one cycle later. -/
theorem eq_delay_one {p q : Nat → Option α} (h0 : q 0 = none) (hs : ∀ n, q (n + 1) = p n) :
    q = delay 1 p := by
  funext n
  cases n with
  | zero => simp [delay, h0]
  | succ n => simp [delay, hs]

theorem words_delay (k : Nat) (p : Nat → Option α) (n : Nat) :
    words (delay k p) n = words p (n - k) := by
  induction n with
  | zero => simp
  | succ n ih =>
      by_cases h : n < k
      · rw [words_succ, ih]
        simp [delay, h, show n - k = 0 by omega, show n + 1 - k = 0 by omega]
      · rw [words_succ, ih, show n + 1 - k = n - k + 1 by omega, words_succ]
        simp [delay, h]

theorem words_delay_add (k : Nat) (p : Nat → Option α) (n : Nat) :
    words (delay k p) (n + k) = words p n := by
  simp [words_delay]

/-! ## Words that become two -/

/-- The words that `f` makes of each word of `p`, the first in its cycle and the second in the one after it. -/
def spread (f : α → List β) (p : Nat → Option α) (n : Nat) : Option β :=
  ((p n).bind fun a => (f a)[0]?) <|> ((delay 1 p n).bind fun a => (f a)[1]?)

/-- What is still to come of the word of the cycle before. -/
def spreadRest (f : α → List β) (p : Nat → Option α) (n : Nat) : List β :=
  (delay 1 p n).toList.flatMap fun a => (f a).tail

theorem delay_one_succ (p : Nat → Option α) (n : Nat) : delay 1 p (n + 1) = p n := by
  simp [delay]

theorem delay_spread (f : α → List β) (p : Nat → Option α) (k n : Nat) : delay k (spread f p) n =
    (((delay k p n).bind fun a => (f a)[0]?) <|> ((delay (k + 1) p n).bind fun a => (f a)[1]?)) := by
  rw [Nat.add_comm k 1, ← delay_delay]
  by_cases h : n < k
  · simp [delay, h]
  · simp [delay, h, spread]

theorem tail_of_length_le {l : List β} (h : l.length ≤ 1) : l.tail = [] ∧ l[1]? = none :=
  match l with
  | [] | [_] => ⟨rfl, rfl⟩

theorem toList_getElem?_append_tail {l : List β} (h : l.length ≤ 2) :
    l[0]?.toList ++ l.tail = l ∧ l[1]?.toList = l.tail :=
  match l with
  | [] | [_] | [_, _] => ⟨rfl, rfl⟩

section Spread

variable {f : α → List β} {p : Nat → Option α} (h2 : ∀ a, (f a).length ≤ 2)
  (h1 : ∀ n a, p n = some a → p (n + 1) = none ∨ (f a).length ≤ 1)

include h2 h1 in
theorem spread_step (n : Nat) : (spread f p n).toList ++ spreadRest f p (n + 1) =
    spreadRest f p n ++ (p n).toList.flatMap f := by
  rw [spread, spreadRest, spreadRest, delay_one_succ]
  cases hp : p n with
  | none =>
      cases delay 1 p n with
      | none => rfl
      | some b => simpa using (toList_getElem?_append_tail (h2 b)).2
  | some a =>
      have hrest : ∀ b, delay 1 p n = some b → (f b).length ≤ 1 := by
        intro b hb
        cases n with
        | zero => cases hb
        | succ n =>
            rw [delay_one_succ] at hb
            rcases h1 n b hb with hnone | hle
            · rw [hp] at hnone
              cases hnone
            · exact hle
      cases hd : delay 1 p n with
      | none => simpa using (toList_getElem?_append_tail (h2 a)).1
      | some b =>
          obtain ⟨hdrop, hget⟩ := tail_of_length_le (hrest b hd)
          simpa [hdrop, hget] using (toList_getElem?_append_tail (h2 a)).1

include h2 h1 in
theorem words_spread (n : Nat) : words (spread f p) n ++ spreadRest f p n = (words p n).flatMap f := by
  induction n with
  | zero => rfl
  | succ n ih =>
      rw [words_succ, words_succ, List.flatMap_append, ← ih, List.append_assoc, List.append_assoc,
        spread_step h2 h1]

include h2 h1 in
/-- Nothing comes out that did not go in, and a cycle after a word all of it has come out. -/
theorem words_spread_isPrefix (n : Nat) : words (spread f p) n <+: (words p n).flatMap f ∧
    (words p n).flatMap f <+: words (spread f p) (n + 1) := by
  refine ⟨⟨_, words_spread h2 h1 n⟩, ?_⟩
  rw [← words_spread h2 h1, words_succ, List.prefix_append_right_inj]
  cases hd : delay 1 p n with
  | none => simp [spreadRest, hd]
  | some b =>
      cases n with
      | zero => cases hd
      | succ n =>
          rw [delay_one_succ] at hd
          rcases h1 n b hd with hnone | hle
          · have hs : spread f p (n + 1) = (f b)[1]? := by simp [spread, delay_one_succ, hnone, hd]
            rw [hs, (toList_getElem?_append_tail (h2 b)).2]
            simp [spreadRest, delay_one_succ, hd]
          · have hnil : spreadRest f p (n + 1) = [] := by
              simp [spreadRest, delay_one_succ, hd, (tail_of_length_le hle).1]
            rw [hnil]
            exact List.nil_prefix

end Spread

/-! ## Words at a steady pace -/

theorem words_congr {p q : Nat → Option α} {n : Nat} (h : ∀ m < n, p m = q m) : words p n = words q n := by
  induction n with
  | zero => rfl
  | succ n ih =>
      rw [words_succ, words_succ, ih (fun m hm => h m (Nat.lt_succ_of_lt hm)), h n (Nat.lt_succ_self n)]

/-- A signal that carries word `k` in cycle `a + d * k` and nothing in the other cycles. -/
structure Paced (p : Nat → Option α) (a d : Nat) (f : Nat → α) : Prop where
  word : ∀ k, p (a + d * k) = some (f k)
  gap : ∀ n, (∀ k, n ≠ a + d * k) → p n = none

namespace Paced

variable {p q : Nat → Option α} {a d : Nat} {f : Nat → α}

theorem of_cycles (hd : 0 < d) (hlead : ∀ n < a, p n = none) (hword : ∀ k, p (a + d * k) = some (f k))
    (hgap : ∀ k j, 0 < j → j < d → p (a + d * k + j) = none) : Paced p a d f := by
  refine ⟨hword, fun n hn => ?_⟩
  by_cases h : n < a
  · exact hlead n h
  · have hdm := Nat.div_add_mod (n - a) d
    have hne : n = a + d * ((n - a) / d) + (n - a) % d := by omega
    have hpos : 0 < (n - a) % d := by
      apply Nat.pos_of_ne_zero
      intro h0
      exact hn _ (by rw [h0] at hne; exact hne)
    rw [hne]
    exact hgap _ _ hpos (Nat.mod_lt _ hd)

theorem shift (h : Paced p a d f) (k : Nat) (hlead : ∀ n < k, q n = none) (hq : ∀ n, q (n + k) = p n) :
    Paced q (a + k) d f := by
  refine ⟨fun i => ?_, fun n hn => ?_⟩
  · rw [Nat.add_right_comm, hq, h.word]
  · by_cases hlt : n < k
    · exact hlead n hlt
    · obtain ⟨j, rfl⟩ := Nat.exists_eq_add_of_le' (Nat.le_of_not_lt hlt)
      rw [hq]
      exact h.gap j fun i hi => hn i (by rw [hi, Nat.add_right_comm])

theorem map {g : α → β} (h : Paced p a d f) : Paced (fun n => (p n).map g) a d (fun k => g (f k)) :=
  ⟨fun k => by rw [h.word]; rfl, fun n hn => by rw [h.gap n hn]; rfl⟩

/-- From cycle `b` on, when the words before it are left out. -/
theorem drop (h : Paced p a d f) (hd : 0 < d) (b : Nat) :
    ∃ j a', a' + b = a + d * j ∧ (j = 0 ∨ a' < d) ∧ Paced (fun n => p (n + b)) a' d (fun k => f (j + k)) := by
  obtain ⟨j, a', ha', hj⟩ : ∃ j a', a' + b = a + d * j ∧ (j = 0 ∨ a' < d) := by
    rcases Nat.lt_or_ge a b with hlt | hge
    · have hdm := Nat.div_add_mod (b - a + (d - 1)) d
      have hmod := Nat.mod_lt (b - a + (d - 1)) hd
      exact ⟨(b - a + (d - 1)) / d, a + d * ((b - a + (d - 1)) / d) - b, by omega, .inr (by omega)⟩
    · exact ⟨0, a - b, by omega, .inl rfl⟩
  refine ⟨j, a', ha', hj, fun k => ?_, fun n hn => h.gap _ fun k hk => ?_⟩
  · rw [show a' + d * k + b = a + d * (j + k) by rw [Nat.mul_add]; omega, h.word]
  · -- a word that comes from cycle `b` on is not one of the first `j`
    rcases Nat.lt_or_ge k j with hlt | hge
    · have hle : d * (k + 1) ≤ d * j := Nat.mul_le_mul_left d hlt
      rw [Nat.mul_succ] at hle
      rcases hj with rfl | hj
      · exact absurd hlt (Nat.not_lt_zero k)
      · omega
    · obtain ⟨i, rfl⟩ := Nat.exists_eq_add_of_le hge
      rw [Nat.mul_add] at hk
      exact hn i (by omega)

/-- Behind a word there is a gap. -/
theorem gap_succ (h : Paced p a d f) (hd : 2 ≤ d) {n : Nat} (hn : (p n).isSome = true) : p (n + 1) = none := by
  refine h.gap _ fun k hk => ?_
  by_cases hj : ∃ j, n = a + d * j
  · obtain ⟨j, rfl⟩ := hj
    rcases Nat.lt_or_ge j k with hlt | hge
    · have hle : d * (j + 1) ≤ d * k := Nat.mul_le_mul_left d hlt
      rw [Nat.mul_succ] at hle
      omega
    · have hle : d * k ≤ d * j := Nat.mul_le_mul_left d hge
      omega
  · rw [h.gap n fun j hnj => hj ⟨j, hnj⟩] at hn
    cases hn

theorem delayed (h : Paced p a d f) (k : Nat) : Paced (delay k p) (a + k) d f :=
  h.shift k (fun _ hn => if_pos hn) (delay_add k p)

theorem words_eq (h : Paced p a d f) (hd : 0 < d) (n : Nat) :
    words p n = (List.range ((n + d - 1 - a) / d)).map f := by
  induction n with
  | zero => rw [Nat.div_eq_of_lt (by omega)]; rfl
  | succ n ih =>
      by_cases hk : ∃ k, n = a + d * k
      · obtain ⟨k, rfl⟩ := hk
        have h1 : (a + d * k + 1 + d - 1 - a) / d = k + 1 := by
          rw [show a + d * k + 1 + d - 1 - a = d * (k + 1) by rw [Nat.mul_succ]; omega, Nat.mul_div_cancel_left _ hd]
        have h2 : (a + d * k + d - 1 - a) / d = k := by
          rw [show a + d * k + d - 1 - a = d * k + (d - 1) by omega, Nat.mul_add_div hd,
            Nat.div_eq_of_lt (by omega), Nat.add_zero]
        rw [words_succ_of_some (h.word k), ih, h1, h2, List.range_succ, List.map_append]
        rfl
      · have hn : ∀ k, n ≠ a + d * k := fun k hkn => hk ⟨k, hkn⟩
        have heq : (n + 1 + d - 1 - a) / d = (n + d - 1 - a) / d := by
          by_cases hlt : n < a
          · rw [Nat.div_eq_of_lt (by omega), Nat.div_eq_of_lt (by omega)]
          · have hdm := Nat.div_add_mod (n - a) d
            have hmod := Nat.mod_lt (n - a) hd
            have hpos : 0 < (n - a) % d := by
              apply Nat.pos_of_ne_zero
              intro h0
              exact hn ((n - a) / d) (by omega)
            have hpred : ((n - a) % d - 1) / d = 0 := Nat.div_eq_of_lt (by omega)
            rw [show n + 1 + d - 1 - a = d * ((n - a) / d + 1) + (n - a) % d by rw [Nat.mul_succ]; omega,
              show n + d - 1 - a = d * ((n - a) / d + 1) + ((n - a) % d - 1) by rw [Nat.mul_succ]; omega,
              Nat.mul_add_div hd, Nat.mul_add_div hd, hpred, Nat.div_eq_of_lt hmod]
        rw [words_succ_of_none (h.gap n hn), ih, heq]

end Paced

/-! ## Data ports with a strobe -/

/-- A data port with its strobe: the data mean something only while `valid`. -/
structure Port (α : Type) where
  valid : Bool
  data : α
  deriving Repr, DecidableEq

namespace Port

/-- The word on the port. -/
def word (p : Port α) : Option α := if p.valid then some p.data else none

@[simp] theorem word_true (d : α) : (Port.mk true d).word = some d := rfl

@[simp] theorem word_false (d : α) : (Port.mk false d).word = none := rfl

@[simp] theorem word_isSome (p : Port α) : p.word.isSome = p.valid := by
  cases h : p.valid <;> simp [word, h]

theorem word_map (p : Port α) (f : α → β) : (Port.mk p.valid (f p.data)).word = p.word.map f := by
  cases h : p.valid <;> simp [word, h]

theorem word_eq_some {p : Port α} {d : α} : p.word = some d ↔ p.valid = true ∧ p.data = d := by
  cases h : p.valid <;> simp [word, h]

theorem word_eq_none {p : Port α} : p.word = none ↔ p.valid = false := by
  cases h : p.valid <;> simp [word, h]

end Port

end Hdl
