import Mathlib.Data.Nat.Find
import LimeSdrQpcie.Iq.EdgeDelay

/-! How long the input of the edge delay has been constant, by the state it is in. -/

namespace LimeSdrQpcie

open Hdl

namespace EdgeDelay

/-! ## One clock edge -/

section Next

variable {riseDly fallDly : BitVec 16} {rc fc : BitVec 16} {q : Bool} (d : Bool)

theorem next_idle : next riseDly fallDly ⟨rc, fc, .idle, q⟩ d = ⟨0, 0, if d then .riseDelay else .idle, false⟩ := rfl

theorem next_riseDelay : next riseDly fallDly ⟨rc, fc, .riseDelay, q⟩ d =
    ⟨rc + 1, fc, if d then (if rc < riseDly then .riseDelay else .waitFall) else .fallDelay, false⟩ := rfl

theorem next_waitFall : next riseDly fallDly ⟨rc, fc, .waitFall, q⟩ d =
    ⟨rc, 0, if d then .waitFall else .fallDelay, true⟩ := rfl

theorem next_fallDelay : next riseDly fallDly ⟨rc, fc, .fallDelay, q⟩ d =
    ⟨rc, fc + 1, if d then .waitFall else if fc < fallDly then .fallDelay else .idle, q⟩ := by
  cases d <;> rfl

theorem toNat_succ_of_lt {c k : BitVec 16} (h : c < k) : (c + 1).toNat = c.toNat + 1 := by
  have hlt : c.toNat + 1 < 2 ^ 16 := Nat.lt_of_le_of_lt (Nat.succ_le_of_lt h) k.isLt
  exact (BitVec.toNat_add c 1).trans (Nat.mod_eq_of_lt hlt)

end Next

/-! ## Pulses -/

section Phases

variable (riseDly fallDly : BitVec 16) (d : Nat → Bool)

/-- The input has been low for longer than the fall delay, or since the reset. -/
def Rested (n : Nat) : Prop := Held d false n (fallDly.toNat + 2) ∨ Held d false n n

/-- After a rest the input has risen `k` cycles before cycle `n`. -/
def Pulse (n k : Nat) : Prop := ∃ m, n = m + k ∧ Rested fallDly d m ∧ ∀ j < k, d (m + j) = true

variable {fallDly d} {n k : Nat}

theorem Rested.succ (h : Rested fallDly d n) (hd : d n = false) : Rested fallDly d (n + 1) := by
  rcases h with hlow | hlow
  · exact .inl ((hlow.succ hd).mono (Nat.le_succ _))
  · exact .inr (hlow.succ hd)

theorem Rested.not_high (h : Rested fallDly d n) : ¬ Held d true n 1 := by
  intro hh
  obtain ⟨m, rfl, -⟩ := hh.pred
  rcases h with hlow | hlow
  · exact hlow.ne (by decide) hh
  · exact hlow.ne (by decide) hh

theorem Pulse.held (h : Pulse fallDly d n k) : Held d true n k := by
  obtain ⟨m, hn, -, hm⟩ := h
  exact ⟨m, hn, hm⟩

theorem Pulse.one (h : Rested fallDly d n) (hd : d n = true) : Pulse fallDly d (n + 1) 1 := by
  obtain ⟨m, hn, hm⟩ := Held.one hd
  cases hn
  exact ⟨n, rfl, h, hm⟩

theorem Pulse.succ (h : Pulse fallDly d n k) (hd : d n = true) : Pulse fallDly d (n + 1) (k + 1) := by
  obtain ⟨m, rfl, hr, hm⟩ := h
  obtain ⟨m', hn, hm'⟩ := Held.succ ⟨m, rfl, hm⟩ hd
  cases Nat.add_right_cancel (show m + (k + 1) = m' + (k + 1) from hn)
  exact ⟨m, rfl, hr, hm'⟩

/-- It has not been high for longer. -/
theorem Pulse.max (h : Pulse fallDly d n k) : ¬ Held d true n (k + 1) := by
  obtain ⟨m, rfl, hr, -⟩ := h
  rintro ⟨m', hn, hm⟩
  obtain rfl : m = m' + 1 := by omega
  exact hr.not_high (Held.one (hm 0 (Nat.succ_pos k)))

/-! ## Where the machine stands -/

variable (fallDly d)

/-- What is known of the input before cycle `n` in each of the states that are reached. The counters say how long it
has been as it is. -/
inductive Phase (n : Nat) : EdgeDelay → Prop where
  | idle {rc fc : BitVec 16} {q : Bool} (hr : Rested fallDly d n)
      (hq : q = true → Held d false n (fallDly.toNat + 2)) : Phase n ⟨rc, fc, .idle, q⟩
  | riseDelay {rc : BitVec 16} (hle : rc.toNat ≤ riseDly.toNat) (hp : Pulse fallDly d n (rc.toNat + 1)) :
      Phase n ⟨rc, 0, .riseDelay, false⟩
  | waitFall {rc fc : BitVec 16} {q : Bool} (hd : Held d true n 1) : Phase n ⟨rc, fc, .waitFall, q⟩
  | fallDelay {rc fc : BitVec 16} {q : Bool} (hle : fc.toNat ≤ fallDly.toNat) (hd : Held d false n (fc.toNat + 1))
      (hmax : ¬ Held d false n (fc.toNat + 2)) : Phase n ⟨rc, fc, .fallDelay, q⟩

variable {riseDly fallDly d}

/-- The fall delay begins after a high input. -/
theorem Phase.fall_begins {n k : Nat} {rc : BitVec 16} {q : Bool} (hh : Held d true n (k + 1)) (hd : d n = false) :
    Phase riseDly fallDly d (n + 1) ⟨rc, 0, .fallDelay, q⟩ :=
  .fallDelay (Nat.zero_le _) (Held.one hd) (Held.not_succ (hh.ne (by decide)))

theorem Phase.next {n : Nat} {s : EdgeDelay} (h : Phase riseDly fallDly d n s) :
    Phase riseDly fallDly d (n + 1) (s.next riseDly fallDly (d n)) := by
  cases h with
  | idle hr _ =>
      rw [next_idle]
      cases hd : d n with
      | true => exact .riseDelay (Nat.zero_le _) (.one hr hd)
      | false => exact .idle (hr.succ hd) fun h => by cases h
  | @riseDelay rc hle hp =>
      rw [next_riseDelay]
      cases hd : d n with
      | true =>
          by_cases hlt : rc < riseDly
          · have hrc := toNat_succ_of_lt hlt
            rw [if_pos rfl, if_pos hlt]
            refine .riseDelay ?_ ?_
            · rw [hrc]
              exact hlt
            · rw [hrc]
              exact hp.succ hd
          · rw [if_pos rfl, if_neg hlt]
            exact .waitFall (Held.one hd)
      | false => exact fall_begins hp.held hd
  | waitFall hh =>
      rw [next_waitFall]
      cases hd : d n with
      | true => exact .waitFall (Held.one hd)
      | false => exact fall_begins hh hd
  | @fallDelay rc fc q hle hh hmax =>
      rw [next_fallDelay]
      cases hd : d n with
      | true => exact .waitFall (Held.one hd)
      | false =>
          by_cases hlt : fc < fallDly
          · have hfc := toNat_succ_of_lt hlt
            rw [if_neg (by decide), if_pos hlt]
            refine .fallDelay ?_ ?_ ?_
            · rw [hfc]
              exact hlt
            · rw [hfc]
              exact hh.succ hd
            · rw [hfc]
              exact Held.not_succ hmax
          · have heq : fc.toNat = fallDly.toNat := Nat.le_antisymm hle (Nat.not_lt.mp hlt)
            have hlow : Held d false (n + 1) (fallDly.toNat + 2) := by
              rw [← heq]
              exact hh.succ hd
            rw [if_neg (by decide), if_neg hlt]
            exact .idle (.inl hlow) fun _ => hlow

/-! ## The run -/

variable (riseDly fallDly d)

def stateAt (n : Nat) : EdgeDelay := (circuit riseDly fallDly).run d n

def qAt (n : Nat) : Bool := (stateAt riseDly fallDly d n).qReg

theorem stateAt_succ (n : Nat) :
    stateAt riseDly fallDly d (n + 1) = (stateAt riseDly fallDly d n).next riseDly fallDly (d n) := rfl

theorem phase (n : Nat) : Phase riseDly fallDly d n (stateAt riseDly fallDly d n) := by
  induction n with
  | zero => exact .idle (.inr Held.zero) fun h => by cases h
  | succ n ih => exact ih.next

variable {riseDly fallDly d}

/-- A high input has ended the rise delay. -/
theorem waitFall_of_held {n : Nat} (h : Held d true n (riseDly.toNat + 2)) :
    (stateAt riseDly fallDly d n).currentState = .waitFall := by
  have hp := phase riseDly fallDly d n
  generalize stateAt riseDly fallDly d n = s at hp ⊢
  cases hp with
  | idle hr _ => exact absurd (h.mono (Nat.le_add_left 1 _)) hr.not_high
  | riseDelay hle hp => exact absurd (h.mono (Nat.add_le_add_right hle 2)) hp.max
  | waitFall _ => rfl
  | fallDelay _ hh _ => exact absurd hh (h.ne (by decide))

/-- A low input has ended the fall delay. -/
theorem idle_of_held {n : Nat} (h : Held d false n (fallDly.toNat + 2)) :
    (stateAt riseDly fallDly d n).currentState = .idle := by
  have hp := phase riseDly fallDly d n
  generalize stateAt riseDly fallDly d n = s at hp ⊢
  cases hp with
  | idle _ _ => rfl
  | riseDelay _ hp => exact absurd hp.held (h.ne (by decide))
  | waitFall hh => exact absurd hh (h.ne (by decide))
  | fallDelay hle _ hmax => exact absurd (h.mono (Nat.add_le_add_right hle 2)) hmax

/-- The output falls after the fall delay. -/
theorem low_of_falls {n : Nat} (h : qAt riseDly fallDly d n = true) (h' : qAt riseDly fallDly d (n + 1) = false) :
    Held d false n (fallDly.toNat + 2) := by
  have hp := phase riseDly fallDly d n
  rw [qAt, stateAt_succ] at h'
  unfold qAt at h
  generalize stateAt riseDly fallDly d n = s at hp h h'
  cases hp with
  | idle _ hq => exact hq h
  | riseDelay _ _ => cases h
  | waitFall _ => cases h'
  | fallDelay _ _ _ => exact absurd (h.symm.trans h') (by decide)

/-- The output rises from the state that waits for a falling edge. -/
theorem waitFall_of_rises {n : Nat} (h : qAt riseDly fallDly d n = false)
    (h' : qAt riseDly fallDly d (n + 1) = true) :
    (stateAt riseDly fallDly d n).currentState = .waitFall := by
  have hp := phase riseDly fallDly d n
  rw [qAt, stateAt_succ] at h'
  unfold qAt at h
  generalize stateAt riseDly fallDly d n = s at hp h h' ⊢
  cases hp with
  | idle _ _ => cases h'
  | riseDelay _ _ => cases h'
  | waitFall _ => rfl
  | fallDelay _ _ _ => exact absurd (h.symm.trans h') (by decide)

theorem high_of_waitFall {n : Nat} (h : (stateAt riseDly fallDly d n).currentState = .waitFall) : Held d true n 1 := by
  have hp := phase riseDly fallDly d n
  generalize stateAt riseDly fallDly d n = s at hp h
  cases hp with
  | idle _ _ => cases h
  | riseDelay _ _ => cases h
  | waitFall hd => exact hd
  | fallDelay _ _ _ => cases h

theorem qAt_of_high {n : Nat} (h : Held d true n (riseDly.toNat + 3)) : qAt riseDly fallDly d n = true := by
  obtain ⟨m, rfl, hm, -⟩ := h.pred
  rw [qAt, stateAt_succ]
  exact if_pos (waitFall_of_held hm)

theorem qAt_of_low {n : Nat} (h : Held d false n (fallDly.toNat + 3)) : qAt riseDly fallDly d n = false := by
  obtain ⟨m, rfl, hm, -⟩ := h.pred
  have hidle := @idle_of_held riseDly fallDly d m hm
  rw [qAt, stateAt_succ, next, hidle]
  rfl

/-! ## Gaps -/

variable (riseDly fallDly d)

/-- When a pulse ends during the rise delay, the input stays low until the fall delay is over. -/
def NoShortGap : Prop :=
  ∀ n k, Pulse fallDly d n (k + 1) → k ≤ riseDly.toNat → d n = false → ∀ j ≤ fallDly.toNat, d (n + 1 + j) = false

variable {riseDly fallDly d}

theorem stateAt_of_low {n : Nat} (h : Held d false n n) : stateAt riseDly fallDly d n = reset := by
  induction n with
  | zero => rfl
  | succ n ih =>
      obtain ⟨m, hm, hlow, hd⟩ := h.pred
      cases hm
      rw [stateAt_succ, ih hlow, hd]
      rfl

theorem idle_of_rested {n : Nat} (h : Rested fallDly d n) : (stateAt riseDly fallDly d n).currentState = .idle := by
  rcases h with hlow | hlow
  · exact idle_of_held hlow
  · rw [stateAt_of_low hlow]
    rfl

/-- The rise delay runs during a pulse. -/
theorem riseDelay_of_pulse {n k : Nat} (h : Pulse fallDly d n (k + 1)) (hk : k ≤ riseDly.toNat) :
    (stateAt riseDly fallDly d n).currentState = .riseDelay ∧ (stateAt riseDly fallDly d n).riseCnt.toNat = k := by
  induction k generalizing n with
  | zero =>
      obtain ⟨m, rfl, hr, hm⟩ := h
      have hidle := @idle_of_rested riseDly fallDly d m hr
      have hd : d m = true := hm 0 Nat.one_pos
      rw [Nat.zero_add, stateAt_succ, hd]
      generalize stateAt riseDly fallDly d m = s at hidle ⊢
      cases s with
      | mk rc fc st q =>
          cases hidle
          exact ⟨rfl, rfl⟩
  | succ k ih =>
      obtain ⟨m, rfl, hr, hm⟩ := h
      obtain ⟨hst, hcnt⟩ := ih ⟨m, rfl, hr, fun j hj => hm j (Nat.lt_succ_of_lt hj)⟩ (Nat.le_of_succ_le hk)
      rw [← Nat.add_assoc m, stateAt_succ, hm (k + 1) (Nat.lt_succ_self _)]
      generalize stateAt riseDly fallDly d (m + (k + 1)) = s at hst hcnt ⊢
      cases s with
      | mk rc fc st q =>
          cases hst
          have hlt : rc < riseDly := by
            rw [BitVec.lt_def, hcnt]
            exact hk
          rw [next_riseDelay, if_pos rfl, if_pos hlt]
          exact ⟨rfl, (toNat_succ_of_lt hlt).trans (congrArg Nat.succ hcnt)⟩

theorem pulse_of_riseDelay {n : Nat} (h : (stateAt riseDly fallDly d n).currentState = .riseDelay) :
    ∃ k ≤ riseDly.toNat, Pulse fallDly d n (k + 1) := by
  have hp := phase riseDly fallDly d n
  generalize stateAt riseDly fallDly d n = s at hp h
  cases hp with
  | idle _ _ => cases h
  | @riseDelay rc hle hpulse => exact ⟨rc.toNat, hle, hpulse⟩
  | waitFall _ => cases h
  | fallDelay _ _ _ => cases h

/-- A fall delay with the output low comes from a rise delay that was not over. -/
theorem fallDelay_low {n : Nat} (h : (stateAt riseDly fallDly d n).currentState = .fallDelay)
    (hq : qAt riseDly fallDly d n = false) :
    ∃ m, (stateAt riseDly fallDly d m).currentState = .riseDelay ∧ d m = false ∧
      n = m + 1 + (stateAt riseDly fallDly d n).fallCnt.toNat := by
  induction n with
  | zero => cases h
  | succ n ih =>
      have hp := phase riseDly fallDly d n
      rw [qAt, stateAt_succ] at hq
      rw [stateAt_succ] at h ⊢
      unfold qAt at ih
      generalize hs : stateAt riseDly fallDly d n = s at hp h hq ih ⊢
      cases hp with
      | idle _ _ =>
          rw [next_idle] at h
          cases hd : d n <;> rw [hd] at h <;> cases h
      | @riseDelay rc _ _ =>
          cases hd : d n with
          | false => exact ⟨n, by rw [hs], hd, rfl⟩
          | true =>
              rw [next_riseDelay, hd, if_pos rfl] at h
              by_cases hlt : rc < riseDly
              · rw [if_pos hlt] at h
                cases h
              · rw [if_neg hlt] at h
                cases h
      | waitFall _ => cases hq
      | @fallDelay rc fc q hle _ _ =>
          rw [next_fallDelay] at h hq ⊢
          cases hd : d n with
          | true =>
              rw [hd] at h
              cases h
          | false =>
              rw [hd, if_neg (by decide)] at h
              by_cases hlt : fc < fallDly
              · obtain ⟨m, hm, hdm, hn⟩ := ih rfl hq
                refine ⟨m, hm, hdm, ?_⟩
                change n + 1 = m + 1 + (fc + 1).toNat
                rw [toNat_succ_of_lt hlt, hn]
                rfl
              · rw [if_neg hlt] at h
                cases h

theorem fallCnt_le {n : Nat} (h : (stateAt riseDly fallDly d n).currentState = .fallDelay) :
    (stateAt riseDly fallDly d n).fallCnt.toNat ≤ fallDly.toNat := by
  have hp := phase riseDly fallDly d n
  generalize stateAt riseDly fallDly d n = s at hp h ⊢
  cases hp with
  | idle _ _ => cases h
  | riseDelay _ _ => cases h
  | waitFall _ => cases h
  | fallDelay hle _ _ => exact hle

/-- Without a short gap the machine waits for a falling edge with the output low only after the rise delay. -/
theorem high_of_noShortGap (hgap : NoShortGap riseDly fallDly d) {n : Nat}
    (h : (stateAt riseDly fallDly d n).currentState = .waitFall) (hq : qAt riseDly fallDly d n = false) :
    Held d true n (riseDly.toNat + 2) := by
  cases n with
  | zero => cases h
  | succ n =>
      have hp := phase riseDly fallDly d n
      have hlow := @fallDelay_low riseDly fallDly d n
      have hle := @fallCnt_le riseDly fallDly d n
      rw [qAt, stateAt_succ] at hq
      rw [stateAt_succ] at h
      unfold qAt at hlow
      generalize stateAt riseDly fallDly d n = s at hp h hq hlow hle
      cases hp with
      | idle _ _ =>
          rw [next_idle] at h
          cases hd : d n <;> rw [hd] at h <;> cases h
      | @riseDelay rc hrc hpulse =>
          rw [next_riseDelay] at h
          cases hd : d n with
          | false =>
              rw [hd] at h
              cases h
          | true =>
              rw [hd, if_pos rfl] at h
              by_cases hlt : rc < riseDly
              · rw [if_pos hlt] at h
                cases h
              · have heq : rc.toNat = riseDly.toNat := Nat.le_antisymm hrc (Nat.not_lt.mp hlt)
                rw [← heq]
                exact hpulse.held.succ hd
      | waitFall _ => cases hq
      | fallDelay _ _ _ =>
          obtain ⟨m, hm, hdm, hn⟩ := hlow rfl hq
          obtain ⟨k, hk, hpulse⟩ := pulse_of_riseDelay hm
          have hd := hgap m k hpulse hk hdm _ (hle rfl)
          rw [← hn] at hd
          rw [next_fallDelay, hd, if_neg (by decide)] at h
          split at h <;> cases h

/-- In a gap the fall delay runs with the output low. -/
theorem fallDelay_of_gap {m : Nat} (hm : (stateAt riseDly fallDly d m).currentState = .riseDelay)
    (hd : d m = false) {i : Nat} (hi : i ≤ fallDly.toNat) (hlow : ∀ j < i, d (m + 1 + j) = false) :
    (stateAt riseDly fallDly d (m + 1 + i)).currentState = .fallDelay ∧
      (stateAt riseDly fallDly d (m + 1 + i)).fallCnt.toNat = i ∧ qAt riseDly fallDly d (m + 1 + i) = false := by
  induction i with
  | zero =>
      have hp := phase riseDly fallDly d m
      rw [Nat.add_zero, qAt, stateAt_succ, hd]
      generalize stateAt riseDly fallDly d m = s at hp hm ⊢
      cases hp with
      | idle _ _ => cases hm
      | riseDelay _ _ => exact ⟨rfl, rfl, rfl⟩
      | waitFall _ => cases hm
      | fallDelay _ _ _ => cases hm
  | succ i ih =>
      obtain ⟨hst, hcnt, hq⟩ := ih (Nat.le_of_succ_le hi) fun j hj => hlow j (Nat.lt_succ_of_lt hj)
      rw [← Nat.add_assoc, qAt, stateAt_succ, hlow i (Nat.lt_succ_self i)]
      unfold qAt at hq
      generalize stateAt riseDly fallDly d (m + 1 + i) = s at hst hcnt hq ⊢
      cases s with
      | mk rc fc st q =>
          cases hst
          have hlt : fc < fallDly := by
            rw [BitVec.lt_def, hcnt]
            exact hi
          rw [next_fallDelay, if_neg (by decide), if_pos hlt]
          exact ⟨rfl, (toNat_succ_of_lt hlt).trans (congrArg Nat.succ hcnt), hq⟩

/-- After a short gap the output rises two cycles after the input, which has been low in between. -/
theorem rises_of_shortGap (hgap : ¬ NoShortGap riseDly fallDly d) :
    ∃ n, qAt riseDly fallDly d n = false ∧ qAt riseDly fallDly d (n + 1) = true ∧ ¬ Held d true n 2 := by
  have hex : ∃ m, (stateAt riseDly fallDly d m).currentState = .riseDelay ∧ d m = false ∧
      ∃ j, j ≤ fallDly.toNat ∧ d (m + 1 + j) = true := by
    by_contra hno
    refine hgap fun m k hpulse hk hd j hj => ?_
    cases hdj : d (m + 1 + j) with
    | false => rfl
    | true => exact absurd ⟨m, (riseDelay_of_pulse hpulse hk).1, hd, j, hj, hdj⟩ hno
  obtain ⟨m, hm, hd, hj⟩ := hex
  -- the first cycle of the gap's end
  have hspec := Nat.find_spec hj
  have hlow : ∀ i < Nat.find hj, d (m + 1 + i) = false := fun i hi => by
    cases hdi : d (m + 1 + i) with
    | false => rfl
    | true => exact absurd ⟨Nat.le_trans (Nat.le_of_lt hi) hspec.1, hdi⟩ (Nat.find_min hj hi)
  generalize Nat.find hj = j at hspec hlow
  obtain ⟨hst, -, hq⟩ := fallDelay_of_gap hm hd hspec.1 hlow
  have hbefore : d (m + j) = false := by
    cases j with
    | zero => exact hd
    | succ j => exact (congrArg d (by omega)).trans (hlow j (Nat.lt_succ_self j))
  have hwait : (stateAt riseDly fallDly d (m + 1 + j + 1)).currentState = .waitFall ∧
      qAt riseDly fallDly d (m + 1 + j + 1) = false := by
    rw [qAt, stateAt_succ, hspec.2]
    unfold qAt at hq
    generalize stateAt riseDly fallDly d (m + 1 + j) = s at hst hq ⊢
    cases s with
    | mk rc fc st q =>
        cases hst
        rw [next_fallDelay, if_pos rfl]
        exact ⟨rfl, hq⟩
  refine ⟨m + 1 + j + 1, hwait.2, ?_, fun h => ?_⟩
  · rw [qAt, stateAt_succ]
    exact if_pos hwait.1
  · obtain ⟨k, hk, hheld, -⟩ := h.pred
    have hkm : k = m + j + 1 := by omega
    rw [hkm] at hheld
    exact absurd (hheld.last.symm.trans hbefore) (by decide)

/-! ## The law -/

/-- The output rises only when the input has been high for `rise_dly` cycles and falls only when it has been low for
`fall_dly` cycles, up to the cycle before; and it follows an input that is constant for three cycles more. -/
structure Delays (riseDly fallDly : BitVec 16) (d q : Nat → Bool) : Prop where
  rises : ∀ n, q n = false → q (n + 1) = true → Held d true n riseDly.toNat
  falls : ∀ n, q n = true → q (n + 1) = false → Held d false n fallDly.toNat
  high : ∀ n, Held d true n (riseDly.toNat + 3) → q n = true
  low : ∀ n, Held d false n (fallDly.toNat + 3) → q n = false

end Phases

end EdgeDelay

end LimeSdrQpcie
