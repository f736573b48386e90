import LimeSdrQpcie.Pcie.TwoFifoInst

/-!
# The transfer between the two FIFOs

The transfer moves eight chunks of 128 words, a packet, into the second FIFO and begins again when that is empty.
No word gets lost between the FIFOs.
-/

namespace LimeSdrQpcie

open Hdl

namespace TwoFifoInst

variable {t : TwoFifoInst} {i : TwoFifoWrIn} {ws moved : List (BitVec 32)} {base pos r : Nat}

/-- The word that is on its way to the second FIFO. -/
def inFlight (t : TwoFifoInst) : Option (BitVec 32) := if t.inst1Wrreq then some t.inst0Q else none

/-- Of the host's words `ws` the words `moved` have left the first FIFO and `4 * r` of them the second one. -/
structure Flow (t : TwoFifoInst) (ws moved : List (BitVec 32)) (r : Nat) : Prop where
  host : ws = moved ++ t.inst0.store
  le : 4 * r ≤ moved.length
  ahead : t.inst1.store ++ t.inFlight.toList = moved.drop (4 * r)

/-- The transfer when it has moved `pos` words of a packet. -/
def Mover (t : TwoFifoInst) (pos : Nat) : Prop :=
  match t.currentState with
  | .idle => pos = 0 ∧ t.inst0Rdreq = false ∧ t.inst1Wrreq = false
  | .checkTrnsf => t.trnsfCnt ≤ 8 ∧
      if t.trnsfCnt = 0 then pos = 0 ∧ t.inst0Rdreq = false ∧ t.inst1Wrreq = false
      else pos + 1 = 128 * t.trnsfCnt ∧ t.inst0Rdreq = true ∧ 1 ≤ t.inst0.usedw
  | .checkFifo0 => 1 ≤ t.trnsfCnt ∧ t.trnsfCnt ≤ 8 ∧ pos + 128 = 128 * t.trnsfCnt ∧ t.inst0Rdreq = false
  | .trnsfFifo => 1 ≤ t.trnsfCnt ∧ t.trnsfCnt ≤ 8 ∧ t.rdCnt ≤ 127 ∧ t.inst0Rdreq = decide (1 ≤ t.rdCnt) ∧
      pos + t.inst0Rdreq.toNat + 128 = 128 * t.trnsfCnt + t.rdCnt ∧
      128 + t.inst0Rdreq.toNat ≤ t.inst0.usedw + t.rdCnt
  | .checkFifo1 => t.inst0Rdreq = false ∧ (pos = 1024 ∨ pos = 0 ∧ t.inst1Wrreq = false)

/-- The whole packet is in the second FIFO and the transfer waits. -/
structure Parked (t : TwoFifoInst) (pos : Nat) : Prop where
  state : t.currentState = .checkFifo1
  wrreq : t.inst1Wrreq = false
  pos : pos = 1024

theorem Mover.usedw_pos (h : Mover t pos) (hr : t.inst0Rdreq = true) : 1 ≤ t.inst0.usedw := by
  unfold Mover at h
  cases hs : t.currentState with
  | idle => simp [hs, hr] at h
  | checkFifo0 => simp [hs, hr] at h
  | checkFifo1 => simp [hs, hr] at h
  | checkTrnsf =>
      simp only [hs] at h
      obtain ⟨-, h⟩ := h
      split at h
      · simp [hr] at h
      · exact h.2.2
  | trnsfFifo =>
      simp only [hs] at h
      obtain ⟨-, -, h1, -, -, h2⟩ := h
      rw [hr] at h2
      simp at h2
      omega

theorem Mover.pos_le (h : Mover t pos) : pos ≤ 1024 := by
  unfold Mover at h
  cases hs : t.currentState with
  | idle => simp only [hs] at h; omega
  | checkFifo0 => simp only [hs] at h; omega
  | checkFifo1 => simp only [hs] at h; omega
  | checkTrnsf =>
      simp only [hs] at h
      obtain ⟨hc, h⟩ := h
      split at h <;> omega
  | trnsfFifo => simp only [hs] at h; omega

/-- With a whole packet moved the transfer waits. -/
theorem Mover.parked (h : Mover t pos) (hp : pos = 1024) (hw : t.inst1Wrreq = false) : Parked t pos := by
  refine ⟨?_, hw, hp⟩
  unfold Mover at h
  cases hs : t.currentState with
  | idle =>
      simp only [hs] at h
      omega
  | checkFifo0 =>
      simp only [hs] at h
      omega
  | checkFifo1 => rfl
  | checkTrnsf =>
      simp only [hs] at h
      obtain ⟨hc, h⟩ := h
      split at h <;> omega
  | trnsfFifo =>
      simp only [hs] at h
      obtain ⟨-, h8, h127, hr, hpos, -⟩ := h
      cases hb : t.inst0Rdreq with
      | false => simp [hb] at hr hpos; omega
      | true => simp [hb] at hpos; omega

/-- The word that leaves the first FIFO at an edge. -/
def popped (t : TwoFifoInst) : List (BitVec 32) := t.inst0.store.take t.inst0Rdreq.toNat

theorem popped_length (h : Mover t pos) : t.popped.length = t.inst0Rdreq.toNat := by
  cases hr : t.inst0Rdreq with
  | false => simp [popped, hr]
  | true =>
      have hpos := h.usedw_pos hr
      simp only [popped, hr, Bool.toNat_true, List.length_take]
      exact Nat.min_eq_left hpos

theorem inst0_usedw_wrEdge (t : TwoFifoInst) (b : Bool) (i : TwoFifoWrIn) :
    t.inst0.usedw ≤ (t.wrEdge b i).inst0.usedw + t.inst0Rdreq.toNat := by
  have hst : (t.wrEdge b i).inst0 = t.inst0.next (t.hostWord i) (if t.inst0Rdreq then 1 else 0) := by
    cases b <;> rfl
  rw [hst, Fifo.usedw, Fifo.usedw, Fifo.next_store, List.length_append, List.length_drop]
  cases t.inst0Rdreq
  all_goals simp
  omega

/-- The transfer goes on with the word that leaves the first FIFO. -/
theorem mover_wrEdge (h : Mover t pos) (hempty : t.currentState = .checkFifo1 → t.inst1.usedw = 0 → pos = 0) :
    Mover (t.wrEdge true i) (pos + t.inst0Rdreq.toNat) := by
  have hns : (t.wrEdge true i).currentState = t.nextState i := rfl
  have hused := inst0_usedw_wrEdge t true i
  unfold Mover at h
  cases hs : t.currentState with
  | idle =>
      simp only [hs] at h
      obtain ⟨hp, hr, hw⟩ := h
      by_cases hgo : t.inst0Rdusedw i > 127 ∧ t.inst1Wrempty i = true
      · have hst : t.nextState i = .checkTrnsf := by simp [nextState, hs, hgo]
        simp [Mover, hst, wrEdge, hs, hp, hr]
      · have hst : t.nextState i = .idle := by simp [nextState, hs, hgo]
        simp [Mover, hst, wrEdge, hs, hp, hr]
  | checkTrnsf =>
      simp only [hs] at h
      obtain ⟨hc, h⟩ := h
      have hcnt : (t.wrEdge true i).trnsfCnt = t.trnsfCnt + 1 := by simp [wrEdge, hs]; omega
      by_cases h8 : t.trnsfCnt < 8
      · have hst : t.nextState i = .checkFifo0 := by simp [nextState, hs, h8]
        simp only [Mover, hns, hst, hcnt]
        split at h
        next h0 => exact ⟨by omega, by omega, by simp [h, h0], by simp [wrEdge, hs]⟩
        next h0 => exact ⟨by omega, by omega, by rw [h.2.1]; simp; omega, by simp [wrEdge, hs]⟩
      · have hst : t.nextState i = .checkFifo1 := by simp [nextState, hs, h8]
        rw [if_neg (by omega)] at h
        simp only [Mover, hns, hst]
        exact ⟨by simp [wrEdge, hs], Or.inl (by rw [h.2.1]; simp; omega)⟩
  | checkFifo0 =>
      simp only [hs] at h
      obtain ⟨h1, h8, hp, hr⟩ := h
      have hcnt : (t.wrEdge true i).trnsfCnt = t.trnsfCnt := by simp [wrEdge, hs]
      have hr' : (t.wrEdge true i).inst0Rdreq = false := by simp [wrEdge, hs]
      by_cases hgo : t.inst0Rdusedw i > 127
      · have hst : t.nextState i = .trnsfFifo := by simp [nextState, hs, hgo]
        have hrd : (t.wrEdge true i).rdCnt = 0 := by simp [wrEdge, hs]
        have hmin : 127 < t.inst0.usedw := Nat.lt_of_lt_of_le hgo (Nat.min_le_right _ _)
        rw [hr] at hused
        simp only [Mover, hns, hst, hcnt, hr', hrd, hr]
        simp at hused ⊢
        omega
      · have hst : t.nextState i = .checkFifo0 := by simp [nextState, hs, hgo]
        simp only [Mover, hns, hst, hcnt, hr', hr]
        simp
        omega
  | trnsfFifo =>
      simp only [hs] at h
      obtain ⟨h1, h8, h127, hr, hp, hu⟩ := h
      have hcnt : (t.wrEdge true i).trnsfCnt = t.trnsfCnt := by simp [wrEdge, hs]
      have hr' : (t.wrEdge true i).inst0Rdreq = true := by simp [wrEdge, hs]
      have hrd : (t.wrEdge true i).rdCnt = t.rdCnt + 1 := by simp [wrEdge, hs]; omega
      by_cases hgo : t.rdCnt < 127
      · have hst : t.nextState i = .trnsfFifo := by simp [nextState, hs, hgo]
        simp only [Mover, hns, hst, hcnt, hr', hrd]
        simp
        omega
      · have hst : t.nextState i = .checkTrnsf := by simp [nextState, hs, hgo]
        simp only [Mover, hns, hst, hcnt, hr']
        rw [if_neg (by omega)]
        exact ⟨h8, by omega, trivial, by omega⟩
  | checkFifo1 =>
      simp only [hs] at h
      obtain ⟨hr, hp⟩ := h
      have hw' : (t.wrEdge true i).inst1Wrreq = false := hr
      have hr' : (t.wrEdge true i).inst0Rdreq = false := by simp [wrEdge, hs]
      cases he : t.inst1Wrempty i with
      | true =>
          have hst : t.nextState i = .idle := by simp [nextState, hs, he]
          have hnil : t.inst1.usedw = 0 := by simp [inst1Wrempty] at he; exact he.1
          simp only [Mover, hns, hst]
          exact ⟨by rw [hempty hs hnil, hr]; rfl, hr', hw'⟩
      | false =>
          have hst : t.nextState i = .checkFifo1 := by simp [nextState, hs, he]
          simp only [Mover, hns, hst, hr]
          exact ⟨hr', hp.imp_right fun h => ⟨h.1, hw'⟩⟩

/-- What leaves the first FIFO is on its way to the second one. -/
theorem flow_wrEdge (h : Flow t ws moved r) (hm : Mover t pos)
    (hroom : t.inst1Wrreq = true → t.inst1.isFull = false) :
    Flow (t.wrEdge true i) (ws ++ (t.hostWord i).toList) (moved ++ t.popped) r where
  host := by
    have hacc : t.inst0.accepted (t.hostWord i) = t.hostWord i := by
      unfold hostWord Fifo.accepted
      cases t.inst0.isFull <;> rfl
    have hrd : (if t.inst0Rdreq then 1 else 0) = t.inst0Rdreq.toNat := by cases t.inst0Rdreq <;> rfl
    change _ = _ ++ (t.inst0.next (t.hostWord i) (if t.inst0Rdreq then 1 else 0)).store
    rw [Fifo.next_store, hacc, hrd, h.host, popped, List.append_assoc, List.append_assoc, ← List.append_assoc
      (List.take _ _), List.take_append_drop]
  le := by
    have := h.le
    rw [List.length_append]
    omega
  ahead := by
    have hflight : (t.wrEdge true i).inFlight.toList = t.popped := by
      cases hr : t.inst0Rdreq with
      | false => simp [inFlight, wrEdge, popped, hr]
      | true =>
          obtain ⟨v, vs, hv⟩ := List.exists_cons_of_length_pos (show 0 < t.inst0.store.length from hm.usedw_pos hr)
          simp [inFlight, wrEdge, popped, hr, hv]
    have hstore : (t.wrEdge true i).inst1.store = t.inst1.store ++ t.inFlight.toList := by
      change (t.inst1.next (if t.inst1Wrreq then some t.inst0Q else none) 0).store = _
      rw [Fifo.next_store, List.drop_zero]
      cases hw : t.inst1Wrreq with
      | false => simp [inFlight, hw]
      | true => simp [inFlight, hw, Fifo.accepted_of_not_full (hroom hw)]
    rw [hflight, hstore, h.ahead, List.drop_append_of_le_length h.le]

/-- While `reset_1_n` is low nothing leaves the first FIFO. -/
theorem flow_wrEdge_reset (h : Flow t ws moved r) (hnil : t.inst1.store = []) (hr : t.inst0Rdreq = false)
    (hw : t.inst1Wrreq = false) : Flow (t.wrEdge false i) (ws ++ (t.hostWord i).toList) moved r where
  host := by
    have hacc : t.inst0.accepted (t.hostWord i) = t.hostWord i := by
      unfold hostWord Fifo.accepted
      cases t.inst0.isFull <;> rfl
    change _ = _ ++ (t.inst0.next (t.hostWord i) (if t.inst0Rdreq then 1 else 0)).store
    rw [Fifo.next_store, hacc, hr, h.host, List.append_assoc]
    rfl
  le := h.le
  ahead := by
    have hahead := h.ahead
    rw [hnil, inFlight, hw] at hahead
    rw [← hahead]
    rfl

/-- A word of 128 bits is read. -/
theorem flow_rdEdge (h : Flow t ws moved r) (hw : t.inst1Wrreq = false) (hle : 4 * r + 4 ≤ moved.length) :
    Flow (t.rdEdge true) ws moved (r + 1) ∧ (t.rdEdge true).inst1Q = word128 ((moved.drop (4 * r)).take 4) := by
  have hstore : t.inst1.store = moved.drop (4 * r) := by
    rw [← h.ahead, inFlight, hw]
    exact (List.append_nil _).symm
  have hused : 4 ≤ t.inst1.usedw := by
    rw [Fifo.usedw, hstore, List.length_drop]
    omega
  have hrd : t.rdEdge true =
      { t with inst1 := t.inst1.next none 4, inst1Q := word128 (t.inst1.store.take 4) } := by
    rw [rdEdge, if_pos ⟨rfl, hused⟩]
  rw [hrd]
  refine ⟨⟨h.host, by omega, ?_⟩, by rw [hstore]⟩
  rw [show 4 * (r + 1) = 4 * r + 4 by omega, ← List.drop_drop, ← hstore]
  simp [inFlight, hw]

/-- The transfer does not see an edge of the other clock. -/
theorem mover_rdEdge (h : Mover t pos) (b : Bool) : Mover (t.rdEdge b) pos := by
  unfold rdEdge
  split <;> exact h

theorem parked_rdEdge (h : Parked t pos) (b : Bool) : Parked (t.rdEdge b) pos := by
  unfold rdEdge
  split <;> exact ⟨h.state, h.wrreq, h.pos⟩

/-- A discard clears what has left the first FIFO. -/
theorem flow_clear (h : Flow t ws moved r) {r' : Nat} (hr : 4 * r' = moved.length) :
    Flow t.clear ws moved r' :=
  ⟨h.host, by omega, by rw [hr, List.drop_length]; rfl⟩

end TwoFifoInst

end LimeSdrQpcie
