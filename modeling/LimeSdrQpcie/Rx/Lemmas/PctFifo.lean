import LimeSdrQpcie.Rx.Lemmas.Packets

/-!
# Writing packets to the packet FIFO

A word moves up in the three registers of `data2packets` whenever a word comes and twice more at the end of
a packet; two cycles later it is on the write port of the packet FIFO, unless the packet is discarded.
-/

namespace LimeSdrQpcie

open Hdl

namespace Data2PacketsRig

variable (pw : PctBuffWidth) (sw : SampleWidth) (x : Nat → Data2PacketsRigIn)

/-- The registers of `data2packets` move in cycle `n`. -/
def moves (n : Nat) : Bool := (packedAt pw sw x n).valid || (topAt pw sw x n).inst2.currentState == .s2

/-- The word that cycle `n` brings to the end of the registers for the packet FIFO. -/
def emittedAt (n : Nat) : Option (BitVec 64) :=
  if moves pw sw x n && (topAt pw sw x (n + 1)).inst0.pctBuffWrDis then
    some (topAt pw sw x (n + 1)).inst2.reg0
  else none

/-- How many words have been brought to the end of the registers for the packet FIFO before cycle `n`. -/
def emitted (n : Nat) : Nat := count (fun m => (emittedAt pw sw x m).isSome) n

/-- The word on the write port of the packet FIFO in cycle `n`. -/
def pctWrAt (n : Nat) : Option (BitVec 64) := (topAt pw sw x n).pctBuffWr.word

theorem pctWrAt_eq : pctWrAt pw sw x = delay 2 (emittedAt pw sw x) := by
  funext n
  match n with
  | 0 => rfl
  | 1 => rfl
  | m + 2 =>
      rw [delay_add]
      have hport : (topAt pw sw x (m + 2)).pctBuffWr =
          ⟨(topAt pw sw x (m + 1)).inst2.pctWrreqInt && (topAt pw sw x (m + 1)).inst0.pctBuffWrDis,
            (topAt pw sw x (m + 1)).inst2.reg0⟩ := rfl
      have hreq : (topAt pw sw x (m + 1)).inst2.pctWrreqInt = moves pw sw x m := by
        rw [inst2_succ, moves]
        simp only [Data2Packets.next]
        cases (packedAt pw sw x m).valid <;> cases (topAt pw sw x m).inst2.currentState <;> rfl
      rw [pctWrAt, hport, hreq, emittedAt, Port.word]

theorem emitted_succ (n : Nat) :
    emitted pw sw x (n + 1) = emitted pw sw x n + (emittedAt pw sw x n).isSome.toNat := rfl

theorem emittedAt_isSome (n : Nat) : (emittedAt pw sw x n).isSome =
    (moves pw sw x n && (topAt pw sw x (n + 1)).inst0.pctBuffWrDis) := by
  rw [emittedAt]
  split <;> simp_all

variable {pw sw x}

theorem pctFifo_succ (n : Nat) : (stateAt pw sw x (n + 1)).pctFifo =
    (stateAt pw sw x n).pctFifo.next (pctWrAt pw sw x n) (x n).pctFifoRd := rfl

/-- The packet FIFO gains at most the word that was brought to the end of the registers two cycles before. -/
theorem pctFifo_usedw_succ (n : Nat) : (stateAt pw sw x (n + 1)).pctFifo.usedw + emitted pw sw x (n - 2) ≤
    (stateAt pw sw x n).pctFifo.usedw + emitted pw sw x (n + 1 - 2) := by
  have hused : (stateAt pw sw x (n + 1)).pctFifo.usedw ≤
      (stateAt pw sw x n).pctFifo.usedw + (pctWrAt pw sw x n).isSome.toNat := by
    rw [pctFifo_succ, Fifo.usedw, Fifo.usedw, Fifo.next_store, List.length_append, List.length_drop,
      Fifo.accepted]
    cases (stateAt pw sw x n).pctFifo.isFull with
    | true => simp only [if_true, Option.toList_none, List.length_nil]; omega
    | false => cases pctWrAt pw sw x n <;> simp
  rcases Nat.lt_or_ge n 2 with hn | hn
  · have hnone : pctWrAt pw sw x n = none := by simp [pctWrAt_eq, delay, hn]
    rw [hnone] at hused
    rw [show n - 2 = 0 by omega, show n + 1 - 2 = 0 by omega]
    exact Nat.add_le_add_right hused _
  · obtain ⟨m, rfl⟩ := Nat.exists_eq_add_of_le' hn
    rw [pctWrAt_eq, delay_add] at hused
    rw [show m + 2 + 1 - 2 = m + 1 by omega, Nat.add_sub_cancel, emitted_succ]
    omega

/-! ## Room for the packet -/

variable (pw sw x) in
/-- How many words of the packet after the first `p` have been brought to the end of the registers. -/
def sent (n p : Nat) : Nat :=
  match (topAt pw sw x n).inst2.currentState with
  | .idle => if packed pw sw x n = sw.payloadWords * p then 0 else sw.payloadWords + 2
  | .s0 => packed pw sw x n - sw.payloadWords * p
  | .s1 => packed pw sw x n - sw.payloadWords * p
  | .s2 => sw.payloadWords + 1 - (topAt pw sw x n).inst2.pctEndCnt
  | .s3 => 0

theorem sent_le {n p : Nat} (hd : FormAt pw sw x n p) : sent pw sw x n p ≤ sw.payloadWords + 2 := by
  cases hs : (topAt pw sw x n).inst2.currentState with
  | idle => simp only [sent, hs]; split <;> omega
  | s0 => simp only [FormAt, hs] at hd; simp only [sent, hs]; omega
  | s1 => simp only [FormAt, hs] at hd; simp only [sent, hs]; omega
  | s2 => simp only [sent, hs]; omega
  | s3 => simp only [FormAt, hs] at hd

theorem sent_succ {n p : Nat} (hf : FsmAt pw sw x n p) (hd : FormAt pw sw x n p) :
    sent pw sw x (n + 1) p = sent pw sw x n p + (moves pw sw x n).toNat := by
  have hb := sw.payloadWords_bounds
  have hk' := packed_succ pw sw x n
  have hns := @inst2_currentState_succ pw sw x n
  have hi2 := @inst2_succ pw sw x n
  rw [Data2Packets.nextState] at hns
  cases hs : (topAt pw sw x n).inst2.currentState with
  | idle =>
      simp only [FormAt, hs] at hd
      cases hv : (packedAt pw sw x n).valid with
      | false =>
          simp only [hs, hv] at hns
          rw [hv] at hk'
          simp [sent, moves, hns, hs, hv, hk']
      | true =>
          simp only [hs, hv] at hns
          rw [hv] at hk'
          have hk0 : packed pw sw x n = sw.payloadWords * p := by
            rcases hd.2 with hk | hk
            · exact hk
            · rw [not_valid_of_packed hf hk] at hv; cases hv
          simp [sent, moves, hns, hs, hv, hk', hk0]
  | s0 =>
      simp only [FormAt, hs] at hd
      cases hv : (packedAt pw sw x n).valid with
      | false =>
          simp only [hs, hv, Bool.false_eq_true, and_false, if_false] at hns
          rw [hv] at hk'
          simp [sent, moves, hns, hs, hv, hk']
      | true =>
          rw [hv] at hk'
          by_cases hmax : (topAt pw sw x n).inst2.pctDataWrCnt = (topAt pw sw x n).inst2.pctDataWrCntMax
          · simp only [hs, hv, hmax, and_self, if_true] at hns
            simp [sent, moves, hns, hs, hv, hk']
            omega
          · simp only [hs, hmax, false_and, if_false] at hns
            simp [sent, moves, hns, hs, hv, hk']
            omega
  | s1 =>
      simp only [FormAt, hs] at hd
      cases hv : (packedAt pw sw x n).valid with
      | false =>
          simp only [hs, hv] at hns
          rw [hv] at hk'
          simp [sent, moves, hns, hs, hv, hk']
      | true =>
          simp only [hs, hv] at hns
          have he : (topAt pw sw x (n + 1)).inst2.pctEndCnt = 1 := by simp [hi2, Data2Packets.next, hs]
          simp [sent, moves, hns, hs, hv, he]
          omega
  | s2 =>
      simp only [FormAt, hs] at hd
      obtain ⟨hk, he, _⟩ := hd
      have hv := not_valid_of_packed hf hk
      rw [hv] at hk'
      by_cases h0 : (topAt pw sw x n).inst2.pctEndCnt = 0
      · simp only [hs, h0, if_true] at hns
        simp [sent, moves, hns, hs, hk', hk, h0]
        omega
      · simp only [hs, h0, if_false] at hns
        have he' := pctEndCnt_s2_succ hs (by omega)
        simp [sent, moves, hns, hs, he']
        omega
  | s3 => simp only [FormAt, hs] at hd

theorem emitted_mono {m n : Nat} (h : m ≤ n) : emitted pw sw x m ≤ emitted pw sw x n := count_mono _ h

theorem emitted_succ_of_still {n : Nat} (hi : (topAt pw sw x n).inst2.currentState = .idle)
    (hv : (packedAt pw sw x n).valid = false) : emitted pw sw x (n + 1) = emitted pw sw x n := by
  have hm : moves pw sw x n = false := by rw [moves, hi, hv]; rfl
  rw [emitted_succ, emittedAt_isSome, hm]
  rfl

theorem pctBuffWrDis_succ_of_ne {n : Nat} (hs : (topAt pw sw x n).inst0.currentState ≠ .checkPctBuff) :
    (topAt pw sw x (n + 1)).inst0.pctBuffWrDis = (topAt pw sw x n).inst0.pctBuffWrDis := by
  rw [inst0_succ]
  simp only [Data2PacketsFsm.next, if_neg hs]

/-- The packet FIFO is judged to have room only if it can take a packet more than it holds. -/
theorem usedw_of_pctBuffRdy {n : Nat} (hn : 2 ≤ n) (h : (topAt pw sw x (n + 1)).inst0PctBuffRdy = true) :
    (stateAt pw sw x n).pctFifo.usedw + (sw.payloadWords + 2) < 2 ^ (pw.w - 1) := by
  obtain ⟨m, rfl⟩ : ∃ m, n = m + 2 := ⟨n - 2, by omega⟩
  have hs : (topAt pw sw x (m + 2 + 1)).inst0PctBuffRdy =
      if (stateAt pw sw x (m + 2)).pctFifoWrusedw (x (m + 2)) ≥ (topAt pw sw x (m + 2)).pctBuffWrusedwMaxLimit
      then false else true := rfl
  have hle : (stateAt pw sw x (m + 2)).pctFifo.usedw ≤
      (stateAt pw sw x (m + 2)).pctFifoWrusedw (x (m + 2)) := Nat.le_max_right _ _
  rw [hs, pctBuffWrusedwMaxLimit_eq] at h
  by_contra hge
  rw [if_pos (by omega)] at h
  cases h

variable (pw sw x) in
/-- The room the packet FIFO has for the words still to come. -/
def RoomAt (n p : Nat) : Prop :=
  match (topAt pw sw x n).inst0.currentState with
  | .idle => emitted pw sw x n = emitted pw sw x (n - 2)
  | .checkPctBuff => emitted pw sw x n = emitted pw sw x (n - 2) ∧
      ((topAt pw sw x n).inst0PctBuffRdy = true →
        (stateAt pw sw x n).pctFifo.usedw + (sw.payloadWords + 2) ≤ 2 ^ (pw.w - 1))
  | .rdSmplBuff => (topAt pw sw x n).inst0.pctBuffWrDis = true →
      (stateAt pw sw x n).pctFifo.usedw + emitted pw sw x n + (sw.payloadWords + 2) ≤
        2 ^ (pw.w - 1) + emitted pw sw x (n - 2) + sent pw sw x n p
  | .waitData2packetsDone =>
      ((topAt pw sw x n).inst0.pctBuffWrDis = true →
        (stateAt pw sw x n).pctFifo.usedw + emitted pw sw x n + (sw.payloadWords + 2) ≤
          2 ^ (pw.w - 1) + emitted pw sw x (n - 2) + sent pw sw x n p) ∧
      ((topAt pw sw x n).inst0Data2packetsDone = true → emitted pw sw x n = emitted pw sw x (n - 1))

/-- A word that is brought to the end of the registers keeps the room that was judged for it. -/
theorem room_succ {n p : Nat} (hf : FsmAt pw sw x n p) (hd : FormAt pw sw x n p)
    (hne : (topAt pw sw x n).inst0.currentState ≠ .checkPctBuff)
    (h : (topAt pw sw x n).inst0.pctBuffWrDis = true →
      (stateAt pw sw x n).pctFifo.usedw + emitted pw sw x n + (sw.payloadWords + 2) ≤
        2 ^ (pw.w - 1) + emitted pw sw x (n - 2) + sent pw sw x n p)
    (hdis : (topAt pw sw x (n + 1)).inst0.pctBuffWrDis = true) :
    (stateAt pw sw x (n + 1)).pctFifo.usedw + emitted pw sw x (n + 1) + (sw.payloadWords + 2) ≤
      2 ^ (pw.w - 1) + emitted pw sw x (n + 1 - 2) + sent pw sw x (n + 1) p := by
  have hu := @pctFifo_usedw_succ pw sw x n
  have hold := h (by rw [← pctBuffWrDis_succ_of_ne hne]; exact hdis)
  rw [sent_succ hf hd, emitted_succ, emittedAt_isSome, hdis, Bool.and_true]
  omega

theorem roomAt_succ {n p : Nat} (hf : FsmAt pw sw x n p) (hd : FormAt pw sw x n p)
    (h : RoomAt pw sw x n p) : RoomAt pw sw x (n + 1) p := by
  have hu := @pctFifo_usedw_succ pw sw x n
  have hm1 : emitted pw sw x (n - 2) ≤ emitted pw sw x (n + 1 - 2) := emitted_mono (by omega)
  have hm2 : emitted pw sw x (n + 1 - 2) ≤ emitted pw sw x n := emitted_mono (by omega)
  have hns := @inst0_currentState_succ pw sw x n
  rw [Data2PacketsFsm.nextState] at hns
  cases hs : (topAt pw sw x n).inst0.currentState with
  | idle =>
      simp only [RoomAt, hs] at h
      simp only [FsmAt, hs] at hf
      obtain ⟨hr, hk, hi, _⟩ := hf
      have he := emitted_succ_of_still hi (packedAt_none (Nat.le_of_eq hr) (Nat.le_of_eq hk.symm)).1
      rw [hs] at hns
      cases hready : (topAt pw sw x n).inst0SmplBuffRdy with
      | false =>
          have hns' : (topAt pw sw x (n + 1)).inst0.currentState = .idle := by rw [hns, hready]; rfl
          simp only [RoomAt, hns']
          omega
      | true =>
          have hn : 3 ≤ n := by
            by_contra hlt
            rw [smplBuffRdy_start pw sw x n (by omega)] at hready
            cases hready
          have hns' : (topAt pw sw x (n + 1)).inst0.currentState = .checkPctBuff := by rw [hns, hready]; rfl
          simp only [RoomAt, hns']
          refine ⟨by omega, fun hrdy => ?_⟩
          have := usedw_of_pctBuffRdy (by omega) hrdy
          omega
  | checkPctBuff =>
      simp only [RoomAt, hs] at h
      simp only [FsmAt, hs] at hf
      obtain ⟨_, hr, hk, hi, _⟩ := hf
      have he := emitted_succ_of_still hi (packedAt_none (Nat.le_of_eq hr) (Nat.le_of_eq hk.symm)).1
      rw [hs] at hns
      simp only [RoomAt, hns]
      intro hdis
      have hrdy : (topAt pw sw x n).inst0PctBuffRdy = true := by
        rw [inst0_succ] at hdis
        simpa only [Data2PacketsFsm.next, hs, if_true] using hdis
      have := h.2 hrdy
      omega
  | rdSmplBuff =>
      simp only [RoomAt, hs] at h
      have hroom := room_succ hf hd (by rw [hs]; decide) h
      rw [hs] at hns
      cases hdone : (topAt pw sw x n).inst0.smplBuffRdDone with
      | false =>
          have hns' : (topAt pw sw x (n + 1)).inst0.currentState = .rdSmplBuff := by rw [hns, hdone]; rfl
          simp only [RoomAt, hns']
          exact hroom
      | true =>
          have hns' : (topAt pw sw x (n + 1)).inst0.currentState = .waitData2packetsDone := by
            rw [hns, hdone]; rfl
          simp only [RoomAt, hns']
          refine ⟨hroom, fun hd2p => ?_⟩
          simp only [FsmAt, hs, hdone] at hf
          have hlast : (topAt pw sw x n).inst0.smplBuffRdCnt = sw.smplRdSize - 1 :=
            of_decide_eq_true hf.2.2.2.1.symm
          obtain ⟨_, _, hi, hv⟩ := packed_of_done hd (by omega) (by omega) hd2p
          exact emitted_succ_of_still hi hv
  | waitData2packetsDone =>
      simp only [RoomAt, hs] at h
      have hroom := room_succ hf hd (by rw [hs]; decide) h.1
      simp only [FsmAt, hs] at hf
      obtain ⟨_, hr, hdone, _⟩ := hf
      rw [hs] at hns
      cases hd2p : (topAt pw sw x n).inst0Data2packetsDone with
      | false =>
          have hns' : (topAt pw sw x (n + 1)).inst0.currentState = .waitData2packetsDone := by
            rw [hns, hd2p]; rfl
          simp only [RoomAt, hns']
          refine ⟨hroom, fun hd2p' => ?_⟩
          obtain ⟨_, _, hi, hv⟩ := packed_of_done hd (by omega) (by omega) hd2p'
          exact emitted_succ_of_still hi hv
      | true =>
          have hns' : (topAt pw sw x (n + 1)).inst0.currentState = .idle := by rw [hns, hd2p]; rfl
          simp only [RoomAt, hns']
          obtain ⟨hk, hi⟩ := hdone hd2p
          have hle : reads pw sw x n ≤ sw.smplRdSize * (p + 1) := by rw [Nat.mul_succ]; omega
          have he := emitted_succ_of_still hi (packedAt_none hle (by rw [Nat.mul_succ]; omega)).1
          have hprev := h.2 hd2p
          rw [he, hprev]
          congr 1

theorem exists_room (n : Nat) : ∃ p, FsmAt pw sw x n p ∧ FormAt pw sw x n p ∧ RoomAt pw sw x n p := by
  refine packet_induction (P := RoomAt pw sw x) rfl roomAt_succ (fun {n p} hs _ h => ?_) n
  simp only [RoomAt, hs] at h ⊢
  exact h

theorem pctBuffWrDis_of_emittedAt {n : Nat} (h : (emittedAt pw sw x n).isSome = true) :
    (topAt pw sw x (n + 2)).inst0.pctBuffWrDis = true := by
  have hsucc := emitted_succ pw sw x n
  rw [h] at hsucc
  rw [emittedAt_isSome, Bool.and_eq_true] at h
  have hne : (topAt pw sw x (n + 1)).inst0.currentState ≠ .checkPctBuff := by
    intro hs
    obtain ⟨p, _, _, hroom⟩ := @exists_room pw sw x (n + 1)
    simp only [RoomAt, hs] at hroom
    have hm : emitted pw sw x (n + 1 - 2) ≤ emitted pw sw x n := emitted_mono (by omega)
    rw [hroom.1, Bool.toNat_true] at hsucc
    omega
  rw [show n + 2 = n + 1 + 1 from rfl, pctBuffWrDis_succ_of_ne hne]
  exact h.2

/-- No write meets a full packet FIFO. -/
theorem pctFifo_not_full {n : Nat} (h : pctWrAt pw sw x n ≠ none) :
    (stateAt pw sw x n).pctFifo.isFull = false := by
  obtain ⟨m, rfl⟩ : ∃ m, n = m + 2 := by
    refine ⟨n - 2, ?_⟩
    by_contra hn
    exact h (by rw [pctWrAt_eq, delay, if_pos (by omega)])
  rw [pctWrAt_eq, delay_add, Option.ne_none_iff_isSome] at h
  have hdis := pctBuffWrDis_of_emittedAt h
  have hsucc := emitted_succ pw sw x m
  have hm : emitted pw sw x (m + 1) ≤ emitted pw sw x (m + 2) := emitted_mono (by omega)
  rw [h, Bool.toNat_true] at hsucc
  obtain ⟨p, _, hd, hroom⟩ := @exists_room pw sw x (m + 2)
  have hsent := sent_le hd
  rw [Fifo.isFull_eq_false]
  cases hs : (topAt pw sw x (m + 2)).inst0.currentState with
  | idle => simp only [RoomAt, hs, Nat.add_sub_cancel] at hroom; omega
  | checkPctBuff => simp only [RoomAt, hs, Nat.add_sub_cancel] at hroom; omega
  | rdSmplBuff =>
      simp only [RoomAt, hs, Nat.add_sub_cancel] at hroom
      have := hroom hdis
      omega
  | waitData2packetsDone =>
      simp only [RoomAt, hs, Nat.add_sub_cancel] at hroom
      have := hroom.1 hdis
      omega

/-! ## Whole packets -/

end Data2PacketsRig

/-- The words of the packet begun last that stand in the registers. -/
def Data2Packets.held (s : Data2Packets) : List (BitVec 64) :=
  if s.currentState = .s2 ∧ s.pctEndCnt = 0 then [s.reg0, s.reg1] else [s.reg0, s.reg1, s.reg2]

namespace Data2PacketsRig

variable (pw sw x) in
/-- The words brought to the end of the registers before cycle `n` against the packets formed. -/
def EmittedAt (n : Nat) : Prop :=
  if (topAt pw sw x n).inst2.currentState = .idle then
    words (emittedAt pw sw x) n = Packet.frames (formed pw sw x n)
  else ∃ pks pk pre, formed pw sw x n = pks ++ [pk] ∧
    (topAt pw sw x n).inst0.pctBuffWrDis = pk.written ∧
    words (emittedAt pw sw x) n = Packet.frames pks ++ pk.gate (pre ++ [(topAt pw sw x n).inst2.reg0]) ∧
    pk.frame = pre ++ (topAt pw sw x n).inst2.held

theorem pctBuffWrDis_succ {n p : Nat} (hf : FsmAt pw sw x n p)
    (h : (topAt pw sw x n).inst2.currentState ≠ .idle ∨ (packedAt pw sw x n).valid = true) :
    (topAt pw sw x (n + 1)).inst0.pctBuffWrDis = (topAt pw sw x n).inst0.pctBuffWrDis := by
  refine pctBuffWrDis_succ_of_ne fun hs => ?_
  simp only [FsmAt, hs] at hf
  obtain ⟨_, hr, hk, hi, _⟩ := hf
  rcases h with h | h
  · exact h hi
  · rw [(packedAt_none (Nat.le_of_eq hr) (Nat.le_of_eq hk.symm)).1] at h
    cases h

theorem words_emittedAt_succ_of_moves {n : Nat} {written : Bool} (hm : moves pw sw x n = true)
    (hdis : (topAt pw sw x (n + 1)).inst0.pctBuffWrDis = written) :
    words (emittedAt pw sw x) (n + 1) = words (emittedAt pw sw x) n ++
      (if written then some (topAt pw sw x (n + 1)).inst2.reg0 else none).toList := by
  rw [words_succ, emittedAt, hm, hdis, Bool.true_and]

theorem words_emittedAt_succ_of_still {n : Nat} (hm : moves pw sw x n = false) :
    words (emittedAt pw sw x) (n + 1) = words (emittedAt pw sw x) n :=
  words_succ_of_none (by rw [emittedAt, hm]; rfl)

/-- The first word of a packet brings both header words with it. -/
theorem emittedAt_first {n p : Nat} (hf : FsmAt pw sw x n p)
    (hs : (topAt pw sw x n).inst2.currentState = .idle) (hv : (packedAt pw sw x n).valid = true)
    (h : EmittedAt pw sw x n) : EmittedAt pw sw x (n + 1) := by
  rw [EmittedAt, if_pos hs] at h
  have hns : (topAt pw sw x (n + 1)).inst2.currentState = .s0 := by
    rw [inst2_currentState_succ, Data2Packets.nextState, hs, hv]; rfl
  have hregs : (topAt pw sw x (n + 1)).inst2.reg0 = (x n).pctHdr0 ∧
      (topAt pw sw x (n + 1)).inst2.reg1 = (x n).pctHdr1 ∧
      (topAt pw sw x (n + 1)).inst2.reg2 = (packedAt pw sw x n).data := by
    simp [inst2_succ, Data2Packets.next, hs, hv]
  have hdis := pctBuffWrDis_succ hf (Or.inr hv)
  have hmoves : moves pw sw x n = true := by rw [moves, hv]; rfl
  rw [EmittedAt, if_neg (by rw [hns]; decide)]
  refine ⟨formed pw sw x n, _, [], formed_succ_idle hv hs, hdis, ?_, ?_⟩
  · rw [words_emittedAt_succ_of_moves hmoves hdis, h, Packet.gate, List.nil_append]
    cases (topAt pw sw x n).inst0.pctBuffWrDis <;> rfl
  · rw [Data2Packets.held, if_neg (by rw [hns]; simp), hregs.1, hregs.2.1, hregs.2.2]
    rfl

/-- A word for the packet begun last moves the registers. -/
theorem emittedAt_add {n p : Nat} (hf : FsmAt pw sw x n p)
    (hs : (topAt pw sw x n).inst2.currentState = .s0 ∨ (topAt pw sw x n).inst2.currentState = .s1)
    (hv : (packedAt pw sw x n).valid = true) (h : EmittedAt pw sw x n) : EmittedAt pw sw x (n + 1) := by
  have hne : (topAt pw sw x n).inst2.currentState ≠ .idle := by
    rcases hs with hs | hs <;> rw [hs] <;> decide
  have hne2 : (topAt pw sw x n).inst2.currentState ≠ .s2 := by
    rcases hs with hs | hs <;> rw [hs] <;> decide
  rw [EmittedAt, if_neg hne] at h
  obtain ⟨pks, pk, pre, hformed, hdis, hwords, hframe⟩ := h
  have hns : (topAt pw sw x (n + 1)).inst2.currentState ≠ .idle := by
    rw [inst2_currentState_succ, Data2Packets.nextState, hv]
    rcases hs with hs | hs
    · simp only [hs]; split <;> decide
    · simp [hs]
  have hend : (topAt pw sw x (n + 1)).inst2.pctEndCnt = 1 := by
    simp only [inst2_succ, Data2Packets.next, if_neg hne2]
  have hregs : (topAt pw sw x (n + 1)).inst2.reg0 = (topAt pw sw x n).inst2.reg1 ∧
      (topAt pw sw x (n + 1)).inst2.reg1 = (topAt pw sw x n).inst2.reg2 ∧
      (topAt pw sw x (n + 1)).inst2.reg2 = (packedAt pw sw x n).data := by
    simp [inst2_succ, Data2Packets.next, hne, hv]
  have hdis' := (pctBuffWrDis_succ hf (Or.inr hv)).trans hdis
  have hmoves : moves pw sw x n = true := by rw [moves, hv]; rfl
  rw [EmittedAt, if_neg hns]
  refine ⟨pks, pk.add (packedAt pw sw x n).data, pre ++ [(topAt pw sw x n).inst2.reg0], ?_, hdis', ?_, ?_⟩
  · rw [formed_succ_of_ne hv hne, hformed, Packet.addLast_concat]
  · rw [words_emittedAt_succ_of_moves hmoves hdis', hwords, List.append_assoc, ← Packet.gate_concat, hregs.1]
    rfl
  · rw [Packet.add_frame, hframe, Data2Packets.held, if_neg (fun h => hne2 h.1), Data2Packets.held,
      if_neg (fun h => by rw [hend] at h; cases h.2), hregs.1, hregs.2.1, hregs.2.2]
    simp

/-- At the end of a packet the registers move twice without a new word. -/
theorem emittedAt_end {n p : Nat} (hf : FsmAt pw sw x n p) (hd : FormAt pw sw x n p)
    (hs : (topAt pw sw x n).inst2.currentState = .s2) (h : EmittedAt pw sw x n) :
    EmittedAt pw sw x (n + 1) := by
  rw [EmittedAt, if_neg (by rw [hs]; decide)] at h
  obtain ⟨pks, pk, pre, hformed, hdis, hwords, hframe⟩ := h
  simp only [FormAt, hs] at hd
  obtain ⟨hk, he, _⟩ := hd
  have hv := not_valid_of_packed hf hk
  have hregs : (topAt pw sw x (n + 1)).inst2.reg0 = (topAt pw sw x n).inst2.reg1 ∧
      (topAt pw sw x (n + 1)).inst2.reg1 = (topAt pw sw x n).inst2.reg2 := by
    simp [inst2_succ, Data2Packets.next, hs]
  have hdis' := (pctBuffWrDis_succ hf (Or.inl (by rw [hs]; decide))).trans hdis
  have hmoves : moves pw sw x n = true := by rw [moves, hs]; simp
  have hwords' := words_emittedAt_succ_of_moves hmoves hdis'
  rw [hwords, List.append_assoc, ← Packet.gate_concat, hregs.1] at hwords'
  have hns := inst2_s2_succ hs
  rw [EmittedAt, formed_succ_of_none hv, hformed]
  by_cases h0 : (topAt pw sw x n).inst2.pctEndCnt = 0
  · rw [Data2Packets.held, if_pos ⟨hs, h0⟩] at hframe
    rw [if_pos (by rw [hns, if_pos h0]), hwords', Packet.frames_concat, hframe, List.append_assoc]
    rfl
  · rw [Data2Packets.held, if_neg (fun h => h0 h.2)] at hframe
    rw [if_neg (by rw [hns, if_neg h0]; decide)]
    refine ⟨pks, pk, pre ++ [(topAt pw sw x n).inst2.reg0], rfl, hdis', by rw [hwords', hregs.1], ?_⟩
    rw [hframe, Data2Packets.held,
      if_pos ⟨by rw [hns, if_neg h0], pctEndCnt_s2_succ hs (by omega)⟩, hregs.1, hregs.2]
    simp

/-- Without a move the registers keep what they hold. -/
theorem emittedAt_still {n p : Nat} (hf : FsmAt pw sw x n p) (hd : FormAt pw sw x n p)
    (hv : (packedAt pw sw x n).valid = false) (hs : (topAt pw sw x n).inst2.currentState ≠ .s2)
    (h : EmittedAt pw sw x n) : EmittedAt pw sw x (n + 1) := by
  have hmoves : moves pw sw x n = false := by rw [moves, hv, Bool.false_or, beq_eq_false_iff_ne]; exact hs
  have hns : (topAt pw sw x (n + 1)).inst2.currentState = (topAt pw sw x n).inst2.currentState := by
    rw [inst2_currentState_succ, Data2Packets.nextState, hv]
    cases hc : (topAt pw sw x n).inst2.currentState with
    | idle => rfl
    | s0 => simp
    | s1 => rfl
    | s2 => exact absurd hc hs
    | s3 => simp only [FormAt, hc] at hd
  have hregs : (topAt pw sw x (n + 1)).inst2.reg0 = (topAt pw sw x n).inst2.reg0 ∧
      (topAt pw sw x (n + 1)).inst2.reg1 = (topAt pw sw x n).inst2.reg1 ∧
      (topAt pw sw x (n + 1)).inst2.reg2 = (topAt pw sw x n).inst2.reg2 := by
    simp [inst2_succ, Data2Packets.next, hv, hs]
  rw [EmittedAt, hns, formed_succ_of_none hv, words_emittedAt_succ_of_still hmoves]
  by_cases hi : (topAt pw sw x n).inst2.currentState = .idle
  · rw [EmittedAt, if_pos hi] at h
    rw [if_pos hi]
    exact h
  · rw [EmittedAt, if_neg hi, Data2Packets.held, if_neg (fun h => hs h.1)] at h
    rw [if_neg hi, pctBuffWrDis_succ hf (Or.inl hi), Data2Packets.held, if_neg (fun h => hs (hns ▸ h.1)),
      hregs.1, hregs.2.1, hregs.2.2]
    exact h

theorem emittedAt_succ {n p : Nat} (hf : FsmAt pw sw x n p) (hd : FormAt pw sw x n p)
    (h : EmittedAt pw sw x n) : EmittedAt pw sw x (n + 1) := by
  by_cases hs2 : (topAt pw sw x n).inst2.currentState = .s2
  · exact emittedAt_end hf hd hs2 h
  · cases hv : (packedAt pw sw x n).valid with
    | false => exact emittedAt_still hf hd hv hs2 h
    | true =>
        cases hs : (topAt pw sw x n).inst2.currentState with
        | idle => exact emittedAt_first hf hs hv h
        | s0 => exact emittedAt_add hf (Or.inl hs) hv h
        | s1 => exact emittedAt_add hf (Or.inr hs) hv h
        | s2 => exact absurd hs hs2
        | s3 => simp only [FormAt, hs] at hd

theorem emittedAt_zero : EmittedAt pw sw x 0 := by
  rw [EmittedAt, if_pos (by rfl)]
  rfl

theorem exists_emittedAt (n : Nat) : ∃ p, FsmAt pw sw x n p ∧ FormAt pw sw x n p ∧ EmittedAt pw sw x n :=
  packet_induction (P := fun n _ => EmittedAt pw sw x n) emittedAt_zero emittedAt_succ (fun _ _ h => h) n

/-- What goes to the packet FIFO are whole packets and the beginning of the one begun last. -/
theorem prefix_words_pctWrAt (n : Nat) :
    words (pctWrAt pw sw x) (n + 2) <+: Packet.frames (formed pw sw x n) ∧
      Packet.frames (formed pw sw x n).dropLast <+: words (pctWrAt pw sw x) (n + 2) := by
  obtain ⟨_, _, _, h⟩ := @exists_emittedAt pw sw x n
  rw [pctWrAt_eq, words_delay_add]
  by_cases hi : (topAt pw sw x n).inst2.currentState = .idle
  · rw [EmittedAt, if_pos hi] at h
    rw [h]
    exact ⟨List.prefix_rfl, Packet.frames_prefix (List.dropLast_prefix _)⟩
  · rw [EmittedAt, if_neg hi] at h
    obtain ⟨pks, pk, pre, hformed, _, hwords, hframe⟩ := h
    rw [hwords, hformed, List.dropLast_concat, Packet.frames_concat]
    refine ⟨?_, List.prefix_append _ _⟩
    rw [List.prefix_append_right_inj, hframe]
    have hheld : [(topAt pw sw x n).inst2.reg0] <+: (topAt pw sw x n).inst2.held := by
      rw [Data2Packets.held]
      split <;> exact ⟨_, rfl⟩
    exact Packet.gate_prefix ((List.prefix_append_right_inj _).mpr hheld)

/-- While the reader is idle the packets to be written are written. -/
theorem words_pctWrAt_idle {n : Nat} (hs : (topAt pw sw x n).inst0.currentState = .idle) :
    words (pctWrAt pw sw x) (n + 2) = Packet.frames (formed pw sw x n) := by
  obtain ⟨_, hf, _, h⟩ := @exists_emittedAt pw sw x n
  simp only [FsmAt, hs] at hf
  rw [EmittedAt, if_pos hf.2.2.1] at h
  rw [pctWrAt_eq, words_delay_add, h]

end Data2PacketsRig

end LimeSdrQpcie
