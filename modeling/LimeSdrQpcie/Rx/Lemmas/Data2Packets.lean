import LimeSdrQpcie.Rx.Data2Packets
import LimeSdrQpcie.Rx.Lemmas.BitPack

/-!
# Reading, packing and forming run in step

Three counters have to close together at the end of a packet: the words read from the sample FIFO, the words
that leave the packer and the words `data2packets` has accepted. The words read and the words packed are
counted from the start of the run; the registers of the two state machines say where in a packet the counts
stand.
-/

namespace LimeSdrQpcie

open Hdl

/-- The sample words that are read for a packet. -/
def SampleWidth.smplRdSize (sw : SampleWidth) : Nat := Data2PacketsTop.smplRdSizeOf sw.code

/-- The 64-bit words a packet carries besides its two header words. -/
def SampleWidth.payloadWords : SampleWidth → Nat
  | .w14 => 126
  | _ => 510

namespace SampleWidth

theorem smplRdSize_bounds (sw : SampleWidth) : 144 ≤ sw.smplRdSize ∧ sw.smplRdSize ≤ 680 := by
  cases sw <;> decide

theorem payloadWords_bounds (sw : SampleWidth) : 126 ≤ sw.payloadWords ∧ sw.payloadWords ≤ 510 := by
  cases sw <;> decide

theorem pctSizeOf_eq (sw : SampleWidth) (pw : PctBuffWidth) :
    Data2PacketsTop.pctSizeOf pw.w sw.code = sw.payloadWords + 2 := by
  have hpow : 2 ^ 10 ≤ 2 ^ pw.w := Nat.pow_le_pow_right (by omega) pw.le
  rw [Data2PacketsTop.pctSizeOf, Nat.mod_eq_of_lt (by omega), Nat.mod_eq_of_lt (by omega)]
  cases sw <;> rfl

end SampleWidth

namespace Data2PacketsRig

variable (pw : PctBuffWidth) (sw : SampleWidth) (x : Nat → Data2PacketsRigIn)

/-- The registers in cycle `n`. -/
def stateAt (n : Nat) : Data2PacketsRig pw := (circuit pw sw.code).run x n

def topAt (n : Nat) : Data2PacketsTop := (stateAt pw sw x n).top

/-- How many words have been read from the sample FIFO before cycle `n`. -/
def reads (n : Nat) : Nat := count (fun m => (topAt pw sw x m).smplBuffRdreq) n

/-- The word on the output of `bit_pack` in cycle `n`. -/
def packedAt (n : Nat) : Port (BitVec 64) := (topAt pw sw x n).inst1.dataOut

/-- How many words have left `bit_pack` before cycle `n`. -/
def packed (n : Nat) : Nat := count (fun m => (packedAt pw sw x m).valid) n

/-- The word on the input of `bit_pack` in cycle `n`. -/
def dataInAt (n : Nat) : Port (BitVec 64) :=
  (topAt pw sw x n).inst1DataIn ((stateAt pw sw x n).topIn (x n))

theorem packed_succ (n : Nat) :
    packed pw sw x (n + 1) = packed pw sw x n + (packedAt pw sw x n).valid.toNat := rfl

theorem reads_succ (n : Nat) :
    reads pw sw x (n + 1) = reads pw sw x n + (topAt pw sw x n).smplBuffRdreq.toNat := rfl

/-! ## What the packer makes of the words read -/

theorem packedAt_eq (n : Nat) :
    packedAt pw sw x n = ((BitPack.circuit sw.code).run (dataInAt pw sw x) n).dataOut :=
  congrArg BitPack.dataOut (Circuit.run_part (c := circuit pw sw.code) (d := BitPack.circuit sw.code)
    (fun s => s.top.inst1) (fun s i => s.top.inst1DataIn (s.topIn i)) rfl (fun _ _ => rfl) x n)

theorem count_dataInAt (n : Nat) :
    count (fun m => (dataInAt pw sw x m).valid) n = reads pw sw x (n - 1) := by
  induction n with
  | zero => rfl
  | succ n ih =>
      rw [count_succ, ih]
      cases n with
      | zero => rfl
      | succ n => exact (reads_succ pw sw x n).symm

/-- The packer is a division with a delay. -/
theorem packed_eq (n : Nat) :
    packed pw sw x n = sw.bitsPerWord * reads pw sw x (n - (sw.latency + 1)) / 64 := by
  have hlen : ∀ m, packed pw sw x (m + sw.latency) = sw.bitsPerWord * reads pw sw x (m - 1) / 64 := by
    intro m
    have h := BitPack.words_out_length sw (dataInAt pw sw x) m
    simp only [← packedAt_eq, words_length, Port.word_isSome] at h
    rw [count_dataInAt] at h
    exact h
  by_cases hn : n < sw.latency
  · have h0 : packed pw sw x n ≤ packed pw sw x (0 + sw.latency) := count_mono _ (by omega)
    rw [hlen, show n - (sw.latency + 1) = 0 - 1 by omega] at *
    have hz : reads pw sw x (0 - 1) = 0 := rfl
    rw [hz] at h0 ⊢
    simpa using h0
  · rw [show n = n - sw.latency + sw.latency by omega, hlen]
    congr 3
    omega

/-- Whole packets of words read give whole packets of words packed, and no more. -/
theorem packed_succ_le {n p : Nat} (h : reads pw sw x n ≤ sw.smplRdSize * p) :
    packed pw sw x (n + 1) ≤ sw.payloadWords * p := by
  have hm : reads pw sw x (n + 1 - (sw.latency + 1)) ≤ reads pw sw x n := count_mono _ (by omega)
  rw [packed_eq]
  cases sw <;> simp only [SampleWidth.bitsPerWord, SampleWidth.payloadWords, SampleWidth.latency,
    SampleWidth.smplRdSize, Data2PacketsTop.smplRdSizeOf, SampleWidth.code] at * <;> simp at h <;> omega

/-- Words packed have been read. -/
theorem le_reads {n p : Nat} (h : sw.payloadWords * p ≤ packed pw sw x (n + 1)) :
    sw.smplRdSize * p ≤ reads pw sw x (n - sw.latency) := by
  rw [packed_eq, Nat.add_sub_add_right] at h
  cases sw <;> simp only [SampleWidth.bitsPerWord, SampleWidth.payloadWords, SampleWidth.latency,
    SampleWidth.smplRdSize, Data2PacketsTop.smplRdSizeOf, SampleWidth.code] at * <;> simp <;> omega

/-- The packer has begun with a packet before the last of its words is read. -/
theorem packed_gt {n p : Nat} (h : sw.smplRdSize * p + sw.smplRdSize ≤ reads pw sw x n + 1) :
    sw.payloadWords * p < packed pw sw x n := by
  have hm := count_le_add (fun m => (topAt pw sw x m).smplBuffRdreq) (n - (sw.latency + 1)) (sw.latency + 1)
  have hn : reads pw sw x n ≤ reads pw sw x (n - (sw.latency + 1) + (sw.latency + 1)) := count_mono _ (by omega)
  change reads pw sw x _ ≤ reads pw sw x _ + _ at hm
  rw [packed_eq]
  cases sw <;> simp only [SampleWidth.bitsPerWord, SampleWidth.payloadWords, SampleWidth.latency,
    SampleWidth.smplRdSize, Data2PacketsTop.smplRdSizeOf, SampleWidth.code] at * <;> simp at h <;> omega

/-! ## The settled registers -/

theorem pow_bounds : 2 ^ 10 ≤ 2 ^ pw.w ∧ 2 ^ pw.w = 2 * 2 ^ (pw.w - 1) := by
  have hle := pw.le
  refine ⟨Nat.pow_le_pow_right (by omega) hle, ?_⟩
  rw [← Nat.pow_succ', show (pw.w - 1).succ = pw.w by omega]

theorem inst2PctSize_eq (n : Nat) : (topAt pw sw x (n + 1)).inst2PctSize = sw.payloadWords + 2 :=
  sw.pctSizeOf_eq pw

theorem smplBuffRdusedwMin_eq (n : Nat) : (topAt pw sw x (n + 1)).smplBuffRdusedwMin = sw.smplRdSize := rfl

theorem smplBuffRdCntMax_eq (n : Nat) : (topAt pw sw x (n + 2)).inst0.smplBuffRdCntMax = sw.smplRdSize - 2 := by
  have h : (topAt pw sw x (n + 2)).inst0.smplBuffRdCntMax = (sw.smplRdSize + 2 ^ 12 - 2) % 2 ^ 12 := rfl
  have hb := sw.smplRdSize_bounds
  rw [h]
  omega

theorem pctDataWrCntMax_eq (n : Nat) : (topAt pw sw x (n + 2)).inst2.pctDataWrCntMax = sw.payloadWords - 2 := by
  have h : (topAt pw sw x (n + 2)).inst2.pctDataWrCntMax =
      ((topAt pw sw x (n + 1)).inst2PctSize + 2 ^ pw.w - 4) % 2 ^ pw.w := rfl
  have hb := sw.payloadWords_bounds
  have hpow := pow_bounds pw
  rw [h, inst2PctSize_eq, show sw.payloadWords + 2 + 2 ^ pw.w - 4 = sw.payloadWords - 2 + 2 ^ pw.w by omega,
    Nat.add_mod_right, Nat.mod_eq_of_lt (by omega)]

/-- A packet may be written while the packet FIFO has room for more than one packet. -/
theorem pctBuffWrusedwMaxLimit_eq (n : Nat) :
    (topAt pw sw x (n + 2)).pctBuffWrusedwMaxLimit = 2 ^ (pw.w - 1) - (sw.payloadWords + 2) := by
  have h : (topAt pw sw x (n + 2)).pctBuffWrusedwMaxLimit =
      (2 ^ (pw.w - 1) + 2 ^ pw.w - (topAt pw sw x (n + 1)).inst2PctSize) % 2 ^ pw.w := rfl
  have hb := sw.payloadWords_bounds
  have hpow := pow_bounds pw
  rw [h, inst2PctSize_eq,
    show 2 ^ (pw.w - 1) + 2 ^ pw.w - (sw.payloadWords + 2) =
      2 ^ (pw.w - 1) - (sw.payloadWords + 2) + 2 ^ pw.w by omega,
    Nat.add_mod_right, Nat.mod_eq_of_lt (by omega)]

/-- In the first three cycles there is no packet's worth of samples yet. -/
theorem smplBuffRdy_start (n : Nat) (h : n ≤ 2) : (topAt pw sw x n).inst0SmplBuffRdy = false := by
  have h0 : (topAt pw sw x 1).smplBuffRdusedwReg = 0 := Nat.min_eq_right (Nat.zero_le _)
  obtain rfl | rfl | rfl : n = 0 ∨ n = 1 ∨ n = 2 := by omega
  · rfl
  · rfl
  · have h2 : (topAt pw sw x 2).inst0SmplBuffRdy =
        if (topAt pw sw x 1).smplBuffRdusedwReg > (topAt pw sw x 1).smplBuffRdusedwMin then true else false := rfl
    rw [h2, h0, if_neg (by omega)]

/-! ## Where the state machines stand -/

/-- The state of `data2packets_fsm` against the words read and packed, `p` packets having been formed
before. -/
def FsmAt (n p : Nat) : Prop :=
  match (topAt pw sw x n).inst0.currentState with
  | .idle => reads pw sw x n = sw.smplRdSize * p ∧ packed pw sw x n = sw.payloadWords * p ∧
      (topAt pw sw x n).inst2.currentState = .idle ∧ (topAt pw sw x n).inst0.smplBuffRdCnt = 0 ∧
      ((topAt pw sw x n).inst0SmplBuffRdy = true → sw.smplRdSize < (stateAt pw sw x n).smplFifo.usedw) ∧
      (topAt pw sw x n).smplBuffRdusedwReg ≤ (stateAt pw sw x n).smplFifo.usedw
  | .checkPctBuff => 4 ≤ n ∧ reads pw sw x n = sw.smplRdSize * p ∧ packed pw sw x n = sw.payloadWords * p ∧
      (topAt pw sw x n).inst2.currentState = .idle ∧ (topAt pw sw x n).inst0.smplBuffRdCnt = 0 ∧
      (topAt pw sw x n).inst0.smplBuffRdDone = false ∧ sw.smplRdSize < (stateAt pw sw x n).smplFifo.usedw
  | .rdSmplBuff => 2 ≤ n ∧
      reads pw sw x n = sw.smplRdSize * p + (topAt pw sw x n).inst0.smplBuffRdCnt ∧
      (topAt pw sw x n).inst0.smplBuffRdCnt < sw.smplRdSize ∧
      (topAt pw sw x n).inst0.smplBuffRdDone =
        decide ((topAt pw sw x n).inst0.smplBuffRdCnt = sw.smplRdSize - 1) ∧
      sw.smplRdSize < (stateAt pw sw x n).smplFifo.usedw + (topAt pw sw x n).inst0.smplBuffRdCnt
  | .waitData2packetsDone => 2 ≤ n ∧ reads pw sw x n = sw.smplRdSize * p + sw.smplRdSize ∧
      ((topAt pw sw x n).inst0Data2packetsDone = true →
        packed pw sw x n = sw.payloadWords * p + sw.payloadWords ∧
        (topAt pw sw x n).inst2.currentState = .idle) ∧
      (packed pw sw x n = sw.payloadWords * p + sw.payloadWords →
        (topAt pw sw x n).smplBuffRdusedwReg ≤ (stateAt pw sw x n).smplFifo.usedw)

/-- The state of `data2packets` against the words packed, `p` packets having been formed before. -/
def FormAt (n p : Nat) : Prop :=
  match (topAt pw sw x n).inst2.currentState with
  | .idle => (topAt pw sw x n).inst2.pctDataWrCnt = 0 ∧
      (packed pw sw x n = sw.payloadWords * p ∨ packed pw sw x n = sw.payloadWords * p + sw.payloadWords)
  | .s0 => 2 ≤ n ∧ packed pw sw x n = sw.payloadWords * p + (topAt pw sw x n).inst2.pctDataWrCnt ∧
      1 ≤ (topAt pw sw x n).inst2.pctDataWrCnt ∧
      (topAt pw sw x n).inst2.pctDataWrCnt ≤ sw.payloadWords - 2
  | .s1 => packed pw sw x n = sw.payloadWords * p + (sw.payloadWords - 1)
  | .s2 => packed pw sw x n = sw.payloadWords * p + sw.payloadWords ∧
      (topAt pw sw x n).inst2.pctEndCnt ≤ 1 ∧ (topAt pw sw x n).inst2.pctDataWrCnt = 0
  | .s3 => False

variable {pw sw x}

theorem inst0_succ (n : Nat) : (topAt pw sw x (n + 1)).inst0 =
    (topAt pw sw x n).inst0.next (topAt pw sw x n).inst0PctBuffRdy (topAt pw sw x n).inst0SmplRdSize
      (topAt pw sw x n).inst0SmplBuffRdy (topAt pw sw x n).inst0Data2packetsDone := rfl

theorem inst2_succ (n : Nat) : (topAt pw sw x (n + 1)).inst2 =
    (topAt pw sw x n).inst2.next pw.w (topAt pw sw x n).inst2PctSize (x n).pctHdr0 (x n).pctHdr1
      (packedAt pw sw x n) := rfl

theorem smplFifo_succ (n : Nat) : (stateAt pw sw x (n + 1)).smplFifo =
    (stateAt pw sw x n).smplFifo.next (x n).smplFifoWr
      (if (topAt pw sw x n).smplBuffRdreq then 1 else 0) := rfl

theorem smplBuffRdreq_eq {n : Nat} {c : Data2PacketsFsmState}
    (hs : (topAt pw sw x n).inst0.currentState = c) :
    (topAt pw sw x n).smplBuffRdreq = (c == .rdSmplBuff) := by
  rw [Data2PacketsTop.smplBuffRdreq, Data2PacketsFsm.smplBuffRdreq, hs]

theorem usedw_le_succ (n : Nat) :
    (stateAt pw sw x n).smplFifo.usedw ≤ (stateAt pw sw x (n + 1)).smplFifo.usedw + 1 := by
  rw [smplFifo_succ, Fifo.usedw, Fifo.usedw, Fifo.next_store, List.length_append, List.length_drop]
  split <;> omega

theorem usedw_le_succ_of_ne {n : Nat} (hs : (topAt pw sw x n).inst0.currentState ≠ .rdSmplBuff) :
    (stateAt pw sw x n).smplFifo.usedw ≤ (stateAt pw sw x (n + 1)).smplFifo.usedw := by
  have hrd : (topAt pw sw x n).smplBuffRdreq = false := by
    rw [smplBuffRdreq_eq rfl, beq_eq_false_iff_ne]
    exact hs
  rw [smplFifo_succ, Fifo.usedw, Fifo.usedw, Fifo.next_store, hrd]
  simp

theorem smplBuffRdusedwReg_le (n : Nat) :
    (topAt pw sw x (n + 1)).smplBuffRdusedwReg ≤ (stateAt pw sw x n).smplFifo.usedw :=
  Nat.min_le_right _ _

/-- A sample count above a packet's worth is seen by the state machine a cycle after it is registered. -/
theorem smplBuffRdy_succ {n : Nat} (h : (topAt pw sw x (n + 1)).inst0SmplBuffRdy = true) :
    sw.smplRdSize < (topAt pw sw x n).smplBuffRdusedwReg := by
  cases n with
  | zero => rw [smplBuffRdy_start pw sw x 1 (by omega)] at h; cases h
  | succ n =>
      have hs : (topAt pw sw x (n + 1 + 1)).inst0SmplBuffRdy =
          if (topAt pw sw x (n + 1)).smplBuffRdusedwReg > (topAt pw sw x (n + 1)).smplBuffRdusedwMin then true
          else false := rfl
      rw [hs, smplBuffRdusedwMin_eq] at h
      by_contra hle
      rw [if_neg (by omega)] at h
      cases h

/-- Nothing leaves the packer while it holds only whole packets. -/
theorem packedAt_none {n p : Nat} (hr : reads pw sw x n ≤ sw.smplRdSize * p)
    (hk : sw.payloadWords * p ≤ packed pw sw x n) :
    (packedAt pw sw x n).valid = false ∧ packed pw sw x (n + 1) = packed pw sw x n := by
  have hle := packed_succ_le pw sw x hr
  have hs := packed_succ pw sw x n
  cases h : (packedAt pw sw x n).valid with
  | false => exact ⟨rfl, by rw [hs, h]; rfl⟩
  | true => rw [h] at hs; simp at hs; omega

theorem inst2_currentState_succ (n : Nat) : (topAt pw sw x (n + 1)).inst2.currentState =
    (topAt pw sw x n).inst2.nextState (packedAt pw sw x n).valid := rfl

theorem inst2_idle_succ {n : Nat} (hi : (topAt pw sw x n).inst2.currentState = .idle)
    (hv : (packedAt pw sw x n).valid = false) : (topAt pw sw x (n + 1)).inst2.currentState = .idle := by
  rw [inst2_currentState_succ, Data2Packets.nextState, hi, hv]
  rfl

theorem inst0_currentState_succ (n : Nat) : (topAt pw sw x (n + 1)).inst0.currentState =
    (topAt pw sw x n).inst0.nextState (topAt pw sw x n).inst0SmplBuffRdy
      (topAt pw sw x n).inst0Data2packetsDone := rfl

theorem smplBuffRdCnt_succ_of_ne {n : Nat} (hs : (topAt pw sw x n).inst0.currentState ≠ .rdSmplBuff) :
    (topAt pw sw x (n + 1)).inst0.smplBuffRdCnt = 0 := by
  rw [inst0_succ]
  simp only [Data2PacketsFsm.next, if_neg hs]

theorem smplBuffRdDone_succ {n : Nat} (hn : 2 ≤ n) : (topAt pw sw x (n + 1)).inst0.smplBuffRdDone =
    decide (sw.smplRdSize - 2 ≤ (topAt pw sw x n).inst0.smplBuffRdCnt) := by
  obtain ⟨m, rfl⟩ : ∃ m, n = m + 2 := ⟨n - 2, by omega⟩
  rw [inst0_succ]
  simp only [Data2PacketsFsm.next, smplBuffRdCntMax_eq]
  by_cases hlt : (topAt pw sw x (m + 2)).inst0.smplBuffRdCnt < sw.smplRdSize - 2
  · rw [if_pos hlt, eq_comm, decide_eq_false_iff_not]
    omega
  · rw [if_neg hlt, eq_comm, decide_eq_true_iff]
    omega

/-- When `data2packets` is seen idle after the words of a packet have been read, the packet is complete. -/
theorem packed_of_done {n p : Nat} (hd : FormAt pw sw x n p)
    (hlo : sw.smplRdSize * p + sw.smplRdSize ≤ reads pw sw x n + 1)
    (hhi : reads pw sw x n ≤ sw.smplRdSize * p + sw.smplRdSize)
    (hdone : (topAt pw sw x (n + 1)).inst0Data2packetsDone = true) :
    packed pw sw x (n + 1) = sw.payloadWords * p + sw.payloadWords ∧
      (topAt pw sw x (n + 1)).inst2.currentState = .idle ∧
      (topAt pw sw x n).inst2.currentState = .idle ∧ (packedAt pw sw x n).valid = false := by
  have hstate : (topAt pw sw x n).inst2.pctState (packedAt pw sw x n).valid = 0b00 := by
    by_contra hne
    have h : (topAt pw sw x (n + 1)).inst0Data2packetsDone =
        if (topAt pw sw x n).inst2.pctState (packedAt pw sw x n).valid = 0b00 then true else false := rfl
    rw [h, if_neg hne] at hdone
    cases hdone
  have hidle : (topAt pw sw x n).inst2.currentState = .idle := by
    rw [Data2Packets.pctState] at hstate
    cases hi : (topAt pw sw x n).inst2.currentState with
    | idle => rfl
    | s0 => rw [hi] at hstate; cases hstate
    | s1 => rw [hi] at hstate; cases hv : (packedAt pw sw x n).valid <;> rw [hv] at hstate <;> cases hstate
    | s2 => rw [hi] at hstate; cases hstate
    | s3 => rw [hi] at hstate; cases hstate
  have hgt := packed_gt pw sw x hlo
  simp only [FormAt, hidle] at hd
  have hk : packed pw sw x n = sw.payloadWords * p + sw.payloadWords := by
    rcases hd.2 with h | h
    · omega
    · exact h
  obtain ⟨hv, hk'⟩ := packedAt_none (n := n) (p := p + 1) (by rw [Nat.mul_succ]; exact hhi)
    (by rw [Nat.mul_succ]; omega)
  exact ⟨hk'.trans hk, inst2_idle_succ hidle hv, hidle, hv⟩

theorem fsmAt_idle {n p : Nat} (hs : (topAt pw sw x n).inst0.currentState = .idle)
    (hf : FsmAt pw sw x n p) : FsmAt pw sw x (n + 1) p := by
  simp only [FsmAt, hs] at hf
  obtain ⟨hr, hk, hi, hc, hrdy, hreg⟩ := hf
  have hr' : reads pw sw x (n + 1) = sw.smplRdSize * p := by rw [reads_succ, smplBuffRdreq_eq hs, hr]; rfl
  obtain ⟨hv, hk'⟩ := packedAt_none (Nat.le_of_eq hr) (Nat.le_of_eq hk.symm)
  have hi' := inst2_idle_succ hi hv
  have hc' := smplBuffRdCnt_succ_of_ne (n := n) (by rw [hs]; decide)
  have hu := usedw_le_succ_of_ne (n := n) (by rw [hs]; decide)
  have hns := @inst0_currentState_succ pw sw x n
  rw [Data2PacketsFsm.nextState, hs] at hns
  cases hready : (topAt pw sw x n).inst0SmplBuffRdy with
  | false =>
      rw [hready] at hns
      simp only [FsmAt, hns]
      refine ⟨hr', hk'.trans hk, hi', hc', fun hrdy' => ?_, ?_⟩
      · have := smplBuffRdy_succ hrdy'
        omega
      · exact Nat.le_trans (smplBuffRdusedwReg_le n) hu
  | true =>
      have hn : 3 ≤ n := by
        by_contra hlt
        rw [smplBuffRdy_start pw sw x n (by omega)] at hready
        cases hready
      have hused := hrdy hready
      rw [hready] at hns
      simp only [FsmAt, hns]
      refine ⟨by omega, hr', hk'.trans hk, hi', hc', ?_, by omega⟩
      have hb := sw.smplRdSize_bounds
      rw [smplBuffRdDone_succ (by omega), hc, decide_eq_false_iff_not]
      omega

theorem fsmAt_checkPctBuff {n p : Nat} (hs : (topAt pw sw x n).inst0.currentState = .checkPctBuff)
    (hf : FsmAt pw sw x n p) : FsmAt pw sw x (n + 1) p := by
  simp only [FsmAt, hs] at hf
  obtain ⟨hn, hr, hk, hi, hc, hdone, hused⟩ := hf
  have hb := sw.smplRdSize_bounds
  have hr' : reads pw sw x (n + 1) = sw.smplRdSize * p := by rw [reads_succ, smplBuffRdreq_eq hs, hr]; rfl
  have hc' := smplBuffRdCnt_succ_of_ne (n := n) (by rw [hs]; decide)
  have hu := usedw_le_succ_of_ne (n := n) (by rw [hs]; decide)
  have hns := @inst0_currentState_succ pw sw x n
  rw [Data2PacketsFsm.nextState, hs] at hns
  simp only [FsmAt, hns]
  refine ⟨by omega, by rw [hc', hr', Nat.add_zero], by omega, ?_, by omega⟩
  rw [smplBuffRdDone_succ (by omega), hc, hc', decide_eq_decide]
  omega

theorem fsmAt_rdSmplBuff {n p : Nat} (hs : (topAt pw sw x n).inst0.currentState = .rdSmplBuff)
    (hf : FsmAt pw sw x n p) (hd : FormAt pw sw x n p) : FsmAt pw sw x (n + 1) p := by
  simp only [FsmAt, hs] at hf
  obtain ⟨hn, hr, hlt, hdone, hused⟩ := hf
  have hb := sw.smplRdSize_bounds
  have hr' : reads pw sw x (n + 1) = sw.smplRdSize * p + ((topAt pw sw x n).inst0.smplBuffRdCnt + 1) := by
    rw [reads_succ, smplBuffRdreq_eq hs, hr]
    rfl
  have hc' : (topAt pw sw x (n + 1)).inst0.smplBuffRdCnt = (topAt pw sw x n).inst0.smplBuffRdCnt + 1 := by
    rw [inst0_succ]
    simp only [Data2PacketsFsm.next, if_pos hs]
    omega
  have hu := @usedw_le_succ pw sw x n
  have hns := @inst0_currentState_succ pw sw x n
  rw [Data2PacketsFsm.nextState, hs] at hns
  by_cases hlast : (topAt pw sw x n).inst0.smplBuffRdCnt = sw.smplRdSize - 1
  · rw [hdone, decide_eq_true hlast] at hns
    simp only [FsmAt, hns]
    refine ⟨by omega, by omega, fun hdone' => ?_, fun hk' => ?_⟩
    · have h := packed_of_done hd (by omega) (by omega) hdone'
      exact ⟨h.1, h.2.1⟩
    · have hle := le_reads (n := n) (p := p + 1) pw sw x (by rw [Nat.mul_succ]; omega)
      have hm : reads pw sw x (n - sw.latency) ≤ reads pw sw x n := count_mono _ (by omega)
      rw [Nat.mul_succ] at hle
      omega
  · rw [hdone, decide_eq_false hlast] at hns
    simp only [FsmAt, hns]
    refine ⟨by omega, by omega, by omega, ?_, by omega⟩
    rw [smplBuffRdDone_succ hn, hc', decide_eq_decide]
    omega

/-- At the end of a packet the state machine turns to the next one. -/
theorem fsmAt_wait {n p : Nat} (hs : (topAt pw sw x n).inst0.currentState = .waitData2packetsDone)
    (hf : FsmAt pw sw x n p) (hd : FormAt pw sw x n p) :
    FsmAt pw sw x (n + 1) p ∨ (FsmAt pw sw x (n + 1) (p + 1) ∧
      (topAt pw sw x (n + 1)).inst0.currentState = .idle ∧
      (topAt pw sw x (n + 1)).inst2.currentState = .idle ∧
      packed pw sw x (n + 1) = sw.payloadWords * (p + 1)) := by
  simp only [FsmAt, hs] at hf
  obtain ⟨hn, hr, hdone, hreg⟩ := hf
  have hr' : reads pw sw x (n + 1) = sw.smplRdSize * p + sw.smplRdSize := by
    rw [reads_succ, smplBuffRdreq_eq hs, hr]
    rfl
  have hc' := smplBuffRdCnt_succ_of_ne (n := n) (by rw [hs]; decide)
  have hu := usedw_le_succ_of_ne (n := n) (by rw [hs]; decide)
  have hns := @inst0_currentState_succ pw sw x n
  rw [Data2PacketsFsm.nextState, hs] at hns
  cases hd2p : (topAt pw sw x n).inst0Data2packetsDone with
  | false =>
      rw [hd2p] at hns
      left
      simp only [FsmAt, hns]
      refine ⟨by omega, hr', fun hdone' => ?_, fun _ => Nat.le_trans (smplBuffRdusedwReg_le n) hu⟩
      have h := packed_of_done hd (by omega) (by omega) hdone'
      exact ⟨h.1, h.2.1⟩
  | true =>
      rw [hd2p] at hns
      obtain ⟨hk, hi⟩ := hdone hd2p
      have hreg := hreg hk
      have hle : reads pw sw x n ≤ sw.smplRdSize * (p + 1) := by rw [Nat.mul_succ]; omega
      obtain ⟨hv, hk'⟩ := packedAt_none hle (by rw [Nat.mul_succ]; omega)
      right
      refine ⟨?_, hns, inst2_idle_succ hi hv, hk'.trans hk⟩
      simp only [FsmAt, hns, Nat.mul_succ]
      refine ⟨hr', hk'.trans hk, inst2_idle_succ hi hv, hc', fun hrdy => ?_, ?_⟩
      · have := smplBuffRdy_succ hrdy
        omega
      · exact Nat.le_trans (smplBuffRdusedwReg_le n) hu

theorem reads_le_of_fsmAt {n p : Nat} (hf : FsmAt pw sw x n p) :
    reads pw sw x n ≤ sw.smplRdSize * (p + 1) := by
  rw [Nat.mul_succ]
  cases hs : (topAt pw sw x n).inst0.currentState with
  | idle => simp only [FsmAt, hs] at hf; omega
  | checkPctBuff => simp only [FsmAt, hs] at hf; omega
  | rdSmplBuff => simp only [FsmAt, hs] at hf; omega
  | waitData2packetsDone => simp only [FsmAt, hs] at hf; omega

/-- The first word of a packet comes only while the state machine reads or waits. -/
theorem two_le_of_valid {n p : Nat} (hf : FsmAt pw sw x n p) (hv : (packedAt pw sw x n).valid = true) :
    2 ≤ n := by
  cases hs : (topAt pw sw x n).inst0.currentState with
  | idle =>
      simp only [FsmAt, hs] at hf
      obtain ⟨hr, hk, _⟩ := hf
      rw [(packedAt_none (Nat.le_of_eq hr) (Nat.le_of_eq hk.symm)).1] at hv
      cases hv
  | checkPctBuff => simp only [FsmAt, hs] at hf; omega
  | rdSmplBuff => simp only [FsmAt, hs] at hf; exact hf.1
  | waitData2packetsDone => simp only [FsmAt, hs] at hf; exact hf.1

theorem not_valid_of_packed {n p : Nat} (hf : FsmAt pw sw x n p)
    (hk : packed pw sw x n = sw.payloadWords * p + sw.payloadWords) : (packedAt pw sw x n).valid = false :=
  (packedAt_none (reads_le_of_fsmAt hf) (by rw [Nat.mul_succ]; omega)).1

/-- `data2packets` takes a word whenever the packer has one. -/
theorem formAt_succ {n p : Nat} (hf : FsmAt pw sw x n p) (hd : FormAt pw sw x n p) :
    FormAt pw sw x (n + 1) p := by
  have hb := sw.payloadWords_bounds
  have hpow := pow_bounds pw
  have hk' := packed_succ pw sw x n
  have hns := @inst2_currentState_succ pw sw x n
  have hi2 := @inst2_succ pw sw x n
  rw [Data2Packets.nextState] at hns
  cases hs : (topAt pw sw x n).inst2.currentState with
  | idle =>
      simp only [FormAt, hs] at hd
      obtain ⟨hc, hk⟩ := hd
      cases hv : (packedAt pw sw x n).valid with
      | false =>
          simp only [hs, hv] at hns
          simp only [FormAt, hns]
          exact ⟨by simp [hi2, Data2Packets.next, hs, hv, hc], by rw [hk', hv]; exact hk⟩
      | true =>
          simp only [hs, hv] at hns
          simp only [FormAt, hns]
          have hc' : (topAt pw sw x (n + 1)).inst2.pctDataWrCnt = 1 := by
            simp only [hi2, Data2Packets.next, hs, hv, hc]
            exact Nat.mod_eq_of_lt (by omega)
          have hn := two_le_of_valid hf hv
          have hk0 : packed pw sw x n = sw.payloadWords * p := by
            rcases hk with hk | hk
            · exact hk
            · rw [not_valid_of_packed hf hk] at hv; cases hv
          rw [hc', hk', hk0, hv]
          exact ⟨by omega, rfl, by omega, by omega⟩
  | s0 =>
      simp only [FormAt, hs] at hd
      obtain ⟨hn, hk, hlo, hhi⟩ := hd
      obtain ⟨m, rfl⟩ : ∃ m, n = m + 2 := ⟨n - 2, by omega⟩
      rw [pctDataWrCntMax_eq] at hns
      cases hv : (packedAt pw sw x (m + 2)).valid with
      | false =>
          simp only [hs, hv, Bool.false_eq_true, and_false, if_false] at hns
          simp only [FormAt, hns]
          have hc' : (topAt pw sw x (m + 2 + 1)).inst2.pctDataWrCnt =
              (topAt pw sw x (m + 2)).inst2.pctDataWrCnt := by simp [hi2, Data2Packets.next, hs, hv]
          rw [hc', hk', hv]
          exact ⟨by omega, hk, hlo, hhi⟩
      | true =>
          have hc' : (topAt pw sw x (m + 2 + 1)).inst2.pctDataWrCnt =
              (topAt pw sw x (m + 2)).inst2.pctDataWrCnt + 1 := by
            simp only [hi2, Data2Packets.next, hs, hv]
            exact Nat.mod_eq_of_lt (by omega)
          rw [hv] at hk'
          by_cases hmax : (topAt pw sw x (m + 2)).inst2.pctDataWrCnt = sw.payloadWords - 2
          · simp only [hs, hv, hmax, and_self, if_true] at hns
            simp only [FormAt, hns]
            simp at hk'
            omega
          · simp only [hs, hmax, false_and, if_false] at hns
            simp only [FormAt, hns]
            simp at hk'
            omega
  | s1 =>
      simp only [FormAt, hs] at hd
      cases hv : (packedAt pw sw x n).valid with
      | false =>
          simp only [hs, hv] at hns
          simp only [FormAt, hns]
          rw [hk', hv]
          exact hd
      | true =>
          simp only [hs, hv] at hns
          simp only [FormAt, hns]
          rw [hv] at hk'
          simp at hk'
          exact ⟨by omega, by simp [hi2, Data2Packets.next, hs], by simp [hi2, Data2Packets.next, hs]⟩
  | s2 =>
      simp only [FormAt, hs] at hd
      obtain ⟨hk, he, hc⟩ := hd
      have hv := not_valid_of_packed hf hk
      rw [hv] at hk'
      have hc' : (topAt pw sw x (n + 1)).inst2.pctDataWrCnt = 0 := by
        simp [hi2, Data2Packets.next, hs, hv, hc]
      by_cases h0 : (topAt pw sw x n).inst2.pctEndCnt = 0
      · simp only [hs, h0, if_true] at hns
        simp only [FormAt, hns]
        exact ⟨hc', Or.inr (hk'.trans hk)⟩
      · simp only [hs, h0, if_false] at hns
        simp only [FormAt, hns]
        refine ⟨hk'.trans hk, ?_, hc'⟩
        simp only [hi2, Data2Packets.next, hs, if_true]
        omega
  | s3 => simp only [FormAt, hs] at hd

theorem inst2_s2_succ {n : Nat} (hs : (topAt pw sw x n).inst2.currentState = .s2) :
    (topAt pw sw x (n + 1)).inst2.currentState =
      if (topAt pw sw x n).inst2.pctEndCnt = 0 then .idle else .s2 := by
  rw [inst2_currentState_succ, Data2Packets.nextState, hs]

theorem pctEndCnt_s2_succ {n : Nat} (hs : (topAt pw sw x n).inst2.currentState = .s2)
    (he : (topAt pw sw x n).inst2.pctEndCnt = 1) : (topAt pw sw x (n + 1)).inst2.pctEndCnt = 0 := by
  rw [inst2_succ]
  simp [Data2Packets.next, hs, he]

theorem fsmAt_zero : FsmAt pw sw x 0 0 :=
  ⟨rfl, rfl, rfl, rfl, fun h => absurd h (by rw [smplBuffRdy_start pw sw x 0 (by omega)]; decide), Nat.le_refl _⟩

theorem formAt_zero : FormAt pw sw x 0 0 := ⟨rfl, Or.inl rfl⟩

/-- A cycle stays in its packet, or it ends the packet and the reader is idle. -/
theorem packet_succ {n p : Nat} (hf : FsmAt pw sw x n p) (hd : FormAt pw sw x n p) :
    (FsmAt pw sw x (n + 1) p ∧ FormAt pw sw x (n + 1) p) ∨
      (FsmAt pw sw x (n + 1) (p + 1) ∧ FormAt pw sw x (n + 1) (p + 1) ∧
        (topAt pw sw x (n + 1)).inst0.currentState = .idle ∧
        packed pw sw x (n + 1) = sw.payloadWords * (p + 1)) := by
  have hd' := formAt_succ hf hd
  cases hs : (topAt pw sw x n).inst0.currentState with
  | idle => exact Or.inl ⟨fsmAt_idle hs hf, hd'⟩
  | checkPctBuff => exact Or.inl ⟨fsmAt_checkPctBuff hs hf, hd'⟩
  | rdSmplBuff => exact Or.inl ⟨fsmAt_rdSmplBuff hs hf hd, hd'⟩
  | waitData2packetsDone =>
      rcases fsmAt_wait hs hf hd with hf' | ⟨hf', hidle, hi, hk⟩
      · exact Or.inl ⟨hf', hd'⟩
      · refine Or.inr ⟨hf', ?_, hidle, hk⟩
        simp only [FormAt, hi] at hd' ⊢
        exact ⟨hd'.1, Or.inl hk⟩

/-- Induction along a run, packet by packet. -/
theorem packet_induction {P : Nat → Nat → Prop} (h0 : P 0 0)
    (hs : ∀ {n p}, FsmAt pw sw x n p → FormAt pw sw x n p → P n p → P (n + 1) p)
    (hp : ∀ {n p}, (topAt pw sw x n).inst0.currentState = .idle →
      packed pw sw x n = sw.payloadWords * (p + 1) → P n p → P n (p + 1)) (n : Nat) :
    ∃ p, FsmAt pw sw x n p ∧ FormAt pw sw x n p ∧ P n p := by
  induction n with
  | zero => exact ⟨0, fsmAt_zero, formAt_zero, h0⟩
  | succ n ih =>
      obtain ⟨p, hf, hd, h⟩ := ih
      rcases packet_succ hf hd with ⟨hf', hd'⟩ | ⟨hf', hd', hidle, hk⟩
      · exact ⟨p, hf', hd', hs hf hd h⟩
      · exact ⟨p + 1, hf', hd', hp hidle hk (hs hf hd h)⟩

end Data2PacketsRig

end LimeSdrQpcie
