import LimeSdrQpcie.Rx.Lemmas.Frames
import LimeSdrQpcie.Rx.Lemmas.Overflow
import LimeSdrQpcie.Rx.Lemmas.PctFifo
import LimeSdrQpcie.Rx.Lemmas.RxPath
import LimeSdrQpcie.Rx.Lemmas.RxChain
import LimeSdrQpcie.Rx.Lemmas.SmplCnt

/-!
# The receive path

The main results about `data2packets`, about `data2packets_top` between its FIFOs, and about the way from the
interface to the packets.
-/

namespace LimeSdrQpcie

open Hdl

namespace Data2Packets

/-- For every packet size, every input and every pattern of gaps that keeps `pct_data_wrreq` low while
`pct_state` is `"11"`: the words sent are the frames of the words accepted, at most two words late, and two
cycles after the last word of a packet at the latest all of it has been sent, `pct_size` words a packet. -/
theorem packet_law (w pctSize : Nat) (hmin : 6 ≤ pctSize) (hmax : pctSize < 2 ^ w) (x : Nat → In)
    (hc : ∀ n, ((circuit w pctSize).run x n).pctState (x n).pctData.valid = 0b11 → (x n).pctData.valid = false)
    (n : Nat) :
    (∃ late : List (BitVec 64), late.length ≤ 2 ∧
      words (fun m => ((circuit w pctSize).run x m).pctQ.word) (n + 1) ++ late =
        frames (pctSize - 2) (words (fun m => (x m).word) n)) ∧
    ∀ p, (words (fun m => (x m).word) n).length = (pctSize - 2) * p →
      ∃ m ≤ 2, words (fun m => (x m).word) (n + m) = words (fun m => (x m).word) n ∧
        words (fun m => ((circuit w pctSize).run x m).pctQ.word) (n + m + 1) =
          frames (pctSize - 2) (words (fun m => (x m).word) n) ∧
        count (fun m => ((circuit w pctSize).run x m).pctQ.valid) (n + m + 1) = pctSize * p := by
  refine ⟨?_, fun p hp => ?_⟩
  · obtain ⟨pks, ds, hpks, hin, hs⟩ := run_sentAt hmin hmax hc n
    rw [← hin, frames_flatten (by omega) hpks (hs.length_lt (by omega))]
    exact hs.late
  · obtain ⟨m, hm, hquiet, hidle⟩ := exists_idle hmin hmax hc hp
    obtain ⟨pks, ds, hpks, hin, hs⟩ := run_sentAt hmin hmax hc (n + m)
    simp only [SentAt, hidle] at hs
    obtain ⟨rfl, _, hout⟩ := hs
    rw [List.append_nil, hquiet] at hin
    have hpl : pks.length = p := by
      rw [← hin, flatten_length hpks] at hp
      exact Nat.eq_of_mul_eq_mul_left (by omega) hp
    refine ⟨m, hm, hquiet, ?_, ?_⟩
    · have hf := @frames_flatten (pctSize - 2) (by omega) pks hpks [] (by rw [List.length_nil]; omega)
      rw [List.append_nil, hin] at hf
      rw [hout, hf, frame, List.append_nil]
    · have hl := congrArg List.length hout
      rw [words_length, frames_length (by omega) hpks, hpl, Nat.sub_add_cancel (by omega)] at hl
      simpa only [Port.word_isSome] using hl

/-- Four words with gaps between them, then silence. -/
def fourWords (m : Nat) : In :=
  ⟨BitVec.ofNat 64 (16 * m), BitVec.ofNat 64 (16 * m + 1),
    ⟨m == 0 || m == 2 || m == 3 || m == 5, BitVec.ofNat 64 (16 * m + 2)⟩⟩

theorem packet_law_fourWords :
    (6 ≤ 6 ∧ 6 < 2 ^ 15) ∧ ∃ m ≤ 2,
      words (fun m => ((circuit 15 6).run fourWords m).pctQ.word) (6 + m + 1) =
        frames 4 (words (fun m => (fourWords m).word) 6) := by
  have hlt : ∀ n < 6, ((circuit 15 6).run fourWords n).pctState (fourWords n).pctData.valid ≠ 0b11 := by decide
  have hc : ∀ n, ((circuit 15 6).run fourWords n).pctState (fourWords n).pctData.valid = 0b11 →
      (fourWords n).pctData.valid = false := by
    intro n h
    have hn : 6 ≤ n := Nat.le_of_not_lt fun hn => hlt n hn h
    simp only [fourWords, Bool.or_eq_false_iff, beq_eq_false_iff_ne]
    omega
  obtain ⟨m, hm, _, hw, _⟩ :=
    (packet_law 15 6 (by decide) (by decide) fourWords hc 6).2 1 (by decide)
  exact ⟨⟨by decide, by decide⟩, m, hm, hw⟩

end Data2Packets

namespace Data2PacketsRig

/-! ## Samples across packets -/

/-- From reset on, for every pattern of samples and room: the sample FIFO is not read when it is empty, each
packet carries `smpl_rd_size` consecutive sample words when it is complete, as all packets are whenever the
reader is idle, in 12 and 14-bit mode both phase counters are zero when the first word of a packet reaches the
packer, and the payloads put together are the words that the samples fill. -/
theorem sample_continuity (pw : PctBuffWidth) (sw : SampleWidth) (x : Nat → Data2PacketsRigIn) (n : Nat) :
    ((topAt pw sw x n).smplBuffRdreq = true → 0 < (stateAt pw sw x n).smplFifo.usedw) ∧
    (∀ k pk, (formed pw sw x n)[k]? = some pk →
      (k + 1 < (formed pw sw x n).length → pk.payload.length = sw.payloadWords) ∧
      (pk.payload.length = sw.payloadWords → bitString pk.payload =
        sw.keptBits (((samples pw sw x n).drop (sw.smplRdSize * k)).take sw.smplRdSize))) ∧
    ((topAt pw sw x n).inst0.currentState = .idle →
      ∀ pk ∈ formed pw sw x n, pk.payload.length = sw.payloadWords) ∧
    (∃ m, n ≤ m ∧ (topAt pw sw x m).inst0.currentState = .idle) ∧
    (∀ k, (dataInAt pw sw x n).valid = true →
      count (fun m => (dataInAt pw sw x m).valid) n = sw.smplRdSize * k → sw ≠ .w16 →
      (topAt pw sw x n).inst1.inst0.wrCnt = 0 ∧ (topAt pw sw x n).inst1.inst1.wrCnt = 0) ∧
    Fills (sw.keptBits (samples pw sw x n))
      ((formed pw sw x (n + 1 + sw.latency)).flatMap Packet.payload) := by
  refine ⟨usedw_pos, fun k pk hk => ⟨payload_length hk, payload_bits hk⟩,
    fun hs _ => payload_length_of_idle hs, exists_idle_from n, ?_, payload_fills n⟩
  intro k _ hcount hne
  rw [count_dataInAt] at hcount
  obtain ⟨h0, h1⟩ := @wrCnt_eq pw sw x n
  rw [h0, h1, hcount]
  cases sw with
  | w12 => exact ⟨by rw [show SampleWidth.w12.smplRdSize = 680 from rfl]; omega,
      by rw [show SampleWidth.w12.smplRdSize = 680 from rfl]; omega⟩
  | w14 => exact ⟨by rw [show SampleWidth.w14.smplRdSize = 144 from rfl]; omega,
      by rw [show SampleWidth.w14.smplRdSize = 144 from rfl]; omega⟩
  | w16 => exact absurd rfl hne

/-- A zero sample in every cycle, an exact sample count and a packet FIFO that is drained at once. -/
def steadySamples : Nat → Data2PacketsRigIn := fun _ => ⟨0, 0, some 0, 1024, 1024, 0⟩

/-- In 16-bit mode the second packet finds both phase counters of the packers off zero. -/
theorem phase_w16 : ∃ n, (dataInAt ⟨11, by decide⟩ .w16 steadySamples n).valid = true ∧
    count (fun m => (dataInAt ⟨11, by decide⟩ .w16 steadySamples m).valid) n = SampleWidth.w16.smplRdSize * 1 ∧
    (topAt ⟨11, by decide⟩ .w16 steadySamples n).inst1.inst0.wrCnt = 2 ∧
    (topAt ⟨11, by decide⟩ .w16 steadySamples n).inst1.inst1.wrCnt = 6 := by
  obtain ⟨n, hs, hr⟩ := @exists_packet_start ⟨11, by decide⟩ .w16 steadySamples
    (fun _ => ⟨rfl, Nat.le_refl _⟩) 1
  obtain ⟨h0, h1⟩ := @wrCnt_eq ⟨11, by decide⟩ .w16 steadySamples (n + 1)
  rw [Nat.add_sub_cancel, hr] at h0 h1
  refine ⟨n + 1, smplBuffRdreq_eq hs, ?_, h0, h1⟩
  rw [count_dataInAt, Nat.add_sub_cancel, hr]

/-! ## Packets in the packet FIFO -/

/-- Whatever the host drains and whenever samples come, the packet FIFO is never written when it is full, and
two cycles behind the packets formed it has received the packets to be written, each of them whole, and of
the packet begun last an initial part. When the reader is idle, which it becomes again and again, it has
received all of that packet too. -/
theorem packet_atomicity (pw : PctBuffWidth) (sw : SampleWidth) (x : Nat → Data2PacketsRigIn) (n : Nat) :
    (pctWrAt pw sw x n ≠ none → (stateAt pw sw x n).pctFifo.isFull = false) ∧
    Packet.frames (formed pw sw x n).dropLast <+: words (pctWrAt pw sw x) (n + 2) ∧
    words (pctWrAt pw sw x) (n + 2) <+: Packet.frames (formed pw sw x n) ∧
    (∀ pk ∈ (formed pw sw x n).dropLast, pk.frame.length = Data2PacketsTop.pctSizeOf pw.w sw.code) ∧
    ((topAt pw sw x n).inst0.currentState = .idle →
      words (pctWrAt pw sw x) (n + 2) = Packet.frames (formed pw sw x n) ∧
      ∀ pk ∈ formed pw sw x n, pk.frame.length = Data2PacketsTop.pctSizeOf pw.w sw.code) ∧
    (∃ m, n ≤ m ∧ (topAt pw sw x m).inst0.currentState = .idle) ∧
    Fifo.taken (fun m => (stateAt pw sw x m).pctFifo) (fun m => (x m).pctFifoRd) n ++
      (stateAt pw sw x n).pctFifo.store = words (pctWrAt pw sw x) n := by
  obtain ⟨hupper, hlower⟩ := @prefix_words_pctWrAt pw sw x n
  refine ⟨pctFifo_not_full, hlower, hupper, fun pk hpk => ?_, fun hs => ⟨words_pctWrAt_idle hs, ?_⟩,
    exists_idle_from n, Fifo.taken_append_store_of_not_full _ rfl pctFifo_succ (fun _ => pctFifo_not_full) n⟩
  · obtain ⟨k, hlt, rfl⟩ := List.getElem_of_mem hpk
    rw [List.length_dropLast] at hlt
    rw [List.getElem_dropLast, Packet.frame_length, SampleWidth.pctSizeOf_eq,
      payload_length (List.getElem?_eq_getElem (by omega)) (by omega)]
  · intro pk hpk
    rw [Packet.frame_length, SampleWidth.pctSizeOf_eq, payload_length_of_idle hs hpk]

/-! ## Room in the sample FIFO -/

/-- Whatever room the host leaves in the packet FIFO, and however the headers change: when a sample comes at most
in every second cycle and the reader's word count misses at most `lag` words, the sample FIFO never holds more than
a packet's worth of samples, these words and three more. A lag of up to 340 words so leaves the FIFO of 1024 words
short of full in each sample width, and each sample that comes is read or still held, in order. -/
theorem no_sample_lost (pw : PctBuffWidth) (sw : SampleWidth) (x : Nat → Data2PacketsRigIn) (lag : Nat)
    (hx : Spaced x) (hl : CountLags pw sw x lag) (n : Nat) :
    (stateAt pw sw x n).smplFifo.usedw ≤ sw.smplRdSize + lag + 3 ∧
    (lag ≤ 340 → (stateAt pw sw x n).smplFifo.isFull = false ∧
      samples pw sw x n ++ (stateAt pw sw x n).smplFifo.store = words (fun m => (x m).smplFifoWr) n) := by
  refine ⟨usedw_le hx hl n, fun hlag => ?_⟩
  have hfull : ∀ m, (stateAt pw sw x m).smplFifo.isFull = false := by
    intro m
    have hle := usedw_le hx hl m
    have hsize : sw.smplRdSize ≤ 680 := sw.smplRdSize_bounds.2
    exact Fifo.isFull_eq_false.mpr (by omega)
  exact ⟨hfull n, Fifo.taken_append_store_of_not_full _ rfl smplFifo_succ (fun m _ => hfull m) n⟩

/-- A sample in every second cycle, an exact word count, and a host that never drains the packet FIFO. -/
def everySecond : Nat → Data2PacketsRigIn :=
  fun n => ⟨0, 0, if n % 2 = 0 then some (BitVec.ofNat 64 n) else none, 1024, 0, 0⟩

theorem no_sample_lost_everySecond :
    Spaced everySecond ∧ CountLags ⟨11, by decide⟩ .w12 everySecond 0 ∧
      samples ⟨11, by decide⟩ .w12 everySecond 4000 ++
          (stateAt ⟨11, by decide⟩ .w12 everySecond 4000).smplFifo.store =
        words (fun m => (everySecond m).smplFifoWr) 4000 := by
  have hx : Spaced everySecond := by
    intro n hn
    rcases Nat.mod_two_eq_zero_or_one n with h | h
    · simp only [everySecond, if_neg (show ¬ (n + 1) % 2 = 0 by omega)]
    · rw [everySecond, if_neg (by omega)] at hn
      cases hn
  have hl : CountLags ⟨11, by decide⟩ .w12 everySecond 0 := fun n => Fifo.usedw_le _
  exact ⟨hx, hl, ((no_sample_lost ⟨11, by decide⟩ .w12 everySecond 0 hx hl 4000).2 (Nat.zero_le _)).2⟩

end Data2PacketsRig

namespace RxPathTop

/-! ## Sample numbers -/

/-- The clear of the sample counter is in time for the packet whose first word is read in cycle `t`, or the
counter stands where it would not matter. In 14-bit mode the header comes two cycles too late for the
counter, which has then counted the first word unless it was cleared instead. -/
def ClrInTime (pw : PctBuffWidth) (mode : RxMode) (x : Nat → RxPathTopIn) (t : Nat) : Prop :=
  match mode.sampleWidth with
  | .w12 => clrSmplNrAt pw mode x (t - 1) = true → mode.smplNr (readsSinceClr pw mode x (t - 1)) = 0
  | .w14 => clrSmplNrAt pw mode x t = true ∧ mode.smplNr (readsSinceClr pw mode x t) = 0
  | .w16 => (∃ i, t - 5 ≤ i ∧ i < t ∧ clrSmplNrAt pw mode x i = true) →
      mode.smplNr (readsSinceClr pw mode x (t - 5)) = 0

/-- Header word 1 of a packet is the number of samples read since the clear and before the packet's own if
and only if the clear is in time. -/
theorem hdr1_eq_smplNr_iff (pw : PctBuffWidth) (mode : RxMode) (x : Nat → RxPathTopIn) (n k : Nat) (pk : Packet)
    (hk : (Data2PacketsRig.formed pw mode.sampleWidth (rigInAt pw mode x) n)[k]? = some pk) :
    ∃ t, Data2PacketsRig.FirstReadAt pw mode.sampleWidth (rigInAt pw mode x) t k ∧
      (pk.hdr1 = mode.smplNr (readsSinceClr pw mode x t) ↔ ClrInTime pw mode x t) := by
  obtain ⟨t, hread, h1⟩ := hdr1_eq hk
  refine ⟨t, hread, ?_⟩
  have hrd : ∀ i, t - 5 ≤ i → i < t → smplBuffRdreqAt pw mode x i = false := fun _ =>
    smplBuffRdreqAt_of_reads (Data2PacketsRig.reads_of_firstReadAt hread)
  have hrd' := hread.1
  rw [← smplBuffRdreqAt_eq] at hrd'
  obtain ⟨s, rfl⟩ : ∃ s, t = s + 1 := ⟨t - 1, by cases t with | zero => cases hrd' | succ t => rfl⟩
  rw [h1, ClrInTime]
  cases mode.sampleWidth with
  | w12 =>
      simp only [SampleWidth.firstWordDelay, show s + 1 + 6 - 7 = s by omega, Nat.add_sub_cancel]
      rw [readsSinceClr, hrd s (by omega) (by omega)]
      cases clrSmplNrAt pw mode x s with
      | true => rw [if_pos rfl, smplNr_zero]; exact ⟨fun h _ => h, fun h => h rfl⟩
      | false => exact ⟨fun _ h => (by cases h), fun _ => rfl⟩
  | w14 =>
      simp only [SampleWidth.firstWordDelay, show s + 1 + 8 - 7 = s + 1 + 1 by omega]
      rw [readsSinceClr, hrd']
      cases clrSmplNrAt pw mode x (s + 1) with
      | true => rw [if_pos rfl, smplNr_zero]; exact ⟨fun h => ⟨rfl, h.symm⟩, fun h => h.2.symm⟩
      | false => exact ⟨fun h => absurd h (smplNr_succ_ne mode _), fun h => (by cases h.1)⟩
  | w16 =>
      simp only [SampleWidth.firstWordDelay, show s + 1 + 2 - 7 = s + 1 - 5 by omega]
      by_cases hclr : ∃ i, s + 1 - 5 ≤ i ∧ i < s + 1 ∧ clrSmplNrAt pw mode x i = true
      · obtain ⟨i, h1, h2, h3⟩ := hclr
        rw [readsSinceClr_of_clr h1 h2 h3 hrd, smplNr_zero]
        exact ⟨fun h _ => h, fun h => h ⟨i, h1, h2, h3⟩⟩
      · rw [readsSinceClr_of_not_clr (by omega) hrd fun i h1 h2 => ?_]
        · exact ⟨fun _ h => absurd h hclr, fun _ => rfl⟩
        · by_contra hne
          rw [Bool.not_eq_false] at hne
          exact hclr ⟨i, h1, h2, hne⟩

/-- Samples in every cycle, a packet FIFO that is drained at once, and no clear. -/
def steadyRx : Nat → RxPathTopIn := fun _ => ⟨some 0, 1024, 1024, 0, false, false, 0, false⟩

theorem saturated_steadyRx (pw : PctBuffWidth) (mode : RxMode) :
    Data2PacketsRig.Saturated (rigInAt pw mode steadyRx) := fun _ => ⟨rfl, Nat.le_refl _⟩

theorem clrSmplNrAt_steadyRx (pw : PctBuffWidth) (mode : RxMode) (n : Nat) :
    clrSmplNrAt pw mode steadyRx n = false := by
  have h : (stateAt pw mode steadyRx n).clrSmplNrSync = ⟨false, false⟩ := by
    induction n with
    | zero => rfl
    | succ n ih =>
        have hs : (stateAt pw mode steadyRx (n + 1)).clrSmplNrSync =
            (stateAt pw mode steadyRx n).clrSmplNrSync.next false := rfl
        rw [hs, ih]
        rfl
  rw [clrSmplNrAt, h]
  rfl

/-- In 12-bit mode the headers are right for packet after packet. -/
theorem hdr1_eq_smplNr_w12 : ∃ n pk t,
    (Data2PacketsRig.formed ⟨12, by decide⟩ .w12 (rigInAt ⟨12, by decide⟩ ⟨.w12, true, 3⟩ steadyRx) n)[5]? =
      some pk ∧
    Data2PacketsRig.FirstReadAt ⟨12, by decide⟩ .w12 (rigInAt ⟨12, by decide⟩ ⟨.w12, true, 3⟩ steadyRx) t 5 ∧
    pk.hdr1 = RxMode.smplNr ⟨.w12, true, 3⟩ (readsSinceClr ⟨12, by decide⟩ ⟨.w12, true, 3⟩ steadyRx t) := by
  obtain ⟨n, pk, hk⟩ := @Data2PacketsRig.exists_packet _ .w12 _
    (saturated_steadyRx ⟨12, by decide⟩ ⟨.w12, true, 3⟩) 5
  obtain ⟨t, hread, hiff⟩ := hdr1_eq_smplNr_iff ⟨12, by decide⟩ ⟨.w12, true, 3⟩ steadyRx n 5 pk hk
  refine ⟨n, pk, t, hk, hread, hiff.mpr fun h => ?_⟩
  rw [clrSmplNrAt_steadyRx] at h
  cases h

theorem readsSinceClr_steadyRx (pw : PctBuffWidth) (mode : RxMode) (n : Nat) :
    readsSinceClr pw mode steadyRx n =
      Data2PacketsRig.reads pw mode.sampleWidth (rigInAt pw mode steadyRx) n := by
  induction n with
  | zero => rfl
  | succ n ih =>
      rw [readsSinceClr, clrSmplNrAt_steadyRx, if_neg Bool.false_ne_true, ih, smplBuffRdreqAt_eq,
        Data2PacketsRig.reads_succ]

/-- In 14-bit mode the first packet after reset says that a sample has been read before it. -/
theorem hdr1_w14 : ∃ n pk t,
    (Data2PacketsRig.formed ⟨12, by decide⟩ .w14 (rigInAt ⟨12, by decide⟩ ⟨.w14, true, 3⟩ steadyRx) n)[0]? =
      some pk ∧
    Data2PacketsRig.FirstReadAt ⟨12, by decide⟩ .w14 (rigInAt ⟨12, by decide⟩ ⟨.w14, true, 3⟩ steadyRx) t 0 ∧
    RxMode.smplNr ⟨.w14, true, 3⟩ (readsSinceClr ⟨12, by decide⟩ ⟨.w14, true, 3⟩ steadyRx t) = 0 ∧
    pk.hdr1 = 1 := by
  obtain ⟨n, pk, hk⟩ := @Data2PacketsRig.exists_packet _ .w14 _
    (saturated_steadyRx ⟨12, by decide⟩ ⟨.w14, true, 3⟩) 0
  obtain ⟨t, hread, h1⟩ := @hdr1_eq ⟨12, by decide⟩ ⟨.w14, true, 3⟩ steadyRx n 0 pk hk
  have hzero : readsSinceClr ⟨12, by decide⟩ ⟨.w14, true, 3⟩ steadyRx t = 0 := by
    rw [readsSinceClr_steadyRx]
    exact hread.2
  have hone : readsSinceClr ⟨12, by decide⟩ ⟨.w14, true, 3⟩ steadyRx (t + 1) = 1 := by
    rw [readsSinceClr_steadyRx, Data2PacketsRig.reads_succ_of_rdreq hread.1, hread.2, Nat.mul_zero]
  refine ⟨n, pk, t, hk, hread, by rw [hzero, smplNr_zero], ?_⟩
  rw [h1, show t + SampleWidth.firstWordDelay .w14 - 7 = t + 1 from rfl, hone]
  rfl

/-! ## The counters on both sides of the sample FIFO -/

/-- For every pattern of samples, reads, full episodes, clears and loads: the count on the write side is ahead
of the count on the read side by the words held and the words refused since the counters started, less the
words that were held when they started, and so by the words held if and only if these two agree. A sample that
is read before the counters start again is stamped accordingly. -/
theorem smplNrCnt_balance (pw : PctBuffWidth) (mode : RxMode) (x : Nat → RxPathTopIn) (n : Nat) :
    ((regsAt pw mode x (n + 1)).smplNrCnt + mode.smplNr (heldAtRestart pw mode x n) =
      (regsAt pw mode x (n + 1)).inst3.q + mode.smplNr (heldAt pw mode x n + refusedAt pw mode x n)) ∧
    ((regsAt pw mode x (n + 1)).smplNrCnt =
        (regsAt pw mode x (n + 1)).inst3.q + mode.smplNr (heldAt pw mode x n) ↔
      mode.smplNr (heldAtRestart pw mode x n) = mode.smplNr (refusedAt pw mode x n)) ∧
    ∀ a r, (sampleInAt pw mode x a).isSome = true → sampleRdAt pw mode x r = true →
      enteredAt pw mode x a = readsAt pw mode x r →
      (∀ m, a ≤ m → m < r → restartAt pw mode x m = false) →
      (regsAt pw mode x r).inst2.smplFifo.store.head? = sampleInAt pw mode x a ∧
        (regsAt pw mode x (r + 1)).inst3.q + mode.smplNr (refusedAt pw mode x a) =
          (regsAt pw mode x (a + 1)).smplNrCnt + mode.smplNr (heldAtRestart pw mode x a) := by
  have hbal : ∀ m, (regsAt pw mode x (m + 1)).smplNrCnt + mode.smplNr (heldAtRestart pw mode x m) =
      (regsAt pw mode x (m + 1)).inst3.q + mode.smplNr (heldAt pw mode x m + refusedAt pw mode x m) := by
    intro m
    rw [smplNrCnt_succ, inst3_q_succ, RxMode.smplNr_eq, RxMode.smplNr_eq, ← BitVec.mul_add, inst0Q_balance,
      BitVec.mul_add]
  have hadd : ∀ i j, mode.smplNr (i + j) = mode.smplNr i + mode.smplNr j := by
    intro i j
    rw [RxMode.smplNr_eq, RxMode.smplNr_eq, RxMode.smplNr_eq, ← BitVec.mul_add, BitVec.ofNat_add]
  refine ⟨hbal n, ⟨fun h => ?_, fun h => ?_⟩, fun a r ha hr hk hclr => ⟨head_eq_sampleIn ha hr hk, ?_⟩⟩
  · have hn := hbal n
    rw [h, hadd, ← BitVec.add_assoc] at hn
    exact (BitVec.add_right_inj _).mp hn
  · have hn := hbal n
    rw [h, hadd, ← BitVec.add_assoc] at hn
    exact (BitVec.add_left_inj _).mp hn
  · -- The read counter moves by the words that were ahead of this one.
    have hread := inst3_inst0Q_eq (Nat.le_of_lt (enters_before_read hr hk)) hclr
    rw [← hk, entered_eq, BitVec.ofNat_add, BitVec.add_comm (BitVec.ofNat 64 _), ← BitVec.add_assoc] at hread
    have hr3 := (BitVec.add_left_inj _).mp hread
    rw [hbal a, inst3_q_succ, inst3_q_succ, hr3, hadd, BitVec.mul_add, ← RxMode.smplNr_eq, BitVec.add_assoc]

/-- One sample, and a clear that comes while the sample is in the FIFO. -/
def clearedEarly : Nat → RxPathTopIn
  | 0 => ⟨some 0, 0, 0, 0, true, false, 0, false⟩
  | _ => ⟨none, 0, 0, 0, false, false, 0, false⟩

/-- After the clear both counts are zero and the sample is still held. -/
theorem smplNrCnt_clearedEarly :
    heldAt ⟨12, by decide⟩ ⟨.w12, true, 3⟩ clearedEarly 3 = 1 ∧
      (regsAt ⟨12, by decide⟩ ⟨.w12, true, 3⟩ clearedEarly 4).smplNrCnt = 0 ∧
      (regsAt ⟨12, by decide⟩ ⟨.w12, true, 3⟩ clearedEarly 4).inst3.q = 0 ∧
      (regsAt ⟨12, by decide⟩ ⟨.w12, true, 3⟩ clearedEarly 4).smplNrCnt ≠
        (regsAt ⟨12, by decide⟩ ⟨.w12, true, 3⟩ clearedEarly 4).inst3.q +
          RxMode.smplNr ⟨.w12, true, 3⟩ (heldAt ⟨12, by decide⟩ ⟨.w12, true, 3⟩ clearedEarly 3) :=
  ⟨rfl, rfl, rfl, by decide⟩

end RxPathTop

namespace RxChain

/-! ## From the IQ interface to the packets -/

/-- For a stream of frames of either polarity, with or without pulses but for pulses that are high, every setting of
the channels, every sample width, any cycles in which the two parts leave their resets, and whatever room the host
leaves in the packet FIFO: the sample FIFO, whose full flag nothing reads, is never full, as long as its word count lags
behind by no more than 340 words. From a frame on that comes soon after the stream and the resets, every packet carries
the stream without a gap, in the packet and between packets, and header word 1 is the number of samples of a channel
that came before the packet, unless the host clears that number. -/
theorem stream_to_packets (pw : PctBuffWidth) (sw : SampleWidth) (m : IqMode) (hm : m.mimoEn = true)
    (hch : m.chEn = 0b01 ∨ m.chEn = 0b10 ∨ m.chEn = 0b11) (r : RxResets) (y : Nat → Diq2FifoIn)
    (x : Nat → RxPathTopIn) (t : Nat) (hs : FrameStream m.trxiqpulse m.fidm t (Diq2Fifo.sel m y))
    (hpulse : m.trxiqpulse = true → m.fidm = false) (hlow : LowBefore 1 t (Diq2Fifo.sel m y)) (lag : Nat)
    (hlag : lag ≤ 340) (hl : Data2PacketsRig.CountLags pw sw (rigIn pw sw m r y x) lag) :
    ∃ c ≤ max (t + 7) (r.rxPathUp - r.diq2fifoUp),
      m.secondFrame (Diq2Fifo.sel m y c) = !m.chEn.getLsbD 0 ∧ ∀ n,
        (Data2PacketsRig.stateAt pw sw (rigIn pw sw m r y x) n).smplFifo.isFull = false ∧
        ∀ k pk, (packets pw sw m r y x n)[k]? = some pk →
          (k + 1 < (packets pw sw m r y x n).length → pk.payload.length = sw.payloadWords) ∧
          Carried m sw x (m.streamWord (Diq2Fifo.sel m y) c) k pk := by
  obtain ⟨a, c, -, hc, hfirst, hp⟩ := exists_smplFifoWr hm hch hs hpulse hlow
  refine ⟨c, hc, hfirst, fun n => ?_⟩
  obtain ⟨hfull, hcarried⟩ := carried_of_paced hp hlag hl n
  exact ⟨hfull, fun k pk hk => ⟨Data2PacketsRig.payload_length hk, hcarried k pk hk⟩⟩

/-- Frames on both halves from the first cycle on, with the number of the cycle as samples. -/
def countedFrames : Nat → Diq2FifoIn := fun n =>
  ⟨false, ⟨⟨decide (n % 2 = 1), BitVec.ofNat 12 n⟩, ⟨decide (n % 2 = 1), BitVec.ofNat 12 n⟩⟩⟩

/-- An exact word count, and a host that never drains the packet FIFO. -/
def idleHost : Nat → RxPathTopIn := fun _ => ⟨none, 1024, 0, 0, false, false, 0, false⟩

theorem stream_to_packets_countedFrames : ∃ c ≤ 37, ∀ k pk,
    (packets ⟨12, by decide⟩ .w12 ⟨false, true, true, 0b11, false⟩ ⟨3, 40⟩ countedFrames idleHost 9000)[k]? = some pk →
      Carried ⟨false, true, true, 0b11, false⟩ .w12 idleHost
        (IqMode.streamWord ⟨false, true, true, 0b11, false⟩
          (Diq2Fifo.sel ⟨false, true, true, 0b11, false⟩ countedFrames) c) k pk := by
  have hs : FrameStream false false 0 (Diq2Fifo.sel ⟨false, true, true, 0b11, false⟩ countedFrames) := by
    refine ⟨fun n _ => ?_, fun n _ => rfl⟩
    change decide ((n + 1) % 2 = 1) = !decide (n % 2 = 1)
    rcases Nat.mod_two_eq_zero_or_one n with h | h
    · rw [h, show (n + 1) % 2 = 1 by omega]
      rfl
    · rw [h, show (n + 1) % 2 = 0 by omega]
      rfl
  obtain ⟨c, hc, _, h⟩ := stream_to_packets ⟨12, by decide⟩ .w12 ⟨false, true, true, 0b11, false⟩ rfl
    (.inr (.inr rfl)) ⟨3, 40⟩ countedFrames idleHost 0 hs (fun h => (by cases h))
    (fun n _ h => absurd h (Nat.not_lt_zero n)) 0 (Nat.zero_le _) fun n => Fifo.usedw_le _
  exact ⟨c, hc, fun k pk hk => ((h 9000).2 k pk hk).2⟩

/-- With the test pattern on, the numbers in the packets count on without a gap, in a packet and from packet to
packet, whatever comes from the interface, whatever room the host leaves, and whether or not it clears the sample
number. In 12-bit mode the payload is these numbers, packed. -/
theorem testPtrn_to_packets (pw : PctBuffWidth) (sw : SampleWidth) (m : IqMode) (hm : m.mimoEn = true)
    (hpulse : m.trxiqpulse = false) (hch : m.chEn = 0b01 ∨ m.chEn = 0b10 ∨ m.chEn = 0b11) (r : RxResets)
    (y : Nat → Diq2FifoIn) (hy : ∀ n, (y n).testPtrnEn = true) (x : Nat → RxPathTopIn)
    (lag : Nat) (hlag : lag ≤ 340) (hl : Data2PacketsRig.CountLags pw sw (rigIn pw sw m r y x) lag) :
    ∃ v, ∀ n k pk, (packets pw sw m r y x n)[k]? = some pk →
      Carried m sw x (fun j => countWord (v + 2 * m.smplPerWord * j)) k pk ∧
      (sw = .w12 → pk.payload.length = sw.payloadWords → bitString pk.payload =
        bitString ((List.range 680).map fun i => countWord (v + 2 * m.smplPerWord * (680 * k + i)))) := by
  have hs : FrameStream m.trxiqpulse m.fidm 0 (Diq2Fifo.sel m y) := by
    rw [hpulse]
    exact Diq2Fifo.frameStream_testPtrn hy
  obtain ⟨a, c, -, -, hfirst, hp⟩ := exists_smplFifoWr (r := r) (x := x) hm hch hs
    (fun h => absurd (h.symm.trans hpulse) (by decide)) fun n _ h => absurd h (Nat.not_lt_zero n)
  simp only [Diq2Fifo.streamWord_testPtrn hy hm hch hfirst] at hp
  refine ⟨2 * ((c + 1) / 2), fun n k pk hk => ?_⟩
  have hcarried := (carried_of_paced hp hlag hl n).2 k pk hk
  refine ⟨hcarried, ?_⟩
  rintro rfl hlen
  rw [hcarried.1 hlen, ← keptBits_w12, List.map_map]
  rfl

/-- The second channel alone, with nothing on the interface. -/
theorem testPtrn_to_packets_second : ∃ v, ∀ k pk,
    (packets ⟨12, by decide⟩ .w12 ⟨false, true, true, 0b10, false⟩ ⟨40, 3⟩
      (fun _ => ⟨true, ⟨Diq.zero, Diq.zero⟩⟩) idleHost 9000)[k]? = some pk → pk.payload.length = 510 →
      bitString pk.payload = bitString ((List.range 680).map fun i => countWord (v + 4 * (680 * k + i))) := by
  obtain ⟨v, h⟩ := testPtrn_to_packets ⟨12, by decide⟩ .w12 ⟨false, true, true, 0b10, false⟩ rfl rfl
    (.inr (.inl rfl)) ⟨40, 3⟩ (fun _ => ⟨true, ⟨Diq.zero, Diq.zero⟩⟩) (fun _ => rfl) idleHost
    0 (Nat.zero_le _) fun n => Fifo.usedw_le _
  exact ⟨v, fun k pk hk hlen => (h 9000 k pk hk).2 rfl hlen⟩

end RxChain

end LimeSdrQpcie
