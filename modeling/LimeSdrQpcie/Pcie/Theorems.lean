import LimeSdrQpcie.Pcie.Lemmas.H2F

/-!
# The host to FPGA streams

What passes `pct_payload_extrct`, and the back-pressure of the streams: the full output of each stream is
chosen by the selector of stream 0, the words by the selector of the stream itself.
-/

namespace LimeSdrQpcie

open Hdl

/-! ## Payload -/

namespace PctPayloadExtrct

/-- For every list of packets, every pattern of gaps and whatever packet came before: when the words of the
packets have been presented, the words that came out are their payloads, and a new packet may begin. -/
theorem payload_extracted (hdr : BitVec 32) (pct : Nat → Port (BitVec 32)) (ps : List Packet) (n : Nat)
    (h : words (fun m => (pct m).word) n = ps.flatMap Packet.words) :
    words (payloadAt hdr pct) n = ps.flatMap Packet.payload ∧ ((circuit hdr).run pct n).wrCnt = 0 := by
  obtain ⟨hafter, _, hpay⟩ := run_eq hdr pct n
  rw [h] at hafter hpay
  refine ⟨hpay.symm.trans (payload_flatMap ps), ?_⟩
  rw [hafter]
  exact after_packets rfl ps

/-- A packet without payload and a packet with one word. -/
def shortPackets : List Packet :=
  [⟨0, [1, 2, 3], [], rfl, by decide⟩, ⟨0x400, [5, 6, 7], [8], rfl, by decide⟩]

/-- Both packets, with a gap before every word. -/
def shortStream (n : Nat) : Port (BitVec 32) :=
  ⟨n % 2 == 1, ((shortPackets.flatMap Packet.words)[n / 2]?).getD 0⟩

theorem payload_extracted_short :
    words (fun m => (shortStream m).word) 18 = shortPackets.flatMap Packet.words ∧
      words (payloadAt (BitVec.allOnes 32) shortStream) 18 = shortPackets.flatMap Packet.payload ∧
      ((circuit (BitVec.allOnes 32)).run shortStream 18).wrCnt = 0 := by
  have h : words (fun m => (shortStream m).word) 18 = shortPackets.flatMap Packet.words := by decide
  exact ⟨h, payload_extracted _ shortStream shortPackets 18 h⟩

end PctPayloadExtrct

/-! ## Back-pressure -/

namespace PcieTop

variable (wrusedwWidth : H2F → Nat) (x : Nat → H2F → H2FInput) (k : H2F)

/-- What back-pressure is for: the full output of stream `k` is that of the FIFO its words go to, no write
meets a full FIFO, and the words of the host arrive, less the headers on the waveform path. -/
structure Accepts (n : Nat) : Prop where
  full_eq : fullAt wrusedwWidth x k n =
    if (x n k).selSync then (streamAt wrusedwWidth x k n).wfmFifoFull (x n k)
    else (streamAt wrusedwWidth x k n).twoFifoFull (x n k)
  twoFifo_write : twoFifoWrAt wrusedwWidth x k n ≠ none → (streamAt wrusedwWidth x k n).twoFifoFull (x n k) = false
  wfmFifo_write : wfmFifoWrAt wrusedwWidth x k n ≠ none → (streamAt wrusedwWidth x k n).wfmFifoFull (x n k) = false
  twoFifo_words : Fifo.taken (fun m => (streamAt wrusedwWidth x k m).twoFifo) (fun m => (x m k).twoFifoRd) n ++
    (streamAt wrusedwWidth x k n).twoFifo.store = words (hostTo wrusedwWidth x k false) n
  wfmFifo_words : Fifo.taken (fun m => (streamAt wrusedwWidth x k m).wfmFifo) (fun m => (x m k).wfmFifoRd) n ++
    (streamAt wrusedwWidth x k n).wfmFifo.store = payload (words (hostTo wrusedwWidth x k true) n)

/-- A stream whose selector is that of stream 0 is shown the full flag of the FIFO its words go to. -/
theorem fullAt_eq {n : Nat} (h : (x n k).selSync = (x n .s0).selSync) :
    fullAt wrusedwWidth x k n =
      if (x n k).selSync then (streamAt wrusedwWidth x k n).wfmFifoFull (x n k)
      else (streamAt wrusedwWidth x k n).twoFifoFull (x n k) := by
  cases k <;> cases hs : (x n .s0).selSync <;> simp_all [fullAt, userWStreamFull, streamAt]

variable {wrusedwWidth x k}

theorem twoFifoWrAt_not_full {n : Nat} (h : (x n k).selSync = (x n .s0).selSync)
    (hw : twoFifoWrAt wrusedwWidth x k n ≠ none) :
    (streamAt wrusedwWidth x k n).twoFifoFull (x n k) = false := by
  have hf := fullAt_eq wrusedwWidth x k h
  rw [twoFifoWrAt, H2FStream.twoFifoWr, hostAt_eq] at hw
  cases hs : (x n k).selSync <;> cases hfull : fullAt wrusedwWidth x k n <;> simp_all

theorem wfmFifoWrAt_not_full {n : Nat} (h : (x n k).selSync = (x n .s0).selSync)
    (hw : wfmFifoWrAt wrusedwWidth x k n ≠ none) :
    (streamAt wrusedwWidth x k n).wfmFifoFull (x n k) = false := by
  have hf := fullAt_eq wrusedwWidth x k h
  have hv : (H2FStream.pctWr (x n k) (hostAt wrusedwWidth x k n)).valid = true := by
    by_contra hv
    rw [Bool.not_eq_true] at hv
    simp [wfmFifoWrAt, H2FStream.wfmFifoWr, PctPayloadExtrct.pctPayloadValid, hv] at hw
  rw [H2FStream.pctWr, hostAt_eq] at hv
  cases hs : (x n k).selSync <;> cases hfull : fullAt wrusedwWidth x k n <;> simp_all

/-- While its selector follows that of stream 0, a stream loses nothing. -/
theorem accepts_of_selSync_eq (h : ∀ n, (x n k).selSync = (x n .s0).selSync) (n : Nat) :
    Accepts wrusedwWidth x k n := by
  refine ⟨fullAt_eq _ _ _ (h n), twoFifoWrAt_not_full (h n), wfmFifoWrAt_not_full (h n), ?_, ?_⟩
  · refine Fifo.taken_append_store_of_not_full (twoFifoWrAt wrusedwWidth x k) rfl (fun _ => rfl) ?_ n
    intro m hm
    have hf := twoFifoWrAt_not_full (h m) hm
    rw [H2FStream.twoFifoFull, Bool.or_eq_false_iff] at hf
    exact hf.1
  · rw [(reads_at wrusedwWidth x k n).2]
    refine Fifo.taken_append_store_of_not_full (wfmFifoWrAt wrusedwWidth x k) rfl (fun _ => rfl) ?_ n
    intro m hm
    have hf := wfmFifoWrAt_not_full (h m) hm
    rw [H2FStream.wfmFifoFull, Bool.or_eq_false_iff] at hf
    exact hf.1

/-! ## Selectors that differ -/

/-- The host writes the word `w` to every stream as often as it may, and nothing is read. -/
def flood (sel : H2F → Bool) (w : BitVec 32) : Nat → H2F → H2FInput :=
  fun _ j => ⟨sel j, some w, 0, false, 0, false⟩

variable (wrusedwWidth) {sel : H2F → Bool} (w : BitVec 32)

theorem taken_flood {α : Type} {depth : Nat} (f : Nat → Fifo α depth) (n : Nat) :
    Fifo.taken f (fun _ => 0) n = [] := by
  induction n with
  | zero => rfl
  | succ n ih => rw [Fifo.taken, ih, List.take_zero, List.append_nil]

theorem isFull_of_store_nil {wrusedwWidth : Nat} {f : Fifo (BitVec 32) (fifoWords wrusedwWidth)}
    (h : f.store = []) : f.isFull = false := by
  rw [Fifo.isFull_eq_false, Fifo.usedw, h]
  exact Nat.two_pow_pos _

/-- A stream whose selector is not that of stream 0 is shown the full flag of its idle FIFO. -/
theorem fullAt_flood (hne : sel k ≠ sel .s0) (n : Nat) : fullAt wrusedwWidth (flood sel w) k n = false := by
  have htwo : sel k = true → (streamAt wrusedwWidth (flood sel w) k n).twoFifo.isFull = false := by
    intro hk
    refine isFull_of_store_nil (Fifo.store_eq_nil (f := fun m => (streamAt wrusedwWidth (flood sel w) k m).twoFifo)
      rfl (fun _ => rfl) (fun m => ?_) n)
    simp [H2FStream.twoFifoWr, flood, hk]
  have hwfm : sel k = false → (streamAt wrusedwWidth (flood sel w) k n).wfmFifo.isFull = false := by
    intro hk
    refine isFull_of_store_nil (Fifo.store_eq_nil (f := fun m => (streamAt wrusedwWidth (flood sel w) k m).wfmFifo)
      rfl (fun _ => rfl) (fun m => ?_) n)
    simp [H2FStream.wfmFifoWr, H2FStream.pctWr, PctPayloadExtrct.pctPayloadValid, flood, hk]
  have hfull : fullAt wrusedwWidth (flood sel w) k n =
      if sel .s0 = false then (streamAt wrusedwWidth (flood sel w) k n).twoFifo.isFull
      else (streamAt wrusedwWidth (flood sel w) k n).wfmFifo.isFull := by
    cases k <;> simp [fullAt, userWStreamFull, streamAt, flood, H2FStream.twoFifoFull, H2FStream.wfmFifoFull]
  cases hk : sel k <;> cases h0 : sel .s0 <;> simp_all

theorem hostTo_flood (hne : sel k ≠ sel .s0) (n : Nat) :
    hostTo wrusedwWidth (flood sel w) k (sel k) n = some w := by
  simp [hostTo, hostAt_eq, fullAt_flood wrusedwWidth w hne n, flood]

/-- A flooded stream whose selector is not that of stream 0 does not stay in order. -/
theorem not_accepts_flood (hne : sel k ≠ sel .s0) :
    ¬ ∀ n, Accepts wrusedwWidth (flood sel (BitVec.allOnes 32)) k n := by
  intro h
  cases hk : sel k with
  | false =>
      obtain ⟨n, hn⟩ : ∃ n, n = fifoWords 10 + 1 := ⟨_, rfl⟩
      have hw := congrArg List.length (h n).twoFifo_words
      rw [words_eq_replicate (fun n => hk ▸ hostTo_flood wrusedwWidth _ hne n)] at hw
      have hle := (streamAt wrusedwWidth (flood sel (BitVec.allOnes 32)) k n).twoFifo.length_le
      simp only [flood, taken_flood, List.nil_append, List.length_replicate] at hw hle
      omega
  | true =>
      obtain ⟨n, hn⟩ : ∃ n, n = (4 + payloadWords (BitVec.allOnes 32)) * (fifoWords (wrusedwWidth k) + 1) :=
        ⟨_, rfl⟩
      have hw := congrArg List.length (h n).wfmFifo_words
      rw [words_eq_replicate (fun n => hk ▸ hostTo_flood wrusedwWidth _ hne n), hn,
        payload_replicate_length, ← hn] at hw
      have hle := (streamAt wrusedwWidth (flood sel (BitVec.allOnes 32)) k n).wfmFifo.length_le
      have hpos : payloadWords (BitVec.allOnes 32) = 16383 := by decide
      simp only [flood, taken_flood, List.nil_append, hpos] at hw hle
      omega

/-! ## Main results -/

/-- A stream loses nothing in every run in which its selector is that of stream 0, and for every setting of
the selectors in which it is not there is a run that breaks the back-pressure. -/
theorem h2f_backPressure (k : H2F) :
    (∀ x : Nat → H2F → H2FInput, (∀ n, (x n k).selSync = (x n .s0).selSync) →
      ∀ n, Accepts wrusedwWidth x k n) ∧
    ∀ sel : H2F → Bool, sel k ≠ sel .s0 →
      ∃ x : Nat → H2F → H2FInput, (∀ n j, (x n j).selSync = sel j) ∧ ∃ n, ¬ Accepts wrusedwWidth x k n :=
  ⟨fun _ h => accepts_of_selSync_eq h, fun _ hne =>
    ⟨_, fun _ _ => rfl, not_forall.mp (not_accepts_flood wrusedwWidth hne)⟩⟩

/-- Stream 0 plays a waveform while stream 1 feeds the TX path. -/
def s0Waveform : H2F → Bool
  | .s0 => true
  | _ => false

/-- After 512 words stream 1 writes to a full FIFO and is told that there is room. -/
theorem h2f_s1_write_lost :
    fullAt (fun _ => 11) (flood s0Waveform 0) .s1 512 = false ∧
      twoFifoWrAt (fun _ => 11) (flood s0Waveform 0) .s1 512 = some 0 ∧
      (streamAt (fun _ => 11) (flood s0Waveform 0) .s1 512).twoFifo.isFull = true ∧
      ¬ Accepts (fun _ => 11) (flood s0Waveform 0) .s1 512 := by
  have hne : s0Waveform .s1 ≠ s0Waveform .s0 := by decide
  have hwr : ∀ n, twoFifoWrAt (fun _ => 11) (flood s0Waveform 0) .s1 n = some 0 :=
    fun n => hostTo_flood _ 0 hne n
  have husedw := Fifo.usedw_eq_min (f := fun m => (streamAt (fun _ => 11) (flood s0Waveform 0) .s1 m).twoFifo)
    rfl (fun _ => rfl) (fun n => congrArg Option.isSome (hwr n)) 512
  have hfull : (streamAt (fun _ => 11) (flood s0Waveform 0) .s1 512).twoFifo.isFull = true :=
    Fifo.isFull_eq_true.mpr husedw
  refine ⟨fullAt_flood _ 0 hne 512, hwr 512, hfull, fun hacc => ?_⟩
  have hnot := hacc.twoFifo_write (by rw [hwr 512]; simp)
  rw [H2FStream.twoFifoFull, hfull] at hnot
  cases hnot

end PcieTop

end LimeSdrQpcie
