import LimeSdrQpcie.Pcie.H2F

/-!
# What passes pct_payload_extrct

The extractor counts words and knows the size of a packet from its first word. The words it lets through are
those a reader of the whole stream would call payload.
-/

namespace LimeSdrQpcie

open Hdl

/-! ## The payload of a stream of packets -/

/-- How many payload words the first header word announces. -/
def payloadWords (hdr : BitVec 32) : Nat := (hdr.extractLsb 23 8).toNat / 4

/-- The payload of a stream of packets: four header words, then the words the first of them announces. -/
def payload : List (BitVec 32) → List (BitVec 32)
  | [] => []
  | hdr :: ws => (ws.drop 3).take (payloadWords hdr) ++ payload (ws.drop (3 + payloadWords hdr))
termination_by ws => ws.length
decreasing_by exact Nat.lt_succ_of_le (by simp only [List.length_drop]; omega)

@[simp] theorem payload_nil : payload [] = [] := by simp [payload]

theorem payload_packet {hdr : BitVec 32} {t : List (BitVec 32)} (h : t.length = 3 + payloadWords hdr)
    (ws : List (BitVec 32)) : payload (hdr :: t ++ ws) = t.drop 3 ++ payload ws := by
  rw [List.cons_append, payload, List.drop_append_of_le_length (by omega),
    List.take_append_of_le_length (by simp; omega), List.take_of_length_le (by simp; omega),
    List.drop_append_of_le_length (by omega), List.drop_of_length_le (i := 3 + payloadWords hdr) (by omega),
    List.nil_append]

theorem payload_partial {hdr : BitVec 32} {t : List (BitVec 32)} (h : t.length ≤ 3 + payloadWords hdr) :
    payload (hdr :: t) = t.drop 3 := by
  rw [payload, List.take_of_length_le (by simp; omega), List.drop_of_length_le h, payload_nil, List.append_nil]

theorem payload_replicate_length (w : BitVec 32) (n : Nat) :
    (payload (List.replicate ((4 + payloadWords w) * n) w)).length = payloadWords w * n := by
  induction n with
  | zero => simp
  | succ n ih =>
      have hsplit : List.replicate ((4 + payloadWords w) * (n + 1)) w =
          w :: List.replicate (3 + payloadWords w) w ++ List.replicate ((4 + payloadWords w) * n) w := by
        rw [← List.replicate_succ, List.replicate_append_replicate]
        congr 1
        rw [Nat.mul_succ]
        omega
      rw [hsplit, payload_packet (by simp), List.length_append, ih, List.length_drop, List.length_replicate,
        Nat.mul_succ]
      omega

namespace PctPayloadExtrct

/-- After the words `ws` the registers stand in the packet `cur` that is being written. -/
structure Reads (ws : List (BitVec 32)) (s : PctPayloadExtrct) (pre cur : List (BitVec 32)) : Prop where
  split : ws = pre ++ cur
  whole : ∀ l, payload (pre ++ l) = payload pre ++ payload l
  wrCnt_eq : s.wrCnt = cur.length
  hdr : ∀ h t, cur = h :: t → s.hdrPayloadReg = h ∧ t.length < 3 + payloadWords h

theorem wrCntMax_eq (s : PctPayloadExtrct) : s.wrCntMax = 3 + payloadWords s.hdrPayloadReg := by
  simp only [wrCntMax, payloadSizeReg, payloadWords]
  omega

theorem reads_boundary (hdr : BitVec 32) : Reads [] ⟨0, hdr⟩ [] [] :=
  ⟨rfl, fun l => by simp, rfl, fun _ _ h => by cases h⟩

/-- A word counts, and it passes exactly when it is payload. -/
theorem reads_next {ws : List (BitVec 32)} {s : PctPayloadExtrct} {pre cur : List (BitVec 32)}
    (hr : Reads ws s pre cur) (w : BitVec 32) :
    (∃ pre' cur', Reads (ws ++ [w]) (s.next ⟨true, w⟩) pre' cur') ∧
      payload (ws ++ [w]) = payload ws ++ (Port.mk (s.pctPayloadValid true) w).word.toList := by
  obtain ⟨rfl, hwhole, hcnt, hhdr⟩ := hr
  have hmax := wrCntMax_eq s
  cases cur with
  | nil =>
      have h0 : s.wrCnt = 0 := hcnt
      have hv : s.pctPayloadValid true = false := by simp [pctPayloadValid, h0]
      refine ⟨⟨pre, [w], ⟨by simp, hwhole, ?_, ?_⟩⟩, ?_⟩
      · have : 0 < s.wrCntMax := by omega
        simp [next, h0, this]
      · intro h t ht
        obtain ⟨rfl, rfl⟩ := List.cons.inj ht
        exact ⟨by simp [next, h0], by rw [List.length_nil]; omega⟩
      · rw [hv, List.append_nil, hwhole, payload_partial (by simp)]
        simp
  | cons h t =>
      obtain ⟨hh, ht⟩ := hhdr h t rfl
      have hc : s.wrCnt = t.length + 1 := hcnt
      rw [hh] at hmax
      have hpass : t.drop 3 ++ (Port.mk (s.pctPayloadValid true) w).word.toList = (t ++ [w]).drop 3 := by
        by_cases h3 : 3 ≤ t.length
        · have hv : s.pctPayloadValid true = true := by
            simp only [pctPayloadValid]
            rw [if_pos (by omega)]
          rw [hv, List.drop_append_of_le_length h3]
          rfl
        · have hv : s.pctPayloadValid true = false := by
            simp only [pctPayloadValid]
            rw [if_neg (by omega)]
          rw [hv, List.drop_of_length_le (l := t ++ [w]) (by simp; omega), List.drop_of_length_le (by omega)]
          rfl
      have hpay : payload (pre ++ h :: t ++ [w]) =
          payload (pre ++ h :: t) ++ (Port.mk (s.pctPayloadValid true) w).word.toList := by
        rw [List.append_assoc, hwhole, hwhole, List.cons_append, payload_partial (by simp; omega),
          payload_partial (by omega), List.append_assoc, hpass]
      refine ⟨?_, hpay⟩
      by_cases hlt : s.wrCnt < s.wrCntMax
      · refine ⟨pre, h :: (t ++ [w]), ⟨by simp, hwhole, ?_, ?_⟩⟩
        · rw [hc] at hlt
          simp [next, hlt, hc]
        · intro h' t' heq
          obtain ⟨rfl, rfl⟩ := List.cons.inj heq
          refine ⟨by simp [next, hc, hh], ?_⟩
          rw [List.length_append, List.length_singleton]
          omega
      · have hlen : (t ++ [w]).length = 3 + payloadWords h := by
          rw [List.length_append, List.length_singleton]
          omega
        refine ⟨pre ++ h :: t ++ [w], [], ⟨by simp, fun l => ?_, ?_, fun _ _ h => by cases h⟩⟩
        · rw [show pre ++ h :: t ++ [w] = pre ++ h :: (t ++ [w]) by simp, List.append_assoc, hwhole, hwhole,
            payload_packet hlen, payload_partial (by omega), List.append_assoc]
        · simp [next, hlt]

/-! ## Whole packets -/

/-- A header of 16 bytes, whose size field counts the payload bytes, and the payload. -/
structure Packet where
  hdr : BitVec 32
  hdrRest : List (BitVec 32)
  payload : List (BitVec 32)
  hdr_length : hdrRest.length = 3
  payload_size : (hdr.extractLsb 23 8).toNat = 4 * payload.length

/-- The packet as the words it is sent in. -/
def Packet.words (p : Packet) : List (BitVec 32) := p.hdr :: p.hdrRest ++ p.payload

theorem Packet.payloadWords_eq (p : Packet) : payloadWords p.hdr = p.payload.length := by
  rw [payloadWords, p.payload_size, Nat.mul_div_cancel_left _ (by decide)]

theorem payload_words (p : Packet) (ws : List (BitVec 32)) : LimeSdrQpcie.payload (p.words ++ ws) =
    p.payload ++ LimeSdrQpcie.payload ws := by
  have hlen : (p.hdrRest ++ p.payload).length = 3 + payloadWords p.hdr := by
    rw [List.length_append, p.hdr_length, p.payloadWords_eq]
  have h := payload_packet hlen ws
  rwa [List.drop_left' p.hdr_length] at h

theorem payload_flatMap (ps : List Packet) : LimeSdrQpcie.payload (ps.flatMap Packet.words) =
    ps.flatMap Packet.payload := by
  induction ps with
  | nil => exact payload_nil
  | cons p ps ih => rw [List.flatMap_cons, payload_words, ih, List.flatMap_cons]

/-- What the words `ws` make of the registers when they follow one another without a gap. -/
def after (s : PctPayloadExtrct) (ws : List (BitVec 32)) : PctPayloadExtrct :=
  ws.foldl (fun s w => s.next ⟨true, w⟩) s

/-- The words that are left of a packet lead to its end. -/
theorem after_rest {s : PctPayloadExtrct} {ws : List (BitVec 32)} (hpos : 0 < s.wrCnt)
    (hle : s.wrCnt ≤ s.wrCntMax) (hlen : s.wrCnt + ws.length = s.wrCntMax + 1) : (s.after ws).wrCnt = 0 := by
  induction ws generalizing s with
  | nil =>
      rw [List.length_nil] at hlen
      omega
  | cons w ws ih =>
      rw [List.length_cons] at hlen
      have hreg : (s.next ⟨true, w⟩).hdrPayloadReg = s.hdrPayloadReg :=
        if_neg fun h0 => absurd h0.1 (Nat.ne_of_gt hpos)
      have hmax : (s.next ⟨true, w⟩).wrCntMax = s.wrCntMax := by
        rw [wrCntMax_eq, wrCntMax_eq, hreg]
      by_cases hlt : s.wrCnt < s.wrCntMax
      · have hcnt : (s.next ⟨true, w⟩).wrCnt = s.wrCnt + 1 := by simp [next, hlt]
        exact ih (s := s.next ⟨true, w⟩) (by omega) (by omega) (by omega)
      · have hnil : ws = [] := List.length_eq_zero_iff.mp (by omega)
        rw [hnil]
        simp [after, next, hlt]

theorem after_packet {s : PctPayloadExtrct} (h : s.wrCnt = 0) (p : Packet) : (s.after p.words).wrCnt = 0 := by
  have hmax := wrCntMax_eq s
  have hmax' : (s.next ⟨true, p.hdr⟩).wrCntMax = 3 + p.payload.length := by
    rw [wrCntMax_eq, ← p.payloadWords_eq]
    simp [next, h]
  have hcnt : (s.next ⟨true, p.hdr⟩).wrCnt = 1 := by
    have hpos : 0 < s.wrCntMax := by omega
    simp [next, h, hpos]
  apply @after_rest (s.next ⟨true, p.hdr⟩) (p.hdrRest ++ p.payload)
  · omega
  · omega
  · rw [List.length_append, p.hdr_length]
    omega

theorem after_packets {s : PctPayloadExtrct} (h : s.wrCnt = 0) (ps : List Packet) :
    (s.after (ps.flatMap Packet.words)).wrCnt = 0 := by
  induction ps generalizing s with
  | nil => exact h
  | cons p ps ih =>
      rw [List.flatMap_cons, after, List.foldl_append]
      exact ih (after_packet h p)

variable (hdr : BitVec 32) (pct : Nat → Port (BitVec 32))

/-- The word on the payload port in cycle `n`. -/
def payloadAt (n : Nat) : Option (BitVec 32) :=
  (Port.mk (((circuit hdr).run pct n).pctPayloadValid (pct n).valid) (pct n).data).word

/-- Gaps between the words change nothing, and what comes out is the payload of what went in. -/
theorem run_eq (n : Nat) :
    (circuit hdr).run pct n = (circuit hdr).reset.after (words (fun m => (pct m).word) n) ∧
    (∃ pre cur, Reads (words (fun m => (pct m).word) n) ((circuit hdr).run pct n) pre cur) ∧
    LimeSdrQpcie.payload (words (fun m => (pct m).word) n) = words (payloadAt hdr pct) n := by
  induction n with
  | zero => exact ⟨rfl, ⟨_, _, reads_boundary hdr⟩, payload_nil⟩
  | succ n ih =>
      obtain ⟨hafter, ⟨pre, cur, hr⟩, hp⟩ := ih
      rcases hv : pct n with ⟨v, w⟩
      cases v with
      | false =>
          have hout : payloadAt hdr pct n = none := by simp [payloadAt, hv, pctPayloadValid]
          have hstay : (circuit hdr).run pct (n + 1) = (circuit hdr).run pct n := by
            rw [Circuit.run_succ, hv]
            simp [circuit, next]
          rw [words_succ_of_none (by rw [hv]; rfl), words_succ_of_none hout, hstay]
          exact ⟨hafter, ⟨pre, cur, hr⟩, hp⟩
      | true =>
          have hout : payloadAt hdr pct n =
              (Port.mk (((circuit hdr).run pct n).pctPayloadValid true) w).word := by
            rw [payloadAt, hv]
          obtain ⟨hreads, hpay⟩ := reads_next hr w
          rw [words_succ_of_some (w := w) (by rw [hv]; rfl), words_succ, hout, Circuit.run_succ, hv]
          refine ⟨?_, hreads, by rw [hpay, hp]⟩
          rw [hafter, after, after, List.foldl_append]
          rfl

end PctPayloadExtrct

/-! ## The words of a stream -/

namespace PcieTop

variable (wrusedwWidth : H2F → Nat) (x : Nat → H2F → H2FInput) (k : H2F)

/-- What stands behind stream `k` in cycle `n`. -/
def streamAt (n : Nat) : H2FStream (wrusedwWidth k) := ((circuit wrusedwWidth).run x n).stream k

/-- The word the PCIe core writes to stream `k` in cycle `n`. -/
def hostAt (n : Nat) : Option (BitVec 32) := ((circuit wrusedwWidth).run x n).hostWord (x n) k

/-- The full output of stream `k` in cycle `n`. -/
def fullAt (n : Nat) : Bool := ((circuit wrusedwWidth).run x n).userWStreamFull (x n) k

/-- The words the PCIe core writes to stream `k` while its selector is `sel`. -/
def hostTo (sel : Bool) (n : Nat) : Option (BitVec 32) :=
  if (x n k).selSync = sel then hostAt wrusedwWidth x k n else none

theorem hostAt_eq (n : Nat) :
    hostAt wrusedwWidth x k n = if fullAt wrusedwWidth x k n then none else (x n k).host := rfl

/-- The words on the write port of the `two_fifo_inst` of stream `k`. -/
def twoFifoWrAt (n : Nat) : Option (BitVec 32) := H2FStream.twoFifoWr (x n k) (hostAt wrusedwWidth x k n)

/-- The words on the write port of the waveform FIFO of stream `k`. -/
def wfmFifoWrAt (n : Nat) : Option (BitVec 32) :=
  (streamAt wrusedwWidth x k n).wfmFifoWr (x n k) (hostAt wrusedwWidth x k n)

/-- The extractor follows the words written to the waveform path, and its output is their payload. -/
theorem reads_at (n : Nat) :
    (∃ pre cur, PctPayloadExtrct.Reads (words (hostTo wrusedwWidth x k true) n)
      (streamAt wrusedwWidth x k n).pctPayloadExtrct pre cur) ∧
    payload (words (hostTo wrusedwWidth x k true) n) = words (wfmFifoWrAt wrusedwWidth x k) n := by
  induction n with
  | zero => exact ⟨⟨_, _, PctPayloadExtrct.reads_boundary _⟩, payload_nil⟩
  | succ n ih =>
      obtain ⟨⟨pre, cur, hr⟩, hp⟩ := ih
      have hnext : (streamAt wrusedwWidth x k (n + 1)).pctPayloadExtrct =
          (streamAt wrusedwWidth x k n).pctPayloadExtrct.next
            (H2FStream.pctWr (x n k) (hostAt wrusedwWidth x k n)) := rfl
      cases hw : hostTo wrusedwWidth x k true n with
      | none =>
          have hv : (H2FStream.pctWr (x n k) (hostAt wrusedwWidth x k n)).valid = false := by
            unfold hostTo at hw
            unfold H2FStream.pctWr
            split at hw <;> simp_all
          have hwr : wfmFifoWrAt wrusedwWidth x k n = none := by
            simp [wfmFifoWrAt, H2FStream.wfmFifoWr, hv, PctPayloadExtrct.pctPayloadValid]
          rw [words_succ_of_none hw, words_succ_of_none hwr, hnext]
          refine ⟨⟨pre, cur, ?_⟩, hp⟩
          simpa [PctPayloadExtrct.next, hv] using hr
      | some w =>
          have hv : H2FStream.pctWr (x n k) (hostAt wrusedwWidth x k n) = ⟨true, w⟩ := by
            unfold hostTo at hw
            unfold H2FStream.pctWr
            split at hw <;> simp_all
          have hwr : wfmFifoWrAt wrusedwWidth x k n =
              (Port.mk ((streamAt wrusedwWidth x k n).pctPayloadExtrct.pctPayloadValid true) w).word := by
            rw [wfmFifoWrAt, H2FStream.wfmFifoWr, hv]
          obtain ⟨hreads, hpay⟩ := PctPayloadExtrct.reads_next hr w
          rw [words_succ_of_some hw, words_succ, hwr, hnext, hv]
          exact ⟨hreads, by rw [hpay, hp]⟩

end PcieTop

end LimeSdrQpcie
