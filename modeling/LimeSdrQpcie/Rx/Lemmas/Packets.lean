import LimeSdrQpcie.Rx.Lemmas.Data2Packets

/-!
# The packets formed

What an observer of `data2packets` sees: a word that comes while it is idle begins a packet, every other word
belongs to the packet begun last.
-/

namespace LimeSdrQpcie

open Hdl

/-- A packet as it is formed; `written` says whether it goes to the packet FIFO or is discarded. -/
structure Packet where
  hdr0 : BitVec 64
  hdr1 : BitVec 64
  payload : List (BitVec 64)
  written : Bool
  deriving DecidableEq, Repr

namespace Packet

/-- The packet as it stands in the packet FIFO. -/
def frame (pk : Packet) : List (BitVec 64) := pk.hdr0 :: pk.hdr1 :: pk.payload

def add (pk : Packet) (d : BitVec 64) : Packet := { pk with payload := pk.payload ++ [d] }

theorem frame_length (pk : Packet) : pk.frame.length = pk.payload.length + 2 := rfl

theorem add_frame (pk : Packet) (d : BitVec 64) : (pk.add d).frame = pk.frame ++ [d] := rfl

/-- The word `d` for the packet begun last. -/
def addLast : List Packet → BitVec 64 → List Packet
  | [], _ => []
  | [pk], d => [pk.add d]
  | pk :: pks, d => pk :: addLast pks d

/-- The words that the packets to be written put into the packet FIFO. -/
def frames (pks : List Packet) : List (BitVec 64) := (pks.filter written).flatMap frame

/-- The words `ws` of the packet, if it is to be written. -/
def gate (pk : Packet) (ws : List (BitVec 64)) : List (BitVec 64) := if pk.written then ws else []

theorem frames_concat (pks : List Packet) (pk : Packet) :
    frames (pks ++ [pk]) = frames pks ++ pk.gate pk.frame := by
  cases h : pk.written <;> simp [frames, gate, h]

theorem frames_prefix {pks pks' : List Packet} (h : pks <+: pks') : frames pks <+: frames pks' := by
  obtain ⟨rest, rfl⟩ := h
  rw [frames, frames, List.filter_append, List.flatMap_append]
  exact List.prefix_append _ _

theorem gate_prefix {pk : Packet} {ws ws' : List (BitVec 64)} (h : ws <+: ws') : pk.gate ws <+: pk.gate ws' := by
  cases hw : pk.written with
  | false => simp [gate, hw]
  | true => simpa [gate, hw] using h

theorem gate_concat (pk : Packet) (ws : List (BitVec 64)) (w : BitVec 64) :
    pk.gate (ws ++ [w]) = pk.gate ws ++ (if pk.written then some w else none).toList := by
  cases h : pk.written <;> simp [gate, h]

theorem addLast_concat (pks : List Packet) (pk : Packet) (d : BitVec 64) :
    addLast (pks ++ [pk]) d = pks ++ [pk.add d] := by
  induction pks with
  | nil => rfl
  | cons pk' pks ih =>
      cases pks with
      | nil => rfl
      | cons pk'' pks => exact congrArg (pk' :: ·) ih

end Packet

namespace Data2PacketsRig

variable (pw : PctBuffWidth) (sw : SampleWidth) (x : Nat → Data2PacketsRigIn)

/-- The packets begun before cycle `n`, the last one perhaps still incomplete. -/
def formed : Nat → List Packet
  | 0 => []
  | n + 1 =>
      match (packedAt pw sw x n).word with
      | none => formed n
      | some d =>
          if (topAt pw sw x n).inst2.currentState = .idle then
            formed n ++ [⟨(x n).pctHdr0, (x n).pctHdr1, [d], (topAt pw sw x n).inst0.pctBuffWrDis⟩]
          else Packet.addLast (formed n) d

variable {pw sw x} in
theorem formed_succ_of_none {n : Nat} (hv : (packedAt pw sw x n).valid = false) :
    formed pw sw x (n + 1) = formed pw sw x n := by
  rw [formed, Port.word_eq_none.mpr hv]

variable {pw sw x} in
theorem formed_succ_idle {n : Nat} (hv : (packedAt pw sw x n).valid = true)
    (hs : (topAt pw sw x n).inst2.currentState = .idle) : formed pw sw x (n + 1) = formed pw sw x n ++
      [⟨(x n).pctHdr0, (x n).pctHdr1, [(packedAt pw sw x n).data], (topAt pw sw x n).inst0.pctBuffWrDis⟩] := by
  rw [formed, Port.word_eq_some.mpr ⟨hv, rfl⟩]
  exact if_pos hs

variable {pw sw x} in
theorem formed_succ_of_ne {n : Nat} (hv : (packedAt pw sw x n).valid = true)
    (hs : (topAt pw sw x n).inst2.currentState ≠ .idle) :
    formed pw sw x (n + 1) = Packet.addLast (formed pw sw x n) (packedAt pw sw x n).data := by
  rw [formed, Port.word_eq_some.mpr ⟨hv, rfl⟩]
  exact if_neg hs

/-- The packets begun before cycle `n`: `p` complete ones, and one more while its words come. -/
def FormedAt (n p : Nat) : Prop :=
  (packed pw sw x n = sw.payloadWords * p ∧ (formed pw sw x n).length = p ∧
    ∀ pk ∈ formed pw sw x n, pk.payload.length = sw.payloadWords) ∨
  (sw.payloadWords * p < packed pw sw x n ∧ ∃ pks pk, formed pw sw x n = pks ++ [pk] ∧ pks.length = p ∧
    (∀ pk' ∈ pks, pk'.payload.length = sw.payloadWords) ∧
    sw.payloadWords * p + pk.payload.length = packed pw sw x n)

variable {pw sw x}

theorem packed_gt_of_not_idle {n p : Nat} (hd : FormAt pw sw x n p)
    (hs : (topAt pw sw x n).inst2.currentState ≠ .idle) : sw.payloadWords * p < packed pw sw x n := by
  have hb := sw.payloadWords_bounds
  cases hc : (topAt pw sw x n).inst2.currentState with
  | idle => exact absurd hc hs
  | s0 => simp only [FormAt, hc] at hd; omega
  | s1 => simp only [FormAt, hc] at hd; omega
  | s2 => simp only [FormAt, hc] at hd; omega
  | s3 => simp only [FormAt, hc] at hd

theorem formedAt_succ {n p : Nat} (hf : FsmAt pw sw x n p) (hd : FormAt pw sw x n p)
    (h : FormedAt pw sw x n p) : FormedAt pw sw x (n + 1) p := by
  have hb := sw.payloadWords_bounds
  have hk' := packed_succ pw sw x n
  cases hv : (packedAt pw sw x n).valid with
  | false =>
      rw [hv] at hk'
      rw [FormedAt, formed_succ_of_none hv, hk']
      exact h
  | true =>
      rw [hv] at hk'
      right
      by_cases hs : (topAt pw sw x n).inst2.currentState = .idle
      · simp only [FormAt, hs] at hd
        have hk : packed pw sw x n = sw.payloadWords * p := by
          rcases hd.2 with hk | hk
          · exact hk
          · rw [not_valid_of_packed hf hk] at hv; cases hv
        obtain ⟨_, hlen, hall⟩ | ⟨hlt, _⟩ := h
        · refine ⟨by simp at hk'; omega, formed pw sw x n, _, formed_succ_idle hv hs, hlen, hall, ?_⟩
          simp at hk' ⊢
          omega
        · omega
      · have hgt := packed_gt_of_not_idle hd hs
        obtain ⟨hk, _⟩ | ⟨hlt, pks, pk, heq, hlen, hall, hsum⟩ := h
        · omega
        · refine ⟨by omega, pks, pk.add (packedAt pw sw x n).data, ?_, hlen, hall, ?_⟩
          · rw [formed_succ_of_ne hv hs, heq, Packet.addLast_concat]
          · simp [Packet.add] at hk' ⊢
            omega

theorem formedAt_next {n p : Nat} (hk : packed pw sw x n = sw.payloadWords * (p + 1))
    (h : FormedAt pw sw x n p) : FormedAt pw sw x n (p + 1) := by
  have hb := sw.payloadWords_bounds
  rw [Nat.mul_succ] at hk
  left
  obtain ⟨hk', _⟩ | ⟨_, pks, pk, heq, hlen, hall, hsum⟩ := h
  · omega
  · refine ⟨by rw [Nat.mul_succ]; exact hk, by rw [heq]; simp [hlen], fun pk' hmem => ?_⟩
    rw [heq, List.mem_append, List.mem_singleton] at hmem
    rcases hmem with hmem | rfl
    · exact hall pk' hmem
    · omega

theorem formedAt_zero : FormedAt pw sw x 0 0 := Or.inl ⟨rfl, rfl, fun _ h => by cases h⟩

theorem exists_formed (n : Nat) :
    ∃ p, FsmAt pw sw x n p ∧ FormAt pw sw x n p ∧ FormedAt pw sw x n p :=
  packet_induction formedAt_zero formedAt_succ (fun _ => formedAt_next) n

/-- The payloads of the packets are the words that have left the packer. -/
theorem flatMap_payload (n : Nat) :
    (formed pw sw x n).flatMap Packet.payload = words (fun m => (packedAt pw sw x m).word) n := by
  induction n with
  | zero => rfl
  | succ n ih =>
      cases hv : (packedAt pw sw x n).valid with
      | false => rw [words_succ_of_none (Port.word_eq_none.mpr hv), ← ih, formed_succ_of_none hv]
      | true =>
          obtain ⟨p, hf, hd, hformed⟩ := @exists_formed pw sw x n
          rw [words_succ_of_some (Port.word_eq_some.mpr ⟨hv, rfl⟩), ← ih]
          by_cases hs : (topAt pw sw x n).inst2.currentState = .idle
          · rw [formed_succ_idle hv hs, List.flatMap_append]
            rfl
          · have hgt := packed_gt_of_not_idle hd hs
            obtain ⟨hk, _⟩ | ⟨_, pks, pk, heq, _⟩ := hformed
            · omega
            · rw [formed_succ_of_ne hv hs, heq, Packet.addLast_concat]
              simp [Packet.add]

/-- Every packet but the last one is complete. -/
theorem payload_length {n k : Nat} {pk : Packet} (hk : (formed pw sw x n)[k]? = some pk)
    (hlt : k + 1 < (formed pw sw x n).length) : pk.payload.length = sw.payloadWords := by
  obtain ⟨p, _, _, hformed⟩ := @exists_formed pw sw x n
  obtain ⟨_, _, hall⟩ | ⟨_, pks, pk', heq, _, hall, _⟩ := hformed
  · exact hall pk (List.mem_of_getElem? hk)
  · rw [heq] at hk hlt
    rw [List.length_append, List.length_singleton] at hlt
    rw [List.getElem?_append_left (by omega)] at hk
    exact hall pk (List.mem_of_getElem? hk)

/-- While the reader is idle all packets are complete. -/
theorem payload_length_of_idle {n : Nat} {pk : Packet} (hs : (topAt pw sw x n).inst0.currentState = .idle)
    (hpk : pk ∈ formed pw sw x n) : pk.payload.length = sw.payloadWords := by
  obtain ⟨p, hf, _, hformed⟩ := @exists_formed pw sw x n
  simp only [FsmAt, hs] at hf
  obtain ⟨_, _, hall⟩ | ⟨hlt, _⟩ := hformed
  · exact hall pk hpk
  · omega

/-! ## The samples of a packet -/

variable (pw sw x) in
/-- The words read from the sample FIFO before cycle `n`. -/
def samples (n : Nat) : List (BitVec 64) :=
  Fifo.taken (fun m => (stateAt pw sw x m).smplFifo)
    (fun m => if (topAt pw sw x m).smplBuffRdreq then 1 else 0) n

/-- The sample FIFO is never read when it is empty. -/
theorem usedw_pos {n : Nat} (h : (topAt pw sw x n).smplBuffRdreq = true) :
    0 < (stateAt pw sw x n).smplFifo.usedw := by
  obtain ⟨p, hf, _⟩ := @exists_formed pw sw x n
  have hs : (topAt pw sw x n).inst0.currentState = .rdSmplBuff := by
    rw [smplBuffRdreq_eq rfl] at h
    exact eq_of_beq h
  simp only [FsmAt, hs] at hf
  omega

/-- The words read enter the packer a cycle later. -/
theorem words_dataInAt (n : Nat) :
    words (fun m => (dataInAt pw sw x m).word) (n + 1) = samples pw sw x n := by
  induction n with
  | zero => rfl
  | succ n ih =>
      have hsucc : samples pw sw x (n + 1) = samples pw sw x n ++
          (stateAt pw sw x n).smplFifo.store.take (if (topAt pw sw x n).smplBuffRdreq then 1 else 0) := rfl
      rw [words_succ, ih, hsucc]
      congr 1
      have hin : dataInAt pw sw x (n + 1) =
          ⟨(topAt pw sw x n).smplBuffRdreq, (stateAt pw sw x (n + 1)).smplFifoQ⟩ := rfl
      have hq : (stateAt pw sw x (n + 1)).smplFifoQ =
          if (topAt pw sw x n).smplBuffRdreq then
            (stateAt pw sw x n).smplFifo.store.head?.getD (stateAt pw sw x n).smplFifoQ
          else (stateAt pw sw x n).smplFifoQ := rfl
      rw [hin, hq]
      cases hrd : (topAt pw sw x n).smplBuffRdreq with
      | false => rfl
      | true =>
          have hpos := usedw_pos hrd
          rw [Fifo.usedw] at hpos
          obtain ⟨w, ws, hstore⟩ := List.exists_cons_of_length_pos hpos
          rw [hstore]
          rfl

/-- The payloads are the bits of the samples, cut into words: nothing is lost between packets. -/
theorem payload_fills (n : Nat) : Fills (sw.keptBits (samples pw sw x n))
    ((formed pw sw x (n + 1 + sw.latency)).flatMap Packet.payload) := by
  have h := BitPack.words_out sw (dataInAt pw sw x) (n + 1)
  simp only [← packedAt_eq] at h
  rw [words_dataInAt] at h
  rw [flatMap_payload]
  exact h

theorem prefix_payload (n : Nat) :
    bitString ((formed pw sw x n).flatMap Packet.payload) <+: sw.keptBits (samples pw sw x n) := by
  obtain ⟨rest, _, hrest⟩ := @payload_fills pw sw x n
  have hpre : (formed pw sw x n).flatMap Packet.payload <+:
      (formed pw sw x (n + 1 + sw.latency)).flatMap Packet.payload := by
    rw [flatMap_payload, flatMap_payload]
    exact words_prefix _ (by omega)
  obtain ⟨t, ht⟩ := hpre
  rw [hrest, ← ht, bitString_append, List.append_assoc]
  exact List.prefix_append _ _

theorem flatMap_take_length {n k : Nat} (hk : k < (formed pw sw x n).length) :
    (((formed pw sw x n).take k).flatMap Packet.payload).length = sw.payloadWords * k := by
  induction k with
  | zero => simp
  | succ k ih =>
      have hget := List.getElem?_eq_getElem (show k < (formed pw sw x n).length by omega)
      rw [List.take_succ_eq_append_getElem (by omega), List.flatMap_append, List.length_append, ih (by omega),
        List.flatMap_cons, List.flatMap_nil, List.append_nil, payload_length hget hk, Nat.mul_succ]

theorem packet_bits (sw : SampleWidth) : 64 * sw.payloadWords = sw.bitsPerWord * sw.smplRdSize := by
  cases sw <;> decide

/-- A complete packet carries the bits of its own `smpl_rd_size` samples. -/
theorem payload_bits {n k : Nat} {pk : Packet} (hk : (formed pw sw x n)[k]? = some pk)
    (hlen : pk.payload.length = sw.payloadWords) :
    bitString pk.payload =
      sw.keptBits (((samples pw sw x n).drop (sw.smplRdSize * k)).take sw.smplRdSize) := by
  obtain ⟨hlt, hget⟩ := List.getElem?_eq_some_iff.mp hk
  have hsplit : formed pw sw x n =
      (formed pw sw x n).take k ++ pk :: (formed pw sw x n).drop (k + 1) := by
    rw [← hget, List.getElem_cons_drop, List.take_append_drop]
  have hbits := packet_bits sw
  have hA : (bitString (((formed pw sw x n).take k).flatMap Packet.payload)).length =
      sw.bitsPerWord * (sw.smplRdSize * k) := by
    rw [bitString_length, flatMap_take_length hlt, ← Nat.mul_assoc, hbits, Nat.mul_assoc]
  have hB : (bitString pk.payload).length = sw.bitsPerWord * sw.smplRdSize := by
    rw [bitString_length, hlen, hbits]
  obtain ⟨t, ht⟩ := @prefix_payload pw sw x n
  rw [hsplit, List.flatMap_append, List.flatMap_cons, bitString_append, bitString_append,
    List.append_assoc, List.append_assoc] at ht
  rw [SampleWidth.keptBits_take, SampleWidth.keptBits_drop, ← ht, List.drop_left' hA, List.take_left' hB]

/-- The phase counters of the packers count the words read. -/
theorem wrCnt_eq (n : Nat) :
    (topAt pw sw x n).inst1.inst0.wrCnt = reads pw sw x (n - 1) % 4 ∧
      (topAt pw sw x n).inst1.inst1.wrCnt = reads pw sw x (n - 1) % 8 := by
  have hpart : (topAt pw sw x n).inst1 = (BitPack.circuit sw.code).run (dataInAt pw sw x) n :=
    Circuit.run_part (c := circuit pw sw.code) (d := BitPack.circuit sw.code) (fun s => s.top.inst1)
      (fun s i => s.top.inst1DataIn (s.topIn i)) rfl (fun _ _ => rfl) x n
  rw [hpart, BitPack.run_inst0, BitPack.run_inst1, Pack48To64.run_wrCnt, Pack56To64.run_wrCnt]
  exact ⟨congrArg (· % 4) (count_dataInAt pw sw x n), congrArg (· % 8) (count_dataInAt pw sw x n)⟩

end Data2PacketsRig

end LimeSdrQpcie
