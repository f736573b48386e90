import LimeSdrQpcie.Hdl.Bits
import LimeSdrQpcie.Rx.BitPack
import LimeSdrQpcie.SampleWidth

/-!
# The packers are dense packings behind a delay line

For each sample width `bit_pack` is a register chain of fixed length behind a packer whose words are the
bits of the samples, one after the other, cut into 64-bit words. Idle cycles do not show in the words.
-/

namespace LimeSdrQpcie

open Hdl

/-! ## pack_48_to_64 -/

namespace Pack48To64

/-- The word in the formation registers. -/
def formed (s : Pack48To64) : Option (BitVec 64) :=
  (Port.mk (s.word64_0.valid || s.word64_1.valid || s.word64_2.valid) s.data64OutMux).word

/-- The bits of the input register that are still to be sent. -/
def rest (s : Pack48To64) : List Bool :=
  match s.wrCnt with
  | 0 => []
  | 1 => bits s.data48InReg
  | 2 => (bits s.data48InReg).drop 16
  | _ => (bits s.data48InReg).drop 32

theorem next_wrCnt_lt {s : Pack48To64} (h : s.wrCnt < 4) (i : Port (BitVec 48)) : (s.next i).wrCnt < 4 := by
  simp only [next]
  split
  · split <;> omega
  · exact h

theorem rest_length_lt (s : Pack48To64) : s.rest.length < 64 := by
  unfold rest
  split <;> simp

/-- One clock edge moves the bits of an input word to the word formed or keeps them. -/
theorem next_formed {s : Pack48To64} (h : s.wrCnt < 4) (i : Port (BitVec 48)) :
    s.rest ++ bitString i.word.toList = bitString (s.next i).formed.toList ++ (s.next i).rest := by
  obtain ⟨valid, d⟩ := i
  cases valid with
  | false => simp [next, formed, rest]
  | true =>
      have h0 : bits (n := 64) (d.extractLsb 15 0 ++ s.data48InReg) =
          bits s.data48InReg ++ (bits d).take 16 :=
        (bits_append _ _).trans (by rw [bits_extractLsb_low d (by omega)])
      have h1 : bits (n := 64) (d.extractLsb 31 0 ++ s.data48InReg.extractLsb 47 16) =
          (bits s.data48InReg).drop 16 ++ (bits d).take 32 :=
        bits_join d s.data48InReg (by omega) (by omega) (by omega)
      have h2 : bits (n := 64) (d.extractLsb 47 0 ++ s.data48InReg.extractLsb 47 32) =
          (bits s.data48InReg).drop 32 ++ (bits d).take 48 :=
        bits_join d s.data48InReg (by omega) (by omega) (by omega)
      obtain hc | hc | hc | hc : s.wrCnt = 0 ∨ s.wrCnt = 1 ∨ s.wrCnt = 2 ∨ s.wrCnt = 3 := by omega
      · simp [next, formed, rest, hc]
      · simp [next, formed, rest, hc, data64OutMux, h0]
      · simp [next, formed, rest, hc, data64OutMux, h1]
      · simp [next, formed, rest, hc, data64OutMux, h2, List.take_of_length_le]

theorem run_wrCnt_lt (x : Nat → Port (BitVec 48)) (n : Nat) : (circuit.run x n).wrCnt < 4 :=
  Circuit.invariant (P := fun s : Pack48To64 => s.wrCnt < 4) x (by decide) (fun _ i h => next_wrCnt_lt h i) n

theorem words_formed (x : Nat → Port (BitVec 48)) (n : Nat) :
    bitString (words (fun m => (x m).word) n) =
      bitString (words (fun m => (circuit.run x (m + 1)).formed) n) ++ (circuit.run x n).rest := by
  induction n with
  | zero => rfl
  | succ n ih =>
      rw [words_succ, words_succ, bitString_append, bitString_append, ih, List.append_assoc,
        next_formed (run_wrCnt_lt x n), Circuit.run_succ, List.append_assoc]
      rfl

/-- Two cycles after the input words the words they fill have left. -/
theorem words_out (x : Nat → Port (BitVec 48)) (n : Nat) :
    Fills (bitString (words (fun m => (x m).word) n))
      (words (fun m => (circuit.run x m).data64Out.word) (n + 2)) := by
  have h1 : (fun m => (circuit.run x m).data64Out.word) = delay 1 fun m => (circuit.run x m).formed :=
    eq_delay_one rfl (fun _ => rfl)
  have h2 : (fun m => (circuit.run x m).formed) = delay 1 fun m => (circuit.run x (m + 1)).formed :=
    eq_delay_one rfl (fun _ => rfl)
  rw [h1, h2, delay_delay, words_delay_add]
  exact ⟨_, rest_length_lt _, words_formed x n⟩

/-- The phase counter counts the input words modulo four. -/
theorem run_wrCnt (x : Nat → Port (BitVec 48)) (n : Nat) :
    (circuit.run x n).wrCnt = count (fun m => (x m).valid) n % 4 := by
  induction n with
  | zero => rfl
  | succ n ih =>
      have hlt := run_wrCnt_lt x n
      rw [Circuit.run_succ, count_succ]
      change (next _ _).wrCnt = _
      cases hv : (x n).valid with
      | false => simpa [next, hv] using ih
      | true =>
          simp only [next, hv, if_true, Bool.toNat_true]
          split <;> omega

end Pack48To64

/-! ## pack_56_to_64 -/

namespace Pack56To64

/-- The word in the formation registers, as the multiplexers will choose it. -/
def formed (s : Pack56To64) : Option (BitVec 64) :=
  (Port.mk
    (s.word64_0.valid || s.word64_1.valid || s.word64_2.valid || s.word64_3.valid ||
      s.word64_4.valid || s.word64_5.valid || s.word64_6.valid)
    (if ((s.word64_3.valid || s.word64_4.valid) || (s.word64_5.valid || s.word64_6.valid)) = false then
      if (s.word64_1.valid || s.word64_2.valid) = false then
        if s.word64_0.valid then s.word64_0.data else 0
      else if s.word64_1.valid then s.word64_1.data else s.word64_2.data
    else if (s.word64_5.valid || s.word64_6.valid) = false then
      if s.word64_3.valid then s.word64_3.data else s.word64_4.data
    else if s.word64_5.valid then s.word64_5.data else s.word64_6.data)).word

/-- The word behind the first multiplexer stage. -/
def stage0 (s : Pack56To64) : Option (BitVec 64) :=
  (Port.mk s.dataOutValidReg
    (if (s.muxStage1_6_3_sel_0 || s.muxStage1_6_3_sel_1) = false then
      if s.muxStage1_2_0_sel = false then s.muxStage0_X_0_reg else s.muxStage0_2_1_reg
    else if s.muxStage1_6_3_sel_1 = false then s.muxStage0_4_3_reg else s.muxStage0_6_5_reg)).word

/-- The word behind the second multiplexer stage. -/
def stage1 (s : Pack56To64) : Option (BitVec 64) :=
  (Port.mk s.dataOutValidPipe0
    (if s.muxStage2_6_0_sel = false then s.muxStage1_2_0_reg else s.muxStage1_6_3_reg)).word

theorem next_stage0 (s : Pack56To64) (i : Port (BitVec 56)) : (s.next i).stage0 = s.formed := rfl

theorem next_stage1 (s : Pack56To64) (i : Port (BitVec 56)) : (s.next i).stage1 = s.stage0 := rfl

theorem next_data64Out (s : Pack56To64) (i : Port (BitVec 56)) : (s.next i).data64Out.word = s.stage1 := rfl

/-- The bits of the input register that are still to be sent. -/
def rest (s : Pack56To64) : List Bool :=
  if s.wrCnt = 0 then [] else (bits s.data56InReg).drop (8 * (s.wrCnt - 1))

theorem rest_length_lt (s : Pack56To64) : s.rest.length < 64 := by
  unfold rest
  split
  · simp
  · simp only [List.length_drop, bits_length]
    omega

theorem next_wrCnt_lt {s : Pack56To64} (h : s.wrCnt < 8) (i : Port (BitVec 56)) : (s.next i).wrCnt < 8 := by
  simp only [next]
  split
  · split <;> omega
  · exact h

/-- One clock edge moves the bits of an input word to the word formed or keeps them. -/
theorem next_formed {s : Pack56To64} (h : s.wrCnt < 8) (i : Port (BitVec 56)) :
    s.rest ++ bitString i.word.toList = bitString (s.next i).formed.toList ++ (s.next i).rest := by
  obtain ⟨valid, d⟩ := i
  cases valid with
  | false => simp [next, formed, rest, wordReg]
  | true =>
      have hr : ∀ {k j : Nat}, k < 56 → j ≤ 55 →
          bits (d.extractLsb k 0 ++ s.data56InReg.extractLsb 55 j) =
            (bits s.data56InReg).drop j ++ (bits d).take (k + 1) :=
        fun hk hj => bits_join d s.data56InReg hk hj (by omega)
      have h0 : bits (n := 64) (d.extractLsb 7 0 ++ s.data56InReg) =
          bits s.data56InReg ++ (bits d).take 8 :=
        (bits_append _ _).trans (by rw [bits_extractLsb_low d (by omega)])
      have h1 : bits (n := 64) (d.extractLsb 15 0 ++ s.data56InReg.extractLsb 55 8) = _ :=
        hr (by omega) (by omega)
      have h2 : bits (n := 64) (d.extractLsb 23 0 ++ s.data56InReg.extractLsb 55 16) = _ :=
        hr (by omega) (by omega)
      have h3 : bits (n := 64) (d.extractLsb 31 0 ++ s.data56InReg.extractLsb 55 24) = _ :=
        hr (by omega) (by omega)
      have h4 : bits (n := 64) (d.extractLsb 39 0 ++ s.data56InReg.extractLsb 55 32) = _ :=
        hr (by omega) (by omega)
      have h5 : bits (n := 64) (d.extractLsb 47 0 ++ s.data56InReg.extractLsb 55 40) = _ :=
        hr (by omega) (by omega)
      have h6 : bits (n := 64) (d.extractLsb 55 0 ++ s.data56InReg.extractLsb 55 48) = _ :=
        hr (by omega) (by omega)
      obtain hc | hc | hc | hc | hc | hc | hc | hc : s.wrCnt = 0 ∨ s.wrCnt = 1 ∨ s.wrCnt = 2 ∨ s.wrCnt = 3 ∨
          s.wrCnt = 4 ∨ s.wrCnt = 5 ∨ s.wrCnt = 6 ∨ s.wrCnt = 7 := by omega
      · simp [next, formed, rest, wordReg, hc]
      · simp [next, formed, rest, wordReg, hc, h0]
      · simp [next, formed, rest, wordReg, hc, h1]
      · simp [next, formed, rest, wordReg, hc, h2]
      · simp [next, formed, rest, wordReg, hc, h3]
      · simp [next, formed, rest, wordReg, hc, h4]
      · simp [next, formed, rest, wordReg, hc, h5]
      · simp [next, formed, rest, wordReg, hc, h6, List.take_of_length_le]

theorem run_wrCnt_lt (x : Nat → Port (BitVec 56)) (n : Nat) : (circuit.run x n).wrCnt < 8 :=
  Circuit.invariant (P := fun s : Pack56To64 => s.wrCnt < 8) x (by decide) (fun _ i h => next_wrCnt_lt h i) n

theorem words_formed (x : Nat → Port (BitVec 56)) (n : Nat) :
    bitString (words (fun m => (x m).word) n) =
      bitString (words (fun m => (circuit.run x (m + 1)).formed) n) ++ (circuit.run x n).rest := by
  induction n with
  | zero => rfl
  | succ n ih =>
      rw [words_succ, words_succ, bitString_append, bitString_append, ih, List.append_assoc,
        next_formed (run_wrCnt_lt x n), Circuit.run_succ, List.append_assoc]
      rfl

/-- Four cycles after the input words the words they fill have left. -/
theorem words_out (x : Nat → Port (BitVec 56)) (n : Nat) :
    Fills (bitString (words (fun m => (x m).word) n))
      (words (fun m => (circuit.run x m).data64Out.word) (n + 4)) := by
  have h1 : (fun m => (circuit.run x m).data64Out.word) = delay 1 fun m => (circuit.run x m).stage1 :=
    eq_delay_one rfl (fun _ => next_data64Out _ _)
  have h2 : (fun m => (circuit.run x m).stage1) = delay 1 fun m => (circuit.run x m).stage0 :=
    eq_delay_one rfl (fun _ => next_stage1 _ _)
  have h3 : (fun m => (circuit.run x m).stage0) = delay 1 fun m => (circuit.run x m).formed :=
    eq_delay_one rfl (fun _ => next_stage0 _ _)
  have h4 : (fun m => (circuit.run x m).formed) = delay 1 fun m => (circuit.run x (m + 1)).formed :=
    eq_delay_one rfl (fun _ => rfl)
  rw [h1, h2, h3, h4, delay_delay, delay_delay, delay_delay, words_delay_add]
  exact ⟨_, rest_length_lt _, words_formed x n⟩

/-- The phase counter counts the input words modulo eight. -/
theorem run_wrCnt (x : Nat → Port (BitVec 56)) (n : Nat) :
    (circuit.run x n).wrCnt = count (fun m => (x m).valid) n % 8 := by
  induction n with
  | zero => rfl
  | succ n ih =>
      have hlt := run_wrCnt_lt x n
      rw [Circuit.run_succ, count_succ]
      change (next _ _).wrCnt = _
      cases hv : (x n).valid with
      | false => simpa [next, hv] using ih
      | true =>
          simp only [next, hv, if_true, Bool.toNat_true]
          split <;> omega

end Pack56To64

/-! ## bit_pack -/

/-- The bits of a sample word that are sent, the lowest lane first. -/
def SampleWidth.kept : SampleWidth → BitVec 64 → List Bool
  | .w12, w => bits (BitPack.inst0Data48In w)
  | .w14, w => bits (BitPack.inst1Data56In w)
  | .w16, w => bits w

/-- How many bits of a sample word are sent. -/
def SampleWidth.bitsPerWord : SampleWidth → Nat
  | .w12 => 48
  | .w14 => 56
  | .w16 => 64

/-- The cycles from an input word to the output word it completes. -/
def SampleWidth.latency : SampleWidth → Nat
  | .w12 => 4
  | .w14 => 6
  | .w16 => 1

@[simp] theorem SampleWidth.kept_length (sw : SampleWidth) (w : BitVec 64) :
    (sw.kept w).length = sw.bitsPerWord := by
  cases sw <;> simp [kept, bitsPerWord]

/-- The bits of a list of sample words that are sent. -/
def SampleWidth.keptBits (sw : SampleWidth) (ws : List (BitVec 64)) : List Bool := ws.flatMap sw.kept

namespace SampleWidth

@[simp] theorem keptBits_length (sw : SampleWidth) (ws : List (BitVec 64)) :
    (sw.keptBits ws).length = sw.bitsPerWord * ws.length := by
  induction ws with
  | nil => rfl
  | cons w ws ih =>
      rw [keptBits, List.flatMap_cons, List.length_append, ← keptBits, ih, kept_length, List.length_cons,
        Nat.mul_succ, Nat.add_comm]

theorem keptBits_take (sw : SampleWidth) (ws : List (BitVec 64)) (k : Nat) :
    sw.keptBits (ws.take k) = (sw.keptBits ws).take (sw.bitsPerWord * k) := flatMap_take sw.kept_length ws k

theorem keptBits_drop (sw : SampleWidth) (ws : List (BitVec 64)) (k : Nat) :
    sw.keptBits (ws.drop k) = (sw.keptBits ws).drop (sw.bitsPerWord * k) := flatMap_drop sw.kept_length ws k

theorem keptBits_w12 (ws : List (BitVec 64)) :
    SampleWidth.w12.keptBits ws = bitString (ws.map BitPack.inst0Data48In) := by
  rw [keptBits, bitString, List.flatMap_map]
  rfl

theorem keptBits_w14 (ws : List (BitVec 64)) :
    SampleWidth.w14.keptBits ws = bitString (ws.map BitPack.inst1Data56In) := by
  rw [keptBits, bitString, List.flatMap_map]
  rfl

end SampleWidth

namespace BitPack

theorem run_inst0 (c : BitVec 2) (x : Nat → Port (BitVec 64)) (n : Nat) :
    ((circuit c).run x n).inst0 =
      Pack48To64.circuit.run (fun m => ⟨(x m).valid, inst0Data48In (x m).data⟩) n :=
  Circuit.run_part (c := circuit c) (d := Pack48To64.circuit) (fun s => s.inst0)
    (fun _ i => ⟨i.valid, inst0Data48In i.data⟩) rfl (fun _ _ => rfl) x n

theorem run_inst1 (c : BitVec 2) (x : Nat → Port (BitVec 64)) (n : Nat) :
    ((circuit c).run x n).inst1 =
      Pack56To64.circuit.run (fun m => ⟨(x m).valid, inst1Data56In (x m).data⟩) n :=
  Circuit.run_part (c := circuit c) (d := Pack56To64.circuit) (fun s => s.inst1)
    (fun _ i => ⟨i.valid, inst1Data56In i.data⟩) rfl (fun _ _ => rfl) x n

/-- `bit_pack` sends the samples as a dense bit string, with a fixed latency and for every idle pattern. -/
theorem words_out (sw : SampleWidth) (x : Nat → Port (BitVec 64)) (n : Nat) :
    Fills (sw.keptBits (words (fun m => (x m).word) n))
      (words (fun m => ((circuit sw.code).run x m).dataOut.word) (n + sw.latency)) := by
  cases sw with
  | w12 =>
      have h1 : (fun m => ((circuit 0b10).run x m).dataOut.word) =
          delay 1 fun m => ((circuit 0b10).run x m).mux0Reg.word := eq_delay_one rfl (fun _ => rfl)
      have h2 : (fun m => ((circuit 0b10).run x m).mux0Reg.word) =
          delay 1 fun m => ((circuit 0b10).run x m).inst0.data64Out.word := eq_delay_one rfl (fun _ => rfl)
      have h3 := Pack48To64.words_out (fun m => ⟨(x m).valid, inst0Data48In (x m).data⟩) n
      simp only [Port.word_map, words_map, ← run_inst0 0b10] at h3
      rw [SampleWidth.keptBits_w12]
      simp only [SampleWidth.code, SampleWidth.latency]
      rw [h1, h2, delay_delay, words_delay]
      exact h3
  | w14 =>
      have h1 : (fun m => ((circuit 0b01).run x m).dataOut.word) =
          delay 1 fun m => ((circuit 0b01).run x m).mux0Reg.word := eq_delay_one rfl (fun _ => rfl)
      have h2 : (fun m => ((circuit 0b01).run x m).mux0Reg.word) =
          delay 1 fun m => ((circuit 0b01).run x m).inst1.data64Out.word := eq_delay_one rfl (fun _ => rfl)
      have h3 := Pack56To64.words_out (fun m => ⟨(x m).valid, inst1Data56In (x m).data⟩) n
      simp only [Port.word_map, words_map, ← run_inst1 0b01] at h3
      rw [SampleWidth.keptBits_w14]
      simp only [SampleWidth.code, SampleWidth.latency]
      rw [h1, h2, delay_delay, words_delay]
      exact h3
  | w16 =>
      have h1 : (fun m => ((circuit 0b00).run x m).dataOut.word) = delay 1 fun m => (x m).word :=
        eq_delay_one rfl (fun _ => rfl)
      simp only [SampleWidth.code, SampleWidth.latency]
      rw [h1, words_delay_add]
      exact Fills.whole (by omega) _

/-- How many words `bit_pack` has sent. -/
theorem words_out_length (sw : SampleWidth) (x : Nat → Port (BitVec 64)) (n : Nat) :
    (words (fun m => ((circuit sw.code).run x m).dataOut.word) (n + sw.latency)).length =
      sw.bitsPerWord * (words (fun m => (x m).word) n).length / 64 := by
  rw [(words_out sw x n).length, SampleWidth.keptBits_length]

end BitPack

end LimeSdrQpcie
