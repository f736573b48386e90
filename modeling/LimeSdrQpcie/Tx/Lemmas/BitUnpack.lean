import LimeSdrQpcie.Hdl.Bits
import LimeSdrQpcie.SampleWidth
import LimeSdrQpcie.Tx.BitUnpack

/-!
# The unpackers cut a dense bit string into sample words

For 12 bit the 128-bit words are the words of 96 bits that the input fills, with a zero nibble put below
each sample; for 14 bit they are the words of 112 bits with two zero bits below each sample; for 16 bit they
are the words of 128 bits that the input fills.
-/

namespace LimeSdrQpcie

open Hdl

/-- When every cycle moves the bits of its input word to the word formed or keeps them, all input bits
are in the words formed or kept. -/
theorem words_of_steps {a b c : Nat} (inp : Nat → Option (BitVec a)) (out : Nat → Option (BitVec c))
    (kept : Nat → List Bool) (f : BitVec b → BitVec c) (h0 : kept 0 = [])
    (hs : ∀ m, ∃ w : Option (BitVec b), out m = w.map f ∧
      kept m ++ bitString (inp m).toList = bitString w.toList ++ kept (m + 1)) (n : Nat) :
    ∃ ws : List (BitVec b), words out n = ws.map f ∧ bitString (words inp n) = bitString ws ++ kept n := by
  induction n with
  | zero => exact ⟨[], rfl, by simp [h0]⟩
  | succ n ih =>
      obtain ⟨ws, hf, hb⟩ := ih
      obtain ⟨w, hw, hr⟩ := hs n
      refine ⟨ws ++ w.toList, ?_, ?_⟩
      · rw [words_succ, hf, hw, List.map_append]
        cases w <;> rfl
      · rw [words_succ, bitString_append, hb, List.append_assoc, hr, bitString_append, List.append_assoc]

/-! ## unpack_64_to_48 -/

namespace Unpack64To48

theorem bits_lanes128 (l7 l6 l5 l4 l3 l2 l1 l0 : BitVec 12) :
    bits (lanes128 l7 l6 l5 l4 l3 l2 l1 l0) =
      [l0, l1, l2, l3, l4, l5, l6, l7].flatMap fun l => bits 0#4 ++ bits l := by
  simp only [lanes128, bits_append]
  simp

/-- Eight packed 12-bit samples in the upper bits of eight 16-bit lanes. -/
def spread (w : BitVec 96) : BitVec 128 :=
  lanes128 (w.extractLsb 95 84) (w.extractLsb 83 72) (w.extractLsb 71 60) (w.extractLsb 59 48)
    (w.extractLsb 47 36) (w.extractLsb 35 24) (w.extractLsb 23 12) (w.extractLsb 11 0)

theorem bits_spread (w : BitVec 96) {l : List Bool} (h : bits w = l) :
    bits (spread w) = [0, 12, 24, 36, 48, 60, 72, 84].flatMap fun k => bits 0#4 ++ (l.drop k).take 12 := by
  rw [spread, bits_lanes128]
  simp [bits_extractLsb, h, List.drop_take]

theorem formWord128_0_eq (d r : BitVec 64) : formWord128_0 d r = spread (d.extractLsb 31 0 ++ r) := by
  have h : bits (n := 96) (d.extractLsb 31 0 ++ r) = bits r ++ (bits d).take 32 :=
    (bits_append _ _).trans (by rw [bits_extractLsb_low d (by omega)])
  have h5 : bits (n := 12) (d.extractLsb 7 0 ++ r.extractLsb 63 60) = (bits r).drop 60 ++ (bits d).take 8 :=
    bits_join d r (by omega) (by omega) (by omega)
  apply bits_inj
  rw [bits_spread _ h, formWord128_0, bits_lanes128]
  simp [h5, bits_extractLsb, List.take_append, List.drop_append, List.take_take, List.drop_take,
    List.take_of_length_le, List.drop_of_length_le]

theorem formWord128_1_eq (d r : BitVec 64) :
    formWord128_1 d r = spread (d.extractLsb 63 0 ++ r.extractLsb 63 32) := by
  have h : bits (n := 96) (d.extractLsb 63 0 ++ r.extractLsb 63 32) =
      (bits r).drop 32 ++ (bits d).take 64 := bits_join d r (by omega) (by omega) (by omega)
  have h2 : bits (n := 12) (d.extractLsb 3 0 ++ r.extractLsb 63 56) = (bits r).drop 56 ++ (bits d).take 4 :=
    bits_join d r (by omega) (by omega) (by omega)
  apply bits_inj
  rw [bits_spread _ h, formWord128_1, bits_lanes128]
  simp [h2, bits_extractLsb, List.take_append, List.drop_append, List.drop_take,
    List.take_of_length_le, List.drop_of_length_le]

/-- The word in the formation registers. -/
def formed (s : Unpack64To48) : Option (BitVec 128) :=
  (Port.mk (s.word128_0.valid || s.word128_1.valid) s.data128OutMux).word

/-- The bits of the input register that are still to be sent. -/
def rest (s : Unpack64To48) : List Bool :=
  match s.wrCnt with
  | 0 => []
  | 1 => bits s.data64InReg
  | _ => (bits s.data64InReg).drop 32

theorem rest_length_lt (s : Unpack64To48) : s.rest.length < 96 := by
  unfold rest
  split <;> simp

theorem next_wrCnt_lt {s : Unpack64To48} (h : s.wrCnt < 3) (i : Port (BitVec 64)) :
    (s.next i).wrCnt < 3 := by
  simp only [next]
  split
  · split <;> omega
  · exact h

/-- One clock edge moves the bits of an input word to the word formed or keeps them. -/
theorem next_formed {s : Unpack64To48} (h : s.wrCnt < 3) (i : Port (BitVec 64)) :
    ∃ w : Option (BitVec 96), (s.next i).formed = w.map spread ∧
      s.rest ++ bitString i.word.toList = bitString w.toList ++ (s.next i).rest := by
  obtain ⟨valid, d⟩ := i
  cases valid with
  | false => exact ⟨none, by simp [next, formed], by simp [next, rest]⟩
  | true =>
      have h0 : bits (n := 96) (d.extractLsb 31 0 ++ s.data64InReg) =
          bits s.data64InReg ++ (bits d).take 32 :=
        (bits_append _ _).trans (by rw [bits_extractLsb_low d (by omega)])
      have h1 : bits (n := 96) (d.extractLsb 63 0 ++ s.data64InReg.extractLsb 63 32) =
          (bits s.data64InReg).drop 32 ++ (bits d).take 64 :=
        bits_join d s.data64InReg (by omega) (by omega) (by omega)
      obtain hc | hc | hc : s.wrCnt = 0 ∨ s.wrCnt = 1 ∨ s.wrCnt = 2 := by omega
      · exact ⟨none, by simp [next, formed, hc], by simp [next, rest, hc]⟩
      · refine ⟨some (d.extractLsb 31 0 ++ s.data64InReg), ?_, ?_⟩
        · simp [next, formed, hc, data128OutMux, formWord128_0_eq]
        · simp [next, rest, hc, h0]
      · refine ⟨some (d.extractLsb 63 0 ++ s.data64InReg.extractLsb 63 32), ?_, ?_⟩
        · simp [next, formed, hc, data128OutMux, formWord128_1_eq]
        · simp [next, rest, hc, h1, List.take_of_length_le]

theorem run_wrCnt_lt (x : Nat → Port (BitVec 64)) (n : Nat) : (circuit.run x n).wrCnt < 3 :=
  Circuit.invariant (P := fun s : Unpack64To48 => s.wrCnt < 3) x (by decide) (fun _ i h => next_wrCnt_lt h i) n

theorem words_formed (x : Nat → Port (BitVec 64)) (n : Nat) :
    ∃ ws : List (BitVec 96),
      words (fun m => (circuit.run x (m + 1)).formed) n = ws.map spread ∧
      bitString (words (fun m => (x m).word) n) = bitString ws ++ (circuit.run x n).rest :=
  words_of_steps (fun m => (x m).word) (fun m => (circuit.run x (m + 1)).formed)
    (fun m => (circuit.run x m).rest) spread rfl (fun m => next_formed (run_wrCnt_lt x m) (x m)) n

/-- Two cycles after the input words the words they fill have left. -/
theorem words_out (x : Nat → Port (BitVec 64)) (n : Nat) :
    ∃ ws : List (BitVec 96), Fills (bitString (words (fun m => (x m).word) n)) ws ∧
      words (fun m => (circuit.run x m).data48Out.word) (n + 2) = ws.map spread := by
  have h1 : (fun m => (circuit.run x m).data48Out.word) = delay 1 fun m => (circuit.run x m).formed :=
    eq_delay_one rfl (fun _ => rfl)
  have h2 : (fun m => (circuit.run x m).formed) = delay 1 fun m => (circuit.run x (m + 1)).formed :=
    eq_delay_one rfl (fun _ => rfl)
  obtain ⟨ws, hf, hb⟩ := words_formed x n
  refine ⟨ws, ⟨_, rest_length_lt _, hb⟩, ?_⟩
  rw [h1, h2, delay_delay, words_delay_add, hf]

end Unpack64To48

/-! ## unpack_64_to_56 -/

namespace Unpack64To56

theorem bits_lanes128 (l7 l6 l5 l4 l3 l2 l1 l0 : BitVec 14) :
    bits (lanes128 l7 l6 l5 l4 l3 l2 l1 l0) =
      [l0, l1, l2, l3, l4, l5, l6, l7].flatMap fun l => bits 0#2 ++ bits l := by
  simp only [lanes128, bits_append]
  simp

/-- Eight packed 14-bit samples in the upper bits of eight 16-bit lanes. -/
def spread (w : BitVec 112) : BitVec 128 :=
  lanes128 (w.extractLsb 111 98) (w.extractLsb 97 84) (w.extractLsb 83 70) (w.extractLsb 69 56)
    (w.extractLsb 55 42) (w.extractLsb 41 28) (w.extractLsb 27 14) (w.extractLsb 13 0)

theorem bits_spread (w : BitVec 112) {l : List Bool} (h : bits w = l) :
    bits (spread w) = [0, 14, 28, 42, 56, 70, 84, 98].flatMap fun k => bits 0#2 ++ (l.drop k).take 14 := by
  rw [spread, bits_lanes128]
  simp [bits_extractLsb, h, List.drop_take]

/-! The 112 bits of which each formation stage spreads the samples. -/

def dense_0 (d r0 : BitVec 64) : BitVec 112 := d.extractLsb 47 0 ++ r0

def dense_1 (d r0 r1 : BitVec 64) : BitVec 112 := d.extractLsb 31 0 ++ (r0 ++ r1.extractLsb 63 48)

def dense_2 (d r0 r1 : BitVec 64) : BitVec 112 := d.extractLsb 15 0 ++ (r0 ++ r1.extractLsb 63 32)

def dense_3 (d r0 : BitVec 64) : BitVec 112 := d.extractLsb 63 0 ++ r0.extractLsb 63 16

theorem bits_dense_0 (d r0 : BitVec 64) : bits (dense_0 d r0) = bits r0 ++ (bits d).take 48 :=
  (bits_append _ _).trans (by rw [bits_extractLsb_low d (by omega)])

theorem bits_dense_1 (d r0 r1 : BitVec 64) :
    bits (dense_1 d r0 r1) = (bits r1).drop 48 ++ bits r0 ++ (bits d).take 32 := by
  refine (bits_append _ _).trans ?_
  rw [bits_extractLsb_low d (by omega), ← bits_extractLsb_top r1 (show 48 ≤ 63 by omega) rfl]
  exact congrArg (· ++ _) (bits_append _ _)

theorem bits_dense_2 (d r0 r1 : BitVec 64) :
    bits (dense_2 d r0 r1) = (bits r1).drop 32 ++ bits r0 ++ (bits d).take 16 := by
  refine (bits_append _ _).trans ?_
  rw [bits_extractLsb_low d (by omega), ← bits_extractLsb_top r1 (show 32 ≤ 63 by omega) rfl]
  exact congrArg (· ++ _) (bits_append _ _)

theorem bits_dense_3 (d r0 : BitVec 64) : bits (dense_3 d r0) = (bits r0).drop 16 ++ (bits d).take 64 :=
  bits_join d r0 (by omega) (by omega) (by omega)

theorem formWord128_0_eq (d r0 : BitVec 64) : formWord128_0 d r0 = spread (dense_0 d r0) := by
  have h4 : bits (n := 14) (d.extractLsb 5 0 ++ r0.extractLsb 63 56) = (bits r0).drop 56 ++ (bits d).take 6 :=
    bits_join d r0 (by omega) (by omega) (by omega)
  apply bits_inj
  rw [bits_spread _ (bits_dense_0 d r0), formWord128_0, bits_lanes128]
  simp [h4, bits_extractLsb, List.take_append, List.drop_append, List.take_take, List.drop_take,
    List.take_of_length_le, List.drop_of_length_le]

theorem formWord128_1_eq (d r0 r1 : BitVec 64) : formWord128_1 d r0 r1 = spread (dense_1 d r0 r1) := by
  have h1 : bits (n := 14) (r0.extractLsb 11 0 ++ r1.extractLsb 63 62) =
      (bits r1).drop 62 ++ (bits r0).take 12 := bits_join r0 r1 (by omega) (by omega) (by omega)
  have h5 : bits (n := 14) (d.extractLsb 3 0 ++ r0.extractLsb 63 54) =
      (bits r0).drop 54 ++ (bits d).take 4 := bits_join d r0 (by omega) (by omega) (by omega)
  apply bits_inj
  rw [bits_spread _ (bits_dense_1 d r0 r1), formWord128_1, bits_lanes128]
  simp [h1, h5, bits_extractLsb, List.take_append, List.drop_append, List.take_take, List.drop_take,
    List.take_of_length_le, List.drop_of_length_le]

theorem formWord128_2_eq (d r0 r1 : BitVec 64) : formWord128_2 d r0 r1 = spread (dense_2 d r0 r1) := by
  have h2 : bits (n := 14) (r0.extractLsb 9 0 ++ r1.extractLsb 63 60) =
      (bits r1).drop 60 ++ (bits r0).take 10 := bits_join r0 r1 (by omega) (by omega) (by omega)
  have h6 : bits (n := 14) (d.extractLsb 1 0 ++ r0.extractLsb 63 52) =
      (bits r0).drop 52 ++ (bits d).take 2 := bits_join d r0 (by omega) (by omega) (by omega)
  apply bits_inj
  rw [bits_spread _ (bits_dense_2 d r0 r1), formWord128_2, bits_lanes128]
  simp [h2, h6, bits_extractLsb, List.take_append, List.drop_append, List.take_take, List.drop_take,
    List.take_of_length_le, List.drop_of_length_le]

theorem formWord128_3_eq (d r0 : BitVec 64) : formWord128_3 d r0 = spread (dense_3 d r0) := by
  have h3 : bits (n := 14) (d.extractLsb 7 0 ++ r0.extractLsb 63 58) = (bits r0).drop 58 ++ (bits d).take 8 :=
    bits_join d r0 (by omega) (by omega) (by omega)
  apply bits_inj
  rw [bits_spread _ (bits_dense_3 d r0), formWord128_3, bits_lanes128]
  simp [h3, bits_extractLsb, List.take_append, List.drop_append, List.drop_take,
    List.take_of_length_le, List.drop_of_length_le]

/-- The word in the formation registers, as the multiplexers will choose it. -/
def formed (s : Unpack64To56) : Option (BitVec 128) :=
  (Port.mk (s.word128_0.valid || s.word128_1.valid || s.word128_2.valid || s.word128_3.valid)
    (if s.word128_0.valid || s.word128_1.valid then s.muxStage0_1_0 else s.muxStage0_3_2)).word

/-- The word behind the first multiplexer stage. -/
def stage0 (s : Unpack64To56) : Option (BitVec 128) := (Port.mk s.dataOutValidReg s.muxStage1_3_0).word

theorem next_stage0 (s : Unpack64To56) (i : Port (BitVec 64)) : (s.next i).stage0 = s.formed := rfl

theorem next_data56Out (s : Unpack64To56) (i : Port (BitVec 64)) : (s.next i).data56Out.word = s.stage0 := rfl

/-- The bits of the input registers that are still to be sent. -/
def rest (s : Unpack64To56) : List Bool :=
  match s.wrCnt with
  | 0 => []
  | 1 => bits s.data64InReg0
  | 2 => (bits s.data64InReg0).drop 48
  | 3 => (bits s.data64InReg1).drop 48 ++ bits s.data64InReg0
  | 4 => (bits s.data64InReg0).drop 32
  | 5 => (bits s.data64InReg1).drop 32 ++ bits s.data64InReg0
  | _ => (bits s.data64InReg0).drop 16

theorem rest_length_lt (s : Unpack64To56) : s.rest.length < 112 := by
  unfold rest
  split <;> simp

theorem next_wrCnt_lt {s : Unpack64To56} (h : s.wrCnt < 7) (i : Port (BitVec 64)) :
    (s.next i).wrCnt < 7 := by
  simp only [next]
  split
  · split <;> omega
  · exact h

/-- One clock edge moves the bits of an input word to the word formed or keeps them. -/
theorem next_formed {s : Unpack64To56} (h : s.wrCnt < 7) (i : Port (BitVec 64)) :
    ∃ w : Option (BitVec 112), (s.next i).formed = w.map spread ∧
      s.rest ++ bitString i.word.toList = bitString w.toList ++ (s.next i).rest := by
  obtain ⟨valid, d⟩ := i
  cases valid with
  | false => exact ⟨none, by simp [next, formed, wordReg], by simp [next, rest]⟩
  | true =>
      obtain hc | hc | hc | hc | hc | hc | hc : s.wrCnt = 0 ∨ s.wrCnt = 1 ∨ s.wrCnt = 2 ∨ s.wrCnt = 3 ∨
          s.wrCnt = 4 ∨ s.wrCnt = 5 ∨ s.wrCnt = 6 := by omega
      · exact ⟨none, by simp [next, formed, wordReg, hc], by simp [next, rest, hc]⟩
      · refine ⟨some (dense_0 d s.data64InReg0), ?_, ?_⟩
        · simp [next, formed, wordReg, hc, muxStage0_1_0, formWord128_0_eq]
        · simp [next, rest, hc, bits_dense_0]
      · exact ⟨none, by simp [next, formed, wordReg, hc], by simp [next, rest, hc]⟩
      · refine ⟨some (dense_1 d s.data64InReg0 s.data64InReg1), ?_, ?_⟩
        · simp [next, formed, wordReg, hc, muxStage0_1_0, formWord128_1_eq]
        · simp [next, rest, hc, bits_dense_1]
      · exact ⟨none, by simp [next, formed, wordReg, hc], by simp [next, rest, hc]⟩
      · refine ⟨some (dense_2 d s.data64InReg0 s.data64InReg1), ?_, ?_⟩
        · simp [next, formed, wordReg, hc, muxStage0_3_2, formWord128_2_eq]
        · simp [next, rest, hc, bits_dense_2]
      · refine ⟨some (dense_3 d s.data64InReg0), ?_, ?_⟩
        · simp [next, formed, wordReg, hc, muxStage0_3_2, formWord128_3_eq]
        · simp [next, rest, hc, bits_dense_3, List.take_of_length_le]

theorem run_wrCnt_lt (x : Nat → Port (BitVec 64)) (n : Nat) : (circuit.run x n).wrCnt < 7 :=
  Circuit.invariant (P := fun s : Unpack64To56 => s.wrCnt < 7) x (by decide) (fun _ i h => next_wrCnt_lt h i) n

theorem words_formed (x : Nat → Port (BitVec 64)) (n : Nat) :
    ∃ ws : List (BitVec 112),
      words (fun m => (circuit.run x (m + 1)).formed) n = ws.map spread ∧
      bitString (words (fun m => (x m).word) n) = bitString ws ++ (circuit.run x n).rest :=
  words_of_steps (fun m => (x m).word) (fun m => (circuit.run x (m + 1)).formed)
    (fun m => (circuit.run x m).rest) spread rfl (fun m => next_formed (run_wrCnt_lt x m) (x m)) n

/-- Three cycles after the input words the words they fill have left. -/
theorem words_out (x : Nat → Port (BitVec 64)) (n : Nat) :
    ∃ ws : List (BitVec 112), Fills (bitString (words (fun m => (x m).word) n)) ws ∧
      words (fun m => (circuit.run x m).data56Out.word) (n + 3) = ws.map spread := by
  have h1 : (fun m => (circuit.run x m).data56Out.word) = delay 1 fun m => (circuit.run x m).stage0 :=
    eq_delay_one rfl (fun _ => next_data56Out _ _)
  have h2 : (fun m => (circuit.run x m).stage0) = delay 1 fun m => (circuit.run x m).formed :=
    eq_delay_one rfl (fun _ => next_stage0 _ _)
  have h3 : (fun m => (circuit.run x m).formed) = delay 1 fun m => (circuit.run x (m + 1)).formed :=
    eq_delay_one rfl (fun _ => rfl)
  obtain ⟨ws, hf, hb⟩ := words_formed x n
  refine ⟨ws, ⟨_, rest_length_lt _, hb⟩, ?_⟩
  rw [h1, h2, h3, delay_delay, delay_delay, words_delay_add, hf]

end Unpack64To56

/-! ## unpack_64_to_64 -/

namespace Unpack64To64

/-- The bits of the input register that are still to be sent. -/
def rest (s : Unpack64To64) : List Bool := if s.wrCnt = 0 then [] else bits s.data64InReg

theorem rest_length_lt (s : Unpack64To64) : s.rest.length < 128 := by
  unfold rest
  split <;> simp

theorem next_wrCnt_lt {s : Unpack64To64} (h : s.wrCnt < 2) (i : Port (BitVec 64)) :
    (s.next i).wrCnt < 2 := by
  simp only [next]
  split
  · split <;> omega
  · exact h

theorem next_word {s : Unpack64To64} (h : s.wrCnt < 2) (i : Port (BitVec 64)) :
    s.rest ++ bitString i.word.toList = bitString (s.next i).data64Out.word.toList ++ (s.next i).rest := by
  obtain ⟨valid, d⟩ := i
  cases valid with
  | false => simp [next, data64Out, rest]
  | true =>
      have h0 : bits (n := 128) (d ++ s.data64InReg) = bits s.data64InReg ++ bits d := bits_append _ _
      obtain hc | hc : s.wrCnt = 0 ∨ s.wrCnt = 1 := by omega
      · simp [next, data64Out, rest, hc]
      · simp [next, data64Out, rest, hc, h0]

theorem run_wrCnt_lt (x : Nat → Port (BitVec 64)) (n : Nat) : (circuit.run x n).wrCnt < 2 :=
  Circuit.invariant (P := fun s : Unpack64To64 => s.wrCnt < 2) x (by decide) (fun _ i h => next_wrCnt_lt h i) n

theorem words_succ_out (x : Nat → Port (BitVec 64)) (n : Nat) :
    bitString (words (fun m => (x m).word) n) =
      bitString (words (fun m => (circuit.run x (m + 1)).data64Out.word) n) ++ (circuit.run x n).rest := by
  induction n with
  | zero => rfl
  | succ n ih =>
      rw [words_succ, words_succ, bitString_append, bitString_append, ih, List.append_assoc,
        next_word (run_wrCnt_lt x n), Circuit.run_succ, List.append_assoc]
      rfl

/-- One cycle after the input words the words they fill have left. -/
theorem words_out (x : Nat → Port (BitVec 64)) (n : Nat) :
    Fills (bitString (words (fun m => (x m).word) n))
      (words (fun m => (circuit.run x m).data64Out.word) (n + 1)) := by
  have h : (fun m => (circuit.run x m).data64Out.word) =
      delay 1 fun m => (circuit.run x (m + 1)).data64Out.word := eq_delay_one rfl (fun _ => rfl)
  rw [h, words_delay_add]
  exact ⟨_, rest_length_lt _, words_succ_out x n⟩

end Unpack64To64

/-! ## bit_unpack_64 -/

namespace BitUnpack64

theorem run_inst0 (c : BitVec 2) (x : Nat → Port (BitVec 64)) (n : Nat) :
    ((circuit c).run x n).inst0 = Unpack64To48.circuit.run x n :=
  Circuit.run_part (c := circuit c) (d := Unpack64To48.circuit) (fun s => s.inst0) (fun _ i => i) rfl
    (fun _ _ => rfl) x n

theorem run_inst2 (c : BitVec 2) (x : Nat → Port (BitVec 64)) (n : Nat) :
    ((circuit c).run x n).inst2 = Unpack64To64.circuit.run x n :=
  Circuit.run_part (c := circuit c) (d := Unpack64To64.circuit) (fun s => s.inst2) (fun _ i => i) rfl
    (fun _ _ => rfl) x n

theorem words_out_w12 (x : Nat → Port (BitVec 64)) (n : Nat) :
    ∃ ws : List (BitVec 96), Fills (bitString (words (fun m => (x m).word) n)) ws ∧
      words (fun m => ((circuit SampleWidth.w12.code).run x m).dataOut.word) (n + 4) =
        ws.map Unpack64To48.spread := by
  have h1 : (fun m => ((circuit SampleWidth.w12.code).run x m).dataOut.word) =
      delay 1 fun m => ((circuit SampleWidth.w12.code).run x m).mux0Reg.word := eq_delay_one rfl (fun _ => rfl)
  have h2 : (fun m => ((circuit SampleWidth.w12.code).run x m).mux0Reg.word) =
      delay 1 fun m => ((circuit SampleWidth.w12.code).run x m).inst0.data48Out.word :=
    eq_delay_one rfl (fun _ => rfl)
  obtain ⟨ws, hf, hw⟩ := Unpack64To48.words_out x n
  refine ⟨ws, hf, ?_⟩
  simp only [run_inst0] at h2
  rw [h1, h2, delay_delay, words_delay]
  exact hw

theorem words_out_w16 (x : Nat → Port (BitVec 64)) (n : Nat) :
    Fills (bitString (words (fun m => (x m).word) n))
      (words (fun m => ((circuit SampleWidth.w16.code).run x m).dataOut.word) (n + 2)) := by
  have h1 : (fun m => ((circuit SampleWidth.w16.code).run x m).dataOut.word) =
      delay 1 fun m => ((circuit SampleWidth.w16.code).run x m).inst2.data64Out.word :=
    eq_delay_one rfl (fun _ => rfl)
  have h2 := Unpack64To64.words_out x n
  simp only [run_inst2] at h1
  rw [h1, words_delay]
  exact h2

end BitUnpack64

end LimeSdrQpcie
