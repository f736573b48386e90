import LimeSdrQpcie.Rx.Lemmas.BitPack
import LimeSdrQpcie.Tx.Lemmas.BitUnpack

/-!
# Packing and unpacking again

The output of the receive path's `bit_pack` on the input of the transmit path's `bit_unpack_64`, and
`pack_56_to_64` before `unpack_64_to_56`, which no path joins.
-/

namespace LimeSdrQpcie

open Hdl

/-- The words that leave `bit_unpack_64` when it is fed by `bit_pack`. -/
def loopback (sampleWidth : BitVec 2) (x : Nat → Port (BitVec 64)) (n : Nat) : Option (BitVec 128) :=
  ((BitUnpack64.circuit sampleWidth).run
    (fun m => ((BitPack.circuit sampleWidth).run x m).dataOut) n).dataOut.word

/-- Four 12-bit samples, each with `"0000"` below it. -/
def lanes64 (l3 l2 l1 l0 : BitVec 12) : BitVec 64 :=
  l3 ++ 0#4 ++ l2 ++ 0#4 ++ l1 ++ 0#4 ++ l0 ++ 0#4

/-- A sample word after the round trip: 12-bit samples keep the upper bits of their lanes. -/
def SampleWidth.roundTrip : SampleWidth → BitVec 64 → BitVec 64
  | .w12, w => lanes64 (w.extractLsb 63 52) (w.extractLsb 47 36) (w.extractLsb 31 20) (w.extractLsb 15 4)
  | _, w => w

theorem bits_lanes64 (l3 l2 l1 l0 : BitVec 12) :
    bits (lanes64 l3 l2 l1 l0) = [l0, l1, l2, l3].flatMap fun l => bits 0#4 ++ bits l := by
  simp only [lanes64, bits_append]
  simp

theorem bits_inst0Data48In (w : BitVec 64) :
    bits (BitPack.inst0Data48In w) = [4, 20, 36, 52].flatMap fun k => ((bits w).drop k).take 12 := by
  have h : bits (BitPack.inst0Data48In w) =
      bits (w.extractLsb 15 4) ++ (bits (w.extractLsb 31 20) ++
        (bits (w.extractLsb 47 36) ++ bits (w.extractLsb 63 52))) := by
    refine (bits_append _ _).trans (congrArg _ ((bits_append _ _).trans (congrArg _ (bits_append _ _))))
  rw [h]
  simp [bits_extractLsb, List.drop_take]

theorem spread_inst0Data48In (a b : BitVec 64) :
    Unpack64To48.spread (BitPack.inst0Data48In b ++ BitPack.inst0Data48In a) =
      SampleWidth.w12.roundTrip b ++ SampleWidth.w12.roundTrip a := by
  apply bits_inj
  rw [Unpack64To48.bits_spread _ (bits_append _ _)]
  refine Eq.trans ?_ (bits_append _ _).symm
  simp [SampleWidth.roundTrip, bits_lanes64, bits_inst0Data48In, bits_extractLsb, List.take_append,
    List.drop_append, List.drop_take, List.take_take, List.take_of_length_le, List.drop_of_length_le]

theorem map_spread_pairs : ∀ ws : List (BitVec 64),
    (pairs (ws.map BitPack.inst0Data48In)).map Unpack64To48.spread =
      pairs (ws.map SampleWidth.w12.roundTrip)
  | [] => by simp [pairs]
  | [_] => by simp [pairs]
  | a :: b :: ws => by
      simp only [List.map_cons, pairs, map_spread_pairs ws]
      exact congrArg (· :: _) (spread_inst0Data48In a b)

/-! ## The words that come back -/

/-- How many words of 96 bits the whole words of 64 bits of `l` words of 48 bits fill. -/
theorem whole_pairs (l : Nat) : 64 * (48 * l / 64) / 96 = if l % 4 = 2 then l / 2 - 1 else l / 2 := by
  obtain h | h | h | h : l % 4 = 0 ∨ l % 4 = 1 ∨ l % 4 = 2 ∨ l % 4 = 3 := by omega
  · rw [show 48 * l / 64 = 3 * (l / 4) by omega, if_neg (by omega)]
    omega
  · rw [show 48 * l / 64 = 3 * (l / 4) by omega, if_neg (by omega)]
    omega
  · rw [show 48 * l / 64 = 3 * (l / 4) + 1 by omega, if_pos h]
    omega
  · rw [show 48 * l / 64 = 3 * (l / 4) + 2 by omega, if_neg (by omega)]
    omega

theorem loopback_w12 (x : Nat → Port (BitVec 64)) (n : Nat) :
    words (loopback SampleWidth.w12.code x) (n + 8) =
      (pairs ((words (fun m => (x m).word) n).map SampleWidth.w12.roundTrip)).take
        (64 * (48 * (words (fun m => (x m).word) n).length / 64) / 96) := by
  have hp := BitPack.words_out .w12 x n
  have hpl := BitPack.words_out_length .w12 x n
  obtain ⟨qs, hq, hout⟩ :=
    BitUnpack64.words_out_w12 (fun m => ((BitPack.circuit SampleWidth.w12.code).run x m).dataOut) (n + 4)
  simp only [SampleWidth.latency, SampleWidth.bitsPerWord, SampleWidth.keptBits_w12] at hp hpl
  have hall := pairs_fills (by omega) ((words (fun m => (x m).word) n).map BitPack.inst0Data48In)
  -- The packer keeps the bits of an incomplete word back, the unpacker those of an incomplete pair.
  obtain ⟨rest, _, hrest⟩ := hp
  have hpre : qs <+: pairs ((words (fun m => (x m).word) n).map BitPack.inst0Data48In) :=
    hq.prefix_of_prefix hall (by rw [hrest]; exact List.prefix_append _ _)
  have hlen := hq.length
  rw [bitString_length, hpl] at hlen
  rw [show loopback SampleWidth.w12.code x = fun m => ((BitUnpack64.circuit SampleWidth.w12.code).run
    (fun m => ((BitPack.circuit SampleWidth.w12.code).run x m).dataOut) m).dataOut.word from rfl, hout,
    List.prefix_iff_eq_take.mp hpre, hlen, ← map_spread_pairs, List.map_take]

theorem loopback_w16 (x : Nat → Port (BitVec 64)) (n : Nat) :
    words (loopback SampleWidth.w16.code x) (n + 3) = pairs (words (fun m => (x m).word) n) := by
  have hp := BitPack.words_out .w16 x n
  have hq := BitUnpack64.words_out_w16
    (fun m => ((BitPack.circuit SampleWidth.w16.code).run x m).dataOut) (n + 1)
  simp only [SampleWidth.latency] at hp
  rw [hp.unique (Fills.whole (by omega) _)] at hq
  exact hq.unique (pairs_fills (by omega) _)

/-- For every idle pattern the samples come back in order, two input words to an output word. In 12-bit
mode the last pair stays in the packer while the number of input words is two more than a multiple of
four. -/
theorem loopback_words (x : Nat → Port (BitVec 64)) (n : Nat) :
    words (loopback SampleWidth.w16.code x) (n + 3) =
        pairs ((words (fun m => (x m).word) n).map SampleWidth.w16.roundTrip) ∧
      words (loopback SampleWidth.w12.code x) (n + 8) =
        if (words (fun m => (x m).word) n).length % 4 = 2 then
          (pairs ((words (fun m => (x m).word) n).map SampleWidth.w12.roundTrip)).dropLast
        else pairs ((words (fun m => (x m).word) n).map SampleWidth.w12.roundTrip) := by
  refine ⟨?_, ?_⟩
  · rw [loopback_w16, show SampleWidth.w16.roundTrip = id from rfl, List.map_id]
  · have hl := pairs_length ((words (fun m => (x m).word) n).map SampleWidth.w12.roundTrip)
    rw [List.length_map] at hl
    rw [loopback_w12, whole_pairs]
    split
    · rw [List.dropLast_eq_take, hl]
    · rw [← hl, List.take_length]

/-- Two words, then silence. -/
def twoWords : Nat → Port (BitVec 64)
  | 0 => ⟨true, 0x1110222033304440⟩
  | 1 => ⟨true, 0x5550666077708880⟩
  | _ => ⟨false, 0⟩

/-- Two 12-bit words make a complete 128-bit word, but it never leaves the unpacker. -/
theorem loopback_twoWords :
    pairs ((words (fun m => (twoWords m).word) 2).map SampleWidth.w12.roundTrip) =
        [0x55506660777088801110222033304440] ∧
      ∀ n, words (loopback SampleWidth.w12.code twoWords) n = [] := by
  refine ⟨by decide, fun n => ?_⟩
  have hin : words (fun m => (twoWords m).word) (n + 2) = words (fun m => (twoWords m).word) 2 := by
    induction n with
    | zero => rfl
    | succ n ih => rw [words_succ_of_none rfl, ih]
  have h := loopback_w12 twoWords (n + 2)
  rw [hin] at h
  have hpre := words_prefix (loopback SampleWidth.w12.code twoWords) (show n ≤ n + 2 + 8 by omega)
  rw [h] at hpre
  exact List.prefix_nil.mp hpre

/-! ## 14-bit samples -/

/-- The samples of a 56-bit word, the lowest first. -/
def samples56 (w : BitVec 56) : List (BitVec 14) :=
  [w.extractLsb 13 0, w.extractLsb 27 14, w.extractLsb 41 28, w.extractLsb 55 42]

/-- The 16-bit lanes of a 128-bit word, the lowest first. -/
def lanes16 (w : BitVec 128) : List (BitVec 16) :=
  [w.extractLsb 15 0, w.extractLsb 31 16, w.extractLsb 47 32, w.extractLsb 63 48, w.extractLsb 79 64,
    w.extractLsb 95 80, w.extractLsb 111 96, w.extractLsb 127 112]

theorem slice_append_drop {l : List Bool} {a b : Nat} (h : a ≤ b) :
    (l.take b).drop a ++ l.drop b = l.drop a := by
  rw [List.drop_take, show l.drop b = (l.drop a).drop (b - a) by rw [List.drop_drop, Nat.add_sub_cancel' h]]
  exact List.take_append_drop _ _

theorem bitString_lanes16 (w : BitVec 128) : bitString (lanes16 w) = bits w := by
  have hlast : ((bits w).take 128).drop 112 = (bits w).drop 112 := by
    rw [List.take_of_length_le (by rw [bits_length])]
  simp only [lanes16, bitString_cons, bitString_nil, List.append_nil]
  rw [bits_extractLsb_low w (by omega), bits_extractLsb w (by omega) (by omega),
    bits_extractLsb w (by omega) (by omega), bits_extractLsb w (by omega) (by omega),
    bits_extractLsb w (by omega) (by omega), bits_extractLsb w (by omega) (by omega),
    bits_extractLsb w (by omega) (by omega), bits_extractLsb w (by omega) (by omega), hlast,
    slice_append_drop (by omega), slice_append_drop (by omega), slice_append_drop (by omega),
    slice_append_drop (by omega), slice_append_drop (by omega), slice_append_drop (by omega),
    List.take_append_drop]

theorem bitString_map_lane (l : List (BitVec 14)) :
    bitString (n := 16) (l.map (· ++ 0#2)) = l.flatMap fun w => bits 0#2 ++ bits w := by
  rw [bitString, List.flatMap_map]
  exact congrArg (l.flatMap ·) (funext fun w => bits_append w 0#2)

theorem lanes16_spread (a b : BitVec 56) :
    lanes16 (Unpack64To56.spread (b ++ a)) = (samples56 a ++ samples56 b).map (· ++ 0#2) := by
  apply bitString_inj (by omega)
  rw [bitString_lanes16, Unpack64To56.bits_spread _ (bits_append _ _), bitString_map_lane]
  simp [samples56, bits_extractLsb, List.take_append, List.drop_append, List.drop_take,
    List.drop_of_length_le]

theorem flatMap_lanes16_pairs : ∀ ws : List (BitVec 56), 2 ∣ ws.length →
    ((pairs ws).map Unpack64To56.spread).flatMap lanes16 = (ws.flatMap samples56).map (· ++ 0#2)
  | [], _ => rfl
  | [_], h => by simp at h
  | a :: b :: ws, h => by
      have ih := flatMap_lanes16_pairs ws (by simpa using h)
      simp only [pairs, List.map_cons, List.flatMap_cons, ih, lanes16_spread a b, List.map_append,
        List.append_assoc]

/-- Eight words of 56 bits leave `pack_56_to_64` as seven dense words, and however these reach
`unpack_64_to_56` it sends the samples back in order, eight with each strobe. -/
theorem pack56_unpack56 (x : Nat → Port (BitVec 56)) (n : Nat)
    (h8 : 8 ∣ (words (fun m => (x m).word) n).length) :
    (words (fun m => (Pack56To64.circuit.run x m).data64Out.word) (n + 4)).length =
        7 * ((words (fun m => (x m).word) n).length / 8) ∧
      bitString (words (fun m => (Pack56To64.circuit.run x m).data64Out.word) (n + 4)) =
        bitString (words (fun m => (x m).word) n) ∧
      ∀ (y : Nat → Port (BitVec 64)) (k : Nat),
        words (fun m => (y m).word) k =
          words (fun m => (Pack56To64.circuit.run x m).data64Out.word) (n + 4) →
        (words (fun m => (Unpack64To56.circuit.run y m).data56Out.word) (k + 3)).flatMap lanes16 =
            ((words (fun m => (x m).word) n).flatMap samples56).map (· ++ 0#2) ∧
          count (fun m => (Unpack64To56.circuit.run y m).data56Out.valid) (k + 3) =
            (words (fun m => (x m).word) n).length / 2 := by
  obtain ⟨j, hj⟩ := h8
  have hp := Pack56To64.words_out x n
  have hdense := hp.eq_bitString (by rw [bitString_length, hj]; exact ⟨7 * j, by omega⟩)
  refine ⟨by rw [hp.length, bitString_length, hj]; omega, hdense, fun y k hy => ?_⟩
  obtain ⟨ws, hf, hw⟩ := Unpack64To56.words_out y k
  rw [hy, hdense] at hf
  have hpairs : ws = pairs (words (fun m => (x m).word) n) := hf.unique (pairs_fills (by omega) _)
  have hlen : (words (fun m => (Unpack64To56.circuit.run y m).data56Out.word) (k + 3)).length =
      (words (fun m => (x m).word) n).length / 2 := by rw [hw, List.length_map, hpairs, pairs_length]
  refine ⟨?_, ?_⟩
  · rw [hw, hpairs]
    exact flatMap_lanes16_pairs _ (by rw [hj]; exact ⟨4 * j, by omega⟩)
  · rw [← hlen, words_length]
    simp only [Port.word_isSome]

/-- Eight words, then silence. -/
def eightWords (m : Nat) : Port (BitVec 56) := ⟨decide (m < 8), BitVec.ofNat 56 (0x01234567 * (m + 1))⟩

theorem pack56_unpack56_eightWords :
    8 ∣ (words (fun m => (eightWords m).word) 8).length ∧
      (words (fun m => (Unpack64To56.circuit.run
        (fun j => (Pack56To64.circuit.run eightWords j).data64Out) m).data56Out.word) 15).flatMap lanes16 =
        ((words (fun m => (eightWords m).word) 8).flatMap samples56).map (· ++ 0#2) := by
  have h8 : 8 ∣ (words (fun m => (eightWords m).word) 8).length := by decide
  exact ⟨h8, ((pack56_unpack56 eightWords 8 h8).2.2 _ 12 rfl).1⟩

end LimeSdrQpcie
