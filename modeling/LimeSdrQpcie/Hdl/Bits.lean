import Mathlib.Algebra.Ring.Nat
import Mathlib.Tactic.Common

/-!
# Words as bit strings

A word is read as the list of its bits, least significant bit first. Concatenation and slices of words
become concatenation, `take` and `drop` of lists, so that a rearrangement of words can be checked without
counting bit positions.
-/

namespace Hdl

variable {m n : Nat}

/-- The bits of a word, least significant bit first. -/
def bits (w : BitVec n) : List Bool := List.ofFn fun i : Fin n => w[i]

@[simp] theorem bits_length (w : BitVec n) : (bits w).length = n := by simp [bits]

theorem bits_getElem (w : BitVec n) (i : Nat) (h : i < (bits w).length) : (bits w)[i] = w.getLsbD i := by
  have hi : i < n := by simpa using h
  simp [bits, BitVec.getLsbD_eq_getElem hi]

theorem bits_inj {v w : BitVec n} (h : bits v = bits w) : v = w := by
  apply BitVec.eq_of_getLsbD_eq
  intro i hi
  have hv := bits_getElem v i (by simpa using hi)
  have hw := bits_getElem w i (by simpa using hi)
  rw [← hv, ← hw]
  simp only [h]

/-- In `hi ++ lo` the low bits come first. -/
-- The width is kept out of the index: on words of a fixed width it is a numeral.
@[simp] theorem bits_append (hi : BitVec m) (lo : BitVec n) :
    bits (n := no_index (m + n)) (HAppend.hAppend (γ := no_index BitVec (m + n)) hi lo) = bits lo ++ bits hi := by
  apply List.ext_getElem
  · simp [Nat.add_comm]
  · intro i h1 h2
    rw [bits_getElem, BitVec.getLsbD_append]
    by_cases h : i < n
    · simp [h, List.getElem_append_left, bits_getElem]
    · rw [List.getElem_append_right (by simp; omega)]
      simp [h, bits_getElem]

theorem bits_extractLsb (w : BitVec n) {hi lo : Nat} (hlo : lo ≤ hi) (hhi : hi < n) :
    bits (w.extractLsb hi lo) = ((bits w).take (hi + 1)).drop lo := by
  apply List.ext_getElem
  · simp; omega
  · intro i h1 h2
    rw [bits_getElem, List.getElem_drop, List.getElem_take, bits_getElem]
    simp only [bits_length] at h1
    simp [BitVec.extractLsb, show i < hi - lo + 1 from h1]

theorem bits_extractLsb_top (w : BitVec n) {hi lo : Nat} (hlo : lo ≤ hi) (hhi : hi + 1 = n) :
    bits (w.extractLsb hi lo) = (bits w).drop lo := by
  rw [bits_extractLsb w hlo (by omega), List.take_of_length_le (by simp; omega)]

theorem bits_extractLsb_low (w : BitVec n) {hi : Nat} (hhi : hi < n) :
    bits (w.extractLsb hi 0) = (bits w).take (hi + 1) := by
  rw [bits_extractLsb w (Nat.zero_le _) hhi, List.drop_zero]

/-- The low bits of `d` after the high bits of `r`. -/
theorem bits_join (d : BitVec m) (r : BitVec n) {k j : Nat} (hk : k < m) (hj : j ≤ n - 1) (hn : 0 < n) :
    bits (d.extractLsb k 0 ++ r.extractLsb (n - 1) j) = (bits r).drop j ++ (bits d).take (k + 1) := by
  rw [bits_append, bits_extractLsb_low d hk, bits_extractLsb_top r hj (by omega)]

/-! ## Bit fields -/

/-- The word `w` with the low bits of `v` as its bits from `lsb` to `msb`. -/
def putBits (msb lsb : Nat) (v w : BitVec n) : BitVec n :=
  let mask := (BitVec.allOnes n <<< (n - (msb - lsb + 1))) >>> (n - (msb - lsb + 1))
  (w &&& ~~~(mask <<< lsb)) ||| ((v &&& mask) <<< lsb)

theorem getLsbD_mask {k : Nat} (i : Nat) (hk : k ≤ n) :
    ((BitVec.allOnes n <<< (n - k)) >>> (n - k)).getLsbD i = decide (i < k) := by
  rw [BitVec.getLsbD_ushiftRight, BitVec.getLsbD_shiftLeft, BitVec.getLsbD_allOnes]
  by_cases hi : i < k
  · simp [hi]
    omega
  · simp [hi]
    omega

/-- Inside the field stand the low bits of `v`, outside of it the bits of `w`. -/
theorem getLsbD_putBits {msb lsb : Nat} (v w : BitVec n) {i : Nat} (hi : i < n) (hlsb : lsb ≤ msb)
    (hmsb : msb < n) :
    (putBits msb lsb v w).getLsbD i = if lsb ≤ i ∧ i ≤ msb then v.getLsbD (i - lsb) else w.getLsbD i := by
  have hk : msb - lsb + 1 ≤ n := by omega
  simp only [putBits, BitVec.getLsbD_or, BitVec.getLsbD_and, BitVec.getLsbD_not, BitVec.getLsbD_shiftLeft, hi,
    decide_true, Bool.true_and, getLsbD_mask _ hk]
  by_cases hl : lsb ≤ i
  · by_cases hm : i ≤ msb
    · have hin : i - lsb < msb - lsb + 1 := by omega
      simp [hl, hm, hin, Nat.not_lt.mpr hl]
    · have hout : ¬ i - lsb < msb - lsb + 1 := by omega
      simp [hl, hm, hout]
  · simp [hl, Nat.lt_of_not_le hl]

/-- The low `m` bits of a counter are all ones where it goes over a multiple of `2 ^ m`. -/
theorem slice_eq_allOnes_iff (w : BitVec n) : w.extractLsb' 0 m = BitVec.allOnes m ↔ 2 ^ m ∣ w.toNat + 1 := by
  have hpos : 0 < 2 ^ m := Nat.two_pow_pos m
  have hlt := Nat.mod_lt w.toNat hpos
  have hdiv := Nat.div_add_mod w.toNat (2 ^ m)
  rw [← BitVec.toNat_inj, BitVec.extractLsb'_toNat, BitVec.toNat_allOnes, Nat.shiftRight_zero, ← hdiv, Nat.add_assoc,
    Nat.dvd_add_right (Nat.dvd_mul_right _ _), hdiv]
  constructor
  · intro h
    exact ⟨1, by rw [h, Nat.sub_add_cancel hpos, Nat.mul_one]⟩
  · intro h
    have hle := Nat.le_of_dvd (Nat.succ_pos _) h
    omega

/-! ## Bit strings of word lists -/

/-- The bit string a list of words stands for. -/
def bitString (ws : List (BitVec n)) : List Bool := ws.flatMap bits

@[simp] theorem bitString_nil : bitString ([] : List (BitVec n)) = [] := rfl

@[simp] theorem bitString_cons (w : BitVec n) (ws : List (BitVec n)) :
    bitString (w :: ws) = bits w ++ bitString ws := by
  simp [bitString]

@[simp] theorem bitString_append (vs ws : List (BitVec n)) :
    bitString (vs ++ ws) = bitString vs ++ bitString ws := by
  simp [bitString]

@[simp] theorem bitString_length (ws : List (BitVec n)) : (bitString ws).length = n * ws.length := by
  induction ws with
  | nil => rfl
  | cons w ws ih =>
      rw [bitString_cons, List.length_append, ih, bits_length, List.length_cons, Nat.mul_succ, Nat.add_comm]

/-- Words of one width are given back by their bit string. -/
theorem bitString_inj (hn : 0 < n) {vs ws : List (BitVec n)} (h : bitString vs = bitString ws) : vs = ws := by
  induction vs generalizing ws with
  | nil =>
      have hl := congrArg List.length h
      simp only [bitString_length, List.length_nil, Nat.mul_zero] at hl
      have : ws.length = 0 := by
        rcases Nat.mul_eq_zero.mp hl.symm with h0 | h0
        · omega
        · exact h0
      exact (List.eq_nil_of_length_eq_zero this).symm
  | cons v vs ih =>
      cases ws with
      | nil =>
          have hl := congrArg List.length h
          simp at hl
          omega
      | cons w ws =>
          simp only [bitString_cons] at h
          obtain ⟨h1, h2⟩ := List.append_inj h (by simp)
          rw [bits_inj h1, ih h2]

/-- Pieces of one length are found by counting them. -/
theorem flatMap_take {α β : Type} {f : α → List β} {n : Nat} (hf : ∀ a, (f a).length = n) (ws : List α)
    (k : Nat) : (ws.take k).flatMap f = (ws.flatMap f).take (n * k) := by
  induction ws generalizing k with
  | nil => simp
  | cons w ws ih =>
      cases k with
      | zero => simp
      | succ k =>
          have hw : (f w).length ≤ n * (k + 1) := by rw [hf, Nat.mul_succ]; omega
          rw [List.take_succ_cons, List.flatMap_cons, List.flatMap_cons, List.take_append, ih,
            List.take_of_length_le hw, hf, Nat.mul_succ, Nat.add_sub_cancel]

theorem flatMap_drop {α β : Type} {f : α → List β} {n : Nat} (hf : ∀ a, (f a).length = n) (ws : List α)
    (k : Nat) : (ws.drop k).flatMap f = (ws.flatMap f).drop (n * k) := by
  induction ws generalizing k with
  | nil => simp
  | cons w ws ih =>
      cases k with
      | zero => simp
      | succ k =>
          have hw : (f w).length ≤ n * (k + 1) := by rw [hf, Nat.mul_succ]; omega
          rw [List.drop_succ_cons, List.flatMap_cons, List.drop_append, ih, List.drop_of_length_le hw, hf,
            Nat.mul_succ, Nat.add_sub_cancel, List.nil_append]

theorem bitString_take (ws : List (BitVec n)) (k : Nat) :
    bitString (ws.take k) = (bitString ws).take (n * k) := flatMap_take bits_length ws k

/-! ## Whole words of a bit string -/

/-- `ws` are the whole words that the bit string `l` fills from its beginning. -/
def Fills (l : List Bool) (ws : List (BitVec n)) : Prop :=
  ∃ rest : List Bool, rest.length < n ∧ l = bitString ws ++ rest

namespace Fills

theorem length {l : List Bool} {ws : List (BitVec n)} (h : Fills l ws) : ws.length = l.length / n := by
  obtain ⟨rest, hr, rfl⟩ := h
  rw [List.length_append, bitString_length, Nat.mul_add_div (by omega), Nat.div_eq_of_lt hr, Nat.add_zero]

theorem eq_take {l : List Bool} {ws : List (BitVec n)} (h : Fills l ws) :
    bitString ws = l.take (n * ws.length) := by
  obtain ⟨rest, _, rfl⟩ := h
  rw [List.take_left' (bitString_length ws)]

/-- A bit string of a length that is a multiple of the width is used up. -/
theorem eq_bitString {l : List Bool} {ws : List (BitVec n)} (h : Fills l ws) (hl : n ∣ l.length) :
    bitString ws = l := by
  obtain ⟨k, hk⟩ := hl
  have hw : l.length / n = k := by
    obtain ⟨_, hr, _⟩ := h
    rw [hk, Nat.mul_div_cancel_left k (by omega)]
  rw [h.eq_take, h.length, hw, ← hk, List.take_length]

theorem unique {l : List Bool} {vs ws : List (BitVec n)} (hv : Fills l vs) (hw : Fills l ws) : vs = ws := by
  have hn : 0 < n := by obtain ⟨_, hr, _⟩ := hv; omega
  apply bitString_inj hn
  rw [hv.eq_take, hw.eq_take, hv.length, hw.length]

theorem whole (hn : 0 < n) (ws : List (BitVec n)) : Fills (bitString ws) ws :=
  ⟨[], hn, by simp⟩

/-- When the front part is made of whole words, they are the first words and the rest fills the others. -/
theorem split {a b : List Bool} {ws : List (BitVec n)} (h : Fills (a ++ b) ws) (ha : n ∣ a.length) :
    ∃ vs us, ws = vs ++ us ∧ bitString vs = a ∧ Fills b us := by
  have hlen := h.length
  obtain ⟨rest, hr, heq⟩ := h
  obtain ⟨k, hk⟩ := ha
  have hn : 0 < n := by omega
  have hkw : k ≤ ws.length := by
    rw [hlen, List.length_append, hk, Nat.mul_add_div hn]
    exact Nat.le_add_right _ _
  have hfirst : bitString (ws.take k) = a := by
    have htake := congrArg (List.take (n * k)) heq
    rw [List.take_left' hk, List.take_append_of_le_length (by
      rw [bitString_length]; exact Nat.mul_le_mul_left n hkw)] at htake
    rw [bitString_take, ← htake]
  refine ⟨ws.take k, ws.drop k, (List.take_append_drop k ws).symm, hfirst, rest, hr, ?_⟩
  rw [← List.take_append_drop k ws, bitString_append, hfirst, List.append_assoc] at heq
  exact List.append_cancel_left heq

/-- A longer bit string fills the same words and perhaps more. -/
theorem prefix_of_prefix {l l' : List Bool} {vs ws : List (BitVec n)} (hv : Fills l vs) (hw : Fills l' ws)
    (h : l <+: l') : vs <+: ws := by
  have hle : n * vs.length ≤ l.length := by
    rw [hv.length, Nat.mul_comm]
    exact Nat.div_mul_le_self _ _
  have hlen : vs.length ≤ ws.length := by
    rw [hv.length, hw.length]
    exact Nat.div_le_div_right h.length_le
  have hn : 0 < n := by obtain ⟨_, hr, _⟩ := hv; omega
  obtain ⟨t, rfl⟩ := h
  have hvw : vs = ws.take vs.length := by
    apply bitString_inj hn
    rw [bitString_take, hv.eq_take, hw.eq_take, List.take_take,
      Nat.min_eq_left (Nat.mul_le_mul_left n hlen), List.take_append_of_le_length hle]
  exact List.prefix_iff_eq_take.mpr hvw

end Fills

/-- Words two by two, the first one in the low half. -/
def pairs : List (BitVec n) → List (BitVec (n + n))
  | a :: b :: ws => (b ++ a) :: pairs ws
  | _ => []

theorem pairs_length : ∀ ws : List (BitVec n), (pairs ws).length = ws.length / 2
  | [] => by simp [pairs]
  | [_] => by simp [pairs]
  | _ :: _ :: ws => by
      rw [pairs, List.length_cons, pairs_length ws, List.length_cons, List.length_cons]
      omega

theorem pairs_fills (hn : 0 < n) : ∀ ws : List (BitVec n), Fills (bitString ws) (pairs ws)
  | [] => ⟨[], Nat.add_pos_left hn n, by simp [pairs]⟩
  | [a] => ⟨bits a, by simp; omega, by simp [pairs]⟩
  | a :: b :: ws => by
      obtain ⟨rest, hr, h⟩ := pairs_fills hn ws
      exact ⟨rest, hr, by simp [pairs, h]⟩

end Hdl
