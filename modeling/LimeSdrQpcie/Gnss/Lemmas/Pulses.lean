import LimeSdrQpcie.Gnss.Lemmas.Parsed

/-!
# The pulses of the outputs

An output is valid three cycles after the state machine has found a checksum right, which it does in the cycle after
the last character of a complete sentence.
-/

namespace LimeSdrQpcie

open Hdl

namespace Nmea

/-! ## Hexadecimal digits -/

theorem hexValue_eq {c : BitVec 8} (h : c ∈ hexUpper) : hexValue c = some (hexToSlv c) := by
  have hall : ∀ c ∈ hexUpper, hexValue c = some (hexToSlv c) := by decide +kernel
  exact hall c h

theorem hex_ne {c : BitVec 8} {v : BitVec 4} (h : hexValue c = some v) :
    c ≠ cDollar ∧ c ≠ cAsterisk ∧ c ≠ cComma := by
  refine ⟨?_, ?_, ?_⟩
  all_goals
    rintro rfl
    cases h

theorem Readable.not_asterisk {id r : List (BitVec 8)} {c1 c2 : BitVec 8} (h : Readable id r c1 c2) :
    cAsterisk ∉ [c1, c2] := by
  simpa using ⟨(hex_ne (hexValue_eq h.digits.1)).2.1.symm, (hex_ne (hexValue_eq h.digits.2)).2.1.symm⟩

theorem Readable.not_comma {id r : List (BitVec 8)} {c1 c2 : BitVec 8} (h : Readable id r c1 c2) :
    cComma ∉ [cAsterisk, c1, c2] := by
  have hast : cComma ≠ cAsterisk := by decide
  simpa using ⟨hast, (hex_ne (hexValue_eq h.digits.1)).2.2.symm, (hex_ne (hexValue_eq h.digits.2)).2.2.symm⟩

theorem sinceDollar_sentence {pre body : List (BitVec 8)} {h1 h2 : BitVec 8} {v1 v2 : BitVec 4}
    (hbody : cDollar ∉ body) (hv1 : hexValue h1 = some v1) (hv2 : hexValue h2 = some v2) :
    sinceDollar (pre ++ cDollar :: (body ++ [cAsterisk, h1, h2])) = body ++ [cAsterisk, h1, h2] := by
  refine sinceDollar_append pre ?_
  simpa using ⟨hbody, asterisk_ne_dollar.symm, (hex_ne hv1).1.symm, (hex_ne hv2).1.symm⟩

/-! ## From the checksum to the outputs -/

/-- The state machine finds the checksum right. -/
def Matches (s : NmeaParser) : Prop := s.currentState = .checkChecksum ∧ s.checksumReg = s.nmeaChecksum

variable {s : NmeaParser}

theorem checksumValid_next (data : Option (BitVec 8)) : (s.next data).checksumValid = true ↔ Matches s := by
  simp only [NmeaParser.next, Bool.and_eq_true, beq_iff_eq, Matches]

theorem sentence_next_of_matches (h : Matches s) (data : Option (BitVec 8)) : (s.next data).sentence = s.sentence :=
  sentence_next_of_ne (h.1 ▸ by decide) (h.1 ▸ by decide) data

theorem validInt_next (id : List (BitVec 8)) (data : Option (BitVec 8)) :
    ((s.next data).sentence == id && (s.next data).checksumValid) = true ↔ Matches s ∧ s.sentence = id := by
  rw [Bool.and_eq_true, beq_iff_eq, checksumValid_next, and_comm]
  refine and_congr_right fun h => ?_
  rw [sentence_next_of_matches h]

theorem gnrmcValid_next (a b c : Option (BitVec 8)) :
    (((s.next a).next b).next c).gnrmcValid = true ↔ Matches s ∧ s.sentence = cGnrmc := validInt_next cGnrmc a

theorem gpgsaValid_next (a b c : Option (BitVec 8)) :
    (((s.next a).next b).next c).gpgsaValid = true ↔ Matches s ∧ s.sentence = cGpgsa := validInt_next cGpgsa a

/-- Without characters meanwhile the data of the sentence are published. -/
theorem gnrmc_next (h : Matches s ∧ s.sentence = cGnrmc) (c : Option (BitVec 8)) :
    (((s.next none).next none).next c).gnrmc = s.gnrmcInt := if_pos ((validInt_next cGnrmc none).mpr h)

theorem gpgsaFix_next (h : Matches s ∧ s.sentence = cGpgsa) (c : Option (BitVec 8)) :
    (((s.next none).next none).next c).gpgsaFix = s.gpgsaFixInt := if_pos ((validInt_next cGpgsa none).mpr h)

/-! ## Complete sentences -/

theorem id_length {id : List (BitVec 8)} (h : id = cGnrmc ∨ id = cGpgsa) : id.length = 5 := by
  rcases h with rfl | rfl
  · rfl
  · rfl

variable {x : Nat → Option (BitVec 8)} {n : Nat} {id r body : List (BitVec 8)} {h1 h2 : BitVec 8}

/-- The last character of a readable sentence comes, with the right checksum. -/
structure Arrived (x : Nat → Option (BitVec 8)) (n : Nat) (id r : List (BitVec 8)) (h1 h2 : BitVec 8) : Prop where
  dollar : cDollar ∈ words x n
  before : sinceDollar (words x n) = id ++ r ++ [cAsterisk, h1]
  after : sinceDollar (words x (n + 1)) = id ++ r ++ [cAsterisk, h1, h2]
  asterisk : cAsterisk ∉ id ++ r
  sum : hexToSlv h1 ++ hexToSlv h2 = checksum (id ++ r)
  readable : Readable id r h1 h2

theorem arrived_of_ends (hr : Regular x) (hid : id = cGnrmc ∨ id = cGpgsa) (he : Ends x n id body) :
    ∃ r h1 h2, body = id ++ r ∧ Arrived x n id r h1 h2 := by
  obtain ⟨hn, hc⟩ := he
  obtain ⟨pre, h1, h2, v1, v2, heq, hv1, hv2, hsum⟩ := hc.chars
  obtain ⟨t, ht⟩ := hc.id
  have hbody : body = id ++ ([cComma] ++ t) := by rw [← ht, List.append_assoc]
  obtain ⟨d, hd⟩ := Option.isSome_iff_exists.mp hn
  have hlast : words x n ++ [d] = (pre ++ cDollar :: (body ++ [cAsterisk, h1])) ++ [h2] := by
    rw [← words_succ_of_some hd, heq]
    simp
  obtain ⟨hwords, -⟩ := List.append_inj' hlast rfl
  have hbefore : sinceDollar (words x n) = body ++ [cAsterisk, h1] := by
    rw [hwords, sinceDollar_append]
    simpa using ⟨hc.dollar, asterisk_ne_dollar.symm, (hex_ne hv1).1.symm⟩
  have hafter : sinceDollar (words x (n + 1)) = body ++ [cAsterisk, h1, h2] := by
    rw [heq, sinceDollar_sentence hc.dollar hv1 hv2]
  have hast : cAsterisk ∉ [cComma] ++ t := fun hm => hc.asterisk (hbody ▸ List.mem_append_right _ hm)
  have hread : Readable id ([cComma] ++ t) h1 h2 :=
    hr.readable n id _ h1 h2 hn (by rw [heq]; simp) hid (by rw [hafter, hbody]) hast
  refine ⟨[cComma] ++ t, h1, h2, hbody, ?_⟩
  rw [hexValue_eq hread.digits.1, Option.some.injEq] at hv1
  rw [hexValue_eq hread.digits.2, Option.some.injEq] at hv2
  exact
    { dollar := by rw [hwords]; simp
      before := by rw [hbefore, hbody]
      after := by rw [hafter, hbody]
      asterisk := hbody ▸ hc.asterisk
      sum := by rw [hv1, hv2, hsum, hbody]
      readable := hread }

theorem Parsed.of_checkChecksum {stream : List (BitVec 8)} (h : Parsed stream s)
    (hs : s.currentState = .checkChecksum) :
    cDollar ∈ stream ∧ ∃ r c1 c2, sinceDollar stream = s.sentence ++ r ++ [cAsterisk, c1, c2] ∧ cAsterisk ∉ r ∧
      s.nmeaChecksum = hexToSlv c1 ++ hexToSlv c2 := by
  cases h with
  | checked r c1 c2 _ hm hw hr hd => exact ⟨hm, r, c1, c2, hw, hr, hd⟩
  | _ => simp_all

theorem idle_or_check_of_idle {data : Option (BitVec 8)} (h : (s.next data).currentState = .idle) :
    s.currentState = .idle ∨ s.currentState = .checkChecksum := by
  cases hs : s.currentState with
  | idle => exact .inl rfl
  | checkChecksum => exact .inr rfl
  | _ =>
      simp only [NmeaParser.next, NmeaParser.nextState, hs] at h
      split at h <;> cases h

/-- A sentence is read from its dollar sign on, so its last character leads to the comparison of the checksums. -/
theorem checkChecksum_of_arrived (h : Arrived x n id r h1 h2) (hid : id.length = 5) (hp : Parsed (words x n) s)
    (hcheck : s.currentState ≠ .checkChecksum) (hp' : Parsed (words x (n + 1)) (s.next (x n))) :
    (s.next (x n)).currentState = .checkChecksum := by
  have hast : cAsterisk ∉ r := fun hm => h.asterisk (List.mem_append_right _ hm)
  have hidle : s.currentState ≠ .idle := by
    intro hs
    cases hp with
    | idle _ hw => exact not_ended_of_digits (h := [h1]) hid hast (Nat.lt_succ_self 1) (h.before ▸ hw h.dollar)
    | _ => simp_all
  by_contra hne
  have hidle' : (s.next (x n)).currentState ≠ .idle := fun hi => (idle_or_check_of_idle hi).elim hidle hcheck
  exact (hp'.not_ended hidle' hne).2 ⟨id, r, [h1, h2], h.after, hid, hast, Nat.le_refl 2⟩

theorem matches_of_arrived (h : Arrived x n id r h1 h2) (hid : id.length = 5) (hp : Parsed (words x (n + 1)) s)
    (hs : s.currentState = .checkChecksum) (hf : Follows (words x (n + 1)) s) : Matches s ∧ s.sentence = id := by
  obtain ⟨-, r', c1, c2, hw, hr', hd⟩ := hp.of_checkChecksum hs
  have hast : cAsterisk ∉ r := fun hm => h.asterisk (List.mem_append_right _ hm)
  obtain ⟨hsen, -, hcs⟩ := parts_inj (hid.trans (sentence_length s).symm) hast hr' (h.after.symm.trans hw)
  obtain ⟨rfl, hc2⟩ := List.cons.inj hcs
  obtain rfl := List.singleton_inj.mp hc2
  refine ⟨⟨hs, ?_⟩, hsen.symm⟩
  rw [hf.sumReg (id ++ r) [h1, h2] h.after h.readable.not_asterisk, hd, h.sum]

/-- What the state machine finds right is the checksum of a complete sentence. -/
theorem ends_of_matches (hr : Regular x) (hid : id = cGnrmc ∨ id = cGpgsa) (hn : (x n).isSome = true)
    (hp : Parsed (words x (n + 1)) s) (hf : Follows (words x (n + 1)) s) (h : Matches s) (hs : s.sentence = id) :
    ∃ body, Ends x n id body := by
  obtain ⟨hm, r, c1, c2, hw, hast, hd⟩ := hp.of_checkChecksum h.1
  rw [hs] at hw
  have hread := hr.readable n id r c1 c2 hn hm hid hw hast
  have hsum : hexToSlv c1 ++ hexToSlv c2 = checksum (id ++ r) := by
    rw [← hd, ← h.2, hf.sumReg (id ++ r) [c1, c2] hw hread.not_asterisk]
  obtain ⟨t, rfl⟩ := hread.comma hsum
  obtain ⟨pre, hpre⟩ := exists_eq_append_sinceDollar hm
  have hdollar : cDollar ∉ id ++ ([cComma] ++ t) := fun hmem =>
    dollar_not_mem_sinceDollar (words x (n + 1)) (hw ▸ List.mem_append_left _ hmem)
  have hidast : cAsterisk ∉ id := by
    rcases hid with rfl | rfl
    · decide
    · decide
  have hchars := And.intro (hexValue_eq hread.digits.1) (And.intro (hexValue_eq hread.digits.2) hsum)
  refine ⟨id ++ ([cComma] ++ t), hn, ⟨pre, c1, c2, _, _, ?_, hchars⟩, ⟨t, by simp⟩, hdollar, ?_⟩
  · rw [hpre, hw]
  · rw [List.mem_append, not_or]
    exact ⟨hidast, hast⟩

/-! ## The data -/

theorem rightAligned_one (l : List (BitVec 8)) (d : BitVec 8) : (rightAligned 1 (l ++ [d])).chars = [d] := by
  simp [rightAligned]

theorem gnrmcInt_of_arrived (h : Arrived x n cGnrmc r h1 h2) (hf : Follows (words x (n + 1)) s) :
    s.gnrmcInt = rmc (cGnrmc ++ r) := by
  have hcount : (cGnrmc ++ r).count cComma = r.count cComma := by
    rw [List.count_append, List.count_eq_zero_of_not_mem (by decide), Nat.zero_add]
  obtain ⟨hlow, hhigh⟩ := h.readable.gnrmc rfl h.sum
  rw [hf.gnrmc, h.after, registers_eq_rmc (hcount.symm ▸ hlow) (hcount.symm ▸ hhigh) h.readable.not_comma]

theorem gpgsaFixInt_of_arrived (h : Arrived x n cGpgsa r h1 h2) (hf : Follows (words x (n + 1)) s) :
    [s.gpgsaFixInt] = (fix (cGpgsa ++ r)).chars := by
  have hcount : (cGpgsa ++ r).count cComma = r.count cComma := by
    rw [List.count_append, List.count_eq_zero_of_not_mem (by decide), Nat.zero_add]
  obtain ⟨hlow, hhigh, hne⟩ := h.readable.gpgsa rfl h.sum
  have hchars : charsFrom [gsaFixD] 0 (sinceDollar (words x (n + 1))) = field 2 (cGpgsa ++ r) := by
    rw [h.after, charsFrom_append, charsFrom_eq_nil ?_ h.readable.not_comma, List.append_nil,
      charsFrom_singleton (by omega)]
    · rfl
    · rw [Nat.zero_add, hcount, Nat.mod_eq_of_lt hhigh]
      exact fun hmem => absurd (List.mem_singleton.mp hmem) (Nat.ne_of_gt hlow)
  obtain ⟨l, d, hld⟩ := (List.eq_nil_or_concat (field 2 (cGpgsa ++ r))).resolve_left hne
  rw [List.concat_eq_append] at hld
  rw [hf.fix l d (hchars.trans hld), fix, hld, rightAligned_one]

/-! ## Every cycle -/

section Run

variable (talkerId : Chars 2) (sentenceId : Chars 3) (sum : BitVec 8)

/-- The state machine finds the checksum right exactly after the last character of a complete sentence. -/
theorem matches_iff_ends (hx : Spaced x) (hr : Regular x) {id : List (BitVec 8)} (hid : id = cGnrmc ∨ id = cGpgsa)
    (n : Nat) :
    Matches ((NmeaParser.circuit talkerId sentenceId sum).run x (n + 1)) ∧
      ((NmeaParser.circuit talkerId sentenceId sum).run x (n + 1)).sentence = id ↔ ∃ body, Ends x n id body := by
  have hp := parsed_run talkerId sentenceId sum hx hr
  have hf := follows_run talkerId sentenceId sum x
  constructor
  · rintro ⟨hm, hs⟩
    exact ends_of_matches hr hid (isSome_of_checkChecksum hm.1) (hp (n + 1)) (hf (n + 1)) hm hs
  · rintro ⟨body, he⟩
    have hlen := id_length hid
    obtain ⟨r, h1, h2, -, ha⟩ := arrived_of_ends hr hid he
    have hs := checkChecksum_of_arrived ha hlen (hp n) (ne_checkChecksum hx he.1) (hp (n + 1))
    exact matches_of_arrived ha hlen (hp (n + 1)) hs (hf (n + 1))

/-- An output that is the comparison of three cycles ago pulses in the fourth cycle after a complete sentence. -/
theorem valid_iff_ends (hx : Spaced x) (hr : Regular x) {id : List (BitVec 8)} (hid : id = cGnrmc ∨ id = cGpgsa)
    {valid : NmeaParser → Bool}
    (hlow : ∀ m < 3, valid ((NmeaParser.circuit talkerId sentenceId sum).run x m) = false)
    (hnext : ∀ s a b c, valid (((NmeaParser.next s a).next b).next c) = true ↔ Matches s ∧ s.sentence = id)
    (m : Nat) :
    valid ((NmeaParser.circuit talkerId sentenceId sum).run x m) = true ↔ ∃ n body, m = n + 4 ∧ Ends x n id body := by
  by_cases hm : m < 3
  · rw [hlow m hm]
    refine ⟨fun h => absurd h Bool.false_ne_true, fun ⟨n, _, hn, _⟩ => absurd hn (by omega)⟩
  · obtain ⟨k, rfl⟩ := Nat.exists_eq_add_of_le' (not_lt.mp hm)
    refine (hnext _ (x k) (x (k + 1)) (x (k + 2))).trans ?_
    cases k with
    | zero => exact ⟨fun h => NmeaState.noConfusion h.1.1, fun ⟨n, _, hn, _⟩ => absurd hn (by omega)⟩
    | succ n =>
        refine (matches_iff_ends talkerId sentenceId sum hx hr hid n).trans ⟨?_, ?_⟩
        · exact fun ⟨body, he⟩ => ⟨n, body, rfl, he⟩
        · rintro ⟨n', body, hn, he⟩
          obtain rfl : n = n' := by omega
          exact ⟨body, he⟩

end Run

end Nmea

end LimeSdrQpcie
