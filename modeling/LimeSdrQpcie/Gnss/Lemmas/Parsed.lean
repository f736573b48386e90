import LimeSdrQpcie.Gnss.Lemmas.Text

/-!
# What the parser has read

`Follows` is what the checksum, the field counter and the data registers know of the characters, whatever the state
machine does. `Parsed` is what the state machine knows, as long as each dollar sign comes after the end of the
sentence before it.
-/

namespace LimeSdrQpcie

open Hdl

namespace Nmea

/-! ## The checksum and the data registers -/

theorem checksum_concat (l : List (BitVec 8)) (d : BitVec 8) : checksum (l ++ [d]) = checksum l ^^^ d := by
  simp [checksum]

theorem asterisk_ne_dollar : cAsterisk ≠ cDollar := by decide

/-- The registers `s` after the characters `stream`. -/
structure Follows (stream : List (BitVec 8)) (s : NmeaParser) : Prop where
  sum : s.checksum = checksum (sinceDollar stream)
  sumReg : ∀ b h, sinceDollar stream = b ++ cAsterisk :: h → cAsterisk ∉ h → s.checksumReg = checksum b
  fields : s.dataFieldCnt = (sinceDollar stream).count cComma % 2 ^ 8
  gnrmc : s.gnrmcInt = registers (sinceDollar stream)
  fix : ∀ l d, charsFrom [gsaFixD] 0 (sinceDollar stream) = l ++ [d] → s.gpgsaFixInt = d

variable {stream : List (BitVec 8)} {s : NmeaParser}

theorem follows_reset (talkerId : Chars 2) (sentenceId : Chars 3) (sum : BitVec 8) :
    Follows [] (NmeaParser.reset talkerId sentenceId sum) where
  sum := rfl
  sumReg b h hb _ := by
    cases b <;> cases hb
  fields := rfl
  gnrmc := by
    simp [registers, sinceDollar, charsFrom, rightAligned_nil, NmeaParser.reset, Rmc.zeros]
  fix l d hl := by
    cases l <;> cases hl

/-- A last asterisk leaves the rest of the text without one. -/
theorem concat_eq_asterisk {w b h : List (BitVec 8)} {d : BitVec 8} (hw : w ++ [d] = b ++ cAsterisk :: h)
    (hh : cAsterisk ∉ h) :
    (d = cAsterisk ∧ w = b) ∨ (d ≠ cAsterisk ∧ ∃ h', w = b ++ cAsterisk :: h' ∧ cAsterisk ∉ h') := by
  rcases List.eq_nil_or_concat h with rfl | ⟨h', e, rfl⟩
  · obtain ⟨hwb, hd⟩ := List.append_inj' hw rfl
    exact .inl ⟨List.singleton_inj.mp hd, hwb⟩
  · rw [List.concat_eq_append] at hw hh
    rw [List.mem_append, not_or] at hh
    rw [← List.cons_append, ← List.append_assoc] at hw
    obtain ⟨hwb, hd⟩ := List.append_inj' hw rfl
    refine .inr ⟨?_, h', hwb, hh.1⟩
    rw [List.singleton_inj.mp hd]
    exact fun he => hh.2 (by simp [he])

theorem checksumReg_next_asterisk : (s.next (some cAsterisk)).checksumReg = s.checksum := by
  simp only [NmeaParser.next, NmeaParser.nextChecksumReg, if_true]

theorem checksumReg_next_of_ne {data : Option (BitVec 8)} (h : data ≠ some cAsterisk) :
    (s.next data).checksumReg = s.checksumReg := if_neg h

theorem Follows.next_none (h : Follows stream s) : Follows stream (s.next none) where
  sum := h.sum
  sumReg b r hb hr := (checksumReg_next_of_ne (Option.some_ne_none _).symm).trans (h.sumReg b r hb hr)
  fields := h.fields
  gnrmc := h.gnrmc
  fix := h.fix

theorem Follows.next_dollar : Follows (stream ++ [cDollar]) (s.next (some cDollar)) where
  sum := by
    rw [sinceDollar_dollar]
    rfl
  sumReg b r hb _ := by
    rw [sinceDollar_dollar] at hb
    cases b <;> cases hb
  fields := by
    rw [sinceDollar_dollar]
    rfl
  gnrmc := by
    rw [sinceDollar_dollar]
    simp [registers, charsFrom, rightAligned_nil, NmeaParser.next, NmeaParser.nextGnrmcInt, Rmc.zeros]
  fix l d hl := by
    rw [sinceDollar_dollar] at hl
    cases l <;> cases hl

theorem Follows.next_other (h : Follows stream s) {d : BitVec 8} (hd : d ≠ cDollar) :
    Follows (stream ++ [d]) (s.next (some d)) where
  sum := by
    rw [sinceDollar_other _ hd, checksum_concat, ← h.sum]
    exact if_neg hd
  sumReg b r hb hr := by
    rw [sinceDollar_other _ hd] at hb
    rcases concat_eq_asterisk hb hr with ⟨rfl, hw⟩ | ⟨hne, r', hw, hr'⟩
    · exact checksumReg_next_asterisk.trans (h.sum.trans (by rw [hw]))
    · exact (checksumReg_next_of_ne (by simpa using hne)).trans (h.sumReg b r' hw hr')
  fields := by
    rw [sinceDollar_other _ hd, List.count_append]
    simp only [NmeaParser.next, NmeaParser.nextDataFieldCnt, h.fields]
    by_cases hc : d = cComma
    · rw [if_pos hc, hc, List.count_singleton_self, Nat.mod_add_mod]
    · rw [if_neg hc, if_neg hd, List.count_singleton, if_neg (by simpa using hc), Nat.add_zero]
  gnrmc := by
    rw [sinceDollar_other _ hd]
    simp only [NmeaParser.next, NmeaParser.nextGnrmcInt, if_neg hd, h.gnrmc, h.fields]
    by_cases hc : d = cComma
    · rw [if_neg (not_not.mpr hc), hc, registers_comma]
    · rw [if_pos hc, registers_concat _ hc]
  fix l e hl := by
    rw [sinceDollar_other _ hd, charsFrom_append, Nat.zero_add, charsFrom] at hl
    simp only [NmeaParser.next, NmeaParser.nextGpgsaFixInt, h.fields]
    by_cases hc : d = cComma
    · rw [if_pos hc, charsFrom, List.append_nil] at hl
      rw [if_neg (fun hn => hn.1 hc), h.fix l e hl]
    · rw [if_neg hc, charsFrom] at hl
      by_cases hf : (sinceDollar stream).count cComma % 2 ^ 8 = gsaFixD
      · rw [if_pos (by simpa using hf)] at hl
        rw [if_pos ⟨hc, hf⟩]
        exact List.singleton_inj.mp (List.append_inj' hl rfl).2
      · rw [if_neg (by simpa using hf), List.append_nil] at hl
        rw [if_neg (fun hn => hf hn.2), h.fix l e hl]

theorem Follows.next (h : Follows stream s) (data : Option (BitVec 8)) :
    Follows (stream ++ data.toList) (s.next data) := by
  cases data with
  | none => simpa using h.next_none
  | some d =>
      by_cases hd : d = cDollar
      · exact hd ▸ Follows.next_dollar
      · exact h.next_other hd

theorem follows_run (talkerId : Chars 2) (sentenceId : Chars 3) (sum : BitVec 8) (x : Nat → Option (BitVec 8))
    (n : Nat) : Follows (words x n) ((NmeaParser.circuit talkerId sentenceId sum).run x n) := by
  induction n with
  | zero => exact follows_reset talkerId sentenceId sum
  | succ n ih => exact ih.next (x n)

/-! ## The state machine -/

/-- What the state machine and the registers it fills know of the characters `stream`. -/
inductive Parsed (stream : List (BitVec 8)) (s : NmeaParser) : Prop
  | idle (hs : s.currentState = .idle) (hw : cDollar ∈ stream → Ended (sinceDollar stream))
  | talkerId (hs : s.currentState = .getTalkerId) (hm : cDollar ∈ stream) (hc : s.stateCnt < talkerIdLen)
      (hw : sinceDollar stream = s.sentence.take s.stateCnt)
  | sentenceId (hs : s.currentState = .getSentenceId) (hm : cDollar ∈ stream) (hc : s.stateCnt < sentenceIdLen)
      (hw : sinceDollar stream = s.sentence.take (talkerIdLen + s.stateCnt))
  | sentence (r : List (BitVec 8)) (hs : s.currentState = .parseSentence) (hm : cDollar ∈ stream)
      (hw : sinceDollar stream = s.sentence ++ r) (hr : cAsterisk ∉ r)
  | firstDigit (r : List (BitVec 8)) (hs : s.currentState = .getChecksum) (hm : cDollar ∈ stream)
      (hc : s.stateCnt = 0) (hw : sinceDollar stream = s.sentence ++ r ++ [cAsterisk]) (hr : cAsterisk ∉ r)
  | secondDigit (r : List (BitVec 8)) (c1 : BitVec 8) (hs : s.currentState = .getChecksum) (hm : cDollar ∈ stream)
      (hc : s.stateCnt = 1) (hw : sinceDollar stream = s.sentence ++ r ++ [cAsterisk, c1]) (hr : cAsterisk ∉ r)
      (hd : s.nmeaChecksum.extractLsb' 4 4 = hexToSlv c1)
  | checked (r : List (BitVec 8)) (c1 c2 : BitVec 8) (hs : s.currentState = .checkChecksum) (hm : cDollar ∈ stream)
      (hw : sinceDollar stream = s.sentence ++ r ++ [cAsterisk, c1, c2]) (hr : cAsterisk ∉ r)
      (hd : s.nmeaChecksum = hexToSlv c1 ++ hexToSlv c2)

theorem sentence_length (s : NmeaParser) : s.sentence.length = 5 := by
  rw [NmeaParser.sentence, List.length_append, s.nmeaTalkerId.length_eq, s.nmeaSentenceId.length_eq]

theorem asterisk_inj {r r' h h' : List (BitVec 8)} (hr : cAsterisk ∉ r) (hr' : cAsterisk ∉ r')
    (heq : r ++ cAsterisk :: h = r' ++ cAsterisk :: h') : r = r' ∧ h = h' := by
  have hnil : ∀ {t a b : List (BitVec 8)}, cAsterisk ∉ t → cAsterisk :: a = t ++ cAsterisk :: b → t = [] ∧ a = b := by
    intro t a b ht hab
    cases t with
    | nil => exact ⟨rfl, (List.cons.inj hab).2⟩
    | cons e t => exact absurd (List.mem_cons.mpr (.inl (List.cons.inj hab).1)) ht
  rcases List.append_eq_append_iff.mp heq with ⟨t, rfl, ht⟩ | ⟨t, rfl, ht⟩
  · obtain ⟨rfl, hh⟩ := hnil (fun hm => hr' (List.mem_append_right _ hm)) ht
    exact ⟨(List.append_nil r).symm, hh⟩
  · obtain ⟨rfl, hh⟩ := hnil (fun hm => hr (List.mem_append_right _ hm)) ht
    exact ⟨List.append_nil r', hh.symm⟩

/-- The parts of a sentence are unique. -/
theorem parts_inj {a a' r r' h h' : List (BitVec 8)} (ha : a.length = a'.length) (hr : cAsterisk ∉ r)
    (hr' : cAsterisk ∉ r') (heq : a ++ r ++ cAsterisk :: h = a' ++ r' ++ cAsterisk :: h') :
    a = a' ∧ r = r' ∧ h = h' := by
  rw [List.append_assoc, List.append_assoc] at heq
  obtain ⟨haa, hrh⟩ := List.append_inj heq ha
  exact ⟨haa, asterisk_inj hr hr' hrh⟩

theorem not_ended_of_length {w : List (BitVec 8)} (hw : w.length ≤ 5) : ¬ Ended w := by
  rintro ⟨a, r, h, rfl, ha, -, hh⟩
  simp only [List.length_append, List.length_cons] at hw
  omega

theorem not_ended_of_asterisk {a r : List (BitVec 8)} (ha : a.length = 5) (hr : cAsterisk ∉ r) :
    ¬ Ended (a ++ r) := by
  rintro ⟨a', r', h, heq, ha', -, -⟩
  rw [List.append_assoc] at heq
  obtain ⟨-, rfl⟩ := List.append_inj heq (ha.trans ha'.symm)
  exact hr (by simp)

theorem not_ended_of_digits {a r h : List (BitVec 8)} (ha : a.length = 5) (hr : cAsterisk ∉ r) (hh : h.length < 2) :
    ¬ Ended (a ++ r ++ cAsterisk :: h) := by
  rintro ⟨a', r', h', heq, ha', hr', hh'⟩
  obtain ⟨-, -, rfl⟩ := parts_inj (ha.trans ha'.symm) hr hr' heq
  exact absurd hh' (by omega)

/-- Inside a sentence no dollar sign may come. -/
theorem Parsed.not_ended (h : Parsed stream s) (hidle : s.currentState ≠ .idle)
    (hcheck : s.currentState ≠ .checkChecksum) : cDollar ∈ stream ∧ ¬ Ended (sinceDollar stream) := by
  cases h with
  | idle hs _ => exact absurd hs hidle
  | talkerId _ hm _ hw | sentenceId _ hm _ hw =>
      exact ⟨hm, hw ▸ not_ended_of_length ((List.length_take_le' _ _).trans (sentence_length s).le)⟩
  | sentence r _ hm hw hr => exact ⟨hm, hw ▸ not_ended_of_asterisk (sentence_length s) hr⟩
  | firstDigit r _ hm _ hw hr => exact ⟨hm, hw ▸ not_ended_of_digits (sentence_length s) hr (by decide)⟩
  | secondDigit r c1 _ hm _ hw hr _ => exact ⟨hm, hw ▸ not_ended_of_digits (sentence_length s) hr (by simp)⟩
  | checked _ _ _ hs => exact absurd hs hcheck

/-! ## One character -/

theorem take_set_succ {l : List (BitVec 8)} {k : Nat} (hk : k < l.length) (d : BitVec 8) :
    (l.set k d).take (k + 1) = l.take k ++ [d] := by
  rw [List.take_add_one, List.take_set_of_le (Nat.le_refl k), List.getElem?_set_self hk, Option.toList_some]

theorem sentence_next_talkerId (hs : s.currentState = .getTalkerId) (hc : s.stateCnt < talkerIdLen) (d : BitVec 8) :
    (s.next (some d)).sentence = s.sentence.set s.stateCnt d := by
  have hlt : s.stateCnt < s.nmeaTalkerId.chars.length := s.nmeaTalkerId.length_eq.symm ▸ hc
  simp only [NmeaParser.sentence, NmeaParser.next, NmeaParser.nextTalkerId, NmeaParser.nextSentenceId, hs, if_true,
    Chars.set, List.set_append_left _ _ hlt, reduceCtorEq, if_false]

theorem sentence_next_sentenceId (hs : s.currentState = .getSentenceId) (d : BitVec 8) :
    (s.next (some d)).sentence = s.sentence.set (talkerIdLen + s.stateCnt) d := by
  have hlen : s.nmeaTalkerId.chars.length = talkerIdLen := s.nmeaTalkerId.length_eq
  have hle : s.nmeaTalkerId.chars.length ≤ talkerIdLen + s.stateCnt := hlen.symm ▸ Nat.le_add_right _ _
  simp only [NmeaParser.sentence, NmeaParser.next, NmeaParser.nextTalkerId, NmeaParser.nextSentenceId, hs, if_true,
    Chars.set, List.set_append_right _ _ hle, reduceCtorEq, if_false, hlen, Nat.add_sub_cancel_left]

theorem sentence_next_of_ne (ht : s.currentState ≠ .getTalkerId) (hi : s.currentState ≠ .getSentenceId)
    (data : Option (BitVec 8)) : (s.next data).sentence = s.sentence := by
  cases data with
  | none => rfl
  | some d =>
      simp only [NmeaParser.sentence, NmeaParser.next, NmeaParser.nextTalkerId, NmeaParser.nextSentenceId, if_neg ht,
        if_neg hi]

theorem stateCnt_next_of_stays {data : Option (BitVec 8)} (h : s.nextState data = s.currentState) :
    (s.next data).stateCnt = if data.isSome then (s.stateCnt + 1) % 2 ^ 8 else s.stateCnt := if_pos h

theorem stateCnt_next_of_leaves {data : Option (BitVec 8)} (h : s.nextState data ≠ s.currentState) :
    (s.next data).stateCnt = 0 := if_neg h

theorem nextState_none (h : s.currentState ≠ .checkChecksum) : s.nextState none = s.currentState := by
  cases hs : s.currentState with
  | checkChecksum => exact absurd hs h
  | _ => simp [NmeaParser.nextState, hs]

theorem Parsed.next_none (h : Parsed stream s) : Parsed stream (s.next none) := by
  have hstay (hne : s.currentState ≠ .checkChecksum) : (s.next none).currentState = s.currentState :=
    nextState_none hne
  have hcnt (hne : s.currentState ≠ .checkChecksum) : (s.next none).stateCnt = s.stateCnt :=
    stateCnt_next_of_stays (nextState_none hne)
  have hnot {a : NmeaState} (hs : s.currentState = a) (ha : a ≠ .checkChecksum) : s.currentState ≠ .checkChecksum :=
    hs.symm ▸ ha
  cases h with
  | idle hs hw => exact .idle ((hstay (hnot hs (by decide))).trans hs) hw
  | talkerId hs hm hc hw =>
      have hne := hnot hs (by decide)
      exact .talkerId ((hstay hne).trans hs) hm ((hcnt hne).symm ▸ hc) ((hcnt hne).symm ▸ hw)
  | sentenceId hs hm hc hw =>
      have hne := hnot hs (by decide)
      exact .sentenceId ((hstay hne).trans hs) hm ((hcnt hne).symm ▸ hc) ((hcnt hne).symm ▸ hw)
  | sentence r hs hm hw hr => exact .sentence r ((hstay (hnot hs (by decide))).trans hs) hm hw hr
  | firstDigit r hs hm hc hw hr =>
      have hne := hnot hs (by decide)
      exact .firstDigit r ((hstay hne).trans hs) hm ((hcnt hne).trans hc) hw hr
  | secondDigit r c1 hs hm hc hw hr hd =>
      have hne := hnot hs (by decide)
      exact .secondDigit r c1 ((hstay hne).trans hs) hm ((hcnt hne).trans hc) hw hr hd
  | checked r c1 c2 hs hm hw hr _ =>
      have hidle : (s.next none).currentState = .idle := by
        simp only [NmeaParser.next, NmeaParser.nextState, hs]
      exact .idle hidle (fun _ => ⟨s.sentence, r, [c1, c2], hw, sentence_length s, hr, Nat.le_refl 2⟩)

theorem Parsed.next_dollar (hidle : s.currentState = .idle) :
    Parsed (stream ++ [cDollar]) (s.next (some cDollar)) := by
  have hnext : s.nextState (some cDollar) = .getTalkerId := by
    simp only [NmeaParser.nextState, hidle, if_true]
  have hcnt : (s.next (some cDollar)).stateCnt = 0 :=
    stateCnt_next_of_leaves (by rw [hnext, hidle]; decide)
  refine .talkerId hnext (by simp) (hcnt ▸ Nat.two_pos) ?_
  rw [sinceDollar_dollar, hcnt, List.take_zero]

section Other

variable {d : BitVec 8} (hd : d ≠ cDollar)

include hd

theorem ended_next (h : cDollar ∈ stream → Ended (sinceDollar stream)) (hm : cDollar ∈ stream ++ [d]) :
    Ended (sinceDollar (stream ++ [d])) := by
  have hm' : cDollar ∈ stream := (List.mem_append.mp hm).resolve_right (by simpa using Ne.symm hd)
  obtain ⟨a, r, h, heq, ha, hr, hh⟩ := h hm'
  exact ⟨a, r, h ++ [d], by rw [sinceDollar_other stream hd, heq]; simp, ha, hr, by simp; omega⟩

theorem next_talkerId (hs : s.currentState = .getTalkerId) (hm : cDollar ∈ stream) (hc : s.stateCnt < talkerIdLen)
    (hw : sinceDollar stream = s.sentence.take s.stateCnt) : Parsed (stream ++ [d]) (s.next (some d)) := by
  have hlen : talkerIdLen = 2 := rfl
  have hw' : sinceDollar (stream ++ [d]) = (s.next (some d)).sentence.take (s.stateCnt + 1) := by
    rw [sinceDollar_other stream hd, hw, sentence_next_talkerId hs hc, take_set_succ (by rw [sentence_length]; omega)]
  have hm' : cDollar ∈ stream ++ [d] := List.mem_append_left _ hm
  by_cases hlast : s.stateCnt = talkerIdLen - 1
  · have hnext : s.nextState (some d) = .getSentenceId := by
      simp [NmeaParser.nextState, hs, hlast]
    have hcnt := stateCnt_next_of_leaves (hnext.trans_ne (hs ▸ by decide))
    refine .sentenceId hnext hm' (hcnt ▸ by decide) ?_
    rw [hw', hcnt, hlast]
    rfl
  · have hnext : s.nextState (some d) = .getTalkerId := by
      simp [NmeaParser.nextState, hs, hlast]
    have hcnt : (s.next (some d)).stateCnt = s.stateCnt + 1 :=
      (stateCnt_next_of_stays (hnext.trans hs.symm)).trans (Nat.mod_eq_of_lt (by omega))
    exact .talkerId hnext hm' (by omega) (hcnt.symm ▸ hw')

theorem next_sentenceId (hs : s.currentState = .getSentenceId) (hm : cDollar ∈ stream) (hc : s.stateCnt < sentenceIdLen)
    (hw : sinceDollar stream = s.sentence.take (talkerIdLen + s.stateCnt)) :
    Parsed (stream ++ [d]) (s.next (some d)) := by
  have hlen : talkerIdLen = 2 := rfl
  have hlen' : sentenceIdLen = 3 := rfl
  have hw' : sinceDollar (stream ++ [d]) = (s.next (some d)).sentence.take (talkerIdLen + s.stateCnt + 1) := by
    rw [sinceDollar_other stream hd, hw, sentence_next_sentenceId hs, take_set_succ (by rw [sentence_length]; omega)]
  have hm' : cDollar ∈ stream ++ [d] := List.mem_append_left _ hm
  by_cases hlast : s.stateCnt = sentenceIdLen - 1
  · have hnext : s.nextState (some d) = .parseSentence := by
      simp [NmeaParser.nextState, hs, hlast]
    refine .sentence [] hnext hm' ?_ List.not_mem_nil
    rw [hw', hlast, List.append_nil]
    exact List.take_of_length_le (sentence_length _).le
  · have hnext : s.nextState (some d) = .getSentenceId := by
      simp [NmeaParser.nextState, hs, hlast]
    have hcnt : (s.next (some d)).stateCnt = s.stateCnt + 1 :=
      (stateCnt_next_of_stays (hnext.trans hs.symm)).trans (Nat.mod_eq_of_lt (by omega))
    exact .sentenceId hnext hm' (by omega) (hcnt.symm ▸ hw')

theorem next_sentence {r : List (BitVec 8)} (hs : s.currentState = .parseSentence) (hm : cDollar ∈ stream)
    (hw : sinceDollar stream = s.sentence ++ r) (hr : cAsterisk ∉ r) : Parsed (stream ++ [d]) (s.next (some d)) := by
  have hsen : (s.next (some d)).sentence = s.sentence :=
    sentence_next_of_ne (hs ▸ by decide) (hs ▸ by decide) (some d)
  have hw' : sinceDollar (stream ++ [d]) = (s.next (some d)).sentence ++ (r ++ [d]) := by
    rw [sinceDollar_other stream hd, hw, hsen, List.append_assoc]
  have hm' : cDollar ∈ stream ++ [d] := List.mem_append_left _ hm
  by_cases hast : d = cAsterisk
  · have hnext : s.nextState (some d) = .getChecksum := by
      simp [NmeaParser.nextState, hs, hast]
    have hcnt := stateCnt_next_of_leaves (hnext.trans_ne (hs ▸ by decide))
    refine .firstDigit r hnext hm' hcnt ?_ hr
    rw [hw', hast, List.append_assoc]
  · have hnext : s.nextState (some d) = .parseSentence := by
      simp [NmeaParser.nextState, hs, hast]
    refine .sentence (r ++ [d]) hnext hm' hw' ?_
    rw [List.mem_append, List.mem_singleton, not_or]
    exact ⟨hr, Ne.symm hast⟩

theorem next_firstDigit {r : List (BitVec 8)} (hs : s.currentState = .getChecksum) (hm : cDollar ∈ stream)
    (hc : s.stateCnt = 0) (hw : sinceDollar stream = s.sentence ++ r ++ [cAsterisk]) (hr : cAsterisk ∉ r) :
    Parsed (stream ++ [d]) (s.next (some d)) := by
  have hsen : (s.next (some d)).sentence = s.sentence :=
    sentence_next_of_ne (hs ▸ by decide) (hs ▸ by decide) (some d)
  have hnext : s.nextState (some d) = .getChecksum := by
    simp [NmeaParser.nextState, hs, hc, checksumLen]
  have hcnt : (s.next (some d)).stateCnt = 1 := by
    rw [stateCnt_next_of_stays (hnext.trans hs.symm), hc]
    rfl
  refine .secondDigit r d hnext (List.mem_append_left _ hm) hcnt ?_ hr ?_
  · rw [sinceDollar_other stream hd, hw, hsen, List.append_assoc (s.sentence ++ r)]
    rfl
  · simp only [NmeaParser.next, NmeaParser.nextNmeaChecksum, hs, hc, if_true]
    exact BitVec.extractLsb'_append_eq_left

theorem next_secondDigit {r : List (BitVec 8)} {c1 : BitVec 8} (hs : s.currentState = .getChecksum)
    (hm : cDollar ∈ stream) (hc : s.stateCnt = 1) (hw : sinceDollar stream = s.sentence ++ r ++ [cAsterisk, c1])
    (hr : cAsterisk ∉ r) (hd1 : s.nmeaChecksum.extractLsb' 4 4 = hexToSlv c1) :
    Parsed (stream ++ [d]) (s.next (some d)) := by
  have hsen : (s.next (some d)).sentence = s.sentence :=
    sentence_next_of_ne (hs ▸ by decide) (hs ▸ by decide) (some d)
  have hnext : s.nextState (some d) = .checkChecksum := by
    simp [NmeaParser.nextState, hs, hc, checksumLen]
  refine .checked r c1 d hnext (List.mem_append_left _ hm) ?_ hr ?_
  · rw [sinceDollar_other stream hd, hw, hsen, List.append_assoc (s.sentence ++ r)]
    rfl
  · simp only [NmeaParser.next, NmeaParser.nextNmeaChecksum, hs, hc, if_true, Nat.one_ne_zero, if_false, hd1]

theorem Parsed.next_other (h : Parsed stream s) (hcheck : s.currentState ≠ .checkChecksum) :
    Parsed (stream ++ [d]) (s.next (some d)) := by
  cases h with
  | idle hs hw =>
      exact .idle (by simp [NmeaParser.next, NmeaParser.nextState, hs, hd]) fun hm => ended_next hd hw hm
  | talkerId hs hm hc hw => exact next_talkerId hd hs hm hc hw
  | sentenceId hs hm hc hw => exact next_sentenceId hd hs hm hc hw
  | sentence r hs hm hw hr => exact next_sentence hd hs hm hw hr
  | firstDigit r hs hm hc hw hr => exact next_firstDigit hd hs hm hc hw hr
  | secondDigit r c1 hs hm hc hw hr hd1 => exact next_secondDigit hd hs hm hc hw hr hd1
  | checked _ _ _ hs => exact absurd hs hcheck

end Other

/-! ## Every cycle -/

theorem isSome_of_checkChecksum {data : Option (BitVec 8)} (h : (s.next data).currentState = .checkChecksum) :
    data.isSome = true := by
  simp only [NmeaParser.next, NmeaParser.nextState] at h
  cases hs : s.currentState with
  | getChecksum =>
      simp only [hs] at h
      by_cases hd : data.isSome = true ∧ s.stateCnt = checksumLen - 1
      · exact hd.1
      · rw [if_neg hd] at h
        cases h
  | _ => grind

/-- The state machine is not looking at a checksum when a character comes. -/
theorem ne_checkChecksum {talkerId : Chars 2} {sentenceId : Chars 3} {sum : BitVec 8} {x : Nat → Option (BitVec 8)}
    (hx : Spaced x) {n : Nat} (hn : (x n).isSome = true) :
    ((NmeaParser.circuit talkerId sentenceId sum).run x n).currentState ≠ .checkChecksum := by
  cases n with
  | zero => exact NmeaState.noConfusion
  | succ n =>
      intro h
      rw [(hx n (isSome_of_checkChecksum h)).1] at hn
      cases hn

theorem parsed_run (talkerId : Chars 2) (sentenceId : Chars 3) (sum : BitVec 8) {x : Nat → Option (BitVec 8)}
    (hx : Spaced x) (hr : Regular x) (n : Nat) :
    Parsed (words x n) ((NmeaParser.circuit talkerId sentenceId sum).run x n) := by
  induction n with
  | zero => exact .idle rfl (fun hm => absurd hm List.not_mem_nil)
  | succ n ih =>
      rw [Circuit.run_succ]
      cases hd : x n with
      | none =>
          rw [words_succ_of_none hd]
          exact ih.next_none
      | some d =>
          have hcheck : ((NmeaParser.circuit talkerId sentenceId sum).run x n).currentState ≠ .checkChecksum :=
            ne_checkChecksum hx (Option.isSome_of_eq_some hd)
          rw [words_succ_of_some hd]
          by_cases hdollar : d = cDollar
          · -- A dollar sign inside a sentence would contradict `Regular.dollar`.
            have hidle : ((NmeaParser.circuit talkerId sentenceId sum).run x n).currentState = .idle := by
              by_contra hne
              obtain ⟨hm, hend⟩ := ih.not_ended hne hcheck
              exact hend (hr.dollar n (hdollar ▸ hd) hm)
            rw [hdollar]
            exact Parsed.next_dollar hidle
          · exact ih.next_other hdollar hcheck

end Nmea

end LimeSdrQpcie
