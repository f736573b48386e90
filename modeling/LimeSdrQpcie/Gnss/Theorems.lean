import LimeSdrQpcie.Gnss.Lemmas.Pulses

/-!
# The NMEA parser: main results
-/

namespace LimeSdrQpcie

open Hdl Nmea

section Run

variable (talkerId : Chars 2) (sentenceId : Chars 3) (sum : BitVec 8) {x : Nat → Option (BitVec 8)}

/-- Of the characters it can read, the parser reports the complete sentences, each once and with its own data. -/
theorem NmeaParser.reports_sentences (hx : Spaced x) (hr : Regular x) :
    Reports x ((NmeaParser.circuit talkerId sentenceId sum).run x) := by
  have hf := follows_run talkerId sentenceId sum x
  have hlow (f : NmeaParser → Bool) (h0 : f (NmeaParser.reset talkerId sentenceId sum) = false)
      (h1 : ∀ a, f ((NmeaParser.reset talkerId sentenceId sum).next a) = false)
      (h2 : ∀ a b, f (((NmeaParser.reset talkerId sentenceId sum).next a).next b) = false) (m : Nat) (hm : m < 3) :
      f ((NmeaParser.circuit talkerId sentenceId sum).run x m) = false := by
    match m, hm with
    | 0, _ => exact h0
    | 1, _ => exact h1 (x 0)
    | 2, _ => exact h2 (x 0) (x 1)
  -- The two cycles after a sentence are without a character, so its data are still there.
  have hrun {n : Nat} (hn : (x n).isSome = true) : (NmeaParser.circuit talkerId sentenceId sum).run x (n + 4) =
      ((((NmeaParser.circuit talkerId sentenceId sum).run x (n + 1)).next none).next none).next (x (n + 3)) := by
    obtain ⟨h1, h2⟩ := hx n hn
    rw [Circuit.run_succ _ _ (n + 3), Circuit.run_succ _ _ (n + 2), Circuit.run_succ _ _ (n + 1), h1, h2]
    rfl
  exact
    { gnrmc_valid := valid_iff_ends talkerId sentenceId sum hx hr (.inl rfl)
        (hlow _ rfl (fun _ => rfl) (fun _ _ => Bool.and_false _)) (fun _ a b c => gnrmcValid_next a b c)
      gnrmc := by
        intro n body he
        obtain ⟨r, h1, h2, rfl, ha⟩ := arrived_of_ends hr (.inl rfl) he
        have hm := (matches_iff_ends talkerId sentenceId sum hx hr (.inl rfl) n).mpr ⟨_, he⟩
        rw [hrun he.1, gnrmc_next hm, gnrmcInt_of_arrived ha (hf (n + 1))]
      gpgsa_valid := valid_iff_ends talkerId sentenceId sum hx hr (.inr rfl)
        (hlow _ rfl (fun _ => rfl) (fun _ _ => Bool.and_false _)) (fun _ a b c => gpgsaValid_next a b c)
      gpgsa_fix := by
        intro n body he
        obtain ⟨r, h1, h2, rfl, ha⟩ := arrived_of_ends hr (.inr rfl) he
        have hm := (matches_iff_ends talkerId sentenceId sum hx hr (.inr rfl) n).mpr ⟨_, he⟩
        rw [hrun he.1, gpgsaFix_next hm, gpgsaFixInt_of_arrived ha (hf (n + 1))] }

end Run

/-! ## Streams of one character every third cycle -/

def everyThird (l : List (BitVec 8)) (n : Nat) : Option (BitVec 8) := if n % 3 = 0 then l[n / 3]? else none

theorem spaced_everyThird (l : List (BitVec 8)) : Spaced (everyThird l) := by
  intro n hn
  have h0 : n % 3 = 0 := by
    by_contra hne
    rw [everyThird, if_neg hne] at hn
    cases hn
  exact ⟨if_neg (by omega), if_neg (by omega)⟩

theorem words_everyThird (l : List (BitVec 8)) (n : Nat) : words (everyThird l) n = l.take ((n + 2) / 3) := by
  induction n with
  | zero => rfl
  | succ n ih =>
      rw [words_succ, ih, everyThird]
      by_cases h0 : n % 3 = 0
      · have hnext : (n + 1 + 2) / 3 = n / 3 + 1 := by omega
        have hsame : (n + 2) / 3 = n / 3 := by omega
        rw [if_pos h0, hnext, hsame, List.take_add_one]
      · have hnext : (n + 1 + 2) / 3 = (n + 2) / 3 := by omega
        rw [if_neg h0, hnext, Option.toList_none, List.append_nil]

/-- A readable sentence alone is regular. -/
theorem regular_sentence {id r : List (BitVec 8)} {h1 h2 : BitVec 8} (hid : id.length = 5) (hr : cAsterisk ∉ r)
    (hdollar : cDollar ∉ id ++ r ++ [cAsterisk, h1, h2]) (hread : Readable id r h1 h2) :
    Regular (everyThird (cDollar :: (id ++ r ++ [cAsterisk, h1, h2]))) where
  dollar n hn hm := by
    rw [everyThird] at hn
    rw [words_everyThird] at hm
    by_cases h0 : n % 3 = 0
    · rw [if_pos h0] at hn
      rcases Nat.eq_zero_or_pos (n / 3) with hz | hpos
      · rw [show (n + 2) / 3 = 0 by omega] at hm
        cases hm
      · obtain ⟨k, hk⟩ := Nat.exists_eq_add_of_le' hpos
        rw [hk, List.getElem?_cons_succ] at hn
        exact absurd (List.mem_of_getElem? hn) hdollar
    · rw [if_neg h0] at hn
      cases hn
  readable n id' r' c1 c2 _ _ hid' hw hr' := by
    obtain ⟨k, hk⟩ : ∃ k, (n + 1 + 2) / 3 = k + 1 := ⟨(n + 1 + 2) / 3 - 1, by omega⟩
    rw [words_everyThird, hk, List.take_succ_cons] at hw
    have htake : cDollar ∉ (id ++ r ++ [cAsterisk, h1, h2]).take k := fun hm => hdollar (List.mem_of_mem_take hm)
    rw [← List.nil_append (cDollar :: _), sinceDollar_append [] htake] at hw
    -- The rest of the sentence after the first asterisk and two characters is empty.
    obtain ⟨t, ht⟩ := List.take_prefix k (id ++ r ++ [cAsterisk, h1, h2])
    rw [hw, List.append_assoc (id' ++ r')] at ht
    obtain ⟨rfl, rfl, hcs⟩ := parts_inj ((id_length hid').trans hid.symm) hr' hr ht
    obtain ⟨hc1, hcs⟩ := List.cons.inj hcs
    obtain ⟨hc2, -⟩ := List.cons.inj hcs
    rw [hc1, hc2]
    exact hread

/-- A sentence of ten fields, the last of them empty. -/
def rmcFields : List (BitVec 8) :=
  strToSlv [',', '1', '2', '0', '0', '0', '0', ',', 'A', ',', '5', '4', '0', '0', ',', 'N', ',', '0', '2', '5', '0',
    '0', ',', 'E', ',', '1', ',', '2', ',', '2', '7', '0', '2', '1', '8', ',']

def rmcSentence : List (BitVec 8) := cDollar :: (cGnrmc ++ rmcFields ++ [cAsterisk, ascii '2', ascii '7'])

theorem reports_rmcSentence : Reports (everyThird rmcSentence)
    ((NmeaParser.circuit (Chars.zeros 2) (Chars.zeros 3) 0).run (everyThird rmcSentence)) :=
  NmeaParser.reports_sentences (Chars.zeros 2) (Chars.zeros 3) 0 (spaced_everyThird rmcSentence)
    (regular_sentence rfl (by decide) (by decide)
      ⟨by decide, fun _ => by decide, fun _ _ => by decide, fun h => absurd h (by decide)⟩)

/-! ## Sentences that are not regular -/

/-- `$GNRMC,$GPGSA,*6E`: the sentence is cut short and another one follows. -/
def cutShort : List (BitVec 8) :=
  cDollar :: (cGnrmc ++ [cComma]) ++ cDollar :: (cGpgsa ++ [cComma, cAsterisk, ascii '6', ascii 'E'])

/-- `$GNRMC,y*ZZ`: the characters have the checksum zero, and the digits are not hexadecimal. -/
def notHex : List (BitVec 8) := cDollar :: (cGnrmc ++ [cComma, ascii 'y', cAsterisk, ascii 'Z', ascii 'Z'])

/-- A pulse without the end of a complete sentence. -/
theorem not_reports_of_pulse {l : List (BitVec 8)} {t : Nat → NmeaParser}
    (hpulse : (t (3 * l.length + 1)).gnrmcValid = true)
    (h : ∀ h1 h2 v1 v2 body, sinceDollar l = body ++ [cAsterisk, h1, h2] → cGnrmc <+: body → hexValue h1 = some v1 →
      hexValue h2 = some v2 → False) : ¬ Reports (everyThird l) t := by
  intro hr
  obtain ⟨n, body, hn, he⟩ := (hr.gnrmc_valid _).mp hpulse
  obtain ⟨pre, h1, h2, v1, v2, heq, hv1, hv2, -⟩ := he.2.chars
  rw [words_everyThird, List.take_of_length_le (by omega)] at heq
  have hid : cGnrmc <+: body := (List.prefix_append _ _).trans he.2.id
  exact h h1 h2 v1 v2 body (heq ▸ sinceDollar_sentence he.2.dollar hv1 hv2) hid hv1 hv2

theorem not_reports_cutShort_notHex :
    (Spaced (everyThird cutShort) ∧ ¬ Reports (everyThird cutShort)
      ((NmeaParser.circuit (Chars.zeros 2) (Chars.zeros 3) 0).run (everyThird cutShort))) ∧
    Spaced (everyThird notHex) ∧ ¬ Reports (everyThird notHex)
      ((NmeaParser.circuit (Chars.zeros 2) (Chars.zeros 3) 0).run (everyThird notHex)) := by
  refine ⟨⟨spaced_everyThird cutShort, not_reports_of_pulse (by decide +kernel) ?_⟩, spaced_everyThird notHex,
    not_reports_of_pulse (by decide +kernel) ?_⟩
  · -- The characters since the last dollar sign begin with the identifier `GPGSA`.
    intro h1 h2 _ _ body heq hid _ _
    have hpre : cGnrmc <+: sinceDollar cutShort := heq ▸ hid.trans (List.prefix_append _ _)
    exact absurd hpre (by decide +kernel)
  · intro h1 h2 _ v2 body heq _ _ hv2
    have hlast : (sinceDollar notHex).getLast? = some h2 := by
      rw [heq]
      simp
    have hz : h2 = ascii 'Z' := Option.some.inj (hlast.symm.trans (by decide +kernel))
    rw [hz] at hv2
    cases hv2

end LimeSdrQpcie
