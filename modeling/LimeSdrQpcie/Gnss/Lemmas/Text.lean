import LimeSdrQpcie.Gnss.Sentence

/-!
# The characters since the last dollar sign

The checksum, the field counter and the data registers follow the characters since the last dollar sign, whatever the
state machine does.
-/

namespace LimeSdrQpcie

open Hdl

namespace Nmea

/-! ## The last dollar sign -/

theorem sinceDollar_dollar (stream : List (BitVec 8)) : sinceDollar (stream ++ [cDollar]) = [] :=
  List.rtakeWhile_concat_neg _ _ _ (by simp)

theorem sinceDollar_other (stream : List (BitVec 8)) {d : BitVec 8} (h : d ≠ cDollar) :
    sinceDollar (stream ++ [d]) = sinceDollar stream ++ [d] :=
  List.rtakeWhile_concat_pos _ _ _ (by simpa using h)

theorem dollar_not_mem_sinceDollar (stream : List (BitVec 8)) : cDollar ∉ sinceDollar stream := fun h => by
  simpa using List.mem_rtakeWhile_imp h

theorem exists_eq_append_sinceDollar {stream : List (BitVec 8)} (h : cDollar ∈ stream) :
    ∃ pre, stream = pre ++ cDollar :: sinceDollar stream := by
  induction stream using List.reverseRecOn with
  | nil => cases h
  | append_singleton l d ih =>
      by_cases hd : d = cDollar
      · exact ⟨l, by rw [hd, sinceDollar_dollar]⟩
      · have hl : cDollar ∈ l := by
          rcases List.mem_append.mp h with hl | hl
          · exact hl
          · exact absurd (List.mem_singleton.mp hl).symm hd
        obtain ⟨pre, hpre⟩ := ih hl
        refine ⟨pre, ?_⟩
        rw [sinceDollar_other l hd, ← List.cons_append, ← List.append_assoc, ← hpre]

theorem sinceDollar_append {t : List (BitVec 8)} (pre : List (BitVec 8)) (h : cDollar ∉ t) :
    sinceDollar (pre ++ cDollar :: t) = t := by
  induction t using List.reverseRecOn with
  | nil => exact sinceDollar_dollar pre
  | append_singleton l d ih =>
      rw [List.mem_append, not_or] at h
      have hd : d ≠ cDollar := fun hd => h.2 (by simp [hd])
      rw [← List.cons_append, ← List.append_assoc, sinceDollar_other _ hd, ih h.1]

/-! ## The characters of the data fields -/

/-- The characters of `l` that the registers of the data fields `nos` take, from the field counter `c` on. -/
def charsFrom (nos : List Nat) (c : Nat) : List (BitVec 8) → List (BitVec 8)
  | [] => []
  | d :: l =>
      if d = cComma then charsFrom nos (c + 1) l
      else if c % 2 ^ 8 ∈ nos then d :: charsFrom nos c l
      else charsFrom nos c l

theorem charsFrom_append (nos : List Nat) (c : Nat) (l l' : List (BitVec 8)) :
    charsFrom nos c (l ++ l') = charsFrom nos c l ++ charsFrom nos (c + l.count cComma) l' := by
  induction l generalizing c with
  | nil => rfl
  | cons d l ih =>
      rw [List.cons_append, charsFrom, charsFrom]
      by_cases hd : d = cComma
      · rw [if_pos hd, if_pos hd, ih, hd, List.count_cons_self, Nat.add_assoc, Nat.add_comm 1]
      · rw [if_neg hd, if_neg hd, List.count_cons_of_ne hd, ih]
        split
        · rfl
        · rfl

theorem charsFrom_eq_nil {nos : List Nat} {c : Nat} {l : List (BitVec 8)} (hc : c % 2 ^ 8 ∉ nos) (hl : cComma ∉ l) :
    charsFrom nos c l = [] := by
  induction l with
  | nil => rfl
  | cons d l ih =>
      rw [List.mem_cons, not_or] at hl
      rw [charsFrom, if_neg (Ne.symm hl.1), if_neg hc, ih hl.2]

theorem field_comma (k : Nat) (l : List (BitVec 8)) :
    field k (cComma :: l) = if k = 0 then [] else field (k - 1) l := by
  unfold field
  rw [List.splitOn_cons_eq_if_modifyHead, if_pos (by simp)]
  cases k <;> rfl

theorem field_cons {d : BitVec 8} (h : d ≠ cComma) (k : Nat) (l : List (BitVec 8)) :
    field k (d :: l) = if k = 0 then d :: field 0 l else field k l := by
  unfold field
  rw [List.splitOn_cons_eq_if_modifyHead, if_neg (by simpa using h)]
  obtain ⟨a, r, hr⟩ := List.exists_cons_of_ne_nil (List.splitOn_ne_nil cComma l)
  rw [hr]
  cases k <;> rfl

/-- A register of one data field takes the characters of the field. -/
theorem charsFrom_singleton {k c : Nat} {l : List (BitVec 8)} (h : c + l.count cComma < 2 ^ 8) :
    charsFrom [k] c l = if c ≤ k then field (k - c) l else [] := by
  induction l generalizing c with
  | nil =>
      have hnil : field (k - c) [] = [] := by
        unfold field
        cases k - c <;> rfl
      rw [hnil, charsFrom, ite_self]
  | cons d l ih =>
      by_cases hd : d = cComma
      · rw [hd, List.count_cons_self] at h
        rw [charsFrom, if_pos hd, ih (by omega), hd, field_comma]
        by_cases hck : c + 1 ≤ k
        · rw [if_pos hck, if_pos (by omega), if_neg (by omega), Nat.sub_add_eq]
        · rw [if_neg hck]
          split
          · rw [if_pos (by omega)]
          · rfl
      · rw [List.count_cons_of_ne hd] at h
        rw [charsFrom, if_neg hd, ih h, field_cons hd, Nat.mod_eq_of_lt (by omega)]
        by_cases hck : c = k
        · simp [hck]
        · rw [if_neg (by simpa using hck)]
          split
          · rw [if_neg (by omega)]
          · rfl

/-- A register of two data fields takes the characters of the one before those of the other. -/
theorem charsFrom_pair {j k c : Nat} {l : List (BitVec 8)} (hjk : j < k) (h : c + l.count cComma < 2 ^ 8) :
    charsFrom [j, k] c l = charsFrom [j] c l ++ charsFrom [k] c l := by
  induction l generalizing c with
  | nil => rfl
  | cons d l ih =>
      simp only [charsFrom]
      by_cases hd : d = cComma
      · rw [hd, List.count_cons_self] at h
        rw [if_pos hd, if_pos hd, if_pos hd, ih (by omega)]
      · rw [List.count_cons_of_ne hd] at h
        rw [if_neg hd, if_neg hd, if_neg hd, ih h, Nat.mod_eq_of_lt (by omega)]
        by_cases hcj : c = j
        · simp [hcj, hjk.ne]
        · by_cases hck : c = k
          · have hnil : charsFrom [j] c l = [] := by
              rw [charsFrom_singleton h, if_neg (by omega)]
            simp [hck, hjk.ne', hck ▸ hnil]
          · simp [hcj, hck]

/-! ## The registers of the data fields -/

theorem rightAligned_nil (n : Nat) : rightAligned n [] = Chars.zeros n := by
  simp [rightAligned, Chars.zeros]

theorem shiftIn_rightAligned (n : Nat) (l : List (BitVec 8)) (d : BitVec 8) :
    (rightAligned n l).shiftIn d = rightAligned n (l ++ [d]) := by
  have hdrop : (List.replicate n (ascii '0') ++ l ++ [d]).drop l.length =
      (List.replicate n (ascii '0') ++ l).drop l.length ++ [d] := List.drop_append_of_le_length (by simp)
  simp only [rightAligned, Chars.shiftIn, Chars.mk.injEq]
  rw [← List.append_assoc, List.length_append, List.length_singleton, ← List.drop_drop, hdrop]

/-- The data registers after the characters `l`. -/
def registers (l : List (BitVec 8)) : Rmc :=
  { utc := rightAligned 10 (charsFrom [rmcUtcD] 0 l)
    status := rightAligned 1 (charsFrom [rmcStatD] 0 l)
    lat := rightAligned 11 (charsFrom [rmcLatD0, rmcLatD1] 0 l)
    long := rightAligned 12 (charsFrom [rmcLongD0, rmcLongD1] 0 l)
    speed := rightAligned 7 (charsFrom [rmcSpeedD] 0 l)
    course := rightAligned 6 (charsFrom [rmcCourseD] 0 l)
    date := rightAligned 6 (charsFrom [rmcDateD] 0 l) }

theorem fieldIn_charsFrom (n : Nat) (nos : List Nat) (l : List (BitVec 8)) {d : BitVec 8} (hd : d ≠ cComma) :
    Rmc.fieldIn nos (l.count cComma % 2 ^ 8) d (rightAligned n (charsFrom nos 0 l)) =
      rightAligned n (charsFrom nos 0 (l ++ [d])) := by
  rw [charsFrom_append, Nat.zero_add, charsFrom, if_neg hd, charsFrom, Rmc.fieldIn]
  split
  · exact shiftIn_rightAligned n _ d
  · rw [List.append_nil]

theorem registers_concat (l : List (BitVec 8)) {d : BitVec 8} (hd : d ≠ cComma) :
    (registers l).charIn (l.count cComma % 2 ^ 8) d = registers (l ++ [d]) := by
  simp only [registers, Rmc.charIn, fieldIn_charsFrom _ _ _ hd]

theorem registers_comma (l : List (BitVec 8)) : registers (l ++ [cComma]) = registers l := by
  have h : ∀ nos, charsFrom nos 0 (l ++ [cComma]) = charsFrom nos 0 l := fun nos => by
    simp [charsFrom_append, charsFrom]
  simp only [registers, h]

/-- With ten commas or more before the asterisk, and no overflow of the field counter, the data registers hold the
fields. -/
theorem registers_eq_rmc {body rest : List (BitVec 8)} (hlow : 10 ≤ body.count cComma)
    (hhigh : body.count cComma < 2 ^ 8) (hrest : cComma ∉ rest) : registers (body ++ rest) = rmc body := by
  have hskip : ∀ nos : List Nat, (∀ no ∈ nos, no < 10) →
      charsFrom nos 0 (body ++ rest) = charsFrom nos 0 body := by
    intro nos hnos
    have hno : (0 + body.count cComma) % 2 ^ 8 ∉ nos := by
      rw [Nat.zero_add, Nat.mod_eq_of_lt hhigh]
      exact fun hmem => absurd (hnos _ hmem) (by omega)
    rw [charsFrom_append, charsFrom_eq_nil hno hrest, List.append_nil]
  have hone : ∀ k < 10, charsFrom [k] 0 (body ++ rest) = field k body := by
    intro k hk
    rw [hskip [k] (by simpa using hk), charsFrom_singleton (by omega), if_pos (Nat.zero_le k), Nat.sub_zero]
  have htwo : ∀ k < 9, charsFrom [k, k + 1] 0 (body ++ rest) = field k body ++ field (k + 1) body := by
    intro k hk
    rw [hskip [k, k + 1] (by simp; omega), charsFrom_pair (Nat.lt_succ_self k) (by omega),
      charsFrom_singleton (by omega), charsFrom_singleton (by omega)]
    rfl
  simp only [registers, rmc, rmcUtcD, rmcStatD, rmcSpeedD, rmcCourseD, rmcDateD, hone 1 (by decide),
    hone 2 (by decide), hone 7 (by decide), hone 8 (by decide), hone 9 (by decide)]
  rw [show [rmcLatD0, rmcLatD1] = [3, 3 + 1] from rfl, show [rmcLongD0, rmcLongD1] = [5, 5 + 1] from rfl,
    htwo 3 (by decide), htwo 5 (by decide)]

end Nmea

end LimeSdrQpcie
