import LimeSdrQpcie.Hdl.Bits
import LimeSdrQpcie.ShiftReg.IC74HC595

/-! The transfer of a control word, cycle by cycle, when the word changes at most once in a transfer. -/

namespace LimeSdrQpcie

open Hdl

/-! ## One clock edge -/

namespace IC74HC595

section Next

variable {e busy shcp stcp en : Bool} {cnt : BitVec 8} {sr data : BitVec 16}

theorem next_idle_start (h : starts ⟨e, cnt, .idle, busy, sr, shcp, stcp⟩ en = true) :
    next ⟨e, cnt, .idle, busy, sr, shcp, stcp⟩ en data = ⟨en, 0, .shiftEn, true, data, false, false⟩ := by
  simp [next, nextState, h]

theorem next_idle (h : starts ⟨e, cnt, .idle, busy, sr, false, stcp⟩ en = false) :
    next ⟨e, cnt, .idle, busy, sr, false, stcp⟩ en data = ⟨en, 0, .idle, false, sr, false, false⟩ := by
  simp [next, nextState, h]

theorem next_shiftEn (h : starts ⟨e, cnt, .shiftEn, busy, sr, shcp, stcp⟩ en = false) :
    next ⟨e, cnt, .shiftEn, busy, sr, shcp, stcp⟩ en data =
      ⟨en, cnt + 1, if cnt.toNat < 31 then .shiftEn else .latch, busy, if shcp then sr <<< 1 else sr, !shcp, false⟩ := by
  simp [next, nextState, h]

theorem next_latch (h : starts ⟨e, cnt, .latch, busy, sr, false, stcp⟩ en = false) :
    next ⟨e, cnt, .latch, busy, sr, false, stcp⟩ en data = ⟨en, 0, .idle, busy, sr, false, true⟩ := by
  simp [next, nextState, h]

end Next

/-- The value of `DS` when `SHCP` rises. -/
def risingBit (s s' : IC74HC595 16) : Option Bool :=
  if s.shcpReg = false ∧ s'.shcpReg = true then some s'.ds else none

end IC74HC595

namespace ChangeDetect

/-! ## What the external registers see -/

section Signals

variable (x : Nat → BitVec 16)

def stateAt (n : Nat) : ChangeDetect := circuit.run x n

/-- The control word in the cycle before, zero at reset. -/
def before : Nat → BitVec 16
  | 0 => 0
  | n + 1 => x n

/-- The control word changes in cycle `n`. -/
def Changes (n : Nat) : Prop := x n ≠ before x n

/-- The bit that `SHCP` takes in when it rises. -/
def sampled (n : Nat) : Option Bool := IC74HC595.risingBit (stateAt x n).inst0 (stateAt x (n + 1)).inst0

/-- The word that a rising `STCP` latches: the last 16 bits that were sampled. -/
def latched (n : Nat) : Option (BitVec 16) :=
  if (stateAt x n).inst0.stcpReg = false ∧ (stateAt x (n + 1)).inst0.stcpReg = true then
    some (msbFirst 16 (words (sampled x) (n + 1)))
  else none

/-- What the switches are set to: the word that was latched last. -/
def stored (n : Nat) : Option (BitVec 16) := (words (latched x) n).getLast?

/-- Two changes are never closer than a transfer. -/
def Spaced : Prop := ∀ c c', Changes x c → Changes x c' → c < c' → c + 34 ≤ c'

end Signals

section Detection

variable {x : Nat → BitVec 16} {n : Nat}

theorem dataSyncReg_eq (n : Nat) : (stateAt x n).dataSyncReg = before x n := by
  cases n with
  | zero => rfl
  | succ n => rfl

theorem dataChange_succ (n : Nat) : (stateAt x (n + 1)).dataChange = true ↔ Changes x n := by
  change (if (stateAt x n).dataSyncReg = x n then false else true) = true ↔ x n ≠ before x n
  rw [dataSyncReg_eq]
  split
  · next h => exact ⟨fun hf => (by cases hf), fun hne => absurd h.symm hne⟩
  · next h => exact ⟨fun _ => Ne.symm h, fun _ => rfl⟩

theorem inst0_succ (n : Nat) : (stateAt x (n + 1)).inst0 =
    (stateAt x n).inst0.next (stateAt x n).dataChange (before x n) := by
  rw [← dataSyncReg_eq]
  rfl

/-- With spaced changes every change starts the shift register. -/
theorem starts_iff (hs : Spaced x) (n : Nat) :
    (stateAt x n).inst0.starts (stateAt x n).dataChange = true ↔ ∃ c, n = c + 1 ∧ Changes x c := by
  cases n with
  | zero => exact ⟨fun h => (by cases h), fun ⟨c, hc, _⟩ => by cases hc⟩
  | succ n =>
      have hen : (stateAt x (n + 1)).inst0.enReg = (stateAt x n).dataChange := rfl
      rw [IC74HC595.starts, hen, Bool.and_eq_true, dataChange_succ]
      constructor
      · exact fun h => ⟨n, rfl, h.1⟩
      · rintro ⟨c, hc, hch⟩
        cases hc
        refine ⟨hch, ?_⟩
        cases n with
        | zero => rfl
        | succ n =>
            cases hd : (stateAt x (n + 1)).dataChange with
            | false => rfl
            | true => exact absurd (hs n (n + 1) ((dataChange_succ n).mp hd) hch (Nat.lt_succ_self n)) (by omega)

end Detection

/-! ## A transfer -/

section Transfer

variable (x : Nat → BitVec 16)

/-- Where a transfer stands in cycle `n`, when the bits `l` have been sampled. While bit `k` is sent `SHCP` is low
and then high. -/
inductive Phase (n : Nat) (l : List Bool) : IC74HC595 16 → Prop where
  | idle {e : Bool} {cnt : BitVec 8} {busy : Bool} {sr : BitVec 16} {stcp : Bool}
      (hpast : ∀ c, Changes x c → c + 1 < n → c + 35 ≤ n) : Phase n l ⟨e, cnt, .idle, busy, sr, false, stcp⟩
  | low {e : Bool} {cnt : BitVec 8} {busy : Bool} {c k : Nat} (hc : Changes x c)
      (hn : n = c + 2 + 2 * k) (hk : k < 16) (hcnt : cnt.toNat = 2 * k) (hl : (msbs (x c)).take k <:+ l) :
    Phase n l ⟨e, cnt, .shiftEn, busy, x c <<< k, false, false⟩
  | high {e : Bool} {cnt : BitVec 8} {busy : Bool} {c k : Nat} (hc : Changes x c)
      (hn : n = c + 2 + (2 * k + 1)) (hk : k < 16) (hcnt : cnt.toNat = 2 * k + 1)
      (hl : (msbs (x c)).take (k + 1) <:+ l) : Phase n l ⟨e, cnt, .shiftEn, busy, x c <<< k, true, false⟩
  | latch {e : Bool} {cnt : BitVec 8} {busy : Bool} {sr : BitVec 16} {c : Nat} (hc : Changes x c)
      (hn : n = c + 34) (hl : msbs (x c) <:+ l) : Phase n l ⟨e, cnt, .latch, busy, sr, false, false⟩

variable {x}

/-- No change comes while a transfer runs. -/
theorem no_start {n c : Nat} {s : IC74HC595 16} {en : Bool} (hs : Spaced x)
    (hstart : s.starts en = true ↔ ∃ c, n = c + 1 ∧ Changes x c) (hc : Changes x c) (hlo : c + 2 ≤ n)
    (hhi : n ≤ c + 34) : s.starts en = false := by
  refine Bool.eq_false_iff.mpr fun hst => ?_
  obtain ⟨c', rfl, hc'⟩ := hstart.mp hst
  have hle := hs c c' hc hc' (by omega)
  omega

theorem toNat_succ {c : BitVec 8} (h : c.toNat < 32) : (c + 1).toNat = c.toNat + 1 :=
  (BitVec.toNat_add c 1).trans (Nat.mod_eq_of_lt (Nat.lt_of_lt_of_le (Nat.succ_lt_succ h) (by decide)))

theorem Phase.next {n : Nat} {l : List Bool} {s : IC74HC595 16} {en : Bool} (h : Phase x n l s) (hs : Spaced x)
    (hstart : s.starts en = true ↔ ∃ c, n = c + 1 ∧ Changes x c) :
    Phase x (n + 1) (l ++ (IC74HC595.risingBit s (s.next en (before x n))).toList) (s.next en (before x n)) := by
  cases h with
  | @idle e cnt busy sr stcp hpast =>
      cases hst : IC74HC595.starts ⟨e, cnt, .idle, busy, sr, false, stcp⟩ en with
      | true =>
          obtain ⟨c, rfl, hc⟩ := hstart.mp hst
          rw [IC74HC595.next_idle_start hst, before, ← BitVec.shiftLeft_zero (x c)]
          exact .low hc rfl (by decide) rfl (List.nil_suffix)
      | false =>
          rw [IC74HC595.next_idle hst]
          refine .idle fun c hc hlt => ?_
          have hne : c + 1 ≠ n := fun he => absurd (hst.symm.trans (hstart.mpr ⟨c, he.symm, hc⟩)) (by decide)
          exact Nat.le_succ_of_le (hpast c hc (Nat.lt_of_le_of_ne (Nat.le_of_lt_succ hlt) hne))
  | @low e cnt busy c k hc hn hk hcnt hl =>
      have hst := no_start hs hstart hc (by omega) (by omega)
      have hbit : (x c <<< k).msb = (x c).getMsbD k := BitVec.msb_shiftLeft
      rw [IC74HC595.next_shiftEn hst, if_pos (by omega)]
      refine .high hc (by omega) hk (by rw [toNat_succ (by omega), hcnt]) ?_
      obtain ⟨pre, rfl⟩ := hl
      refine ⟨pre, ?_⟩
      rw [take_msbs_succ _ hk, ← hbit, ← List.append_assoc]
      rfl
  | @high e cnt busy c k hc hn hk hcnt hl =>
      have hst := no_start hs hstart hc (by omega) (by omega)
      rw [IC74HC595.next_shiftEn hst, if_pos rfl, ← BitVec.shiftLeft_add]
      have hl' : (msbs (x c)).take (k + 1) <:+ l ++ [] := by rw [List.append_nil]; exact hl
      by_cases hlast : k = 15
      · rw [if_neg (by omega)]
        rw [hlast, List.take_of_length_le (by rw [msbs_length])] at hl'
        exact .latch hc (by omega) hl'
      · rw [if_pos (by omega)]
        exact .low hc (by omega) (by omega) (by rw [toNat_succ (by omega), hcnt]; rfl) hl'
  | @latch e cnt busy sr c hc hn hl =>
      have hst := no_start hs hstart hc (by omega) (by omega)
      rw [IC74HC595.next_latch hst]
      refine .idle fun c' hc' hlt => ?_
      by_cases hlt' : c < c'
      · have hle := hs c c' hc hc' hlt'
        omega
      · omega

theorem phase (hs : Spaced x) (n : Nat) : Phase x n (words (sampled x) n) (stateAt x n).inst0 := by
  induction n with
  | zero => exact .idle fun c _ hlt => absurd hlt (Nat.not_lt_zero _)
  | succ n ih =>
      have hnext := ih.next hs (starts_iff hs n)
      rw [← inst0_succ] at hnext
      exact hnext

/-- A transfer ends 34 cycles after its change, with its whole word sampled last. -/
theorem latch_of_changes (hs : Spaced x) {c : Nat} (hc : Changes x c) :
    (stateAt x (c + 34)).inst0.currentState = .latch := by
  have hp := phase hs (c + 34)
  generalize (stateAt x (c + 34)).inst0 = s at hp ⊢
  cases hp with
  | idle hpast => exact absurd (hpast c hc (by omega)) (by omega)
  | @low _ _ _ c' k hc' hn hk =>
      have hle := hs c c' hc hc' (by omega)
      omega
  | @high _ _ _ c' k hc' hn hk =>
      have hle := hs c c' hc hc' (by omega)
      omega
  | latch _ _ _ => rfl

theorem changes_of_latch (hs : Spaced x) {n : Nat} (h : (stateAt x n).inst0.currentState = .latch) :
    (stateAt x n).inst0.stcpReg = false ∧
      ∃ c, n = c + 34 ∧ Changes x c ∧ msbs (x c) <:+ words (sampled x) n := by
  have hp := phase hs n
  generalize (stateAt x n).inst0 = s at hp h ⊢
  cases hp with
  | idle _ => cases h
  | low _ _ _ _ _ => cases h
  | high _ _ _ _ _ => cases h
  | @latch _ _ _ _ c hc hn hl => exact ⟨rfl, c, hn, hc, hl⟩

theorem sampled_of_latch {n : Nat} (h : (stateAt x n).inst0.currentState = .latch) : sampled x n = none := by
  have hshcp : (stateAt x (n + 1)).inst0.shcpReg = false := by
    rw [inst0_succ, IC74HC595.next, h]
    rfl
  rw [sampled, IC74HC595.risingBit, hshcp]
  exact if_neg fun h => absurd h.2 (by decide)

theorem stcp_succ (n : Nat) :
    (stateAt x (n + 1)).inst0.stcpReg = decide ((stateAt x n).inst0.currentState = .latch) := by
  rw [inst0_succ]
  rfl

/-- What is latched, and when: the words of the changes, 34 cycles later. -/
theorem latched_iff (hs : Spaced x) {n : Nat} {w : BitVec 16} :
    latched x n = some w ↔ ∃ c, n = c + 34 ∧ Changes x c ∧ w = x c := by
  have hword : ∀ {c}, msbs (x c) <:+ words (sampled x) n → sampled x n = none →
      msbFirst 16 (words (sampled x) (n + 1)) = x c := by
    rintro c ⟨pre, hpre⟩ hnone
    rw [words_succ_of_none hnone, ← hpre, msbFirst_append _ (msbs_length _), msbFirst_msbs]
  simp only [latched, stcp_succ, decide_eq_true_eq]
  constructor
  · intro h
    split at h
    · next hl =>
        obtain ⟨c, hn, hc, hsuf⟩ := (changes_of_latch hs hl.2).2
        exact ⟨c, hn, hc, (Option.some.inj h).symm.trans (hword hsuf (sampled_of_latch hl.2))⟩
    · cases h
  · rintro ⟨c, rfl, hc, rfl⟩
    have hl := latch_of_changes hs hc
    obtain ⟨hstcp, c', hn, -, hsuf⟩ := changes_of_latch hs hl
    cases (Nat.add_right_cancel hn : c = c')
    rw [if_pos ⟨hstcp, hl⟩, hword hsuf (sampled_of_latch hl)]

/-- The word of the last change is stored 35 cycles after it. -/
theorem stored_eq (hs : Spaced x) {c k : Nat} (hc : Changes x c)
    (hlast : ∀ m, c < m → m < c + 35 + k → ¬ Changes x m) : stored x (c + 35 + k) = some (x c) := by
  induction k with
  | zero =>
      have hl := (latched_iff hs).mpr ⟨c, rfl, hc, rfl⟩
      rw [Nat.add_zero, stored, words_succ_of_some hl, List.getLast?_concat]
  | succ k ih =>
      have hnone : latched x (c + 35 + k) = none := by
        refine Option.eq_none_iff_forall_ne_some.mpr fun w hw => ?_
        obtain ⟨c', hn, hc', -⟩ := (latched_iff hs).mp hw
        exact hlast c' (by omega) (by omega) hc'
      rw [← Nat.add_assoc, stored, words_succ_of_none hnone]
      exact ih fun m hm hlt => hlast m hm (Nat.lt_succ_of_lt hlt)

end Transfer

end ChangeDetect

/-! ## Out of reset -/

namespace IC74HC595Top

variable (data : Nat → BitVec 16)

def stateAt (n : Nat) : IC74HC595Top := circuit.run data n

/-- The synchronised control word from the release of the delayed reset on. -/
def controlWord (n : Nat) : BitVec 16 := (stateAt data (n + 258)).dataSync.syncOut

theorem resetNSync_eq (n : Nat) : (stateAt data (n + 2)).resetNSync = ⟨true, true⟩ := by
  induction n with
  | zero => rfl
  | succ n ih =>
      have hnext : (stateAt data (n + 1 + 2)).resetNSync = (stateAt data (n + 2)).resetNSync.next true := rfl
      rw [hnext, ih]
      rfl

theorem stateAt_succ (n : Nat) : stateAt data (n + 1) = (stateAt data n).next (data n) := rfl

theorem resetCnt_eq (n : Nat) : (stateAt data (n + 2)).resetCnt.toNat = min n 255 := by
  induction n with
  | zero => rfl
  | succ n ih =>
      have hsync : (stateAt data (n + 2)).resetNSync.syncOut = true := by rw [resetNSync_eq]; rfl
      have hcnt : (stateAt data (n + 1 + 2)).resetCnt = if (stateAt data (n + 2)).resetCnt < 255 then
          (stateAt data (n + 2)).resetCnt + 1 else (stateAt data (n + 2)).resetCnt := by
        rw [stateAt_succ, next, hsync]
        rfl
      have hlt : (stateAt data (n + 2)).resetCnt < 255 ↔ min n 255 < 255 := by
        rw [← ih]
        exact Iff.rfl
      rw [hcnt]
      by_cases h : min n 255 < 255
      · rw [if_pos (hlt.mpr h), BitVec.toNat_add, ih]
        change (min n 255 + 1) % 256 = _
        omega
      · rw [if_neg fun h' => h (hlt.mp h'), ih]
        omega

theorem resetNDelayed_eq (n : Nat) : (stateAt data n).resetNDelayed = decide (258 ≤ n) := by
  match n with
  | 0 => rfl
  | 1 => rfl
  | 2 => rfl
  | n + 3 =>
      have hsync : (stateAt data (n + 2)).resetNSync.syncOut = true := by rw [resetNSync_eq]; rfl
      have hdel : (stateAt data (n + 3)).resetNDelayed =
          if (stateAt data (n + 2)).resetCnt < 255 then false else true := by
        rw [stateAt_succ, next, hsync]
        rfl
      have hlt : (stateAt data (n + 2)).resetCnt < 255 ↔ n < 255 := by
        rw [BitVec.lt_def, resetCnt_eq]
        change min n 255 < 255 ↔ n < 255
        omega
      rw [hdel]
      by_cases h : n < 255
      · rw [if_pos (hlt.mpr h), decide_eq_false (by omega)]
      · rw [if_neg fun h' => h (hlt.mp h'), decide_eq_true (by omega)]

/-- Out of reset the change detection and the shift register run on the control word. -/
theorem changeDetect_run (n : Nat) :
    (stateAt data (n + 258)).changeDetect = ChangeDetect.stateAt (controlWord data) n := by
  have hlow : ∀ m < 258, (stateAt data m).resetNDelayed = false := fun m hm =>
    (resetNDelayed_eq data m).trans (decide_eq_false (Nat.not_le.mpr hm))
  have hhigh : ∀ m, (stateAt data (m + 258)).resetNDelayed = true := fun m =>
    (resetNDelayed_eq data (m + 258)).trans (decide_eq_true (Nat.le_add_left 258 m))
  exact @Circuit.run_of_resetN _ _ ChangeDetect.circuit (fun m => (stateAt data m).changeDetect)
    (fun m => (stateAt data m).resetNDelayed) (fun m => (stateAt data m).dataSync.syncOut) 258 rfl (fun _ => rfl)
    hlow hhigh n

end IC74HC595Top

end LimeSdrQpcie
