import LimeSdrQpcie.Iq.TxiqPar

/-!
# The samples on the four buses

Every word that is read loads both stages of the buses two cycles later, and the second stage follows the first
unless another word is loaded. With one channel the second stage carries the second sample of the word.
-/

namespace LimeSdrQpcie

open Hdl

variable {iqWidth : Nat}

/-! ## The samples of a word -/

/-- The two channels: `DIQ0` and `DIQ1` are those of channel A, `DIQ2` and `DIQ3` those of channel B. -/
inductive DacChannel where
  | a
  | b
  deriving DecidableEq, Repr

namespace DacChannel

def busI : DacChannel → Fin 4
  | a => ⟨0, by decide⟩
  | b => ⟨2, by decide⟩

def busQ : DacChannel → Fin 4
  | a => ⟨1, by decide⟩
  | b => ⟨3, by decide⟩

/-- The bit of `ch_en`. -/
def en (m : TxiqParMode) : DacChannel → Bool
  | a => m.chEn.getLsbD 0
  | b => m.chEn.getLsbD 1

/-- The frame bit of the channel. -/
def fsync (m : TxiqParMode) : DacChannel → Bool
  | a => m.fidm
  | b => !m.fidm

/-- The I/Q samples that a FIFO word holds for a channel: one pair with both channels enabled, two pairs with
this one alone. -/
def samples (iqWidth : Nat) (m : TxiqParMode) (ch : DacChannel) (q : BitVec 64) :
    List (BitVec iqWidth × BitVec iqWidth) :=
  if m.chEn = 0b11 then
    match ch with
    | a => [(dacSmpl iqWidth q 0, dacSmpl iqWidth q 1)]
    | b => [(dacSmpl iqWidth q 2, dacSmpl iqWidth q 3)]
  else if ch.en m then
    [(dacSmpl iqWidth q 0, dacSmpl iqWidth q 1), (dacSmpl iqWidth q 2, dacSmpl iqWidth q 3)]
  else []

theorem samples_length_le (m : TxiqParMode) (ch : DacChannel) (q : BitVec 64) :
    (ch.samples iqWidth m q).length ≤ 2 := by
  unfold samples
  split
  · cases ch <;> exact Nat.le_succ 1
  · split
    · exact Nat.le_refl 2
    · exact Nat.zero_le 2

theorem samples_of_one {m : TxiqParMode} (h : m.chEn ≠ 0b11) {ch : DacChannel} (hch : ch.en m = true)
    (q : BitVec 64) : ch.samples iqWidth m q =
      [(dacSmpl iqWidth q 0, dacSmpl iqWidth q 1), (dacSmpl iqWidth q 2, dacSmpl iqWidth q 3)] := by
  unfold samples
  rw [if_neg h, if_pos hch]

theorem samples_of_disabled {m : TxiqParMode} (h : m.chEn ≠ 0b11) {ch : DacChannel} (hch : ch.en m = false)
    (q : BitVec 64) : ch.samples iqWidth m q = [] := by
  unfold samples
  rw [if_neg h, hch]
  rfl

theorem samples_length_of_both {m : TxiqParMode} (h : m.chEn = 0b11) (ch : DacChannel) (q : BitVec 64) :
    (ch.samples iqWidth m q).length ≤ 1 := by
  unfold samples
  rw [if_pos h]
  cases ch <;> exact Nat.le_refl 1

end DacChannel

theorem TxiqPar.intMode_eq_both {m : TxiqParMode} : intMode m = 0b11 ↔ m.chEn = 0b11 := by
  unfold intMode
  generalize m.chEn = chEn
  revert chEn
  decide

theorem getLsbD_append_add {v w : Nat} (a : BitVec v) (b : BitVec w) (i : Nat) :
    (a ++ b).getLsbD (w + i) = a.getLsbD i := by
  simp [BitVec.getLsbD_append]

theorem diqSmpl_inst3FifoQ (q : BitVec 64) {k : Nat} (hk : k < 4) :
    TxiqPar.diqSmpl (Dac5672Top.inst3FifoQ q) k = dacSmpl iqWidth q k := by
  apply BitVec.eq_of_getLsbD_eq
  intro i hi
  simp only [TxiqPar.diqSmpl, Dac5672Top.inst3FifoQ, BitVec.getLsbD_extractLsb', BitVec.getLsbD_cast, hi, decide_true,
    Bool.true_and]
  match k, hk with
  | 0, _ => rw [Nat.zero_mul, Nat.zero_add, BitVec.getLsbD_append, if_pos hi]
  | 1, _ => rw [Nat.one_mul, getLsbD_append_add, BitVec.getLsbD_append, if_pos hi]
  | 2, _ =>
      rw [Nat.two_mul, Nat.add_assoc iqWidth iqWidth i, getLsbD_append_add, getLsbD_append_add, BitVec.getLsbD_append,
        if_pos hi]
  | 3, _ =>
      rw [Nat.succ_mul, Nat.two_mul, Nat.add_assoc (iqWidth + iqWidth) iqWidth i,
        Nat.add_assoc iqWidth iqWidth (iqWidth + i), getLsbD_append_add, getLsbD_append_add, getLsbD_append_add]

namespace Dac5672Top

variable (iqWidth : Nat) (m : TxiqParMode) (fifo : Nat → BitVec 64) (x : Nat → Dac5672TopIn)

/-- The word that is read in cycle `n`. -/
def readAt (n : Nat) : Option (BitVec 64) := ((circuit iqWidth m fifo).run x n).read fifo (x n)

/-- The bus `k` in cycle `n`. -/
def diqAt (n : Nat) (k : Fin 4) : BitVec (iqWidth + 1) := ((circuit iqWidth m fifo).run x n).inst3.diq k

/-- The sample of a channel that is due in cycle `n`. -/
def sampleAt (ch : DacChannel) : Nat → Option (BitVec iqWidth × BitVec iqWidth) :=
  delay 2 (spread (ch.samples iqWidth m) (readAt iqWidth m fifo x))

/-- The two buses of a channel, which are zero without a sample. -/
def onBus {iqWidth : Nat} (fsync : Bool) : Option (BitVec iqWidth × BitVec iqWidth) →
    BitVec (iqWidth + 1) × BitVec (iqWidth + 1)
  | none => (0, 0)
  | some (i, q) => (BitVec.cons fsync i, BitVec.cons fsync q)

variable {iqWidth m fifo x}

theorem run_succ (n : Nat) : (circuit iqWidth m fifo).run x (n + 1) =
    ((circuit iqWidth m fifo).run x n).next m fifo (x n) := rfl

/-! ## Reads -/

/-- The words of the FIFO are read in order, each once. -/
theorem words_readAt (n : Nat) : words (readAt iqWidth m fifo x) n =
    (List.range ((circuit iqWidth m fifo).run x n).rdCnt).map fifo := by
  induction n with
  | zero => rfl
  | succ n ih =>
      rw [words_succ, ih, readAt, read, run_succ, next]
      cases ((circuit iqWidth m fifo).run x n).inst3FifoRdreq (x n) with
      | false => simp
      | true => simp [List.range_succ]

/-- The output of the FIFO and its valid bit come one cycle after a read. -/
theorem fifoQ_eq (n : Nat) :
    ((circuit iqWidth m fifo).run x n).inst3FifoQValid = (delay 1 (readAt iqWidth m fifo x) n).isSome ∧
      ∀ w, delay 1 (readAt iqWidth m fifo x) n = some w → ((circuit iqWidth m fifo).run x n).q = w := by
  cases n with
  | zero => exact ⟨rfl, fun w h => by cases h⟩
  | succ n =>
      rw [delay_one_succ, run_succ, readAt, next]
      refine ⟨?_, fun w h => by rw [h]; rfl⟩
      cases hr : ((circuit iqWidth m fifo).run x n).inst3FifoRdreq (x n) <;> simp [read, hr]

/-! ## The enable held high -/

section Enabled

variable (hen : ∀ n, (x n).en = true)

include hen in
theorem enPipe_eq (n : Nat) :
    ((circuit iqWidth m fifo).run x n).inst3.enPipe.getLsbD 0 = decide (1 ≤ n) ∧
      ((circuit iqWidth m fifo).run x n).inst3.enPipe.getLsbD 1 = decide (2 ≤ n) := by
  induction n with
  | zero => exact ⟨by simp [circuit, reset, TxiqPar.reset], by simp [circuit, reset, TxiqPar.reset]⟩
  | succ n ih =>
      have hpipe : ((circuit iqWidth m fifo).run x (n + 1)).inst3.enPipe =
          ((circuit iqWidth m fifo).run x n).inst3.enPipe.shiftConcat (x n).en := rfl
      rw [hpipe, hen, BitVec.getLsbD_shiftConcat, BitVec.getLsbD_shiftConcat]
      refine ⟨by simp, ?_⟩
      simp only [Nat.reduceLT, decide_true, Bool.true_and, Nat.reduceEqDiff, if_false, Nat.sub_self, ih.1]
      exact decide_eq_decide.mpr (by omega)

/-- What the second stage of a bus holds while the first shows the first sample of `w`. -/
def second (m : TxiqParMode) (k : Fin 4) (w : Option (BitVec 64)) : BitVec (iqWidth + 1) :=
  w.elim 0 fun w => BitVec.cons (TxiqPar.muxFsync m k) (TxiqPar.diqMux1 (inst3FifoQ w) k)

/-- What the first stage shows when `w` was read two cycles ago and `v` three cycles ago. -/
def first (m : TxiqParMode) (k : Fin 4) (w v : Option (BitVec 64)) : BitVec (iqWidth + 1) :=
  w.elim (second m k v) fun w => BitVec.cons (TxiqPar.muxFsync m k) (TxiqPar.diqMux0 m (inst3FifoQ w) k)

theorem second_msb (ch : DacChannel) (w : BitVec 64) :
    (second m ch.busI (some w) : BitVec (iqWidth + 1)).msb = ch.fsync m := by
  cases ch <;> exact BitVec.msb_cons

include hen in
theorem diqReg_eq {k : Fin 4} (hk : TxiqPar.diqRegResetN m k = true) (n : Nat) :
    ((circuit iqWidth m fifo).run x n).inst3.diqReg0 k =
        first m k (delay 2 (readAt iqWidth m fifo x) n) (delay 3 (readAt iqWidth m fifo x) n) ∧
      ((circuit iqWidth m fifo).run x n).inst3.diqReg1 k =
        second m k (delay 2 (readAt iqWidth m fifo x) n) := by
  induction n with
  | zero => exact ⟨rfl, rfl⟩
  | succ n ih =>
      have h2 : delay 2 (readAt iqWidth m fifo x) (n + 1) = delay 1 (readAt iqWidth m fifo x) n := by
        rw [← delay_one_succ (delay 1 _), delay_delay]
      have h3 : delay 3 (readAt iqWidth m fifo x) (n + 1) = delay 2 (readAt iqWidth m fifo x) n := by
        rw [← delay_one_succ (delay 2 _), delay_delay]
      obtain ⟨hvalid, hq⟩ := @fifoQ_eq iqWidth m fifo x n
      have hnext : ∀ s : Dac5672Top iqWidth, ∀ i, ((s.next m fifo i).inst3.diqReg0 k, (s.next m fifo i).inst3.diqReg1 k) =
          s.inst3.nextReg m ⟨i.en, i.rdempty, s.inst3FifoQValid, inst3FifoQ s.q⟩ k := fun _ _ => rfl
      rw [← Prod.mk.injEq, run_succ, hnext, TxiqPar.nextReg, hk, hvalid, h2, h3]
      cases hd : delay 1 (readAt iqWidth m fifo x) n with
      | some w =>
          rw [hq w hd]
          rfl
      | none =>
          by_cases hn : 2 ≤ n
          · simp [(enPipe_eq hen n).2, hn, ih.2, first, second]
          · have hnone : delay 2 (readAt iqWidth m fifo x) n = none := if_pos (by omega)
            have hnone3 : delay 3 (readAt iqWidth m fifo x) n = none := if_pos (by omega)
            simp [ih, hnone, hnone3, first, second]

/-! ## What a channel shows -/

theorem diqAt_of_disabled {ch : DacChannel} (h : ch.en m = false) (n : Nat) :
    diqAt iqWidth m fifo x n ch.busI = 0 ∧ diqAt iqWidth m fifo x n ch.busQ = 0 := by
  cases n with
  | zero => exact ⟨rfl, rfl⟩
  | succ n =>
      cases ch <;> simp_all [diqAt, run_succ, next, TxiqPar.diq, TxiqPar.next, TxiqPar.nextReg,
        TxiqPar.diqRegResetN, DacChannel.en, DacChannel.busI, DacChannel.busQ]

include hen in
theorem diqAt_eq {ch : DacChannel} (h : ch.en m = true) (n : Nat) :
    (diqAt iqWidth m fifo x n ch.busI, diqAt iqWidth m fifo x n ch.busQ) =
      (first m ch.busI (delay 2 (readAt iqWidth m fifo x) n) (delay 3 (readAt iqWidth m fifo x) n),
        first m ch.busQ (delay 2 (readAt iqWidth m fifo x) n) (delay 3 (readAt iqWidth m fifo x) n)) := by
  cases ch with
  | a => exact Prod.ext (diqReg_eq hen (k := 0) h n).1 (diqReg_eq hen (k := 1) h n).1
  | b => exact Prod.ext (diqReg_eq hen (k := 2) h n).1 (diqReg_eq hen (k := 3) h n).1

theorem sampleAt_eq (ch : DacChannel) (n : Nat) : sampleAt iqWidth m fifo x ch n =
    (((delay 2 (readAt iqWidth m fifo x) n).bind fun w => (ch.samples iqWidth m w)[0]?) <|>
      ((delay 3 (readAt iqWidth m fifo x) n).bind fun w => (ch.samples iqWidth m w)[1]?)) :=
  delay_spread _ _ 2 n

/-! ## Underruns -/

theorem of_readAt {n : Nat} {w : BitVec 64} (hr : readAt iqWidth m fifo x n = some w) :
    ((circuit iqWidth m fifo).run x n).inst3.currentState = .rdSamples ∧ (x n).rdempty = false := by
  rw [readAt, read] at hr
  split at hr
  case isTrue hreq =>
    simp only [inst3FifoRdreq, TxiqPar.fifoRdreq, Bool.and_eq_true, decide_eq_true_eq, Bool.not_eq_true'] at hreq
    exact ⟨hreq.1.1, hreq.2⟩
  case isFalse => cases hr

include hen in
theorem currentState_succ (n : Nat) : ((circuit iqWidth m fifo).run x (n + 1)).inst3.currentState =
    match ((circuit iqWidth m fifo).run x n).inst3.currentState with
    | .idle => if (x n).rdempty = false then .rdSamples else .idle
    | .rdSamples => if m.chEn ≠ 0b11 then .waitRdCycles else .rdSamples
    | .waitRdCycles => if (x n).rdempty = false then .rdSamples else .idle := by
  cases hs : ((circuit iqWidth m fifo).run x n).inst3.currentState with
  | _ => simp only [run_succ, next, TxiqPar.next, TxiqPar.nextState, hen, hs, and_true, if_true]

include hen in
/-- With one channel a read is followed by a cycle without one. -/
theorem readAt_gap (h : m.chEn ≠ 0b11) {n : Nat} {w : BitVec 64} (hr : readAt iqWidth m fifo x n = some w) :
    readAt iqWidth m fifo x (n + 1) = none := by
  have hwait := @currentState_succ iqWidth m fifo x hen n
  rw [(of_readAt hr).1] at hwait
  simp only [ne_eq, h, not_false_eq_true, if_true] at hwait
  simp [readAt, read, inst3FifoRdreq, TxiqPar.fifoRdreq, hwait]

include hen in
theorem currentState_of_both (h : m.chEn = 0b11) (n : Nat) :
    ((circuit iqWidth m fifo).run x n).inst3.currentState = .idle ∧ (∀ k < n, (x k).rdempty = true) ∨
      ((circuit iqWidth m fifo).run x n).inst3.currentState = .rdSamples ∧ ∃ k < n, (x k).rdempty = false := by
  induction n with
  | zero => exact Or.inl ⟨rfl, fun k hk => absurd hk (Nat.not_lt_zero k)⟩
  | succ n ih =>
      rw [currentState_succ hen]
      rcases ih with ⟨hs, hall⟩ | ⟨hs, k, hk, he⟩
      · rw [hs]
        cases he : (x n).rdempty with
        | false => exact Or.inr ⟨rfl, n, Nat.lt_succ_self n, he⟩
        | true =>
            refine Or.inl ⟨rfl, fun k hk => ?_⟩
            rcases Nat.lt_succ_iff_lt_or_eq.mp hk with hlt | rfl
            · exact hall k hlt
            · exact he
      · rw [hs]
        exact Or.inr ⟨if_neg (not_not.mpr h), k, Nat.lt_succ_of_lt hk, he⟩

include hen in
/-- With both channels a word is read whenever there is one, after the first cycle in which there is one. -/
theorem readAt_of_both (h : m.chEn = 0b11) {k n : Nat} (hk : k < n) (he : (x k).rdempty = false) :
    readAt iqWidth m fifo x n =
      if (x n).rdempty then none else some (fifo ((circuit iqWidth m fifo).run x n).rdCnt) := by
  rcases @currentState_of_both iqWidth m fifo x hen h n with ⟨_, hall⟩ | ⟨hs, _⟩
  · rw [hall k hk] at he
    cases he
  · rw [readAt, read, inst3FifoRdreq, TxiqPar.fifoRdreq, hs, hen]
    cases (x n).rdempty <;> rfl

end Enabled

/-! ## Channels kept apart -/

variable (iqWidth m fifo x)

/-- What the sample former is for: each word is read once and in order, the samples of each channel come out
once and in order, and the buses show nothing else. -/
structure KeepsApart : Prop where
  read_once : ∀ n, words (readAt iqWidth m fifo x) n =
    (List.range (words (readAt iqWidth m fifo x) n).length).map fifo
  in_order : ∀ ch n, words (sampleAt iqWidth m fifo x ch) (n + 2) <+:
    (words (readAt iqWidth m fifo x) n).flatMap (ch.samples iqWidth m)
  all_out : ∀ ch n, (words (readAt iqWidth m fifo x) n).flatMap (ch.samples iqWidth m) <+:
    words (sampleAt iqWidth m fifo x ch) (n + 3)
  diq_eq : ∀ (ch : DacChannel) n, (diqAt iqWidth m fifo x n ch.busI, diqAt iqWidth m fifo x n ch.busQ) =
    onBus (ch.fsync m) (sampleAt iqWidth m fifo x ch n)

/-- Once a word has come, the FIFO does not run empty directly after a word was read. -/
def NoUnderrun (x : Nat → Dac5672TopIn) : Prop :=
  ∀ k n, k < n → (x k).rdempty = false → (x n).rdempty = false → (x (n + 1)).rdempty = false

variable {iqWidth m fifo x}

/-- The channel shows what is due, unless the second stage of a word for both channels comes out. -/
theorem diqAt_eq_onBus (hen : ∀ n, (x n).en = true) (ch : DacChannel) (n : Nat)
    (h : m.chEn = 0b11 → delay 2 (readAt iqWidth m fifo x) n = none → delay 3 (readAt iqWidth m fifo x) n = none) :
    (diqAt iqWidth m fifo x n ch.busI, diqAt iqWidth m fifo x n ch.busQ) =
      onBus (ch.fsync m) (sampleAt iqWidth m fifo x ch n) := by
  rw [sampleAt_eq]
  by_cases hboth : m.chEn = 0b11
  · have hch : ch.en m = true := by cases ch <;> simp [DacChannel.en, hboth]
    rw [diqAt_eq hen hch]
    cases hd : delay 2 (readAt iqWidth m fifo x) n with
    | none =>
        rw [h hboth hd]
        rfl
    | some w =>
        cases ch <;> simp only [first, DacChannel.samples, if_pos hboth, onBus, DacChannel.busI,
          DacChannel.busQ, TxiqPar.muxFsync, TxiqPar.diqMux0, if_pos (TxiqPar.intMode_eq_both.mpr hboth),
          DacChannel.fsync, diqSmpl_inst3FifoQ, Nat.reduceLT] <;> rfl
  · cases hch : ch.en m with
    | false =>
        obtain ⟨hI, hQ⟩ := @diqAt_of_disabled iqWidth m fifo x _ hch n
        rw [hI, hQ]
        simp [DacChannel.samples_of_disabled hboth hch, onBus]
    | true =>
        rw [diqAt_eq hen hch]
        simp only [DacChannel.samples_of_one hboth hch]
        cases delay 2 (readAt iqWidth m fifo x) n with
        | none =>
            cases delay 3 (readAt iqWidth m fifo x) n with
            | none => rfl
            | some v =>
                cases ch <;> simp [first, second, onBus, DacChannel.busI, DacChannel.busQ, TxiqPar.muxFsync,
                  TxiqPar.diqMux1, DacChannel.fsync, diqSmpl_inst3FifoQ]
        | some w =>
            cases ch <;> simp only [first, onBus, DacChannel.busI, DacChannel.busQ, TxiqPar.muxFsync,
              TxiqPar.diqMux0, if_neg (mt TxiqPar.intMode_eq_both.mp hboth), DacChannel.fsync,
              diqSmpl_inst3FifoQ, Nat.reduceLT] <;> rfl

theorem readAt_succ_of_noUnderrun (hen : ∀ n, (x n).en = true) (h : m.chEn = 0b11) (hx : NoUnderrun x) {n : Nat}
    {w : BitVec 64} (hr : readAt iqWidth m fifo x n = some w) : readAt iqWidth m fifo x (n + 1) ≠ none := by
  obtain ⟨hs, he⟩ := of_readAt hr
  rcases @currentState_of_both iqWidth m fifo x hen h n with ⟨hidle, _⟩ | ⟨_, k, hk, hke⟩
  · rw [hs] at hidle
    cases hidle
  · rw [readAt_of_both hen h (Nat.lt_succ_of_lt hk) hke, hx k n hk hke he]
    exact fun h => nomatch h

theorem keepsApart_of_noUnderrun (hen : ∀ n, (x n).en = true) (hx : m.chEn = 0b11 → NoUnderrun x) :
    KeepsApart iqWidth m fifo x := by
  have hlen : ∀ ch n w, readAt iqWidth m fifo x n = some w →
      readAt iqWidth m fifo x (n + 1) = none ∨ (DacChannel.samples iqWidth m ch w).length ≤ 1 := by
    intro ch n w hr
    by_cases hboth : m.chEn = 0b11
    · exact Or.inr (DacChannel.samples_length_of_both hboth ch w)
    · exact Or.inl (readAt_gap hen hboth hr)
  refine ⟨fun n => ?_, fun ch n => ?_, fun ch n => ?_, fun ch n => diqAt_eq_onBus hen ch n fun hboth h2 => ?_⟩
  · rw [words_readAt, List.length_map, List.length_range]
  · rw [sampleAt, words_delay_add]
    exact (words_spread_isPrefix (DacChannel.samples_length_le m ch) (hlen ch) n).1
  · rw [sampleAt, show n + 3 = n + 1 + 2 from rfl, words_delay_add]
    exact (words_spread_isPrefix (DacChannel.samples_length_le m ch) (hlen ch) n).2
  · by_cases hn : n < 3
    · exact if_pos hn
    · obtain ⟨k, rfl⟩ := Nat.exists_eq_add_of_le' (Nat.le_of_not_lt hn)
      rw [show k + 3 = k + 1 + 2 from rfl, delay_add] at h2
      rw [delay_add]
      cases hr : readAt iqWidth m fifo x k with
      | none => rfl
      | some w => exact absurd h2 (readAt_succ_of_noUnderrun hen hboth (hx hboth) hr)

/-- After an underrun both channels show samples of channel B, and one of them with its frame bit set. -/
theorem not_keepsApart_of_underrun (hen : ∀ n, (x n).en = true) (h : m.chEn = 0b11) (hx : ¬ NoUnderrun x) :
    ¬ KeepsApart iqWidth m fifo x := by
  intro hkeep
  refine hx fun k n hk hke he => ?_
  cases he' : (x (n + 1)).rdempty with
  | false => rfl
  | true =>
      have h3 : delay 3 (readAt iqWidth m fifo x) (n + 3) = readAt iqWidth m fifo x n := delay_add 3 _ n
      have h2 : delay 2 (readAt iqWidth m fifo x) (n + 3) = readAt iqWidth m fifo x (n + 1) := delay_add 2 _ (n + 1)
      rw [readAt_of_both hen h hk hke, he] at h3
      rw [readAt_of_both hen h (Nat.lt_succ_of_lt hk) hke, he'] at h2
      have hbus : ∀ ch : DacChannel, ch.fsync m = false := by
        intro ch
        have hch : ch.en m = true := by cases ch <;> simp [DacChannel.en, h]
        have hd := hkeep.diq_eq ch (n + 3)
        have hnone : ∀ w, (ch.samples iqWidth m w)[1]? = none := fun w =>
          List.getElem?_eq_none (DacChannel.samples_length_of_both h ch w)
        rw [diqAt_eq hen hch, sampleAt_eq, h2, h3] at hd
        have hzero : @second iqWidth m ch.busI (some (fifo ((circuit iqWidth m fifo).run x n).rdCnt)) = 0 := by
          simpa [hnone, onBus, first] using congrArg Prod.fst hd
        rw [← @second_msb iqWidth, hzero]
        exact BitVec.msb_zero
      have ha : m.fidm = false := hbus .a
      have hb : (!m.fidm) = false := hbus .b
      rw [ha] at hb
      cases hb

end Dac5672Top

end LimeSdrQpcie
