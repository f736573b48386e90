import LimeSdrQpcie.Lms.Echo
import LimeSdrQpcie.Lms.Lemmas.HostToPins
import LimeSdrQpcie.Rx.Lemmas.RxChain

/-!
# The stream that comes back

From the first slot on the halves are a stream of frames, and its pairs are those of the slots.
-/

namespace LimeSdrQpcie

open Hdl

/-! ## Cycles of the transmit clock -/

namespace HostToPins

variable {nb : NBuff} {sw : BitVec 2} {m : IqMode} {early : TxEarly} {x : Nat → HostToPinsEdge nb}
  {y : Nat → Lms7002TxIn} {p : Nat → TxDiq}

theorem exists_cycle (hclk : TxClock x) {c : Nat} (hc : early.cycles ≤ c) : ∃ n, cycle early x n = c := by
  obtain ⟨d, rfl⟩ := Nat.exists_eq_add_of_le hc
  obtain ⟨n, -, hn⟩ := reaches_of_grows (f := count fun k => (x k).isTx) (k := d + 1) (n := 0) fun n _ _ => by
    obtain ⟨k, hk, htx⟩ := hclk n
    refine ⟨k, hk, Nat.lt_of_le_of_lt (count_mono _ hk) ?_⟩
    rw [count_succ, htx]
    exact Nat.lt_succ_self _
  obtain ⟨k, -, -, hk⟩ := exists_of_lt_count hn
  exact ⟨k, by rw [cycle, hk]⟩

theorem TxRun.diqs (hy : TxRun sw m early x y) (hclk : TxClock x) (hp : Diqs sw m early x p) (c : Nat) :
    p c = ((Lms7002Tx.circuit m).run y c).diq := by
  rcases Nat.lt_or_ge c early.cycles with hlt | hge
  · rw [hp.before c hlt, hy.before c (Nat.le_of_lt hlt)]
  · obtain ⟨n, rfl⟩ := exists_cycle hclk hge
    rw [hp.since, hy.since]

theorem TxRun.diqs_run (hy : TxRun sw m early x y) :
    Diqs sw m early x fun c => ((Lms7002Tx.circuit m).run y c).diq :=
  ⟨fun c hc => by rw [hy.before c (Nat.le_of_lt hc)], fun n => by rw [hy.since]⟩

/-- The words that are read from the FIFO in each cycle of the transmit clock. -/
theorem TxRun.read_eq (hy : TxRun sw m early x y) (h : FromHost early x) (n : Nat) :
    read sw m early x n = words (fun c => ((Lms7002Tx.circuit m).run y c).readWord false) (cycle early x n) := by
  induction n with
  | zero =>
      have hnone : ∀ c ≤ early.cycles,
          words (fun c => ((Lms7002Tx.circuit m).run y c).readWord false) c = [] := by
        intro c hc
        induction c with
        | zero => rfl
        | succ c ih =>
            have hc' := Nat.le_of_succ_le hc
            refine (words_succ_of_none ?_).trans (ih hc')
            rw [hy.before c hc', Lms7002Tx.readWord, Lms7002Tx.fifo, if_pos rfl, early_known_run]
            split <;> rfl
      exact (hnone early.cycles (Nat.le_refl _)).symm
  | succ n ih =>
      cases hx : x n with
      | bus i | rx i =>
          have hc : cycle early x (n + 1) = cycle early x n := by
            simp [cycle, count_succ, hx, HostToPinsEdge.isTx]
          rw [hc, ← ih]
          refine words_succ_of_none ?_
          rw [hx]
          rfl
      | tx i =>
          have hc : cycle early x (n + 1) = cycle early x n + 1 := by
            simp [cycle, count_succ, hx, HostToPinsEdge.isTx, Nat.add_assoc]
          rw [hc, words_succ, ← ih, ← hy.since, read, words_succ, ← read, hx]
          exact congrArg (_ ++ Option.toList ·) (if_pos (h.2 n i hx).2.2)

end HostToPins

/-! ## The halves that come back -/

namespace Lms7002Tx

open Txiq

variable {m : IqMode} {y : Nat → Lms7002TxIn} {wait skip : Nat}

/-- Word `k` of the slots, when `r` are the words that are read in each cycle: a slot without a read is zero. -/
def slotWord (m : IqMode) (r : Nat → Option (BitVec 64)) (k : Nat) : BitVec 48 :=
  ((r (1 + period m * k)).map inst4FifoQ).getD 0

theorem wordOfSlot_eq (hsel : ∀ n, (y n).txSrcSel = false) :
    wordOfSlot m false y = slotWord m fun c => ((circuit m).run y c).readWord false := by
  funext k
  rcases slot_spec ((slot_paced (m := m) hsel).word k) with ⟨v, hv, hw⟩ | ⟨hv, hw⟩
  · rw [slotWord, hv, hw]
    rfl
  · rw [slotWord, hv, hw]
    rfl

/-- The halves of the loop with the words of FIFO 0. -/
def loopHalves (m : IqMode) (y : Nat → Lms7002TxIn) : Nat → RxDiq :=
  IqLoop.halves m [] fun j => ⟨(fifoCome false (y j)).map inst4FifoQ, false⟩

/-- The cycle of the receive clock in which the first slot comes back. -/
def echoStart (wait skip : Nat) : Nat := wait + (6 - skip)

/-- What comes back. -/
def echoed (m : IqMode) (y : Nat → Lms7002TxIn) (wait skip : Nat) : Nat → RxDiq :=
  echo (fun c => ((circuit m).run y c).diq) wait skip

theorem echoed_eq (hsel : ∀ n, (y n).txSrcSel = false) (hoff : TestsOff y) (n : Nat) :
    echoed m y wait skip (echoStart wait skip + n) = loopHalves m y (1 + (skip - 6 + n)) := by
  have htx := (iqLoop_run (m := m) hsel (3 + (skip - 6 + n))).2.2
  rw [echoed, echo, if_neg (by rw [echoStart]; omega),
    show echoStart wait skip + n - wait + skip = 3 + (skip - 6 + n) + 3 by rw [echoStart]; omega, diq_eq hoff, ← htx,
    loopHalves, IqLoop.halves, show 1 + (skip - 6 + n) + 2 = 3 + (skip - 6 + n) by omega]
  rfl

/-- The registers are still zero when the first slot is taken. -/
theorem diq_of_lt (hoff : TestsOff y) {c : Nat} (hc : c < 6) : ((circuit m).run y c).diq = TxDiq.zero := by
  rcases Nat.lt_or_ge c 3 with hlt | hge
  · rw [diq, inst5_run]
    exact Txiqmux.diq_run_of_lt (fun k => (hoff k).2) hlt
  · obtain ⟨d, rfl⟩ := Nat.exists_eq_add_of_le' hge
    rw [diq_eq hoff]
    rcases (show d = 0 ∨ d = 1 ∨ d = 2 by omega) with rfl | rfl | rfl <;> rfl

theorem lowBefore_echoed (hoff : TestsOff y) : LowBefore 1 (echoStart wait skip) (echoed m y wait skip) := by
  intro n _ hn
  rw [echoed, echo]
  split
  · exact ⟨rfl, rfl⟩
  · rw [echoStart] at hn
    rw [diq_of_lt hoff (by omega)]
    exact ⟨rfl, rfl⟩

theorem loopHalves_fsync (hm : m.fidm = false) (he : m.mimoEn = true) (n : Nat) :
    (loopHalves m y (1 + n)).diqL.fsync = decide (n % 2 = 1) ∧
      (loopHalves m y (1 + n)).diqH.fsync = (m.trxiqpulse || decide (n % 2 = 1)) := by
  have hH : intFsyncH m = 0b1010#4 := by simp [intFsyncH, muxFsyncH, hm, he]
  have h := IqLoop.halves_fsync m [] (fun j => ⟨(fifoCome false (y j)).map inst4FifoQ, false⟩) n
  rw [hH, IqLoop.getLsbD_alternating] at h
  rw [loopHalves, Nat.add_comm 1 n, h.1, h.2]
  refine ⟨rfl, ?_⟩
  cases hp : m.trxiqpulse with
  | false =>
      have hL : intFsyncL m = 0b1010#4 := by simp [intFsyncL, muxFsyncL, hm, he, hp]
      rw [hL, IqLoop.getLsbD_alternating]
      rfl
  | true =>
      have hL : intFsyncL m = 0b1111#4 := by simp [intFsyncL, muxFsyncL, hm, hp]
      rw [hL, IqLoop.getLsbD_ones]
      rfl

theorem frameStream_echoed (hsel : ∀ n, (y n).txSrcSel = false) (hoff : TestsOff y) (hm : m.fidm = false)
    (he : m.mimoEn = true) : FrameStream m.trxiqpulse m.fidm (echoStart wait skip) (echoed m y wait skip) := by
  constructor
  · intro n hn
    obtain ⟨d, rfl⟩ := Nat.exists_eq_add_of_le hn
    rw [Nat.add_assoc, echoed_eq hsel hoff, echoed_eq hsel hoff, (loopHalves_fsync hm he _).1,
      (loopHalves_fsync hm he _).1]
    rcases Nat.mod_two_eq_zero_or_one (skip - 6 + d) with h | h
    · rw [h, show (skip - 6 + (d + 1)) % 2 = 1 by omega]
      rfl
    · rw [h, show (skip - 6 + (d + 1)) % 2 = 0 by omega]
      rfl
  · intro n hn
    obtain ⟨d, rfl⟩ := Nat.exists_eq_add_of_le hn
    rw [echoed_eq hsel hoff, (loopHalves_fsync hm he _).1, (loopHalves_fsync hm he _).2, hm]
    cases m.trxiqpulse <;> rfl

/-! ## The pairs that come back -/

/-- From a first frame of the channels that are on, the words of the stream are the pairs of the slots. -/
theorem exists_pairs (hsel : ∀ n, (y n).txSrcSel = false) (hoff : TestsOff y) (hm : m.fidm = false)
    (he : m.mimoEn = true) (hch : m.chEn = 0b01 ∨ m.chEn = 0b10 ∨ m.chEn = 0b11) {d : Nat}
    (hfirst : m.secondFrame (echoed m y wait skip (echoStart wait skip + d)) = !m.chEn.getLsbD 0) :
    ∃ q ≤ skip - 6 + d, (m.chEn = 0b11 → q % 2 = 0) ∧
      ∀ j, m.streamWord (echoed m y wait skip) (echoStart wait skip + d) j =
        pairsWord (pairAt (wordOfSlot m false y) (q + 2 * j)) (pairAt (wordOfSlot m false y) (q + 2 * j + 1)) := by
  have hword : ∀ j, m.streamWord (echoed m y wait skip) (echoStart wait skip + d) j =
      pairsWord (smplPair (loopHalves m y (1 + (skip - 6 + (d + 2 * m.smplPerWord * j)))))
        (smplPair (loopHalves m y (1 + (skip - 6 + (d + 2 * m.smplPerWord * j + m.smplPerWord))))) := fun j => by
    rw [IqMode.streamWord, Nat.add_assoc, Nat.add_assoc, echoed_eq hsel hoff, echoed_eq hsel hoff]
    rfl
  rw [IqMode.secondFrame, echoed_eq hsel hoff, (loopHalves_fsync hm he _).1, hm, Bool.xor_false] at hfirst
  have hone : ∀ second, m.chEn = RxiqDdr.chEnOf second → ∃ q ≤ skip - 6 + d, (m.chEn = 0b11 → q % 2 = 0) ∧
      ∀ j, m.streamWord (echoed m y wait skip) (echoStart wait skip + d) j =
        pairsWord (pairAt (wordOfSlot m false y) (q + 2 * j)) (pairAt (wordOfSlot m false y) (q + 2 * j + 1)) := by
    intro second hsec
    have hper : m.smplPerWord = 2 := by
      rw [IqMode.smplPerWord, he, hsec]
      cases second <;> rfl
    have hmode : intMode m = RxiqDdr.chEnOf second := by
      cases second <;> simp [intMode, he, hsec, RxiqDdr.chEnOf]
    have hodd : (skip - 6 + d) % 2 = second.toNat := by
      rw [hsec] at hfirst
      cases second with
      | false =>
          have := of_decide_eq_false hfirst
          rw [Bool.toNat_false]
          omega
      | true => exact of_decide_eq_true hfirst
    have hle := Bool.toNat_le second
    refine ⟨(skip - 6 + d) / 2, Nat.div_le_self _ _, fun h => ?_, fun j => ?_⟩
    · rw [hsec] at h
      cases second <;> exact absurd h (by decide)
    · have hpair := @IqLoop.smplPair_one m []
        (fun j => ⟨(fifoCome false (y j)).map inst4FifoQ, false⟩) second hmode
      rw [hword, hper,
        show 1 + (skip - 6 + (d + 2 * 2 * j)) = 1 + second.toNat + 2 * ((skip - 6 + d) / 2 + 2 * j) by omega,
        show 1 + (skip - 6 + (d + 2 * 2 * j + 2)) = 1 + second.toNat + 2 * ((skip - 6 + d) / 2 + 2 * j + 1) by omega]
      exact congrArg₂ pairsWord (hpair _) (hpair _)
  rcases hch with hch | hch | hch
  · exact hone false hch
  · exact hone true hch
  · have hper : m.smplPerWord = 1 := by
      rw [IqMode.smplPerWord, he, hch]
      rfl
    have hmode : intMode m = 0b00 := by simp [intMode, he, hch]
    rw [hch] at hfirst
    have heven := of_decide_eq_false hfirst
    refine ⟨skip - 6 + d, Nat.le_refl _, fun _ => by omega, fun j => ?_⟩
    have hpair := @IqLoop.smplPair_both m []
      (fun j => ⟨(fifoCome false (y j)).map inst4FifoQ, false⟩) hmode
    rw [hword, hper, show skip - 6 + (d + 2 * 1 * j) = skip - 6 + d + 2 * j by omega,
      show skip - 6 + (d + 2 * 1 * j + 1) = skip - 6 + d + 2 * j + 1 by omega]
    exact congrArg₂ pairsWord (hpair _) (hpair _)

end Lms7002Tx

end LimeSdrQpcie
