import LimeSdrQpcie.Lms.Lemmas.Echo
import LimeSdrQpcie.Lms.Lemmas.HostToPins

/-!
# The interface to the transceiver

What the host sends is what goes out to the transceiver, and what the host gets back from one that returns it.
-/

namespace LimeSdrQpcie

open Hdl

namespace HostToPins

variable {nb : NBuff}

/-- `txiq` has a slot every `period` cycles and reads the sample FIFO in slots only. A slot takes a word, or it is zero
and the reading side knew of no word in the cycle before. From the fifth cycle after it on the positions of the slot
are on the interface. -/
structure Sends (sw : BitVec 2) (m : IqMode) (early : TxEarly) (x : Nat → HostToPinsEdge nb) : Prop where
  slots : ∀ n, (slot sw m early x n).isSome = true ↔ ∃ k, cycle early x n = 1 + Txiq.period m * k
  between : ∀ n, slot sw m early x n = none → read sw m early x (n + 1) = read sw m early x n
  takes : ∀ n i w, x n = .tx i → slot sw m early x n = some w →
    (∃ v, w = inst4FifoQ v ∧ read sw m early x (n + 1) = read sw m early x n ++ [v]) ∨
      w = 0 ∧ read sw m early x (n + 1) = read sw m early x n ∧
        ∀ k, cycle early x k + 1 = cycle early x n → ((circuit nb sw m early).run x k).tx.inst0.known = []
  diq : ∀ n w, slot sw m early x n = some w → ∀ j : Fin 4, j.val < Txiq.period m →
    ∀ k, cycle early x k = cycle early x n + 5 + j → ((circuit nb sw m early).run x k).tx.diq = Lms7002Tx.diqOf m w j

/-- `d` edges of the transmit clock after step `k`, the samples that have been read and those that are in the FIFO are
the ones of the packets sent up to step `k`, in the host's order, and the first ones of the next packet. -/
def Delivers {v w : Nat} (sw : BitVec 2) (smpls : BitVec 64 → BitVec v) (d : Nat) (m : IqMode) (early : TxEarly)
    (x : Nat → HostToPinsEdge nb) : Prop :=
  ∀ k n, cycle early x n = cycle early x k + d →
    let ws := TxPath.host sw (pathEdges sw m early x) k
    let fs := TxPath.fates sw (pathEdges sw m early x) k
    ∃ (us : List (BitVec w)) (rd : Nat),
      bitString ((read sw m early x n ++ ((circuit nb sw m early).run x n).unread).map smpls) =
        bitString ((TxPath.emitted ws fs).flatMap TxPct.payload) ++ bitString us ∧
      Fills (bitString ((TxPct.ofHost ws fs.length).payload.take rd)) us

section

variable {sw : BitVec 2} {m : IqMode} {early : TxEarly} {x : Nat → HostToPinsEdge nb}

theorem read_of_slot_none (h : FromHost early x) {n : Nat} (hn : slot sw m early x n = none) :
    read sw m early x (n + 1) = read sw m early x n := by
  refine words_succ_of_none ?_
  cases hx : x n with
  | bus i | rx i => rfl
  | tx i => exact (if_pos (h.2 n i hx).2.2).trans (Lms7002Tx.readWord_of_slot_none hn)

theorem sends (h : FromHost early x) : Sends sw m early x := by
  obtain ⟨y, hplain, hy⟩ := exists_tx_run sw m x h
  have hsel : ∀ c, (y c).txSrcSel = false := fun c => (hplain c).2.2
  have hpaced := Lms7002Tx.slot_paced (m := m) hsel
  have hslot : ∀ n, slot sw m early x n = ((Lms7002Tx.circuit m).run y (cycle early x n)).slot false := fun n => by
    rw [slot, hy.since]
  have hex : ∀ n, (slot sw m early x n).isSome = true ↔ ∃ k, cycle early x n = 1 + Txiq.period m * k := by
    intro n
    rw [hslot]
    constructor
    · intro hs
      by_contra hno
      rw [hpaced.gap _ fun k hk => hno ⟨k, hk⟩] at hs
      cases hs
    · rintro ⟨k, hk⟩
      rw [hk, hpaced.word]
      rfl
  refine ⟨hex, fun n hn => read_of_slot_none h hn, fun n i w hi hw => ?_, fun n w hw j hj k hk => ?_⟩
  · have hword : ((circuit nb sw m early).run x n).edgeWord (x n) =
        ((circuit nb sw m early).run x n).tx.readWord false := by
      rw [hi]
      exact if_pos (h.2 n i hi).2.2
    rw [read, words_succ, ← read, hword]
    rcases Lms7002Tx.slot_spec hw with ⟨v, hv, rfl⟩ | ⟨hv, rfl⟩
    · exact Or.inl ⟨v, rfl, by rw [hv]; rfl⟩
    · refine Or.inr ⟨rfl, by rw [hv]; exact List.append_nil _, fun k hk => ?_⟩
      by_contra hknown
      rw [hy.since n, ← hk] at hv
      rw [hslot, ← hk] at hw
      rw [hy.since k] at hknown
      obtain ⟨u, hu, -⟩ := Lms7002Tx.readWord_of_known (hsel _) hknown (Option.isSome_of_eq_some hw)
      rw [Circuit.run_succ] at hv
      exact absurd (hv.symm.trans hu) (by simp)
  · obtain ⟨q, hq⟩ := (hex n).mp (by rw [hw]; rfl)
    rw [hslot, hq, hpaced.word] at hw
    rw [hy.since k, hk, hq, ← Option.some.inj hw,
      ← Lms7002Tx.diq_run hsel (fun c => ⟨(hplain c).1, (hplain c).2.1⟩) q j hj]
    congr 2
    omega

theorem txEdges_of_cycle {k n d : Nat} (h : cycle early x n = cycle early x k + d) :
    TxPath.txEdges (pathEdges sw m early x) n = TxPath.txEdges (pathEdges sw m early x) k + d := by
  rw [txEdges_pathEdges, txEdges_pathEdges]
  unfold cycle at h
  omega

end

/-- In every mode of the interface, in whatever order the edges of the three clocks come, however long the interface
has run before, and however late the reading side of the sample FIFO learns of the words. -/
theorem host_to_pins (m : IqMode) (early : TxEarly) (x : Nat → HostToPinsEdge nb) (h : FromHost early x) :
    (∀ sw, Sends sw m early x) ∧ Delivers (w := 96) SampleWidth.w12.code inst4FifoQ 6 m early x ∧
      Delivers (w := 128) SampleWidth.w16.code id 4 m early x := by
  refine ⟨fun sw => sends h, fun k n hn => ?_, fun k n hn => ?_⟩
  · obtain ⟨vs, us, rd, hsent, hvs, hus⟩ := TxPath.words_sent_w12 _ (txEdges_of_cycle hn)
    refine ⟨us, rd, ?_, hus⟩
    rw [read_append_unread, hsent, bitString_halves_spread, bitString_append, hvs]
  · obtain ⟨vs, us, rd, hsent, hvs, hus⟩ := TxPath.words_sent_w16 _ (txEdges_of_cycle hn)
    refine ⟨us, rd, ?_, hus⟩
    rw [read_append_unread, hsent, List.map_id, List.map_id, bitString_halves, bitString_append, hvs]

/-- The three clocks in turn, a word of the host at every edge of the bus, and counts and flags that are exact. -/
def inTurn (n : Nat) : HostToPinsEdge .four :=
  if n % 3 = 0 then .bus ⟨some (BitVec.ofNat 32 n), false, 2048, false⟩
  else if n % 3 = 1 then .rx ⟨BitVec.ofNat 64 n, false⟩
  else .tx ⟨⟨false, false, 2048, fun _ => false, fun _ => 512, 0, 0⟩, ⟨false, 0, 0, false, false, [], []⟩, 512⟩

/-- Seven cycles before the path starts. -/
def sevenEarly : TxEarly := ⟨7, fun _ => ⟨false, 0, 0, false, false, [], []⟩⟩

theorem fromHost_inTurn : FromHost sevenEarly inTurn := by
  refine ⟨fun _ _ => ⟨rfl, rfl, rfl⟩, fun n i hi => ?_⟩
  unfold inTurn at hi
  split at hi
  · cases hi
  · split at hi
    · cases hi
    · cases hi
      exact ⟨rfl, rfl, rfl⟩

theorem host_to_pins_inTurn :
    Delivers (w := 96) SampleWidth.w12.code inst4FifoQ 6 ⟨false, true, true, 0b11, false⟩ sevenEarly inTurn :=
  (host_to_pins ⟨false, true, true, 0b11, false⟩ sevenEarly inTurn fromHost_inTurn).2.1

/-- The packets that come back when the transceiver returns what it gets, however long it takes and whenever the parts
leave their resets: they carry the pairs of the slots without a gap, in a packet and between packets, from one of the
first slots on, and with both channels whole words. Those are the words that `txiq` has read from the sample FIFO,
each once and in order, with zeros in the slots between. The frames are those of two channels with `fidm` low, and the
word count of the receive path lags behind by no more than 340 words. -/
theorem host_to_host (pw : PctBuffWidth) (rxSw : SampleWidth) (sw : BitVec 2) (m : IqMode) (hm : m.fidm = false)
    (he : m.mimoEn = true) (hch : m.chEn = 0b01 ∨ m.chEn = 0b10 ∨ m.chEn = 0b11) (early : TxEarly)
    (x : Nat → HostToPinsEdge nb) (h : FromHost early x) (hclk : TxClock x) (p : Nat → TxDiq)
    (hp : Diqs sw m early x p) (wait skip : Nat) (r : RxResets) (z : Nat → RxPathTopIn)
    (lag : Nat) (hlag : lag ≤ 340)
    (hl : Data2PacketsRig.CountLags pw rxSw (RxChain.rigIn pw rxSw m r (echoIn p wait skip) z) lag) :
    ∃ (rd : Nat → Option (BitVec 64)) (q : Nat),
      (∀ n, read sw m early x n = words rd (cycle early x n)) ∧
      (∀ c, (∀ k, c ≠ 1 + Txiq.period m * k) → rd c = none) ∧
      q ≤ skip - 6 + max 7 (r.rxPathUp - r.diq2fifoUp) ∧ (m.chEn = 0b11 → q % 2 = 0) ∧
      ∀ n k pk, (RxChain.packets pw rxSw m r (echoIn p wait skip) z n)[k]? = some pk →
        (k + 1 < (RxChain.packets pw rxSw m r (echoIn p wait skip) z n).length →
          pk.payload.length = rxSw.payloadWords) ∧
        RxChain.Carried m rxSw z (fun j => pairsWord (pairAt (Lms7002Tx.slotWord m rd) (q + 2 * j))
          (pairAt (Lms7002Tx.slotWord m rd) (q + 2 * j + 1))) k pk := by
  obtain ⟨y, hplain, hy⟩ := exists_tx_run sw m x h
  have hsel : ∀ c, (y c).txSrcSel = false := fun c => (hplain c).2.2
  have hoff : Lms7002Tx.TestsOff y := fun c => ⟨(hplain c).1, (hplain c).2.1⟩
  obtain rfl : p = fun c => ((Lms7002Tx.circuit m).run y c).diq := funext (hy.diqs hclk hp)
  have hs : FrameStream m.trxiqpulse m.fidm (Lms7002Tx.echoStart wait skip)
      (Diq2Fifo.sel m (echoIn (fun c => ((Lms7002Tx.circuit m).run y c).diq) wait skip)) :=
    Lms7002Tx.frameStream_echoed hsel hoff hm he
  obtain ⟨a, c, htc, hc, hfirst, hpaced⟩ := RxChain.exists_smplFifoWr (r := r) (x := z) he hch hs (fun _ => hm)
    (Lms7002Tx.lowBefore_echoed hoff)
  obtain ⟨d, rfl⟩ := Nat.exists_eq_add_of_le htc
  obtain ⟨q, hq, heven, hwords⟩ := Lms7002Tx.exists_pairs hsel hoff hm he hch hfirst
  refine ⟨fun c => ((Lms7002Tx.circuit m).run y c).readWord false, q, hy.read_eq h, fun c hc => ?_, by omega, heven,
    fun n k pk hk => ⟨Data2PacketsRig.payload_length hk, ?_⟩⟩
  · exact Lms7002Tx.readWord_of_slot_none ((Lms7002Tx.slot_paced (m := m) hsel).gap c hc)
  · rw [← Lms7002Tx.wordOfSlot_eq hsel]
    simp only [← hwords]
    exact (RxChain.carried_of_paced hpaced hlag hl n).2 k pk hk

theorem txClock_inTurn : TxClock inTurn := fun n => by
  refine ⟨3 * n + 2, by omega, ?_⟩
  rw [inTurn, if_neg (by omega), if_neg (by omega)]
  rfl

/-- It comes back after 40 cycles, to a host that never drains the packet FIFO. -/
theorem host_to_host_inTurn : ∃ p rd q,
    Diqs SampleWidth.w12.code ⟨false, true, true, 0b11, false⟩ sevenEarly inTurn p ∧
      (∀ n, read SampleWidth.w12.code ⟨false, true, true, 0b11, false⟩ sevenEarly inTurn n =
        words rd (cycle sevenEarly inTurn n)) ∧ q ≤ 37 ∧
      ∀ k pk, (RxChain.packets ⟨12, by decide⟩ .w12 ⟨false, true, true, 0b11, false⟩ ⟨3, 40⟩ (echoIn p 40 0)
          (fun _ => ⟨none, 1024, 0, 0, false, false, 0, false⟩) 9000)[k]? = some pk →
        RxChain.Carried ⟨false, true, true, 0b11, false⟩ .w12 (fun _ => ⟨none, 1024, 0, 0, false, false, 0, false⟩)
          (fun j => pairsWord (pairAt (Lms7002Tx.slotWord ⟨false, true, true, 0b11, false⟩ rd) (q + 2 * j))
            (pairAt (Lms7002Tx.slotWord ⟨false, true, true, 0b11, false⟩ rd) (q + 2 * j + 1))) k pk := by
  obtain ⟨y, -, hy⟩ := exists_tx_run SampleWidth.w12.code ⟨false, true, true, 0b11, false⟩ inTurn fromHost_inTurn
  have hp := hy.diqs_run
  obtain ⟨rd, q, hread, -, hq, -, hpk⟩ := host_to_host ⟨12, by decide⟩ .w12 SampleWidth.w12.code
    ⟨false, true, true, 0b11, false⟩ rfl rfl (.inr (.inr rfl)) sevenEarly inTurn fromHost_inTurn txClock_inTurn _ hp
    40 0 ⟨3, 40⟩ (fun _ => ⟨none, 1024, 0, 0, false, false, 0, false⟩) 0 (Nat.zero_le _) fun n => Fifo.usedw_le _
  exact ⟨_, rd, q, hp, hread, hq, fun k pk hk => (hpk 9000 k pk hk).2⟩

end HostToPins

end LimeSdrQpcie
