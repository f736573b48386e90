import LimeSdrQpcie.Tx.Lemmas.Comparators
import LimeSdrQpcie.Tx.Lemmas.Framing
import LimeSdrQpcie.Tx.Lemmas.SmplFifo
import LimeSdrQpcie.Tx.Lemmas.TxPath

/-!
# The packets on their way to the transmitter

The writer gets the host's packets one by one, a discard takes away one of them. The other packets go whole through
the ring of buffers, and each decision about a packet is made on the packet's own header.
-/

namespace LimeSdrQpcie

open Hdl

namespace TxIngress

variable {nb : NBuff}

/-- The host's stream is cut into packets of 4096 bytes. In whatever order the edges of the two clocks come: the
captured packets are the first ones of the host, in its order, and the header registers hold the header of the
last one. Before the last one each packet was taken whole, or discarded after its header. No word is requested
that is not there. A discard finds the transfer at rest behind the packet it is about, in the second FIFO the rest
of this packet and nothing else, and leaves the first word of the next packet at the head of the first FIFO. -/
theorem ingress_framing (x : Nat → Edge nb) (n : Nat) :
    let s := (circuit nb).run x n
    let ws := host x n
    let caps := captured x n
    (∀ k c, caps[k]? = some c → (hostPct ws k).head? = some c.pct.hdr ∧ c.words <+: hostPct ws k) ∧
    (∀ k c, caps[k]? = some c → k + 1 < caps.length →
      c.words = if c.discarded then [c.pct.hdr] else hostPct ws k) ∧
    (∀ c, caps.getLast? = some c → s.wrFsm.pctHdr0Reg = c.pct.hdr0 ∧ s.wrFsm.pctHdr1Reg = c.pct.hdr1) ∧
    (s.wrFsm.inPctRdreq = true → 4 ≤ s.inst2.inst1.usedw) ∧
    (s.wrFsm.currentState = .clrFifo →
      s.inst2.currentState = .checkFifo1 ∧ s.inst2.inst0Rdreq = false ∧ s.inst2.inst1Wrreq = false ∧
      ∃ k, caps.length = k + 1 ∧ 1024 * (k + 1) ≤ ws.length ∧
        s.inst2.inst1.store = ((ws.drop (1024 * k)).take 1024).drop 4 ∧
        s.inst2.inst0.store = ws.drop (1024 * (k + 1))) ∧
    (s.wrFsm.inPctResetNReq = false →
      s.inst2.inst1.store = [] ∧ s.inst2.inst0.store = ws.drop (1024 * caps.length)) := by
  intro s ws caps
  obtain ⟨moved, k, r, h⟩ := framed_run x n
  refine ⟨fun j c hc => ⟨?_, h.words_prefix hc⟩, fun j c => h.words_eq, h.hdr, h.usedw_of_rdreq, fun hc => ?_,
    h.after_discard⟩
  · obtain ⟨vs, hvs⟩ := h.words_prefix hc
    rw [← hvs]
    rfl
  · have hp := h.busy (P2dWrFsm.busy_of_clrFifo hc)
    have hm := h.mover
    simp only [TwoFifoInst.Mover, hp.state] at hm
    exact ⟨hp.state, hm.1, hp.wrreq, k, h.cleared_pct hc⟩

end TxIngress

namespace Packets2Data

variable {nb : NBuff}

/-- In every cycle of every run: the stored packets are whole. A word that is written goes to the buffer next
in turn, finds room there, and only the earlier words of the same packet are in front of it. The buffers hold
the stored packets in turn, from the one the reader is at on, together with their headers in the reader's
registers. No empty buffer is read, a packet that is dropped is dropped whole, and what comes out are the
emitted packets in the order in which they were stored, and the words of the next one read so far. -/
theorem pct_ring (x : Nat → Packets2DataIn nb) (n : Nat) :
    let s := (circuit nb 0x400).run x n
    let l := log x n
    (∀ p ∈ l.wr.stored, p.data.length = 255) ∧
    (∀ b, s.inst0.pctDataWrreq b = true → b = Ring.slot nb.n l.wr.stored.length ∧
      (s.instx b).acceptedWide (s.instxWr b) = halves s.inst0.pctData ∧
      ∃ p, l.wr.inHand = some p ∧ (s.instx b).store ++ halves s.inst0.pctData = p.payload) ∧
    (∀ k p, l.fates.length ≤ k → l.wr.stored[k]? = some p →
      (s.instx (Ring.slot nb.n k)).store =
          p.payload.drop (if k = l.fates.length then s.inst3.rdWords else 0) ∧
        s.inst3.pctHdr0Array (Ring.slot nb.n k) = p.hdr0 ∧ s.inst3.pctHdr1Array (Ring.slot nb.n k) = p.hdr1) ∧
    (∀ b, s.inst3PctBuffRdreq (x n) b = true →
      b = Ring.slot nb.n l.fates.length ∧ (s.instx b).store ≠ []) ∧
    (∀ b, s.inst3.pctBuffClrN b = false → b = Ring.slot nb.n l.fates.length ∧
      ∃ p, l.wr.stored[l.fates.length]? = some p ∧ (s.instx b).store = p.payload) ∧
    words (fun m => ((circuit nb 0x400).run x m).smplBuff.word) (n + 2) =
      l.emitted.flatMap TxPct.payload ++
        (l.wr.stored[l.fates.length]?.elim [] TxPct.payload).take s.inst3.rdWords := by
  intro s l
  have h : PctRing s l := pctRing_run x n
  refine ⟨h.whole, fun b hb => ?_, fun k p hk hp => ⟨h.store_of_stored hk hp, ?_⟩, fun b hb => ⟨?_, h.store_ne_nil hb⟩,
    fun b hb => ?_, words_smplBuff x n⟩
  · obtain ⟨rfl, p, hp⟩ := h.wrreq b hb
    have hwr : s.instxWr (Ring.slot nb.n l.wr.stored.length) = halves s.inst0.pctData := if_pos hb
    have hlen := h.content_length_le (Ring.slot nb.n l.wr.stored.length)
    rw [PctRing.content_length, hwr] at hlen
    have hpcts : l.wr.pcts[l.wr.stored.length]? = some p := by
      rw [WrLog.pcts_of_some hp, List.getElem?_concat_length]
    have hheld := h.ring.held _ _ h.done (PctRing.payload_getElem? hpcts)
    have hrd : (if l.wr.stored.length = l.fates.length then s.inst3.rdWords else 0) = 0 := by
      split
      · exact P2dRd.rdWords_eq_zero h.rd (by omega)
      · rfl
    rw [hrd, List.drop_zero, content, hwr] at hheld
    exact ⟨rfl, by rw [Fifo.acceptedWide, hwr, if_pos (by omega)], p, hp, hheld⟩
  · exact pctHdrArray_back x n 0 (by omega) hk hp
  · obtain ⟨hs, -, rfl⟩ := PctRing.rdreq_spec hb
    exact (h.reading (Or.inl hs)).1
  · have hs : s.inst3.currentState = .clrBuff := by
      by_contra hne
      simp [P2dRd.pctBuffClrN, hne] at hb
    have hcur : b = s.inst3.crntBuffCnt := by simpa [P2dRd.pctBuffClrN, hs] using hb
    obtain ⟨hc, hlt⟩ : s.inst3.crntBuffCnt = Ring.slot nb.n l.fates.length ∧
        l.fates.length < l.wr.stored.length := by simpa only [P2dRd.Tracks, hs] using h.rd
    have hp := List.getElem?_eq_getElem hlt
    have hw : s.inst3.rdWords = 0 := by simp [P2dRd.rdWords, hs]
    refine ⟨hcur.trans hc, _, hp, ?_⟩
    rw [hcur, hc, h.store_of_stored (Nat.le_refl _) hp, if_pos rfl, hw, List.drop_zero]

/-- In every run, whatever the sample numbers are: the writer and the reader discard a packet only when it is
synchronised and its own sample number was less than one that its comparator saw, and the reader begins to
emit a packet only when it is not synchronised or its own sample number was equal to such a number. The
answers on which they decide are always those about the packet's own header. -/
theorem decisions_timed (x : Nat → Packets2DataIn nb) (n : Nat) :
    let s := (circuit nb 0x400).run x n
    let s' := (circuit nb 0x400).run x (n + 1)
    let l := log x n
    (s'.inst0.currentState = .clrFifo → ∃ p m, l.wr.inHand = some p ∧ n = m + 3 ∧
      (x n).pctSyncDis = false ∧ p.syncDis = false ∧ p.hdr1 < (x m).sampleNr) ∧
    (s'.inst3.currentState = .clrBuff → ∃ p m, l.wr.stored[l.fates.length]? = some p ∧ n = m + 4 ∧
      (x n).pctSyncDis = false ∧ p.syncDis = false ∧ p.hdr1 < (x m).sampleNr) ∧
    (s.inst3.currentState = .idle → s'.inst3.currentState = .rdBuff →
      ∃ p m, l.wr.stored[l.fates.length]? = some p ∧ n = m + 4 ∧
        ((x n).pctSyncDis = true ∨ p.syncDis = true ∨ p.hdr1 = (x m).sampleNr)) ∧
    (s.inst0.currentState = .checkSmplNr → ∃ p m, l.wr.inHand = some p ∧ n = m + 3 ∧
      s.inst0.crntPctSyncDis = p.syncDis ∧ s.inst0.cmpr.alb = p.hdr1.ult (x m).sampleNr) ∧
    (s.inst3.currentState = .idle → s.inst3.crntBuffRdy = true →
      ∃ p m, n = m + 4 ∧ l.wr.stored[l.fates.length]? = some p ∧ s.inst3.crntBuffPctSynchDis = p.syncDis ∧
        s.inst3.crntBuffPctSmplNrEqual = (p.hdr1 == (x m).sampleNr) ∧
        s.inst3.crntBuffPctSmplNrLess = p.hdr1.ult (x m).sampleNr) := by
  intro s s' l
  have hwr : s'.inst0.currentState = s.inst0.nextState (s.inst0In (x n)) := rfl
  have hrd : s'.inst3.currentState = s.inst3.nextState (s.inst3In (x n)) := rfl
  refine ⟨fun hc => ?_, fun hc => ?_, fun hs hc => ?_, wr_answer x n, rd_answers x n⟩
  · obtain ⟨hs, halb, hdis, hsync⟩ := P2dWrFsm.nextState_clrFifo (hwr ▸ hc)
    obtain ⟨p, m, hp, hn, hd, ha⟩ := wr_answer x n hs
    exact ⟨p, m, hp, hn, hsync, hd.symm.trans hdis, BitVec.ult_iff_lt.mp (ha.symm.trans halb)⟩
  · obtain ⟨hs, hr, hsync, hdis, hless⟩ := P2dRd.nextState_clrBuff (hrd ▸ hc)
    obtain ⟨p, m, hn, hp, hd, -, hl⟩ := rd_answers x n hs hr
    exact ⟨p, m, hp, hn, hsync, hd.symm.trans hdis, BitVec.ult_iff_lt.mp (hl.symm.trans hless)⟩
  · obtain ⟨hr, hcause⟩ := P2dRd.nextState_rdBuff hs (hrd ▸ hc)
    obtain ⟨p, m, hn, hp, hd, he, -⟩ := rd_answers x n hs hr
    refine ⟨p, m, hp, hn, ?_⟩
    rcases hcause with hcause | hcause | hcause
    · exact Or.inl hcause
    · exact Or.inr (Or.inl (hd.symm.trans hcause))
    · exact Or.inr (Or.inr (beq_iff_eq.mp (he.symm.trans hcause)))

end Packets2Data

namespace TxSmplFifo

variable {nb : NBuff}

/-- The sample FIFO is never written while it is full, and no sample is lost: `d` cycles after the reader's
part, the words that went into the FIFO are, in order, those that hold exactly the samples of the emitted
packets and those that the samples of the next packet read so far fill. -/
def Delivers {n : Nat} (sampleWidth : BitVec 2) (lanes : BitVec n → BitVec 128) (d : Nat)
    (x : Nat → TxSmplFifoIn nb) : Prop :=
  let r := (circuit nb sampleWidth).run x
  (∀ m, (r m).top.smplFifoWr.valid = true → (r m).smplFifo.isFull = false) ∧
  ∀ k, let l := Packets2Data.log (inst0In sampleWidth x) k
    ∃ vs us : List (BitVec n),
      Fifo.taken (fun m => (r m).smplFifo) (fun m => (x m).smplFifoRd) (k + d) ++ (r (k + d)).smplFifo.store =
        (vs ++ us).map lanes ∧
      bitString vs = bitString (l.emitted.flatMap TxPct.payload) ∧
      Fills (bitString ((l.wr.stored[l.fates.length]?.elim [] TxPct.payload).take
        (r k).top.inst0.inst3.rdWords)) us

/-- A FIFO that is not written while it is full holds or has given what was on the write port. -/
theorem fifo_words {sw : BitVec 2} (x : Nat → TxSmplFifoIn nb)
    (h : ∀ m, ((circuit nb sw).run x m).top.smplFifoWr.valid = true →
      ((circuit nb sw).run x m).smplFifo.isFull = false) (n : Nat) :
    Fifo.taken (fun m => ((circuit nb sw).run x m).smplFifo) (fun m => (x m).smplFifoRd) n ++
        ((circuit nb sw).run x n).smplFifo.store =
      words (fun m => ((circuit nb sw).run x m).top.smplFifoWr.word) n := by
  refine Fifo.taken_append_store_of_not_full _ rfl (fun m => rfl) (fun m hm => h m ?_) n
  by_contra hno
  exact hm (Port.word_eq_none.mpr (by simpa using hno))

/-- In 12-bit and in 16-bit mode, for every sequence of packets and every way the sample FIFO is drained. -/
theorem smplFifo_delivers (x : Nat → TxSmplFifoIn nb) :
    Delivers SampleWidth.w12.code Unpack64To48.spread 6 x ∧
      Delivers (n := 128) SampleWidth.w16.code id 4 x := by
  have h12 : ∀ m, ((circuit nb SampleWidth.w12.code).run x m).top.smplFifoWr.valid = true →
      ((circuit nb SampleWidth.w12.code).run x m).smplFifo.isFull = false := by
    intro m hm
    obtain ⟨k, rfl, hr⟩ := request_of_write_w12 x m hm
    exact not_full_of_request x k 6 (Nat.le_refl _) hr
  have h16 : ∀ m, ((circuit nb SampleWidth.w16.code).run x m).top.smplFifoWr.valid = true →
      ((circuit nb SampleWidth.w16.code).run x m).smplFifo.isFull = false := by
    intro m hm
    obtain ⟨k, rfl, hr⟩ := request_of_write_w16 x m hm
    exact not_full_of_request x k 4 (by omega) hr
  refine ⟨⟨h12, fun k => ?_⟩, h16, fun k => ?_⟩
  · obtain ⟨ws, hfill, hout⟩ := BitUnpack64.words_out_w12
      (fun m => ((circuit nb SampleWidth.w12.code).run x m).top.inst0.smplBuff) (k + 2)
    simp only [run_inst0 SampleWidth.w12.code rfl x] at hfill
    obtain ⟨vs, us, rfl, hvs, hus⟩ := split_emitted (by decide) _ k hfill
    refine ⟨vs, us, ?_, hvs, ?_⟩
    · rw [fifo_words x h12, ← hout]
      simp only [← run_inst1]
      rfl
    · rw [run_inst0 _ rfl x]
      exact hus
  · have hfill := BitUnpack64.words_out_w16
      (fun m => ((circuit nb SampleWidth.w16.code).run x m).top.inst0.smplBuff) (k + 2)
    simp only [run_inst0 SampleWidth.w16.code rfl x] at hfill
    obtain ⟨vs, us, hws, hvs, hus⟩ := split_emitted (by decide) _ k hfill
    refine ⟨vs, us, ?_, hvs, ?_⟩
    · rw [fifo_words x h16, List.map_id, ← hws]
      simp only [← run_inst0 SampleWidth.w16.code rfl x, ← run_inst1]
      rfl
    · rw [run_inst0 _ rfl x]
      exact hus

end TxSmplFifo

namespace TxPath

variable {nb : NBuff}

/-- Up to each step the host's packets have been dealt with one after the other: every one that was sent was due when
the reader began with it, every one that was thrown away was late when that was decided, by the number that
`sync_fifo_rw` showed four or three edges of the transmit clock before. The number it shows has come from the receive
clock, after the 0 of the start. `d` edges of the transmit clock later the words that have gone into the sample FIFO
hold exactly the samples of the packets that were sent, in the host's order, and the first samples of the packet after
those dealt with. -/
def Carries {n : Nat} (sampleWidth : BitVec 2) (lanes : BitVec n → BitVec 128) (d : Nat)
    (x : Nat → TxPathEdge nb) : Prop :=
  ∀ k, let ws := host sampleWidth x k
    let fs := fates sampleWidth x k
    (∀ j f, fs[j]? = some f → 1024 * (j + 1) ≤ ws.length ∧
      (f = .emitted → Due sampleWidth x k j (TxPct.ofHost ws j)) ∧
      (f = .dropped → Late sampleWidth x k j (TxPct.ofHost ws j))) ∧
    (((circuit nb sampleWidth).run x k).syncFifoRw.syncQ = 0 ∨
      Counted x k ((circuit nb sampleWidth).run x k).syncFifoRw.syncQ) ∧
    ∀ m, txEdges x m = txEdges x k + d → ∃ (vs us : List (BitVec n)) (rd : Nat),
      sent sampleWidth x m ++ ((circuit nb sampleWidth).run x m).smpl.smplFifo.store = (vs ++ us).map lanes ∧
      bitString vs = bitString ((emitted ws fs).flatMap TxPct.payload) ∧
      Fills (bitString ((TxPct.ofHost ws fs.length).payload.take rd)) us

/-- In whatever order the edges of the bus clock, the receive clock and the transmit clock come, and however the
sample FIFO is drained. -/
theorem host_to_smplFifo (x : Nat → TxPathEdge nb) :
    Carries SampleWidth.w12.code Unpack64To48.spread 6 x ∧ Carries (n := 128) SampleWidth.w16.code id 4 x := by
  constructor
  · obtain ⟨y, hy⟩ := exists_smpl_run SampleWidth.w12.code x
    exact fun k => ⟨fun j f => fates_spec hy rfl, (syncFifoRw_run x k).2, fun m => words_sent_w12 x⟩
  · obtain ⟨y, hy⟩ := exists_smpl_run SampleWidth.w16.code x
    exact fun k => ⟨fun j f => fates_spec hy rfl, (syncFifoRw_run x k).2, fun m => words_sent_w16 x⟩

end TxPath

end LimeSdrQpcie
