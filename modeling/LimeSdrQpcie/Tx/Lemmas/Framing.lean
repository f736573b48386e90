import LimeSdrQpcie.Tx.Lemmas.Ingress

/-!
# The transfer waits for the writer

From the request of a header to the last word of its packet the transfer stands still behind a whole packet. It
does not matter how the edges of the two clocks come.
-/

namespace LimeSdrQpcie

open Hdl

/-! ## The writer is busy -/

namespace P2dWrFsm

variable {nb : NBuff} {w : P2dWrFsm nb} {i : P2dWrFsmIn nb} {k : Nat}

/-- From the request of a header to that of the last word of the packet. -/
def busy (w : P2dWrFsm nb) : Bool :=
  match w.currentState with
  | .rdHdr | .waitCmprPipe | .checkSmplNr | .clrFifo | .switchNextBuff | .rdPct => true
  | .waitWrEnd => w.inPctRdreqInt
  | .idle | .checkNextBuf | .switchCurrentBuff => false

theorem busy_of_rdreq (h : w.Phase) (hr : w.inPctRdreqInt = true) : w.busy = true := by
  unfold Phase Settled at h
  cases hs : w.currentState <;> simp_all [busy]

theorem busy_of_clrFifo (h : w.currentState = .clrFifo) : w.busy = true := by simp [busy, h]

/-- The writer becomes busy when a packet is ready, and then stays with this packet. -/
theorem busy_next (h : (w.next i).busy = true) :
    kNext w k = k ∧ (w.busy = true ∨ w.currentState = .idle ∧ i.inPctRdy = true) := by
  have hns : (w.next i).currentState = w.nextState i := rfl
  cases hs : w.currentState with
  | idle =>
      refine ⟨by simp [kNext, hs], Or.inr ⟨rfl, ?_⟩⟩
      cases hr : i.inPctRdy with
      | true => rfl
      | false => simp [busy, hns, nextState, hs, hr] at h
  | clrFifo => simp [busy, hns, nextState, hs] at h
  | waitWrEnd =>
      have hr : (w.next i).inPctRdreqInt = false := by simp [next, hs]
      cases hv : w.inPctDataValid <;> simp [busy, hns, nextState, hs, hv, hr] at h
  | checkNextBuf => cases hn : w.nextBuffRdy <;> simp [busy, hns, nextState, hs, hn] at h
  | switchCurrentBuff => simp [busy, hns, nextState, hs] at h
  | _ => exact ⟨by simp [kNext, hs], Or.inl (by simp [busy, hs])⟩

/-- With a request on its way the writer stays busy until the last word of the packet. -/
theorem busy_next_of_rdreq (h : w.Phase) (hr : w.inPctRdreqInt = true) (hc : w.currentState ≠ .waitWrEnd) :
    (w.next i).busy = true := by
  have hns : (w.next i).currentState = w.nextState i := rfl
  unfold Phase Settled at h
  cases hs : w.currentState with
  | waitCmprPipe => by_cases hp : w.pipeCnt > 3 <;> simp [busy, hns, nextState, hs, hp]
  | rdPct =>
      by_cases hlt : w.rdCnt < 255
      · simp [busy, hns, nextState, hs, hlt]
      · simp [busy, nextState, hs, hlt, next]
  | waitWrEnd => exact absurd hs hc
  | _ => simp [hs, hr] at h

end P2dWrFsm

theorem Place.bounds {nb : NBuff} {w : P2dWrFsm nb} {q : BitVec 128} {qs : List (BitVec 128)} {caps : List CapPct}
    {k r : Nat} (h : Place w q qs caps k r) (hph : w.Phase) : 256 * k ≤ r ∧ r < 256 * (k + 1) := by
  unfold P2dWrFsm.Phase at hph
  unfold Place at h
  cases hs : w.currentState with
  | waitCmprPipe =>
      simp only [hs] at h
      split at h
      · omega
      · split at h <;> omega
  | rdPct =>
      simp only [hs] at h hph
      obtain ⟨hlo, hhi, hrd, -, -⟩ := hph
      have hr := h.1
      cases hb : w.inPctRdreqInt with
      | false =>
          rw [hb] at hr
          simp only [Bool.toNat_false] at hr
          omega
      | true =>
          have h2 : 2 ≤ w.rdCnt := by simpa [hb] using hrd
          rw [hb] at hr
          simp only [Bool.toNat_true] at hr
          omega
  | waitWrEnd =>
      simp only [hs] at h
      split at h
      · omega
      · obtain ⟨j, hk, hr, -⟩ := h
        omega
  | _ =>
      simp only [hs] at h
      omega

/-! ## The invariant -/

/-- A host's words `ws`, the words `moved` that have left the first FIFO, the captured packets, and the writer at
word `r` of the stream, in packet `k`. -/
structure Framed {nb : NBuff} (s : TxIngress nb) (ws moved : List (BitVec 32)) (caps : List CapPct) (k r : Nat) :
    Prop where
  phase : s.wrFsm.Phase
  flow : s.inst2.Flow ws moved r
  start : 1024 * k ≤ moved.length
  mover : s.inst2.Mover (moved.length - 1024 * k)
  place : Place s.wrFsm s.inst2.inst1Q (quads ws) caps k r
  sound : CapsSound (quads ws) caps
  hdr : HdrRegs s.wrFsm caps
  busy : s.wrFsm.busy = true → s.inst2.Parked (moved.length - 1024 * k)
  rdy : s.inPctRdy = true → s.inst2.inst1.usedw = 1024 ∨ s.wrFsm.busy = true
  sync : s.syncReg0.syncReg1 = true → s.syncReg0.syncReg0 = true
  held : s.syncReg0.syncOut = false → s.inst2.inst1.store = [] ∧ s.inst2.currentState = .idle
  cleared : s.wrFsm.inPctResetNReq = false → s.wrFsm.currentState = .idle ∧ s.syncReg0 = ⟨false, false⟩

namespace Framed

variable {nb : NBuff} {s : TxIngress nb} {ws moved : List (BitVec 32)} {caps : List CapPct} {k r : Nat}

/-- The words between the first FIFO and the writer. -/
theorem ahead (h : Framed s ws moved caps k r) :
    s.inst2.inst1.usedw + s.inst2.inFlight.toList.length + 4 * r = moved.length := by
  have hlen := congrArg List.length h.flow.ahead
  have hle := h.flow.le
  rw [List.length_append, List.length_drop] at hlen
  simp only [Fifo.usedw]
  omega

theorem bounds (h : Framed s ws moved caps k r) : 256 * k ≤ r ∧ r < 256 * (k + 1) := h.place.bounds h.phase

theorem wrreq_of_full (h : Framed s ws moved caps k r) (hf : s.inst2.inst1.usedw = 1024) :
    s.inst2.inst1Wrreq = false := by
  have ha := h.ahead
  have hb := h.bounds
  have hp := h.mover.pos_le
  have hs := h.start
  cases hw : s.inst2.inst1Wrreq with
  | false => rfl
  | true =>
      simp only [TwoFifoInst.inFlight, hw, if_true, Option.toList_some, List.length_singleton] at ha
      omega

/-- The second FIFO has room for a word that is on its way. -/
theorem room (h : Framed s ws moved caps k r) (hw : s.inst2.inst1Wrreq = true) : s.inst2.inst1.isFull = false := by
  rw [Fifo.isFull_eq_false]
  refine Nat.lt_of_le_of_ne s.inst2.inst1.usedw_le fun hf => ?_
  have := h.wrreq_of_full hf
  simp [hw] at this

/-- Behind a whole packet the second FIFO is not empty before the writer has read all of it. -/
theorem pos_eq_zero (h : Framed s ws moved caps k r) (hc : s.inst2.currentState = .checkFifo1)
    (hu : s.inst2.inst1.usedw = 0) : moved.length - 1024 * k = 0 := by
  have hm := h.mover
  simp only [TwoFifoInst.Mover, hc] at hm
  have ha := h.ahead
  have hb := h.bounds
  have hs := h.start
  have hf : s.inst2.inFlight.toList.length ≤ 1 := by
    cases s.inst2.inFlight <;> simp
  omega

/-- The transfer waits while the writer is at a packet. -/
theorem parked_wrEdge (h : Framed s ws moved caps k r) (hb : s.wrFsm.busy = true) (i : TwoFifoWrIn) :
    (s.inst2.wrEdge true i).Parked (moved.length - 1024 * k) := by
  obtain ⟨hc, hw, hp⟩ := h.busy hb
  have hm := h.mover
  simp only [TwoFifoInst.Mover, hc] at hm
  have hne : s.inst2.inst1Wrempty i = false := by
    cases he : s.inst2.inst1Wrempty i with
    | false => rfl
    | true =>
        simp only [TwoFifoInst.inst1Wrempty, Bool.and_eq_true, beq_iff_eq] at he
        have h0 := h.pos_eq_zero hc he.1
        omega
  refine ⟨?_, hm.1, hp⟩
  change s.inst2.nextState i = .checkFifo1
  simp [TwoFifoInst.nextState, hc, hne]

/-- While the second FIFO is held in reset the writer is not busy. -/
theorem not_busy (h : Framed s ws moved caps k r) (hs : s.syncReg0.syncOut = false) : s.wrFsm.busy = false := by
  cases hb : s.wrFsm.busy with
  | false => rfl
  | true =>
      have hstate := (h.busy hb).state
      rw [(h.held hs).2] at hstate
      cases hstate

theorem busEdge (h : Framed s ws moved caps k r) (i : TwoFifoWrIn) :
    ∃ moved', Framed (s.busEdge i) (ws ++ (s.inst2.hostWord i).toList) moved' caps k r := by
  have hq : quads ws <+: quads (ws ++ (s.inst2.hostWord i).toList) := quads_mono (List.prefix_append _ _)
  cases hs : s.syncReg0.syncOut with
  | true =>
      have hreset : s.wrFsm.inPctResetNReq = true := by
        cases hr : s.wrFsm.inPctResetNReq with
        | true => rfl
        | false =>
            rw [(h.cleared hr).2] at hs
            cases hs
      have hsync : (s.busEdge i).syncReg0 = ⟨true, true⟩ := by
        simp [TxIngress.busEdge, hreset, SyncReg.next, h.sync hs]
      have hinst : (s.busEdge i).inst2 = s.inst2.wrEdge true i := by simp [TxIngress.busEdge, hs]
      have hlen : (moved ++ s.inst2.popped).length - 1024 * k =
          moved.length - 1024 * k + s.inst2.inst0Rdreq.toNat := by
        have hstart := h.start
        rw [List.length_append, TwoFifoInst.popped_length h.mover]
        omega
      refine ⟨moved ++ s.inst2.popped, ?_⟩
      exact
        { phase := h.phase
          flow := hinst ▸ TwoFifoInst.flow_wrEdge h.flow h.mover h.room
          start := by
            have hstart := h.start
            rw [List.length_append]
            omega
          mover := by
            rw [hinst, hlen]
            exact TwoFifoInst.mover_wrEdge h.mover h.pos_eq_zero
          place := by
            rw [hinst]
            exact h.place.mono hq
          sound := h.sound.mono hq
          hdr := h.hdr
          busy := fun hb => by
            have hm := h.mover
            simp only [TwoFifoInst.Mover, (h.busy hb).state] at hm
            rw [hinst, hlen, hm.1]
            exact h.parked_wrEdge hb i
          rdy := fun hr => by
            refine (h.rdy hr).imp_left fun hu => ?_
            rw [hinst]
            simpa [TwoFifoInst.wrEdge, h.wrreq_of_full hu, Fifo.usedw] using hu
          sync := fun _ => by rw [hsync]
          held := fun hf => by
            rw [hsync] at hf
            cases hf
          cleared := fun hf => by
            change s.wrFsm.inPctResetNReq = false at hf
            rw [hreset] at hf
            cases hf }
  | false =>
      obtain ⟨hnil, hidle⟩ := h.held hs
      have hm := h.mover
      simp only [TwoFifoInst.Mover, hidle] at hm
      obtain ⟨hp, hrd, hwr⟩ := hm
      have hinst : (s.busEdge i).inst2 = s.inst2.wrEdge false i := by simp [TxIngress.busEdge, hs]
      have hbusy : s.wrFsm.busy = false := h.not_busy hs
      refine ⟨moved, ?_⟩
      exact
        { phase := h.phase
          flow := hinst ▸ TwoFifoInst.flow_wrEdge_reset h.flow hnil hrd hwr
          start := h.start
          mover := by
            rw [hinst]
            exact ⟨hp, rfl, rfl⟩
          place := by
            rw [hinst]
            exact h.place.mono hq
          sound := h.sound.mono hq
          hdr := h.hdr
          busy := fun hb => by
            change s.wrFsm.busy = true at hb
            rw [hbusy] at hb
            cases hb
          rdy := fun hr => by
            rcases h.rdy hr with hu | hb
            · simp [Fifo.usedw, hnil] at hu
            · exact Or.inr hb
          sync := by
            cases hr : s.wrFsm.inPctResetNReq <;> simp [TxIngress.busEdge, hr, SyncReg.next]
          held := fun _ => by
            rw [hinst]
            exact ⟨rfl, rfl⟩
          cleared := fun hf => by
            change s.wrFsm.inPctResetNReq = false at hf
            exact ⟨(h.cleared hf).1, by simp [TxIngress.busEdge, hf]⟩ }

/-- What the writer has requested comes from the second FIFO. -/
theorem flow_txEdge (h : Framed s ws moved caps k r) :
    (s.inst2.rdEdge s.wrFsm.inPctRdreqInt).Flow ws moved (r + s.wrFsm.inPctRdreqInt.toNat) ∧
      (s.wrFsm.inPctRdreqInt = true →
        (quads ws)[r]? = some (s.inst2.rdEdge s.wrFsm.inPctRdreqInt).inst1Q) := by
  cases hr : s.wrFsm.inPctRdreqInt with
  | false => exact ⟨h.flow, fun h => by cases h⟩
  | true =>
      obtain ⟨-, hw, hp⟩ := h.busy (P2dWrFsm.busy_of_rdreq h.phase hr)
      have hb := h.bounds
      have hle : 4 * r + 4 ≤ moved.length := by omega
      obtain ⟨hflow, hq⟩ := TwoFifoInst.flow_rdEdge h.flow hw hle
      refine ⟨hflow, fun _ => ?_⟩
      rw [hq]
      exact getElem?_of_prefix (quads_mono ⟨_, h.flow.host.symm⟩) (quads_getElem? hle)

/-- Only a whole packet is ready. -/
theorem usedw_of_rdy {i : TxIngressIn nb} (h : (s.txEdge i).inPctRdy = true) : s.inst2.inst1.usedw = 1024 := by
  have hle : s.inst2.inst1.usedw ≤ 1024 := s.inst2.inst1.usedw_le
  have hmin : s.inst2.rdusedw i.rdusedwAtMost ≤ s.inst2.inst1.usedw / 4 := Nat.min_le_right _ _
  by_cases hlt : s.inst2.rdusedw i.rdusedwAtMost < 4096 * 8 / 128
  · simp [TxIngress.txEdge, hlt] at h
  · omega

/-- The transmit clock with a packet that is not discarded. -/
theorem txEdge_of_ne (h : Framed s ws moved caps k r) (hc : s.wrFsm.currentState ≠ .clrFifo) (i : TxIngressIn nb) :
    Framed (s.txEdge i) ws moved (CapPct.listNext s.wrFsm s.inst2.inst1Q caps) (kNext s.wrFsm k)
      (rNext s.wrFsm k r) := by
  obtain ⟨hflow, hq⟩ := h.flow_txEdge
  obtain ⟨hplace, hcaps⟩ := place_next (i := s.wrFsmIn i) h.phase h.place h.sound hq
  have hreset : (s.wrFsm.next (s.wrFsmIn i)).inPctResetNReq = true := by simp [P2dWrFsm.next, hc]
  have hinst : (s.txEdge i).inst2 = s.inst2.rdEdge s.wrFsm.inPctRdreqInt := by
    simp [TxIngress.txEdge, hreset, P2dWrFsm.inPctRdreq]
  have hsync : (s.txEdge i).syncReg0 = s.syncReg0 := by simp [TxIngress.txEdge, hreset]
  have hbusy : s.wrFsm.inPctRdreqInt = true → s.wrFsm.busy = true := P2dWrFsm.busy_of_rdreq h.phase
  -- the last word has been requested, so that the transfer may go on with the next packet
  have hlast : s.wrFsm.currentState = .waitWrEnd → s.wrFsm.inPctRdreqInt = true →
      moved.length = 1024 * (k + 1) ∧ r = 256 * k + 255 := by
    intro hw hr
    have hp := (h.busy (hbusy hr)).pos
    have hs := h.start
    have hr' := h.place
    simp only [Place, hw, hr, if_true] at hr'
    omega
  rw [rNext_eq hc]
  rw [rNext_eq hc] at hplace
  exact
    { phase := P2dWrFsm.phase_next h.phase
      flow := hinst ▸ hflow
      start := by
        have hs := h.start
        unfold kNext
        split
        next hk =>
          obtain ⟨hw, hr⟩ := hk.resolve_left hc
          exact Nat.le_of_eq (hlast hw hr).1.symm
        next => exact hs
      mover := by
        rw [hinst]
        unfold kNext
        split
        next hk =>
          obtain ⟨hw, hr⟩ := hk.resolve_left hc
          have hm := h.mover
          have hb := h.busy (hbusy hr)
          simp only [TwoFifoInst.Mover, hb.state] at hm
          refine TwoFifoInst.mover_rdEdge ?_ _
          simp only [TwoFifoInst.Mover, hb.state]
          exact ⟨hm.1, Or.inr ⟨by rw [(hlast hw hr).1, Nat.sub_self], hb.wrreq⟩⟩
        next => exact TwoFifoInst.mover_rdEdge h.mover _
      place := hinst ▸ hplace
      sound := hcaps
      hdr := hdrRegs_next (i := s.wrFsmIn i) h.hdr
      busy := fun hb => by
        obtain ⟨hk, hb | ⟨hidle, hrdy⟩⟩ := P2dWrFsm.busy_next hb
        · rw [hk, hinst]
          exact TwoFifoInst.parked_rdEdge (h.busy hb) _
        · have hu : s.inst2.inst1.usedw = 1024 := by simpa [P2dWrFsm.busy, hidle] using h.rdy hrdy
          have hpos : moved.length - 1024 * k = 1024 := by
            have ha := h.ahead
            have hb := h.bounds
            have hp := h.mover.pos_le
            omega
          rw [hk, hinst]
          exact TwoFifoInst.parked_rdEdge (h.mover.parked hpos (h.wrreq_of_full hu)) _
      rdy := fun hr => by
        have hu := usedw_of_rdy hr
        cases hrd : s.wrFsm.inPctRdreqInt with
        | false =>
            rw [hinst, hrd]
            exact Or.inl hu
        | true =>
            by_cases hw : s.wrFsm.currentState = .waitWrEnd
            · have ha := h.ahead
              obtain ⟨hm, hr⟩ := hlast hw hrd
              omega
            · exact Or.inr (P2dWrFsm.busy_next_of_rdreq h.phase hrd hw)
      sync := by
        rw [hsync]
        exact h.sync
      held := fun hf => by
        rw [hsync] at hf
        obtain ⟨hnil, hidle⟩ := h.held hf
        have hrd : s.wrFsm.inPctRdreqInt = false :=
          Bool.eq_false_iff.mpr fun hrd => absurd ((hbusy hrd).symm.trans (h.not_busy hf)) (by decide)
        rw [hinst, hrd]
        exact ⟨hnil, hidle⟩
      cleared := fun hf => by
        change (s.wrFsm.next (s.wrFsmIn i)).inPctResetNReq = false at hf
        rw [hreset] at hf
        cases hf }

/-- What a discard finds: the rest of the packet, all of it in the second FIFO, and the transfer at rest. -/
theorem discard (h : Framed s ws moved caps k r) (hc : s.wrFsm.currentState = .clrFifo) :
    s.wrFsm.Settled ∧ r = 256 * k + 1 ∧ moved.length = 1024 * (k + 1) := by
  have hph := h.phase
  have hpl := h.place
  have hp := (h.busy (P2dWrFsm.busy_of_clrFifo hc)).pos
  simp only [P2dWrFsm.Phase, hc] at hph
  simp only [Place, hc] at hpl
  exact ⟨hph.1, hpl.1, by omega⟩

theorem txEdge_of_clrFifo (h : Framed s ws moved caps k r) (hc : s.wrFsm.currentState = .clrFifo)
    (i : TxIngressIn nb) :
    Framed (s.txEdge i) ws moved (CapPct.listNext s.wrFsm s.inst2.inst1Q caps) (kNext s.wrFsm k)
      (rNext s.wrFsm k r) := by
  obtain ⟨hset, hr, hm⟩ := h.discard hc
  have hq : s.wrFsm.inPctRdreqInt = true → (quads ws)[r]? = some s.inst2.inst1Q := fun h1 => by simp [hset.1] at h1
  obtain ⟨hplace, hcaps⟩ := place_next (i := s.wrFsmIn i) h.phase h.place h.sound hq
  have hreset : (s.wrFsm.next (s.wrFsmIn i)).inPctResetNReq = false := by simp [P2dWrFsm.next, hc]
  have hidle : (s.wrFsm.next (s.wrFsmIn i)).currentState = .idle := by
    change s.wrFsm.nextState _ = .idle
    simp [P2dWrFsm.nextState, hc]
  have hinst : (s.txEdge i).inst2 = s.inst2.clear := by
    simp [TxIngress.txEdge, hreset, P2dWrFsm.inPctRdreq, hset.1, TwoFifoInst.rdEdge]
  have hsync : (s.txEdge i).syncReg0 = ⟨false, false⟩ := by simp [TxIngress.txEdge, hreset]
  have hk : kNext s.wrFsm k = k + 1 := by simp [kNext, hc]
  have hr' : rNext s.wrFsm k r = 256 * (k + 1) := by simp [rNext, hc]
  rw [hk, hr'] at hplace ⊢
  exact
    { phase := P2dWrFsm.phase_next h.phase
      flow := hinst ▸ TwoFifoInst.flow_clear h.flow (by omega)
      start := Nat.le_of_eq hm.symm
      mover := by
        rw [hinst, hm, Nat.sub_self]
        exact ⟨rfl, rfl, rfl⟩
      place := hinst ▸ hplace
      sound := hcaps
      hdr := hdrRegs_next (i := s.wrFsmIn i) h.hdr
      busy := fun hb => by
        change (s.wrFsm.next (s.wrFsmIn i)).busy = true at hb
        simp [P2dWrFsm.busy, hidle] at hb
      rdy := fun hrdy => by
        have hu := usedw_of_rdy hrdy
        have ha := h.ahead
        omega
      sync := by simp [hsync]
      held := fun _ => by
        rw [hinst]
        exact ⟨rfl, rfl⟩
      cleared := fun _ => ⟨hidle, hsync⟩ }

theorem txEdge (h : Framed s ws moved caps k r) (i : TxIngressIn nb) :
    ∃ k' r', Framed (s.txEdge i) ws moved (CapPct.listNext s.wrFsm s.inst2.inst1Q caps) k' r' := by
  by_cases hc : s.wrFsm.currentState = .clrFifo
  · exact ⟨_, _, h.txEdge_of_clrFifo hc i⟩
  · exact ⟨_, _, h.txEdge_of_ne hc i⟩

end Framed

/-! ## What the record says -/

namespace Framed

variable {nb : NBuff} {s : TxIngress nb} {ws moved : List (BitVec 32)} {caps : List CapPct} {k r : Nat}

theorem words_prefix (h : Framed s ws moved caps k r) {j : Nat} {c : CapPct} (hc : caps[j]? = some c) :
    c.words <+: hostPct ws j := by
  rw [hostPct_eq]
  exact h.sound.words j c hc

/-- A packet that is not the last one has been taken whole or discarded after its header. -/
theorem words_eq (h : Framed s ws moved caps k r) {j : Nat} {c : CapPct} (hc : caps[j]? = some c)
    (hj : j + 1 < caps.length) : c.words = if c.discarded then [c.pct.hdr] else hostPct ws j := by
  have hmem : c ∈ caps.dropLast := by
    refine List.mem_of_getElem? (i := j) ?_
    rw [List.getElem?_dropLast, if_pos (by omega), hc]
  have hlen := h.sound.complete c hmem
  unfold CapPct.Complete at hlen
  cases hd : c.discarded with
  | true =>
      rw [hd, if_pos rfl] at hlen
      have hnil : c.pct.data = [] := List.length_eq_zero_iff.mp (Nat.succ.inj hlen)
      rw [if_pos rfl, CapPct.words, hnil]
  | false =>
      rw [hd] at hlen
      refine (h.words_prefix hc).eq_of_length_le ?_
      rw [hostPct_eq, hlen]
      exact List.length_take_le _ _

/-- A word that is requested is there. -/
theorem usedw_of_rdreq (h : Framed s ws moved caps k r) (hr : s.wrFsm.inPctRdreqInt = true) :
    4 ≤ s.inst2.inst1.usedw := by
  obtain ⟨-, hw, hp⟩ := h.busy (P2dWrFsm.busy_of_rdreq h.phase hr)
  have ha := h.ahead
  have hb := h.bounds
  simp only [TwoFifoInst.inFlight, hw, Bool.false_eq_true, if_false, Option.toList_none, List.length_nil] at ha
  omega

/-- A discard clears the packet of the last header. -/
theorem cleared_pct (h : Framed s ws moved caps k r) (hc : s.wrFsm.currentState = .clrFifo) :
    caps.length = k + 1 ∧ 1024 * (k + 1) ≤ ws.length ∧
      s.inst2.inst1.store = ((ws.drop (1024 * k)).take 1024).drop 4 ∧
      s.inst2.inst0.store = ws.drop (1024 * (k + 1)) := by
  obtain ⟨-, hr, hm⟩ := h.discard hc
  have hpl := h.place
  simp only [Place, hc] at hpl
  obtain ⟨-, init, c, rfl, rfl, -⟩ := hpl
  have hwr := (h.busy (P2dWrFsm.busy_of_clrFifo hc)).wrreq
  have hst := h.flow.ahead
  simp only [TwoFifoInst.inFlight, hwr, Bool.false_eq_true, if_false, Option.toList_none, List.append_nil] at hst
  have hws := h.flow.host
  refine ⟨by simp, ?_, ?_, ?_⟩
  · rw [hws, List.length_append, hm]
    exact Nat.le_add_right _ _
  · rw [hst, hws, List.drop_append_of_le_length (by omega), List.take_append_of_le_length, List.take_of_length_le,
      List.drop_drop, hr]
    · congr 1
      omega
    · rw [List.length_drop]
      omega
    · rw [List.length_drop]
      omega
  · rw [hws, ← hm, List.drop_left]

/-- After a discard the next word is the first one of the next packet. -/
theorem after_discard (h : Framed s ws moved caps k r) (hn : s.wrFsm.inPctResetNReq = false) :
    s.inst2.inst1.store = [] ∧ s.inst2.inst0.store = ws.drop (1024 * caps.length) := by
  obtain ⟨hidle, hsync⟩ := h.cleared hn
  obtain ⟨hnil, hmover⟩ := h.held (by rw [hsync]; rfl)
  have hpl := h.place
  simp only [Place, hidle] at hpl
  have hm := h.mover
  simp only [TwoFifoInst.Mover, hmover] at hm
  have hs := h.start
  refine ⟨hnil, ?_⟩
  rw [hpl.2.1, show 1024 * k = moved.length by omega, h.flow.host, List.drop_left]

end Framed

/-! ## Every run -/

theorem framed_reset (nb : NBuff) : Framed (TxIngress.reset : TxIngress nb) [] [] [] 0 0 where
  phase := ⟨⟨rfl, rfl⟩, rfl⟩
  flow := ⟨rfl, Nat.le_refl 0, rfl⟩
  start := Nat.le_refl 0
  mover := ⟨rfl, rfl, rfl⟩
  place := ⟨rfl, rfl, by simp⟩
  sound := ⟨by simp, by simp⟩
  hdr := fun _ h => by cases h
  busy := fun h => by cases h
  rdy := fun h => by cases h
  sync := fun h => by cases h
  held := fun _ => ⟨rfl, rfl⟩
  cleared := fun h => by cases h

open TxIngress in
/-- In whatever order the edges of the two clocks come. -/
theorem framed_run {nb : NBuff} (x : Nat → Edge nb) (n : Nat) :
    ∃ moved k r, Framed ((circuit nb).run x n) (host x n) moved (captured x n) k r := by
  induction n with
  | zero => exact ⟨[], 0, 0, framed_reset nb⟩
  | succ n ih =>
      obtain ⟨moved, k, r, h⟩ := ih
      cases hx : x n with
      | bus i =>
          obtain ⟨moved', h'⟩ := h.busEdge i
          refine ⟨moved', k, r, ?_⟩
          simpa only [Circuit.run_succ, host, words_succ, captured, hx, circuit, TxIngress.next,
            TxIngress.hostWord] using h'
      | tx i =>
          obtain ⟨k', r', h'⟩ := h.txEdge i
          refine ⟨moved, k', r', ?_⟩
          simpa only [Circuit.run_succ, host, words_succ, captured, hx, circuit, TxIngress.next,
            TxIngress.hostWord, Option.toList_none, List.append_nil] using h'

end LimeSdrQpcie
