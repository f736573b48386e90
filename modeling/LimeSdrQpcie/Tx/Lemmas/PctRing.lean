import LimeSdrQpcie.Tx.Lemmas.Reader

/-!
# The ring of packet buffers

The invariant of `packets2data`: the buffers hold the packets from the one the reader is at on, each in its
turn, and the reader's header registers are those of the packets in the buffers.
-/

namespace LimeSdrQpcie

open Hdl

/-! ## Headers -/

section

variable {nb : NBuff} {s : P2dWrFsm nb} {w : BitVec 128} {l l' : WrLog} {f : Nat}

/-- The header registers `arr` on the reader's side, with the writer's port `valid`, `reg` to them. A
register that is not being written has the header `field` of the packet in its buffer. -/
structure HdrSound (field : TxPct → BitVec 64) (valid : Fin nb.n → Bool) (reg : BitVec 64)
    (arr : Fin nb.n → BitVec 64) (l : WrLog) (f : Nat) : Prop where
  port : ∀ b, valid b = true →
    b = Ring.slot nb.n l.stored.length ∧ ∃ p, l.inHand = some p ∧ p.data = [] ∧ reg = field p
  held : ∀ i p, f ≤ i → l.pcts[i]? = some p → valid (Ring.slot nb.n i) = false → arr (Ring.slot nb.n i) = field p

variable {field : TxPct → BitVec 64} {valid : Fin nb.n → Bool} {reg : BitVec 64} {arr : Fin nb.n → BitVec 64}

/-- What stands in the register after the clock edge is the header of the packet. -/
theorem HdrSound.seen (h : HdrSound field valid reg arr l f) (hw : l.pcts.length ≤ f + nb.n) {i : Nat}
    {p : TxPct} (hi : f ≤ i) (hp : l.pcts[i]? = some p) :
    (if valid (Ring.slot nb.n i) then reg else arr (Ring.slot nb.n i)) = field p := by
  split
  next hv =>
    obtain ⟨hs, q, hq, -, hreg⟩ := h.port _ hv
    have hlt := (List.getElem?_eq_some_iff.mp hp).1
    rw [WrLog.pcts_of_some hq] at hlt hw hp
    simp only [List.length_append, List.length_singleton] at hlt hw
    have hik : i = l.stored.length := Ring.slot_inj hs (by omega) (by omega)
    rw [hik, List.getElem?_concat_length] at hp
    rw [hreg, Option.some.inj hp]
  next hv => exact h.held i p hi hp (by simpa using hv)

/-- A packet in the record was there before with at most one word less, but for one whose header just came. -/
theorem WrLog.Step.pcts_getElem? (h : WrLog.Step s w l l') {i : Nat} {p : TxPct} (hp : l'.pcts[i]? = some p) :
    (s.hdrWord = true ∧ i = l.stored.length ∧ p = ⟨w, []⟩) ∨
      ∃ q, l.pcts[i]? = some q ∧ q.hdr = p.hdr ∧ p.data.length ≤ q.data.length + 1 := by
  cases h with
  | quiet hh hd => exact Or.inr ⟨p, hp, rfl, Nat.le_succ _⟩
  | hdr hh hd hn =>
      rw [WrLog.pcts_of_some rfl] at hp
      rcases Nat.lt_or_ge i l.stored.length with hlt | hge
      · rw [List.getElem?_append_left hlt] at hp
        exact Or.inr ⟨p, by rw [WrLog.pcts_of_none hn, hp], rfl, Nat.le_succ _⟩
      · have hi := (List.getElem?_eq_some_iff.mp hp).1
        simp only [List.length_append, List.length_singleton] at hi
        have hik : i = l.stored.length := by omega
        rw [hik, List.getElem?_concat_length] at hp
        exact Or.inl ⟨hh, hik, (Option.some.inj hp).symm⟩
  | data q hh hd hq =>
      rw [WrLog.pcts_of_some rfl] at hp
      rcases Nat.lt_or_ge i l.stored.length with hlt | hge
      · rw [List.getElem?_append_left hlt] at hp
        exact Or.inr ⟨p, by rw [WrLog.pcts_of_some hq, List.getElem?_append_left hlt, hp], rfl, Nat.le_succ _⟩
      · have hi := (List.getElem?_eq_some_iff.mp hp).1
        simp only [List.length_append, List.length_singleton] at hi
        have hik : i = l.stored.length := by omega
        rw [hik, List.getElem?_concat_length] at hp
        refine Or.inr ⟨q, by rw [WrLog.pcts_of_some hq, hik, List.getElem?_concat_length], ?_⟩
        rw [← Option.some.inj hp]
        exact ⟨rfl, by simp [TxPct.add]⟩
  | discard q hh hd hq he =>
      rw [WrLog.pcts_of_none rfl] at hp
      have hlt := (List.getElem?_eq_some_iff.mp hp).1
      exact Or.inr ⟨p, by rw [WrLog.pcts_of_some hq, List.getElem?_append_left hlt, hp], rfl, Nat.le_succ _⟩
  | store q hh hd hq hw =>
      rw [WrLog.pcts_of_none rfl] at hp
      exact Or.inr ⟨p, by rw [WrLog.pcts_of_some hq, hp], rfl, Nat.le_succ _⟩

theorem HdrSound.next {reg' : BitVec 64} {f' : Nat} (h : HdrSound field valid reg arr l f) (hst : WrLog.Step s w l l')
    (hw : l.pcts.length ≤ f + nb.n) (hf : f ≤ f') (hfield : ∀ p q : TxPct, p.hdr = q.hdr → field p = field q)
    (hcur : s.hdrWord = true → s.currentBuffCnt = Ring.slot nb.n l.stored.length ∧ reg' = field ⟨w, []⟩) :
    HdrSound field (if s.hdrWord then fun b => b == s.currentBuffCnt else fun _ => false) reg'
      (fun b => if valid b then reg else arr b) l' f' where
  port := by
    intro b hb
    cases hh : s.hdrWord with
    | false => simp [hh] at hb
    | true =>
        simp only [hh, if_true, beq_iff_eq] at hb
        cases hst with
        | hdr _ hd hn => exact ⟨hb.trans (hcur hh).1, _, rfl, rfl, (hcur hh).2⟩
        | quiet hh' => simp [hh] at hh'
        | data _ hh' => simp [hh] at hh'
        | discard _ hh' => simp [hh] at hh'
        | store _ hh' => simp [hh] at hh'
  held := by
    intro i p hi hp hv
    rcases hst.pcts_getElem? hp with ⟨hh, hik, -⟩ | ⟨q, hq, hqp, -⟩
    · rw [if_pos hh, hik, (hcur hh).1] at hv
      simp at hv
    · rw [h.seen hw (by omega) hq, hfield q p hqp]

end

/-! ## The invariant -/

namespace Packets2Data

variable {nb : NBuff} {s : Packets2Data nb} {i : Packets2DataIn nb} {l : TxLog}

/-- What is in a buffer, with the word on its write port. -/
def content (s : Packets2Data nb) (b : Fin nb.n) : List (BitVec 64) := (s.instx b).store ++ s.instxWr b

/-- What is in a buffer after the reader's part of a cycle. -/
def readContent (s : Packets2Data nb) (i : Packets2DataIn nb) (b : Fin nb.n) : List (BitVec 64) :=
  if s.inst3.pctBuffClrN b then (s.content b).drop (if s.inst3PctBuffRdreq i b then 1 else 0) else []

structure PctRing (s : Packets2Data nb) (l : TxLog) : Prop where
  phase : s.inst0.Phase
  wr : l.wr.Tracks s.inst0 l.fates.length
  whole : l.wr.Whole
  wrreq : ∀ b, s.inst0.pctDataWrreq b = true →
    b = Ring.slot nb.n l.wr.stored.length ∧ ∃ p, l.wr.inHand = some p
  done : l.fates.length ≤ l.wr.stored.length
  ring : Ring.Holds l.wr.payloads l.fates.length s.inst3.rdWords s.content
  rd : s.inst3.Tracks (fun b => (s.instx b).usedw) l.fates.length l.wr.stored.length
  rdy : s.inst3.RdySound s.pctBuffRdyInt fun b => (s.instx b).usedw
  size : s.halfPctSizeOnlyData = 510 ∨ 512 < s.halfPctSizeOnlyData
  sizeNext : s.pctSizeOnlyData = 1020 ∨ 1026 ≤ s.pctSizeOnlyData
  hdr0 : HdrSound TxPct.hdr0 s.inst0.pctHdr0Valid s.inst0.pctHdr0Reg s.inst3.pctHdr0Array l.wr l.fates.length
  hdr1 : HdrSound TxPct.hdr1 s.inst0.pctHdr1Valid s.inst0.pctHdr1Reg s.inst3.pctHdr1Array l.wr l.fates.length

namespace PctRing

theorem payloads_length (l : WrLog) : l.payloads.length = l.pcts.length := List.length_map _

theorem stored_getElem? {l : WrLog} {k : Nat} {p : TxPct} (h : l.stored[k]? = some p) : l.pcts[k]? = some p := by
  have hk := (List.getElem?_eq_some_iff.mp h).1
  rw [WrLog.pcts, List.getElem?_append_left hk, h]

theorem payload_getElem? {l : WrLog} {k : Nat} {p : TxPct} (h : l.pcts[k]? = some p) :
    l.payloads[k]? = some p.payload := by
  rw [WrLog.payloads, List.getElem?_map, h, Option.map_some]

/-- A packet is no longer than a buffer. -/
theorem data_length_le (h : PctRing s l) {p : TxPct} (hp : p ∈ l.wr.pcts) : p.data.length ≤ 255 := by
  rcases List.mem_append.mp hp with hp | hp
  · exact Nat.le_of_eq (h.whole p hp)
  · have := l.wr.length_le h.phase h.wr (Option.mem_toList.mp hp)
    omega

theorem content_length_le (h : PctRing s l) (b : Fin nb.n) : (s.content b).length ≤ 510 := by
  cases hc : s.content b with
  | nil => exact Nat.zero_le _
  | cons w ws =>
      obtain ⟨k, hfk, hk, rfl⟩ := h.ring.exists_of_ne_nil (b := b) (by simp [hc])
      rw [payloads_length] at hk
      have hget : l.wr.pcts[k]? = some l.wr.pcts[k] := List.getElem?_eq_getElem hk
      have hheld := h.ring.held k _ hfk (payload_getElem? hget)
      have hlen := h.data_length_le (List.getElem_mem hk)
      rw [← hc, hheld, List.length_drop, TxPct.payload_length]
      omega

theorem instxWr_eq_nil {b : Fin nb.n} (h : s.inst0.pctDataWrreq b = false) : s.instxWr b = [] := by
  simp [instxWr, h]

theorem content_length (s : Packets2Data nb) (b : Fin nb.n) :
    (s.content b).length = (s.instx b).usedw + (s.instxWr b).length := List.length_append

/-- A buffer with 510 words in it is not being written. -/
theorem content_of_full (h : PctRing s l) {b : Fin nb.n} (hb : (s.instx b).usedw = 510) :
    s.content b = (s.instx b).store := by
  have hlen := h.content_length_le b
  rw [content_length, hb] at hlen
  have hnil : s.instxWr b = [] := List.length_eq_zero_iff.mp (by omega)
  rw [content, hnil, List.append_nil]

/-- A buffer that holds 510 words holds a stored packet. -/
theorem stored_of_full (h : PctRing s l) (hb : (s.instx (Ring.slot nb.n l.fates.length)).usedw = 510) :
    l.fates.length < l.wr.stored.length := by
  have hcont := h.content_of_full hb
  have hne : s.content (Ring.slot nb.n l.fates.length) ≠ [] := by
    intro he
    rw [hcont] at he
    simp [Fifo.usedw, he] at hb
  have hlt := h.ring.oldest_of_ne_nil hne
  rw [payloads_length] at hlt
  rcases Nat.lt_or_eq_of_le h.done with hd | hd
  · exact hd
  · cases hin : l.wr.inHand with
    | none => rw [WrLog.pcts_of_none hin] at hlt; exact hlt
    | some p =>
        have hget : l.wr.pcts[l.fates.length]? = some p := by
          rw [WrLog.pcts_of_some hin, hd, List.getElem?_concat_length]
        have hheld := h.ring.held _ _ (Nat.le_refl _) (payload_getElem? hget)
        have hlen := congrArg List.length hheld
        rw [content_length, hb, List.length_drop, TxPct.payload_length] at hlen
        rcases l.wr.length_le h.phase h.wr hin with hp | ⟨-, hw⟩
        · omega
        · have hle := h.content_length_le (Ring.slot nb.n l.fates.length)
          rw [content_length, hb, instxWr, hd, hw] at hle
          simp [halves] at hle

/-- The buffer of a stored packet is not being written. -/
theorem instxWr_of_stored (h : PctRing s l) {k : Nat} (hf : l.fates.length ≤ k) (hk : k < l.wr.stored.length) :
    s.instxWr (Ring.slot nb.n k) = [] := by
  refine instxWr_eq_nil (Bool.eq_false_iff.mpr fun hw => ?_)
  obtain ⟨hslot, p, hp⟩ := h.wrreq _ hw
  have hwin := h.ring.window
  rw [payloads_length, WrLog.pcts_of_some hp, List.length_append, List.length_singleton] at hwin
  have := Ring.slot_inj hslot (by omega) (by omega)
  omega

/-- The buffer of a stored packet holds it, without the words that have been read. -/
theorem store_of_stored (h : PctRing s l) {k : Nat} {p : TxPct} (hf : l.fates.length ≤ k)
    (hp : l.wr.stored[k]? = some p) :
    (s.instx (Ring.slot nb.n k)).store = p.payload.drop (if k = l.fates.length then s.inst3.rdWords else 0) := by
  have hk := (List.getElem?_eq_some_iff.mp hp).1
  have hheld := h.ring.held k _ hf (payload_getElem? (stored_getElem? hp))
  rwa [content, h.instxWr_of_stored hf hk, List.append_nil] at hheld

theorem payload_length_of_stored (h : PctRing s l) {k : Nat} {p : TxPct} (hp : l.wr.stored[k]? = some p) :
    p.payload.length = 510 := by
  rw [TxPct.payload_length, h.whole p (List.mem_of_getElem? hp)]

/-! ## The reader's part of a cycle -/

/-- The packet the reader is reading. -/
theorem reading (h : PctRing s l) (hs : s.inst3.currentState = .rdBuff ∨ s.inst3.currentState = .rdHold) :
    s.inst3.crntBuffCnt = Ring.slot nb.n l.fates.length ∧ s.inst3.rdCnt < 510 ∧
      ∃ p, l.wr.stored[l.fates.length]? = some p ∧
        (s.instx s.inst3.crntBuffCnt).store = p.payload.drop s.inst3.rdCnt := by
  have hrd := h.rd
  have hw : s.inst3.rdWords = s.inst3.rdCnt := by rcases hs with hs | hs <;> simp [P2dRd.rdWords, hs]
  obtain ⟨hc, hlt, hcnt⟩ : s.inst3.crntBuffCnt = Ring.slot nb.n l.fates.length ∧
      l.fates.length < l.wr.stored.length ∧ s.inst3.rdCnt < 510 := by
    unfold P2dRd.Tracks at hrd
    rcases hs with hs | hs <;> simpa only [hs] using hrd
  have hget : l.wr.stored[l.fates.length]? = some l.wr.stored[l.fates.length] := List.getElem?_eq_getElem hlt
  refine ⟨hc, hcnt, _, hget, ?_⟩
  rw [hc, h.store_of_stored (Nat.le_refl _) hget, if_pos rfl, hw]

theorem rdreq_spec {b : Fin nb.n} (hb : s.inst3PctBuffRdreq i b = true) :
    s.inst3.currentState = .rdBuff ∧ i.smplBuffAlmostFull = false ∧ b = s.inst3.crntBuffCnt := by
  simp only [inst3PctBuffRdreq, P2dRd.pctBuffRdreq, Bool.and_eq_true, beq_iff_eq] at hb
  obtain ⟨h1, h2⟩ := P2dRd.rdReqInt_eq_true.mp hb.2
  exact ⟨h1, h2, hb.1⟩

/-- No empty buffer is read. -/
theorem store_ne_nil (h : PctRing s l) {b : Fin nb.n} (hb : s.inst3PctBuffRdreq i b = true) :
    (s.instx b).store ≠ [] := by
  obtain ⟨hs, -, rfl⟩ := rdreq_spec hb
  obtain ⟨-, hcnt, p, hp, hst⟩ := h.reading (Or.inl hs)
  have hlen := h.payload_length_of_stored hp
  rw [hst]
  intro he
  have := List.drop_eq_nil_iff.mp he
  omega

theorem readContent_of_quiet (hr : s.inst3.rdReqInt i.smplBuffAlmostFull = false)
    (hc : s.inst3.currentState ≠ .clrBuff) : s.readContent i = s.content := by
  funext b
  simp [readContent, inst3PctBuffRdreq, P2dRd.pctBuffRdreq, P2dRd.pctBuffClrN, hr, hc]

theorem ring_read (h : PctRing s l) :
    Ring.Holds l.wr.payloads (s.inst3.doneNext (s.inst3In i) l.fates.length)
      (s.inst3.next (s.inst3In i)).rdWords (s.readContent i) := by
  have hring := h.ring
  have hother : s.inst3.crntBuffCnt = Ring.slot nb.n l.fates.length →
      ∀ b, b ≠ Ring.slot nb.n l.fates.length → s.readContent i b = s.content b := by
    intro hc b hb
    simp [readContent, P2dRd.pctBuffClrN, inst3PctBuffRdreq, P2dRd.pctBuffRdreq, hc, hb]
  have hread : s.inst3.rdReqInt i.smplBuffAlmostFull = true →
      s.inst3.crntBuffCnt = Ring.slot nb.n l.fates.length →
      s.readContent i (Ring.slot nb.n l.fates.length) = (s.content (Ring.slot nb.n l.fates.length)).drop 1 := by
    intro hr hc
    have hs := (P2dRd.rdReqInt_eq_true.mp hr).1
    simp [readContent, P2dRd.pctBuffClrN, inst3PctBuffRdreq, P2dRd.pctBuffRdreq, hr, hs, hc]
  have hlen : l.fates.length < l.wr.stored.length → l.fates.length < l.wr.payloads.length := by
    intro hlt
    rw [payloads_length, WrLog.pcts, List.length_append]
    omega
  cases P2dRd.step_next (i := s.inst3In i) h.rd with
  | quiet hr hc hn hw =>
      rw [readContent_of_quiet hr hc, hw, P2dRd.doneNext, if_neg hn]
      exact hring
  | read hr hs hn hw =>
      obtain ⟨hc, -, p, hp, -⟩ := h.reading (Or.inl hs)
      rw [hw, P2dRd.doneNext, if_neg hn]
      exact hring.read (hlen (List.getElem?_eq_some_iff.mp hp).1) (hread hr hc) (hother hc)
  | last hr hs hn hcnt hw =>
      obtain ⟨hc, -, p, hp, -⟩ := h.reading (Or.inl hs)
      have hlt := (List.getElem?_eq_some_iff.mp hp).1
      rw [hw, P2dRd.doneNext, if_pos hn]
      refine hring.release (hlen hlt) ?_ (hother hc)
      rw [hread hr hc, content, h.instxWr_of_stored (Nat.le_refl _) hlt, List.append_nil,
        h.store_of_stored (Nat.le_refl _) hp, if_pos rfl, List.drop_drop, List.drop_eq_nil_iff,
        h.payload_length_of_stored hp, hcnt]
  | clear hs hn _ hw =>
      obtain ⟨hc, hlt⟩ : s.inst3.crntBuffCnt = Ring.slot nb.n l.fates.length ∧
          l.fates.length < l.wr.stored.length := by simpa only [P2dRd.Tracks, hs] using h.rd
      rw [hw, P2dRd.doneNext, if_pos hn]
      refine hring.release (hlen hlt) ?_ (hother hc)
      simp [readContent, P2dRd.pctBuffClrN, hs, hc]

/-! ## The writer's part of a cycle -/

theorem ring_write {s : P2dWrFsm nb} {w : BitVec 128} {l l' : WrLog} {f rd : Nat}
    {c : Fin nb.n → List (BitVec 64)} (h : Ring.Holds l.payloads f rd c) (hst : WrLog.Step s w l l')
    (hf : f ≤ l.stored.length) (hrd : l.stored.length ≤ f → rd = 0)
    (hh : s.hdrWord = true → l.stored.length < f + nb.n)
    (hd : s.dataWord = true → s.currentBuffCnt = Ring.slot nb.n l.stored.length) :
    Ring.Holds l'.payloads f rd
      fun b => c b ++ if s.dataWord && b == s.currentBuffCnt then halves w else [] := by
  cases hst with
  | quiet _ hd' => simpa [hd'] using h
  | hdr hh' hd' hn =>
      have hps : WrLog.payloads ⟨l.stored, some ⟨w, []⟩⟩ = l.payloads ++ [[]] := by
        simp [WrLog.payloads, WrLog.pcts, hn, TxPct.payload]
      have hlen : l.payloads.length = l.stored.length := by rw [payloads_length, WrLog.pcts_of_none hn]
      have hbegin := h.begin (by rw [hlen]; exact hh hh')
      rw [hps]
      simpa [hd'] using hbegin
  | data p _ hd' hp =>
      have hlen : (l.stored.map TxPct.payload).length = l.stored.length := List.length_map _
      have hps : l.payloads = l.stored.map TxPct.payload ++ [p.payload] := by
        simp [WrLog.payloads, WrLog.pcts, hp]
      have hps' : WrLog.payloads ⟨l.stored, some (p.add w)⟩ =
          l.stored.map TxPct.payload ++ [p.payload ++ halves w] := by
        simp [WrLog.payloads, WrLog.pcts, TxPct.payload_add]
      rw [hps] at h
      rw [hps']
      refine h.append (by omega) (fun he => hrd (by omega)) ?_ fun b hb => ?_
      · simp [hd', hd hd']
      · rw [hlen] at hb
        simp [hd', hd hd', hb]
  | discard p _ hd' hp he =>
      have hps : l.payloads = WrLog.payloads ⟨l.stored, none⟩ ++ [[]] := by
        simp [WrLog.payloads, WrLog.pcts, hp, TxPct.payload, he]
      rw [hps] at h
      have hgive := h.giveUp (by rw [payloads_length, WrLog.pcts_of_none rfl]; exact hf)
      simpa [hd'] using hgive
  | store p _ hd' hp _ =>
      have hps : WrLog.payloads ⟨l.stored ++ [p], none⟩ = l.payloads := by
        simp [WrLog.payloads, WrLog.pcts, hp]
      rw [hps]
      simpa [hd'] using h

/-- What is in a buffer after a clock edge. -/
theorem content_next (h : PctRing s l) (pctSize : Nat) (b : Fin nb.n) :
    (s.next pctSize i).content b = s.readContent i b ++
      if s.inst0.dataWord && b == s.inst0.currentBuffCnt then halves i.inPctData else [] := by
  have hlen := h.content_length_le b
  rw [content_length] at hlen
  have hacc : (s.instx b).acceptedWide (s.instxWr b) = s.instxWr b := by
    rw [Fifo.acceptedWide, if_pos (by omega)]
  have hwr : (s.next pctSize i).instxWr b =
      if s.inst0.dataWord && b == s.inst0.currentBuffCnt then halves i.inPctData else [] := by
    cases hd : s.inst0.dataWord <;> simp [instxWr, next, P2dWrFsm.next, inst0In, hd]
  rw [content, hwr]
  congr 1
  cases hc : s.inst3.pctBuffClrN b with
  | false => simp [readContent, next, hc]
  | true =>
      cases hr : s.inst3PctBuffRdreq i b with
      | false => simp [readContent, next, content, hc, hr, hacc]
      | true =>
          obtain ⟨v, vs, hv⟩ := List.exists_cons_of_ne_nil (h.store_ne_nil hr)
          simp [readContent, next, content, hc, hr, hacc, hv]

/-- A whole packet stays in its buffer until the reader reads or clears it. -/
theorem usedw_next (h : PctRing s l) (pctSize : Nat) {b : Fin nb.n} (hb : (s.instx b).usedw = 510)
    (hc : s.inst3.pctBuffClrN b = true) (hr : s.inst3PctBuffRdreq i b = false) :
    ((s.next pctSize i).instx b).usedw = 510 := by
  have hnil : s.instxWr b = [] := by
    have hcont := congrArg List.length (h.content_of_full hb)
    rw [content_length] at hcont
    exact List.length_eq_zero_iff.mp (by change _ = (s.instx b).usedw at hcont; omega)
  have hacc : (s.instx b).acceptedWide [] = [] := by simp [Fifo.acceptedWide]
  simpa [next, hc, hr, hnil, hacc, Fifo.usedw] using hb

theorem rdySound_next (h : PctRing s l) (pctSize : Nat) :
    (s.next pctSize i).inst3.RdySound (s.next pctSize i).pctBuffRdyInt
      fun b => ((s.next pctSize i).instx b).usedw := by
  intro b hb
  have hle := (s.instx b).usedw_le
  have hcont := h.content_length_le b
  rw [content_length] at hcont
  have hhalf : s.instxRdusedw i b = s.halfPctSizeOnlyData := by simpa [next] using hb
  unfold instxRdusedw at hhalf
  cases hc : s.inst3.pctBuffClrN b with
  | false =>
      rcases h.size with hz | hz
      · simp [hc, hz] at hhalf
      · simp only [hc] at hhalf
        simp at hhalf
        omega
  | true =>
      rw [if_pos hc] at hhalf
      have hfull : (s.instx b).usedw = 510 := by rcases h.size with hz | hz <;> omega
      cases hr : s.inst3PctBuffRdreq i b with
      | false => exact Or.inl (h.usedw_next pctSize hfull hc hr)
      | true =>
          obtain ⟨hs, ha, hcur⟩ := rdreq_spec hr
          refine Or.inr ⟨by simp [next, P2dRd.next, hs, hcur], ?_⟩
          simp only [P2dRd.Waits, next, P2dRd.next, P2dRd.nextState, inst3In, hs, ha, if_true]
          split <;> simp

/-- When the writer is shown that the buffer next in turn is empty, the reader is done with it. -/
theorem room_of_wrempty (h : PctRing s l) (he : s.instxWrempty i (Ring.slot nb.n l.wr.pcts.length) = true) :
    l.wr.pcts.length < s.inst3.doneNext (s.inst3In i) l.fates.length + nb.n := by
  have hwin := h.ring.window
  rw [payloads_length] at hwin
  have hle : l.fates.length ≤ s.inst3.doneNext (s.inst3In i) l.fates.length := P2dRd.le_doneNext
  simp only [instxWrempty, Bool.and_eq_true, Bool.or_eq_true, beq_iff_eq, Bool.not_eq_true'] at he
  rcases he.1 with he | he
  · have hnil : s.content (Ring.slot nb.n l.wr.payloads.length) = [] := by
      have hwr : s.inst0.pctDataWrreq (Ring.slot nb.n l.wr.pcts.length) = false := by
        refine Bool.eq_false_iff.mpr fun hw => ?_
        obtain ⟨hslot, p, hp⟩ := h.wrreq _ hw
        rw [WrLog.pcts_of_some hp, List.length_append, List.length_singleton] at hslot
        exact Ring.slot_ne_succ nb.one_lt_n _ hslot
      rw [payloads_length, content, instxWr_eq_nil hwr, List.append_nil]
      exact List.length_eq_zero_iff.mp he
    have hroom := h.ring.room_of_nil hnil nb.one_lt_n ?_
    · rw [payloads_length] at hroom
      omega
    · intro hlt q hq
      rw [payloads_length] at hlt
      have hk : l.fates.length < l.wr.stored.length := by
        rw [WrLog.pcts, List.length_append] at hlt
        have : l.wr.inHand.toList.length ≤ 1 := by cases l.wr.inHand <;> simp
        omega
      have hget : l.wr.stored[l.fates.length]? = some l.wr.stored[l.fates.length] := List.getElem?_eq_getElem hk
      rw [payload_getElem? (stored_getElem? hget)] at hq
      rw [← Option.some.inj hq, h.payload_length_of_stored hget]
      exact P2dRd.rdWords_lt h.rd
  · have hs : s.inst3.currentState = .clrBuff := by
      by_contra hne
      simp [P2dRd.pctBuffClrN, hne] at he
    have hst : s.inst3.nextState (s.inst3In i) = .switchNextBuff := by simp [P2dRd.nextState, hs]
    rw [P2dRd.doneNext, if_pos hst]
    omega

/-! ## Runs -/

theorem reset : PctRing (Packets2Data.reset : Packets2Data nb) TxLog.empty where
  phase := ⟨⟨rfl, rfl⟩, rfl⟩
  wr := ⟨⟨rfl, NBuff.zero_eq_slot⟩, NBuff.zero_eq_slot, by simpa [TxLog.empty, WrLog.empty] using nb.n_pos⟩
  whole := fun p hp => by simp [TxLog.empty, WrLog.empty] at hp
  wrreq := fun b hb => by simp [Packets2Data.reset, P2dWrFsm.reset] at hb
  done := Nat.le_refl _
  ring := Ring.Holds.empty
  rd := ⟨NBuff.zero_eq_slot, fun h => by simp [Packets2Data.reset, P2dRd.reset] at h⟩
  rdy := fun b hb => by simp [Packets2Data.reset] at hb
  size := Or.inr (by simp [Packets2Data.reset])
  sizeNext := Or.inr (by simp [Packets2Data.reset])
  hdr0 := ⟨fun b hb => by simp [Packets2Data.reset, P2dWrFsm.reset] at hb,
    fun k p _ hp => by simp [TxLog.empty, WrLog.empty, WrLog.pcts] at hp⟩
  hdr1 := ⟨fun b hb => by simp [Packets2Data.reset, P2dWrFsm.reset] at hb,
    fun k p _ hp => by simp [TxLog.empty, WrLog.empty, WrLog.pcts] at hp⟩

theorem step (h : PctRing s l) : PctRing (s.next 0x400 i) (l.next s i) := by
  have hst : WrLog.Step s.inst0 i.inPctData l.wr (l.next s i).wr :=
    WrLog.step_next (i := s.inst0In i) h.phase h.wr
  have hf : (l.next s i).fates.length = s.inst3.doneNext (s.inst3In i) l.fates.length :=
    P2dRd.fatesNext_length _ _ _
  have hle : l.fates.length ≤ s.inst3.doneNext (s.inst3In i) l.fates.length := P2dRd.le_doneNext
  have hdone : s.inst3.doneNext (s.inst3In i) l.fates.length ≤ l.wr.stored.length :=
    P2dRd.doneNext_le h.rd h.done
  have hwin : l.wr.pcts.length ≤ l.fates.length + nb.n := by
    rw [← payloads_length]
    exact h.ring.window
  have hrd : P2dRd.Tracks (s.inst3.next (s.inst3In i)) (fun b => ((s.next 0x400 i).instx b).usedw)
      (s.inst3.doneNext (s.inst3In i) l.fates.length) l.wr.stored.length :=
    P2dRd.tracks_next h.rd h.rdy (fun hb => h.stored_of_full hb) (Nat.le_refl _) (fun hw hb => by
      rcases hw with hw | hw
      · exact h.usedw_next _ hb (by simp [P2dRd.pctBuffClrN, hw])
          (by simp [inst3PctBuffRdreq, P2dRd.pctBuffRdreq, P2dRd.rdReqInt, hw])
      · exact h.usedw_next _ hb (by simp [P2dRd.pctBuffClrN, hw])
          (by simp [inst3PctBuffRdreq, P2dRd.pctBuffRdreq, P2dRd.rdReqInt, hw]))
  have hh : s.inst0.hdrWord = true → s.inst0.currentBuffCnt = Ring.slot nb.n l.wr.stored.length ∧
      l.wr.stored.length < l.fates.length + nb.n := fun h1 =>
    ⟨(WrLog.hdrWord_spec h.phase h.wr h1).1, (WrLog.hdrWord_spec h.phase h.wr h1).2.1⟩
  have hd : s.inst0.dataWord = true → s.inst0.currentBuffCnt = Ring.slot nb.n l.wr.stored.length :=
    fun h1 => (WrLog.dataWord_spec h.phase h.wr h1).1
  refine ⟨P2dWrFsm.phase_next h.phase, ?_, hst.whole h.whole, ?_, ?_, ?_, ?_, h.rdySound_next _, ?_, ?_, ?_, ?_⟩
  · rw [hf]
    exact WrLog.tracks_next h.phase h.wr hle h.room_of_wrempty
  · intro b hb
    cases hdw : s.inst0.dataWord with
    | false => simp [next, P2dWrFsm.next, hdw] at hb
    | true =>
        have hbc : b = s.inst0.currentBuffCnt := by simpa [next, P2dWrFsm.next, hdw] using hb
        obtain ⟨hstored, hin⟩ := hst.of_dataWord hdw
        exact ⟨by rw [hstored, hbc, hd hdw], hin⟩
  · rw [hf]
    exact Nat.le_trans hdone hst.length_le
  · rw [hf, show (s.next 0x400 i).content = _ from funext fun b => h.content_next 0x400 b]
    exact ring_write h.ring_read hst hdone (fun hk => P2dRd.rdWords_eq_zero hrd hk)
      (fun h1 => by have := (hh h1).2; omega) hd
  · rw [hf]
    exact hrd.mono hst.length_le
  · rcases h.sizeNext with hz | hz
    · exact Or.inl (by simp [next, hz])
    · exact Or.inr (by simp [next]; omega)
  · exact Or.inl (by simp [next])
  · rw [hf]
    exact h.hdr0.next hst hwin hle (fun p q he => by rw [TxPct.hdr0, TxPct.hdr0, he]) fun h1 =>
      ⟨(hh h1).1, by simp [next, P2dWrFsm.next, h1, inst0In, TxPct.hdr0]⟩
  · rw [hf]
    exact h.hdr1.next hst hwin hle (fun p q he => by rw [TxPct.hdr1, TxPct.hdr1, he]) fun h1 =>
      ⟨(hh h1).1, by simp [next, P2dWrFsm.next, h1, inst0In, TxPct.hdr1]⟩

end PctRing

end Packets2Data

end LimeSdrQpcie
