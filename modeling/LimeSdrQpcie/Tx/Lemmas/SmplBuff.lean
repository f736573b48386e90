import LimeSdrQpcie.Tx.Lemmas.PctRing

/-!
# The emitted words

A word that the reader requests is on `smpl_buff_q` two cycles later. The words it has requested are those
of the packets it has emitted and the first ones of the packet it is reading.
-/

namespace LimeSdrQpcie

open Hdl

namespace TxLog

theorem zip_append_of_le {α β : Type} {as cs : List α} {bs : List β} (h : bs.length ≤ as.length) :
    (as ++ cs).zip bs = as.zip bs := by
  rw [List.zip_eq_zip_take_min, @List.zip_eq_zip_take_min _ _ as, List.length_append,
    Nat.min_eq_right (by omega), Nat.min_eq_right h, List.take_append_of_le_length h]

/-- A fate is that of the packet at its place. -/
theorem zip_append_fate {as : List TxPct} {bs : List Fate} {p : TxPct} (h : as[bs.length]? = some p) (x : Fate) :
    as.zip (bs ++ [x]) = as.zip bs ++ [(p, x)] := by
  obtain ⟨hlt, hp⟩ := List.getElem?_eq_some_iff.mp h
  have hsplit : as = as.take bs.length ++ (p :: as.drop (bs.length + 1)) := by
    rw [← hp, List.getElem_cons_drop hlt, List.take_append_drop]
  have hlen : (as.take bs.length).length = bs.length := List.length_take_of_le (by omega)
  conv_lhs => rw [hsplit, List.zip_append hlen]
  conv_rhs => rw [hsplit, zip_append_of_le (by omega)]
  rw [List.zip_cons_cons, List.zip_nil_right]

theorem emitted_append (stored ps : List TxPct) (inHand inHand' : Option TxPct) (fates : List Fate)
    (h : fates.length ≤ stored.length) :
    emitted ⟨⟨stored ++ ps, inHand'⟩, fates⟩ = emitted ⟨⟨stored, inHand⟩, fates⟩ := by
  simp only [emitted, zip_append_of_le h]

theorem emitted_of_emitted {wr : WrLog} {fates : List Fate} {p : TxPct} (h : wr.stored[fates.length]? = some p) :
    emitted ⟨wr, fates ++ [.emitted]⟩ = emitted ⟨wr, fates⟩ ++ [p] := by
  rw [emitted, zip_append_fate h, List.filter_append, List.map_append]
  rfl

theorem emitted_of_dropped {wr : WrLog} {fates : List Fate} {p : TxPct} (h : wr.stored[fates.length]? = some p) :
    emitted ⟨wr, fates ++ [.dropped]⟩ = emitted ⟨wr, fates⟩ := by
  rw [emitted, zip_append_fate h, List.filter_append, List.map_append]
  exact List.append_nil _

theorem mem_stored_of_emitted {l : TxLog} {p : TxPct} (h : p ∈ l.emitted) : p ∈ l.wr.stored := by
  obtain ⟨pf, hpf, rfl⟩ := List.mem_map.mp h
  exact (List.of_mem_zip (List.mem_filter.mp hpf).1).1

end TxLog

theorem WrLog.Step.stored_append {nb : NBuff} {s : P2dWrFsm nb} {w : BitVec 128} {l l' : WrLog}
    (h : WrLog.Step s w l l') : ∃ ps, l'.stored = l.stored ++ ps := by
  cases h with
  | store p => exact ⟨[p], rfl⟩
  | _ => exact ⟨[], (List.append_nil _).symm⟩

namespace Packets2Data

variable {nb : NBuff} {s : Packets2Data nb} {i : Packets2DataIn nb} {l : TxLog}

/-- The word that the reader takes from its buffer. -/
def readWord (s : Packets2Data nb) (i : Packets2DataIn nb) : Option (BitVec 64) :=
  if s.inst3.rdReqInt i.smplBuffAlmostFull then (s.instx s.inst3.crntBuffCnt).store.head? else none

/-- What has been read: the emitted packets and the first words of the packet that is being read. -/
def readWords (s : Packets2Data nb) (l : TxLog) : List (BitVec 64) :=
  l.emitted.flatMap TxPct.payload ++
    (l.wr.stored[l.fates.length]?.elim [] TxPct.payload).take s.inst3.rdWords

/-- The word taken is the next one of the packet that is being read. -/
theorem PctRing.readWord_of_reading (h : PctRing s l) (hr : s.inst3.rdReqInt i.smplBuffAlmostFull = true) :
    ∃ p, l.wr.stored[l.fates.length]? = some p ∧ s.readWord i = p.payload[s.inst3.rdWords]? := by
  have hs := (P2dRd.rdReqInt_eq_true.mp hr).1
  obtain ⟨-, -, p, hp, hst⟩ := h.reading (Or.inl hs)
  have hw : s.inst3.rdWords = s.inst3.rdCnt := by simp [P2dRd.rdWords, hs]
  exact ⟨p, hp, by rw [readWord, if_pos hr, hst, List.head?_drop, hw]⟩

theorem readWords_next (h : PctRing s l) :
    (s.next 0x400 i).readWords (l.next s i) = s.readWords l ++ (s.readWord i).toList := by
  obtain ⟨ps, hps⟩ := (WrLog.step_next (i := s.inst0In i) h.phase h.wr).stored_append
  have hdone : (l.next s i).fates.length ≤ l.wr.stored.length := by
    rw [TxLog.next, P2dRd.fatesNext_length]
    exact P2dRd.doneNext_le h.rd h.done
  have hem : (l.next s i).emitted = TxLog.emitted ⟨l.wr, (l.next s i).fates⟩ := by
    have he := TxLog.emitted_append l.wr.stored ps l.wr.inHand (l.next s i).wr.inHand _ hdone
    rw [← hps] at he
    exact he
  have hstored : (l.next s i).wr.stored = l.wr.stored ++ ps := hps
  have hns : (s.next 0x400 i).inst3 = s.inst3.next (s.inst3In i) := rfl
  have hfates : (l.next s i).fates = fatesNext s.inst3 (s.inst3In i) l.fates := rfl
  rw [readWords, readWords, hem, hns, hstored]
  cases P2dRd.step_next (i := s.inst3In i) h.rd with
  | quiet hr hc hn hw =>
      rw [fatesNext, if_neg hn] at hfates
      have hnone : s.readWord i = none := if_neg (by simpa [inst3In] using hr)
      rw [hfates, hw, hnone, Option.toList_none, List.append_nil]
      congr 1
      rcases Nat.lt_or_ge l.fates.length l.wr.stored.length with hlt | hge
      · rw [List.getElem?_append_left hlt]
      · rw [P2dRd.rdWords_eq_zero h.rd hge, List.take_zero, List.take_zero]
  | read hr hs hn hw =>
      obtain ⟨p, hp, hword⟩ := h.readWord_of_reading (i := i) hr
      rw [fatesNext, if_neg hn] at hfates
      have hlt := (List.getElem?_eq_some_iff.mp hp).1
      rw [hfates, hw, hword, List.getElem?_append_left hlt, hp, Option.elim_some, List.take_add_one,
        ← List.append_assoc]
  | last hr hs hn hcnt hw =>
      obtain ⟨p, hp, hword⟩ := h.readWord_of_reading (i := i) hr
      rw [fatesNext, if_pos hn, if_neg (by simp [hs])] at hfates
      have hlen := h.payload_length_of_stored hp
      have hall : p.payload = p.payload.take 509 ++ p.payload[509]?.toList := by
        rw [← List.take_add_one, List.take_of_length_le (by omega)]
      rw [hfates, TxLog.emitted_of_emitted hp, hw, List.take_zero, hp, hword, hcnt, Option.elim_some,
        List.flatMap_append, List.flatMap_singleton, List.append_nil, List.append_assoc, ← hall]
  | clear hs hn h0 hw =>
      have hlt : l.fates.length < l.wr.stored.length := by
        have hrd := h.rd
        simp only [P2dRd.Tracks, hs] at hrd
        exact hrd.2
      have hnone : s.readWord i = none := by simp [readWord, P2dRd.rdReqInt, hs]
      rw [fatesNext, if_pos hn, if_pos hs] at hfates
      rw [hfates, TxLog.emitted_of_dropped (List.getElem?_eq_getElem hlt), hw, h0, hnone, List.take_zero,
        List.take_zero, Option.toList_none, List.append_nil, List.append_nil]

/-- The emitted packets are whole. -/
theorem PctRing.emitted_length (h : PctRing s l) :
    (l.emitted.flatMap TxPct.payload).length = 510 * l.emitted.length := by
  have hmap : l.emitted.map (fun p => p.payload.length) = l.emitted.map fun _ => 510 := by
    refine List.map_congr_left fun p hp => ?_
    rw [TxPct.payload_length, h.whole p (TxLog.mem_stored_of_emitted hp)]
  rw [List.length_flatMap, hmap, List.map_const', List.sum_replicate_nat, Nat.mul_comm]

/-! ## Runs -/

variable {x : Nat → Packets2DataIn nb}

theorem pctRing_run (x : Nat → Packets2DataIn nb) (n : Nat) :
    PctRing ((circuit nb 0x400).run x n) (log x n) := by
  induction n with
  | zero => exact PctRing.reset
  | succ n ih => exact ih.step

theorem words_readWord (x : Nat → Packets2DataIn nb) (n : Nat) :
    words (fun m => ((circuit nb 0x400).run x m).readWord (x m)) n =
      ((circuit nb 0x400).run x n).readWords (log x n) := by
  induction n with
  | zero => rfl
  | succ n ih => rw [words_succ, ih, ← readWords_next (pctRing_run x n)]; rfl

/-- The word that is taken is on the port two cycles later. -/
theorem smplBuff_word (x : Nat → Packets2DataIn nb) (n : Nat) :
    ((circuit nb 0x400).run x (n + 2)).smplBuff.word =
      ((circuit nb 0x400).run x n).readWord (x n) := by
  have h := pctRing_run x n
  generalize hs : (circuit nb 0x400).run x n = s at h ⊢
  have hrun : (circuit nb 0x400).run x (n + 2) = (s.next 0x400 (x n)).next 0x400 (x (n + 1)) := by
    rw [← hs]
    rfl
  rw [hrun]
  cases hr : s.inst3.rdReqInt (x n).smplBuffAlmostFull with
  | false =>
      have hnone : s.readWord (x n) = none := if_neg (by simp [hr])
      rw [hnone, Port.word_eq_none]
      simp [smplBuff, next, inst3PctBuffRdreq, P2dRd.pctBuffRdreq, hr]
  | true =>
      obtain ⟨hst, ha⟩ := P2dRd.rdReqInt_eq_true.mp hr
      have hb : s.inst3PctBuffRdreq (x n) s.inst3.crntBuffCnt = true := by
        simp [inst3PctBuffRdreq, P2dRd.pctBuffRdreq, hr]
      obtain ⟨v, vs, hv⟩ := List.exists_cons_of_ne_nil (h.store_ne_nil hb)
      have hword : s.readWord (x n) = some v := by rw [readWord, if_pos hr, hv]; rfl
      rw [hword, Port.word_eq_some]
      have hany : (List.finRange nb.n).any (s.inst3PctBuffRdreq (x n)) = true :=
        List.any_eq_true.mpr ⟨_, List.mem_finRange _, hb⟩
      have hsel : (s.next 0x400 (x n)).inst3.pctBuffSel = s.inst3.crntBuffCnt := by
        simp [next, P2dRd.next, P2dRd.pctBuffSel, hst]
      have hq : (s.next 0x400 (x n)).instxQ s.inst3.crntBuffCnt = v := by simp [next, hb, hv]
      constructor
      · simp [smplBuff, next, hany]
      · change (s.next 0x400 (x n)).instxQ (s.next 0x400 (x n)).inst3.pctBuffSel = v
        rw [hsel, hq]

theorem words_smplBuff (x : Nat → Packets2DataIn nb) (n : Nat) :
    words (fun m => ((circuit nb 0x400).run x m).smplBuff.word) (n + 2) =
      ((circuit nb 0x400).run x n).readWords (log x n) := by
  have hdelay : (fun m => ((circuit nb 0x400).run x m).smplBuff.word) =
      delay 2 fun m => ((circuit nb 0x400).run x m).readWord (x m) := by
    funext m
    match m with
    | 0 | 1 => rfl
    | m + 2 => rw [delay_add, smplBuff_word]
  rw [hdelay, words_delay_add, words_readWord]

end Packets2Data

end LimeSdrQpcie
