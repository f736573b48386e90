import LimeSdrQpcie.Pcie.Lemmas.TwoFifoInst
import LimeSdrQpcie.Tx.Ingress
import LimeSdrQpcie.Tx.Lemmas.P2dWrFsm
import Mathlib.Data.List.Infix

/-!
# The second FIFO holds one packet

The transfer fills the second FIFO with one packet and waits until it is empty again. The writer begins to read
only when a whole packet is there, so that it is the rest of this packet that a discard clears.
-/

namespace LimeSdrQpcie

open Hdl

/-! ## Words of 128 bits -/

theorem quads_drop (ws : List (BitVec 32)) (i : Nat) : quads (ws.drop (4 * i)) = (quads ws).drop i := by
  induction i generalizing ws with
  | zero => rfl
  | succ i ih =>
      match ws with
      | [] | [_] | [_, _] | [_, _, _] => simp [quads, Nat.mul_succ]
      | a :: b :: c :: d :: ws =>
          rw [quads, List.drop_succ_cons, ← ih]
          rfl

theorem quads_length : ∀ ws : List (BitVec 32), (quads ws).length = ws.length / 4
  | [] | [_] | [_, _] | [_, _, _] => by simp [quads]
  | _ :: _ :: _ :: _ :: ws => by
      rw [quads, List.length_cons, quads_length ws]
      simp only [List.length_cons]
      omega

theorem quads_mono : ∀ {vs ws : List (BitVec 32)}, vs <+: ws → quads vs <+: quads ws
  | [], _, _ | [_], _, _ | [_, _], _, _ | [_, _, _], _, _ => List.nil_prefix
  | a :: b :: c :: d :: vs, ws, h => by
      obtain ⟨us, rfl⟩ := h
      exact List.cons_prefix_cons.mpr ⟨rfl, quads_mono (List.prefix_append vs us)⟩

theorem quads_getElem? {ws : List (BitVec 32)} {i : Nat} (h : 4 * i + 4 ≤ ws.length) :
    (quads ws)[i]? = some (word128 ((ws.drop (4 * i)).take 4)) := by
  have hlen : 4 ≤ (ws.drop (4 * i)).length := by rw [List.length_drop]; omega
  have hhead : (quads ws)[i]? = (quads (ws.drop (4 * i))).head? := by rw [quads_drop, List.head?_drop]
  rw [hhead]
  match ws.drop (4 * i), hlen with
  | a :: b :: c :: d :: us, _ => rfl

theorem quads_take (ws : List (BitVec 32)) (i : Nat) : quads (ws.take (4 * i)) = (quads ws).take i := by
  have hpre := List.prefix_iff_eq_take.mp (quads_mono (List.take_prefix (4 * i) ws))
  rw [hpre, quads_length, List.length_take, List.take_eq_take_iff, quads_length]
  omega

theorem hostPct_eq (ws : List (BitVec 32)) (k : Nat) : hostPct ws k = ((quads ws).drop (256 * k)).take 256 := by
  rw [hostPct, show 1024 * k = 4 * (256 * k) by omega, quads_take _ 256, quads_drop]

/-! ## The captured packets -/

/-- A discarded packet was left after its header, another one taken whole. -/
def CapPct.Complete (c : CapPct) : Prop := c.words.length = if c.discarded then 1 else 256

/-- The captured packets are those of the stream `qs` in order, the last one as far as it has been taken. -/
structure CapsSound (qs : List (BitVec 128)) (caps : List CapPct) : Prop where
  words : ∀ j c, caps[j]? = some c → c.words <+: (qs.drop (256 * j)).take 256
  complete : ∀ c ∈ caps.dropLast, c.Complete

section

variable {qs qs' : List (BitVec 128)} {caps init : List CapPct} {c : CapPct}

theorem capsSound_concat : CapsSound qs (init ++ [c]) ↔
    (CapsSound qs init ∧ ∀ c ∈ init, c.Complete) ∧ c.words <+: (qs.drop (256 * init.length)).take 256 := by
  constructor
  · intro h
    have hcomplete : ∀ c ∈ init, c.Complete := by simpa using h.complete
    refine ⟨⟨⟨fun j d hd => ?_, fun d hd => hcomplete d (List.dropLast_subset _ hd)⟩, hcomplete⟩, ?_⟩
    · have hj := (List.getElem?_eq_some_iff.mp hd).1
      exact h.words j d (by rw [List.getElem?_append_left hj, hd])
    · exact h.words init.length c List.getElem?_concat_length
  · rintro ⟨⟨hinit, hcomplete⟩, hc⟩
    refine ⟨fun j d hd => ?_, by simpa using hcomplete⟩
    rcases Nat.lt_trichotomy j init.length with hlt | rfl | hgt
    · exact hinit.words j d (by rwa [List.getElem?_append_left hlt] at hd)
    · rw [List.getElem?_concat_length] at hd
      rw [← Option.some.inj hd]
      exact hc
    · have hj := (List.getElem?_eq_some_iff.mp hd).1
      simp only [List.length_append, List.length_singleton] at hj
      omega

theorem CapsSound.mono (h : CapsSound qs caps) (hq : qs <+: qs') : CapsSound qs' caps where
  words j c hc := by
    obtain ⟨hpre, hlen⟩ := List.prefix_take_iff.mp (h.words j c hc)
    exact List.prefix_take_iff.mpr ⟨hpre.trans (List.IsPrefix.drop hq _), hlen⟩
  complete := h.complete

theorem getElem?_of_prefix {l m : List (BitVec 128)} {i : Nat} {w : BitVec 128} (h : l <+: m) (hw : l[i]? = some w) :
    m[i]? = some w := by
  obtain ⟨us, rfl⟩ := h
  rw [List.getElem?_append_left (List.getElem?_eq_some_iff.mp hw).1, hw]

theorem prefix_concat {l m : List (BitVec 128)} {w : BitVec 128} (h : l <+: m) (hw : m[l.length]? = some w) :
    l ++ [w] <+: m := by
  obtain ⟨us, rfl⟩ := h
  rw [List.getElem?_append_right (Nat.le_refl _), Nat.sub_self, ← List.head?_eq_getElem?] at hw
  obtain ⟨vs, rfl⟩ := List.head?_eq_some_iff.mp hw
  exact ⟨vs, by rw [List.append_assoc, List.singleton_append]⟩

end

/-! ## The writer's place in the stream -/

section

variable {nb : NBuff} {w : P2dWrFsm nb} {i : P2dWrFsmIn nb} {qs qs' : List (BitVec 128)} {caps : List CapPct}
  {q q' : BitVec 128} {k r : Nat}

/-- The writer is at packet `j`, and has taken as many words of it as it has counted. -/
def Taking (w : P2dWrFsm nb) (caps : List CapPct) (j : Nat) : Prop :=
  ∃ init c, caps = init ++ [c] ∧ init.length = j ∧ c.discarded = false ∧ c.words.length = w.pctDataWrreqCnt

/-- The writer is done with the packets up to `k`. -/
def Done (caps : List CapPct) (k : Nat) : Prop := caps.length = k ∧ ∀ c ∈ caps, c.Complete

/-- The writer has had `r` words of the stream `qs`, the last one is `q`, and it needs no more words of the packets
before packet `k`. -/
def Place (w : P2dWrFsm nb) (q : BitVec 128) (qs : List (BitVec 128)) (caps : List CapPct) (k r : Nat) : Prop :=
  match w.currentState with
  | .idle | .rdHdr | .checkNextBuf | .switchCurrentBuff => r = 256 * k ∧ Done caps k
  | .waitCmprPipe =>
      if w.pipeCnt = 0 then r = 256 * k ∧ Done caps k
      else if w.pipeCnt = 1 then r = 256 * k + 1 ∧ Done caps k ∧ qs[256 * k]? = some q
      else r = 256 * k + 1 ∧ Taking w caps k
  | .checkSmplNr | .clrFifo | .switchNextBuff => r = 256 * k + 1 ∧ Taking w caps k
  | .rdPct => r + w.inPctRdreqInt.toNat = 256 * k + w.rdCnt ∧ Taking w caps k ∧
      (w.inPctDataValid = true → qs[256 * k + w.pctDataWrreqCnt]? = some q)
  | .waitWrEnd =>
      if w.inPctRdreqInt then r = 256 * k + 255 ∧ Taking w caps k ∧ qs[256 * k + w.pctDataWrreqCnt]? = some q
      else ∃ j, k = j + 1 ∧ r = 256 * k ∧ Taking w caps j ∧
        (w.inPctDataValid = true → qs[256 * j + w.pctDataWrreqCnt]? = some q)

theorem Place.mono (h : Place w q qs caps k r) (hq : qs <+: qs') : Place w q qs' caps k r := by
  unfold Place at h ⊢
  cases hs : w.currentState with
  | waitCmprPipe =>
      simp only [hs] at h ⊢
      split
      next h0 => rwa [if_pos h0] at h
      next h0 =>
        rw [if_neg h0] at h
        split
        next h1 =>
          rw [if_pos h1] at h
          exact ⟨h.1, h.2.1, getElem?_of_prefix hq h.2.2⟩
        next h1 => rwa [if_neg h1] at h
  | rdPct =>
      simp only [hs] at h ⊢
      exact ⟨h.1, h.2.1, fun hv => getElem?_of_prefix hq (h.2.2 hv)⟩
  | waitWrEnd =>
      simp only [hs] at h ⊢
      split
      next hr =>
        rw [if_pos hr] at h
        exact ⟨h.1, h.2.1, getElem?_of_prefix hq h.2.2⟩
      next hr =>
        rw [if_neg hr] at h
        obtain ⟨j, hk, hr, ht, hv⟩ := h
        exact ⟨j, hk, hr, ht, fun h1 => getElem?_of_prefix hq (hv h1)⟩
  | _ => simpa only [hs] using h

/-- A word of the payload comes. -/
theorem Taking.dataWord {j : Nat} (h : Taking w caps j) (hs : CapsSound qs caps) (hd : w.dataWord = true)
    (hc : w.pctDataWrreqCnt ≤ 255) (hq : qs[256 * j + w.pctDataWrreqCnt]? = some q) :
    Taking (w.next i) (CapPct.listNext w q caps) j ∧ CapsSound qs (CapPct.listNext w q caps) := by
  obtain ⟨init, c, rfl, rfl, hdis, hlen⟩ := h
  have hv := hd
  simp only [P2dWrFsm.dataWord, Bool.and_eq_true, decide_eq_true_eq] at hv
  have hh : w.hdrWord = false := by simp [P2dWrFsm.hdrWord, Nat.ne_of_gt hv.2]
  have hnext : CapPct.listNext w q (init ++ [c]) = init ++ [{ c with pct := c.pct.add q }] := by
    simp [CapPct.listNext, hh, hd, List.modifyLast_concat]
  have hwords : CapPct.words { c with pct := c.pct.add q } = c.words ++ [q] := rfl
  obtain ⟨hinit, hpre⟩ := capsSound_concat.mp hs
  rw [hnext]
  refine ⟨⟨init, _, rfl, rfl, hdis, ?_⟩, capsSound_concat.mpr ⟨hinit, ?_⟩⟩
  · rw [hwords, List.length_append, hlen]
    simp [P2dWrFsm.next, hv.1]
    omega
  · obtain ⟨hpre, -⟩ := List.prefix_take_iff.mp hpre
    rw [hwords, List.prefix_take_iff, List.length_append, hlen]
    exact ⟨prefix_concat hpre (by rw [List.getElem?_drop, hlen, hq]), Nat.succ_le_succ hc⟩

/-- A header comes. -/
theorem Done.hdrWord (h : Done caps k) (hs : CapsSound qs caps) (hh : w.hdrWord = true)
    (hq : qs[256 * k]? = some q) :
    Taking (w.next i) (CapPct.listNext w q caps) k ∧ CapsSound qs (CapPct.listNext w q caps) := by
  obtain ⟨rfl, hc⟩ := h
  have hv := hh
  simp only [P2dWrFsm.hdrWord, Bool.and_eq_true, beq_iff_eq] at hv
  have hnext : CapPct.listNext w q caps = caps ++ [⟨⟨q, []⟩, false⟩] := by simp [CapPct.listNext, hh]
  rw [hnext]
  refine ⟨⟨caps, _, rfl, rfl, rfl, by simp [CapPct.words, P2dWrFsm.next, hv]⟩, capsSound_concat.mpr ⟨⟨hs, hc⟩, ?_⟩⟩
  have hhead : (qs.drop (256 * caps.length)).head? = some q := by rw [List.head?_drop, hq]
  obtain ⟨us, hus⟩ := List.head?_eq_some_iff.mp hhead
  exact ⟨us.take 255, by rw [hus]; rfl⟩

/-- The header registers of the writer hold the last header. -/
def HdrRegs (w : P2dWrFsm nb) (caps : List CapPct) : Prop :=
  ∀ c, caps.getLast? = some c → w.pctHdr0Reg = c.pct.hdr0 ∧ w.pctHdr1Reg = c.pct.hdr1

theorem getLast?_modifyLast {f : CapPct → CapPct} {c : CapPct} (h : (caps.modifyLast f).getLast? = some c)
    (hf : ∀ d, (f d).pct.hdr = d.pct.hdr) : ∃ d, caps.getLast? = some d ∧ c.pct.hdr = d.pct.hdr := by
  rcases List.eq_nil_or_concat caps with rfl | ⟨init, d, rfl⟩
  · cases h
  · rw [List.concat_eq_append, List.modifyLast_concat, List.getLast?_concat] at h
    cases h
    exact ⟨d, by rw [List.concat_eq_append, List.getLast?_concat], hf d⟩

theorem hdrRegs_next (h : HdrRegs w caps) : HdrRegs (w.next i) (CapPct.listNext w i.inPctData caps) := by
  intro c hc
  unfold CapPct.listNext at hc
  cases hh : w.hdrWord with
  | true =>
      rw [hh, if_pos rfl, List.getLast?_concat] at hc
      cases hc
      simp [P2dWrFsm.next, hh, TxPct.hdr0, TxPct.hdr1]
  | false =>
      have hkeep : ∃ d, caps.getLast? = some d ∧ c.pct.hdr = d.pct.hdr := by
        rw [hh, if_neg (by simp)] at hc
        split at hc
        · exact getLast?_modifyLast hc fun _ => rfl
        · split at hc
          · exact getLast?_modifyLast hc fun _ => rfl
          · exact ⟨c, hc, rfl⟩
      obtain ⟨d, hd, heq⟩ := hkeep
      simpa [P2dWrFsm.next, hh, TxPct.hdr0, TxPct.hdr1, heq] using h d hd

theorem listNext_of_not_valid (hv : w.inPctDataValid = false) (hc : w.currentState ≠ .clrFifo) :
    CapPct.listNext w q caps = caps := by
  simp [CapPct.listNext, P2dWrFsm.hdrWord, P2dWrFsm.dataWord, hv, hc]

/-- A packet goes on, with a word of the payload or without one. -/
theorem Taking.next {j : Nat} (h : Taking w caps j) (hs : CapsSound qs caps) (hi : w.currentState ≠ .idle)
    (hc : w.currentState ≠ .clrFifo) (hcnt : 1 ≤ w.pctDataWrreqCnt ∧ w.pctDataWrreqCnt ≤ 256)
    (hv : w.inPctDataValid = true → w.pctDataWrreqCnt ≤ 255 ∧ qs[256 * j + w.pctDataWrreqCnt]? = some q) :
    Taking (w.next i) (CapPct.listNext w q caps) j ∧ CapsSound qs (CapPct.listNext w q caps) := by
  cases hval : w.inPctDataValid with
  | false =>
      obtain ⟨init, c, rfl, rfl, hdis, hlen⟩ := h
      rw [listNext_of_not_valid hval hc]
      exact ⟨⟨init, c, rfl, rfl, hdis, by simp [P2dWrFsm.next, hval, hi, hlen]⟩, hs⟩
  | true =>
      have hd : w.dataWord = true := by
        simp only [P2dWrFsm.dataWord, hval, Bool.true_and, decide_eq_true_eq]
        exact hcnt.1
      exact h.dataWord hs hd (hv hval).1 (hv hval).2

/-- A packet is discarded after its header. -/
theorem Taking.discard {j : Nat} (h : Taking w caps j) (hs : CapsSound qs caps) (hc : w.currentState = .clrFifo)
    (hv : w.inPctDataValid = false) (hcnt : w.pctDataWrreqCnt = 1) :
    Done (CapPct.listNext w q caps) (j + 1) ∧ CapsSound qs (CapPct.listNext w q caps) := by
  obtain ⟨init, c, rfl, rfl, hdis, hlen⟩ := h
  have hnext : CapPct.listNext w q (init ++ [c]) = init ++ [{ c with discarded := true }] := by
    simp [CapPct.listNext, P2dWrFsm.hdrWord, P2dWrFsm.dataWord, hv, hc, List.modifyLast_concat]
  obtain ⟨⟨hinit, hcomplete⟩, hpre⟩ := capsSound_concat.mp hs
  rw [hnext]
  refine ⟨⟨by simp, fun d hd => ?_⟩, capsSound_concat.mpr ⟨⟨hinit, hcomplete⟩, hpre⟩⟩
  rcases List.mem_append.mp hd with hd | hd
  · exact hcomplete d hd
  · rw [List.mem_singleton.mp hd]
    exact hlen.trans hcnt

/-- The last word of a packet has come. -/
theorem Taking.done {j : Nat} (h : Taking w caps j) (hs : CapsSound qs caps) (hcnt : w.pctDataWrreqCnt = 256) :
    Done caps (j + 1) := by
  obtain ⟨init, c, rfl, rfl, hdis, hlen⟩ := h
  obtain ⟨⟨-, hcomplete⟩, -⟩ := capsSound_concat.mp hs
  refine ⟨by simp, fun d hd => ?_⟩
  rcases List.mem_append.mp hd with hd | hd
  · exact hcomplete d hd
  · rw [List.mem_singleton.mp hd, CapPct.Complete, hdis, hlen, hcnt]
    rfl

/-- The packet the writer needs words of after an edge of its clock. -/
def kNext (w : P2dWrFsm nb) (k : Nat) : Nat :=
  if w.currentState = .clrFifo ∨ (w.currentState = .waitWrEnd ∧ w.inPctRdreqInt = true) then k + 1 else k

/-- How many words of the stream it has had or will not have. -/
def rNext (w : P2dWrFsm nb) (k r : Nat) : Nat :=
  if w.currentState = .clrFifo then 256 * (k + 1) else r + w.inPctRdreqInt.toNat

theorem kNext_eq (hc : w.currentState ≠ .clrFifo) (hr : w.currentState = .waitWrEnd → w.inPctRdreqInt = false) :
    kNext w k = k := by
  simp only [kNext, hc, false_or]
  exact if_neg fun h => by simp [hr h.1] at h

theorem rNext_eq (hc : w.currentState ≠ .clrFifo) : rNext w k r = r + w.inPctRdreqInt.toNat := if_neg hc

/-- With nothing on its way the record stays. -/
theorem settled_next (q : BitVec 128) (caps : List CapPct) (k r : Nat) (hset : w.Settled)
    (hc : w.currentState ≠ .clrFifo) : CapPct.listNext w q caps = caps ∧ kNext w k = k ∧ rNext w k r = r :=
  ⟨listNext_of_not_valid hset.2 hc, kNext_eq hc fun _ => hset.1, by rw [rNext_eq hc, hset.1]; rfl⟩

section Next

variable (hph : w.Phase) (h : Place w q qs caps k r) (hs : CapsSound qs caps)
  (hq1 : w.inPctRdreqInt = true → qs[r]? = some q')

include hph h hs hq1

/-- While the comparator works the header and the first word of the packet come. -/
theorem place_next_waitCmprPipe (hc : w.currentState = .waitCmprPipe) :
    Place (w.next i) q' qs (CapPct.listNext w q caps) (kNext w k) (rNext w k r) ∧
      CapsSound qs (CapPct.listNext w q caps) := by
  have hns : (w.next i).currentState = w.nextState i := rfl
  unfold P2dWrFsm.Phase at hph
  unfold Place at h
  simp only [hc] at h hph
  obtain ⟨hp, hrc, hrd, hv, hcnt⟩ := hph
  have hne : w.currentState ≠ .clrFifo := by simp [hc]
  have hpipe : (w.next i).pipeCnt = w.pipeCnt + 1 := by simp [P2dWrFsm.next, hc]; omega
  rw [kNext_eq hne (by simp [hc]), rNext_eq hne]
  obtain h0 | h0 | h0 : w.pipeCnt = 0 ∨ w.pipeCnt = 1 ∨ 2 ≤ w.pipeCnt := by omega
  · have hrd1 : w.inPctRdreqInt = true := by simp [hrd, h0]
    rw [if_pos h0] at h
    rw [listNext_of_not_valid (by simp [hv, h0]) hne, hrd1]
    refine ⟨?_, hs⟩
    simp only [Place, hns, P2dWrFsm.nextState, hc, hpipe, h0]
    simpa [h.1] using ⟨h.2, h.1 ▸ hq1 hrd1⟩
  · have hrd0 : w.inPctRdreqInt = false := by simp [hrd, h0]
    have hh : w.hdrWord = true := by simp [P2dWrFsm.hdrWord, hv, hcnt, h0]
    rw [if_neg (by omega), if_pos h0] at h
    obtain ⟨htake, hs'⟩ := h.2.1.hdrWord (i := i) hs hh h.2.2
    rw [hrd0]
    refine ⟨?_, hs'⟩
    simp only [Place, hns, P2dWrFsm.nextState, hc, hpipe, h0]
    simpa using ⟨h.1, htake⟩
  · have hrd0 : w.inPctRdreqInt = false := by rw [hrd]; simp; omega
    have hv0 : w.inPctDataValid = false := by rw [hv]; simp; omega
    have hcnt1 : w.pctDataWrreqCnt = 1 := by rw [hcnt, if_neg (by omega)]
    rw [if_neg (by omega), if_neg (by omega)] at h
    obtain ⟨htake, hs'⟩ := h.2.next (i := i) (q := q) hs (by simp [hc]) hne (by omega) (by simp [hv0])
    rw [hrd0]
    refine ⟨?_, hs'⟩
    by_cases h4 : w.pipeCnt > 3
    · simpa [Place, hns, P2dWrFsm.nextState, hc, h4] using ⟨h.1, htake⟩
    · simp only [Place, hns, P2dWrFsm.nextState, hc, hpipe, h4, if_false]
      rw [if_neg (by omega), if_neg (by omega)]
      exact ⟨h.1, htake⟩

/-- The words of the packet are requested and come, each two cycles after its request. -/
theorem place_next_rdPct (hc : w.currentState = .rdPct) :
    Place (w.next i) q' qs (CapPct.listNext w q caps) (kNext w k) (rNext w k r) ∧
      CapsSound qs (CapPct.listNext w q caps) := by
  have hns : (w.next i).currentState = w.nextState i := rfl
  unfold P2dWrFsm.Phase at hph
  unfold Place at h
  simp only [hc] at h hph
  obtain ⟨hlo, hhi, hrd, hv, hcnt⟩ := hph
  obtain ⟨hr, htk, hq⟩ := h
  have hne : w.currentState ≠ .clrFifo := by simp [hc]
  obtain ⟨htake, hs'⟩ := htk.next (i := i) hs (by simp [hc]) hne (by omega) fun hval => ⟨by omega, hq hval⟩
  have hrd' : (w.next i).inPctRdreqInt = true := by simp [P2dWrFsm.next, hc]
  have hv' : (w.next i).inPctDataValid = w.inPctRdreqInt := rfl
  have hrc' : (w.next i).rdCnt = w.rdCnt + 1 := by simp [P2dWrFsm.next, hc]; omega
  -- the word that was requested is the one that comes next
  have hq' : w.inPctRdreqInt = true → qs[256 * k + (w.next i).pctDataWrreqCnt]? = some q' := by
    intro h1
    have h2 : 2 ≤ w.rdCnt := by simpa [h1] using hrd
    have hcnt' : (w.next i).pctDataWrreqCnt = w.rdCnt - 1 := by
      simp only [P2dWrFsm.next, hv, hc, hcnt, decide_eq_true_eq]
      split
      · omega
      · rw [if_neg (by simp)]
        omega
    rw [hcnt', ← hq1 h1]
    rw [h1] at hr
    simp at hr
    congr 1
    omega
  rw [kNext_eq hne (by simp [hc]), rNext_eq hne]
  refine ⟨?_, hs'⟩
  by_cases hlt : w.rdCnt < 255
  · simp only [Place, hns, P2dWrFsm.nextState, hc, hlt, hrd', hv', hrc']
    exact ⟨by simp; omega, htake, hq'⟩
  · have h255 : w.rdCnt = 255 := by omega
    simp only [Place, hns, P2dWrFsm.nextState, hc, hlt, hrd']
    exact ⟨by omega, htake, hq' (by simp [hrd, h255])⟩

/-- The last two words of the packet are on their way. -/
theorem place_next_waitWrEnd (hc : w.currentState = .waitWrEnd) :
    Place (w.next i) q' qs (CapPct.listNext w q caps) (kNext w k) (rNext w k r) ∧
      CapsSound qs (CapPct.listNext w q caps) := by
  have hns : (w.next i).currentState = w.nextState i := rfl
  unfold P2dWrFsm.Phase at hph
  unfold Place at h
  simp only [hc] at h hph
  have hne : w.currentState ≠ .clrFifo := by simp [hc]
  have hrd' : (w.next i).inPctRdreqInt = false := by simp [P2dWrFsm.next, hc]
  have hv' : (w.next i).inPctDataValid = w.inPctRdreqInt := rfl
  rw [rNext_eq hne]
  rcases hph with ⟨hrd, hv, hcnt⟩ | ⟨hrd, hv, hcnt⟩ | ⟨hset, hcnt, -⟩
  · rw [if_pos hrd] at h
    obtain ⟨hr, htk, hq⟩ := h
    obtain ⟨htake, hs'⟩ := htk.next (i := i) hs (by simp [hc]) hne (by omega) fun _ => ⟨by omega, hq⟩
    have hk : kNext w k = k + 1 := by simp [kNext, hc, hrd]
    have hcnt' : (w.next i).pctDataWrreqCnt = 255 := by simp [P2dWrFsm.next, hv, hcnt]
    rw [hk, hrd]
    refine ⟨?_, hs'⟩
    simp only [Place, hns, P2dWrFsm.nextState, hc, hv, hrd']
    refine ⟨k, rfl, by simp; omega, htake, fun _ => ?_⟩
    rw [hcnt', ← hr]
    exact hq1 hrd
  · rw [if_neg (by simp [hrd])] at h
    obtain ⟨j, hk, hr, htk, hq⟩ := h
    obtain ⟨htake, hs'⟩ := htk.next (i := i) hs (by simp [hc]) hne (by omega) fun hval => ⟨by omega, hq hval⟩
    rw [kNext_eq hne fun _ => hrd, hrd]
    refine ⟨?_, hs'⟩
    simp only [Place, hns, P2dWrFsm.nextState, hc, hv, hrd', hv', hrd]
    exact ⟨j, hk, hr, htake, by simp⟩
  · obtain ⟨hrd, hv⟩ := hset
    rw [if_neg (by simp [hrd])] at h
    obtain ⟨j, rfl, hr, htk, -⟩ := h
    have hdone := htk.done hs hcnt
    rw [listNext_of_not_valid hv hne, kNext_eq hne fun _ => hrd, hrd]
    refine ⟨?_, hs⟩
    simp only [Place, hns, P2dWrFsm.nextState, hc, hv, if_true]
    exact ⟨hr, hdone⟩

theorem place_next :
    Place (w.next i) q' qs (CapPct.listNext w q caps) (kNext w k) (rNext w k r) ∧
      CapsSound qs (CapPct.listNext w q caps) := by
  have hns : (w.next i).currentState = w.nextState i := rfl
  unfold P2dWrFsm.Phase at hph
  unfold Place at h
  cases hc : w.currentState with
  | idle =>
      simp only [hc] at h hph
      obtain ⟨hl, hk, hr⟩ := settled_next q caps k r hph.1 (by simp [hc])
      rw [hl, hk, hr]
      refine ⟨?_, hs⟩
      cases hrdy : i.inPctRdy <;> simpa [Place, hns, P2dWrFsm.nextState, hc, hrdy] using h
  | rdHdr =>
      simp only [hc] at h hph
      obtain ⟨hl, hk, hr⟩ := settled_next q caps k r hph.1 (by simp [hc])
      rw [hl, hk, hr]
      refine ⟨?_, hs⟩
      simpa [Place, hns, P2dWrFsm.nextState, P2dWrFsm.next, hc] using h
  | waitCmprPipe => exact place_next_waitCmprPipe hph h hs hq1 hc
  | checkSmplNr =>
      simp only [hc] at h hph
      obtain ⟨hset, -, hcnt⟩ := hph
      have hne : w.currentState ≠ .clrFifo := by simp [hc]
      obtain ⟨hl, hk, hr⟩ := settled_next q caps k r hset hne
      obtain ⟨htake, hs'⟩ := h.2.next (i := i) (q := q) hs (by simp [hc]) hne (by omega) (by simp [hset.2])
      rw [hk, hr]
      refine ⟨?_, hs'⟩
      simp only [Place, hns, P2dWrFsm.nextState, hc]
      by_cases hless : w.cmpr.alb = true ∧ w.crntPctSyncDis = false ∧ i.pctSyncDis = false
      · rw [if_pos hless]
        exact ⟨h.1, htake⟩
      · rw [if_neg hless]
        cases w.currentBuffRdy <;> exact ⟨h.1, htake⟩
  | clrFifo =>
      simp only [hc] at h hph
      have hk : kNext w k = k + 1 := by simp [kNext, hc]
      have hr : rNext w k r = 256 * (k + 1) := by simp [rNext, hc]
      obtain ⟨hdone, hs'⟩ := h.2.discard (q := q) hs hc hph.1.2 hph.2.2
      rw [hk, hr]
      refine ⟨?_, hs'⟩
      simpa [Place, hns, P2dWrFsm.nextState, hc] using hdone
  | switchNextBuff =>
      simp only [hc] at h hph
      obtain ⟨hset, hrc, hcnt⟩ := hph
      have hne : w.currentState ≠ .clrFifo := by simp [hc]
      obtain ⟨hl, hk, hr⟩ := settled_next q caps k r hset hne
      obtain ⟨htake, hs'⟩ := h.2.next (i := i) (q := q) hs (by simp [hc]) hne (by omega) (by simp [hset.2])
      rw [hk, hr]
      refine ⟨?_, hs'⟩
      simp only [Place, hns, P2dWrFsm.nextState, hc]
      refine ⟨?_, htake, ?_⟩
      · simp [P2dWrFsm.next, hc, hrc, h.1]
      · simp [P2dWrFsm.next, hset.1]
  | rdPct => exact place_next_rdPct hph h hs hq1 hc
  | waitWrEnd => exact place_next_waitWrEnd hph h hs hq1 hc
  | checkNextBuf =>
      simp only [hc] at h hph
      obtain ⟨hl, hk, hr⟩ := settled_next q caps k r hph.1 (by simp [hc])
      rw [hl, hk, hr]
      refine ⟨?_, hs⟩
      cases hrdy : w.nextBuffRdy <;> simpa [Place, hns, P2dWrFsm.nextState, hc, hrdy] using h
  | switchCurrentBuff =>
      simp only [hc] at h hph
      obtain ⟨hl, hk, hr⟩ := settled_next q caps k r hph.1 (by simp [hc])
      rw [hl, hk, hr]
      refine ⟨?_, hs⟩
      simpa [Place, hns, P2dWrFsm.nextState, hc] using h

end Next

end

end LimeSdrQpcie
