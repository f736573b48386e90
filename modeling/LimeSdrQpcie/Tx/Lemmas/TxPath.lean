import LimeSdrQpcie.Tx.Lemmas.Fates
import LimeSdrQpcie.Tx.Lemmas.Framing
import LimeSdrQpcie.Tx.Lemmas.SmplFifo
import LimeSdrQpcie.Tx.TxPath

/-!
# The parts of the transmit path

A run of the path contains a run of the ingress on the edges of the bus and of the transmit clock, and a run of
`packets2data_top` on those of the transmit clock alone. The packets that the writer captured and did not discard are
those that go to the buffers.
-/

namespace LimeSdrQpcie

open Hdl

/-! ## The captured packets and the buffers -/

namespace CapPct

/-- The packets that were not discarded. -/
def kept (caps : List CapPct) : List TxPct := (caps.filter fun c => !c.discarded).map CapPct.pct

@[simp] theorem kept_nil : kept [] = [] := rfl

theorem kept_append (caps ds : List CapPct) : kept (caps ++ ds) = kept caps ++ kept ds := by
  simp [kept]

theorem kept_cons_of_discarded {c : CapPct} (h : c.discarded = true) (cs : List CapPct) :
    kept (c :: cs) = kept cs := by
  simp [kept, h]

theorem kept_cons_of_not_discarded {c : CapPct} (h : c.discarded = false) (cs : List CapPct) :
    kept (c :: cs) = c.pct :: kept cs := by
  simp [kept, h]

/-- How many of the packets before place `j` are kept. -/
def keptBefore (caps : List CapPct) (j : Nat) : Nat := (kept (caps.take j)).length

@[simp] theorem keptBefore_zero (caps : List CapPct) : keptBefore caps 0 = 0 := rfl

theorem keptBefore_cons_of_discarded {c : CapPct} (h : c.discarded = true) (cs : List CapPct) (j : Nat) :
    keptBefore (c :: cs) (j + 1) = keptBefore cs j := by
  rw [keptBefore, List.take_succ_cons, kept_cons_of_discarded h, keptBefore]

theorem keptBefore_cons_of_not_discarded {c : CapPct} (h : c.discarded = false) (cs : List CapPct) (j : Nat) :
    keptBefore (c :: cs) (j + 1) = keptBefore cs j + 1 := by
  rw [keptBefore, List.take_succ_cons, kept_cons_of_not_discarded h, List.length_cons, keptBefore]

theorem keptBefore_append {caps : List CapPct} {j : Nat} (h : j ≤ caps.length) (ds : List CapPct) :
    keptBefore (caps ++ ds) j = keptBefore caps j := by
  rw [keptBefore, List.take_append_of_le_length h, keptBefore]

/-- A kept packet counts for the places behind it. -/
theorem keptBefore_lt {caps : List CapPct} {c : CapPct} {j l : Nat} (hc : caps[j]? = some c)
    (hd : c.discarded = false) (hjl : j < l) : keptBefore caps j < keptBefore caps l := by
  have hsucc : keptBefore caps (j + 1) = keptBefore caps j + 1 := by
    rw [keptBefore, List.take_add_one, hc, Option.toList_some, kept_append, List.length_append,
      kept_cons_of_not_discarded hd]
    rfl
  have hle : keptBefore caps (j + 1) ≤ keptBefore caps l :=
    (((List.take_prefix_take_left hjl).filter _).map _).length_le
  omega

/-- The kept packets are those of the writer's record, and the last one is in its hands. -/
structure Agree (caps : List CapPct) (l : WrLog) : Prop where
  pcts : kept caps = l.pcts
  last : ∀ p, l.inHand = some p → ∃ init, caps = init ++ [⟨p, false⟩]

variable {nb : NBuff} {s : P2dWrFsm nb} {i : P2dWrFsmIn nb} {caps : List CapPct} {l : WrLog} {f : Nat}

theorem Agree.init_pcts {init : List CapPct} {p : TxPct} (h : Agree (init ++ [⟨p, false⟩]) l)
    (hp : l.inHand = some p) : kept init = l.stored := by
  have hpcts := h.pcts
  rw [kept_append, WrLog.pcts_of_some hp] at hpcts
  exact (List.append_inj' hpcts rfl).1

/-- What an edge of the transmit clock does to the captured packets and to the writer's record. -/
inductive Step (s : P2dWrFsm nb) (w : BitVec 128) (caps : List CapPct) (l : WrLog) : List CapPct → WrLog → Prop
  | quiet : Step s w caps l caps l
  | hdr (hn : l.inHand = none) : Step s w caps l (caps ++ [⟨⟨w, []⟩, false⟩]) ⟨l.stored, some ⟨w, []⟩⟩
  | data (init : List CapPct) (p : TxPct) (hc : caps = init ++ [⟨p, false⟩]) (hp : l.inHand = some p) :
      Step s w caps l (init ++ [⟨p.add w, false⟩]) ⟨l.stored, some (p.add w)⟩
  | discard (hs : s.currentState = .clrFifo) (init : List CapPct) (p : TxPct) (hc : caps = init ++ [⟨p, false⟩])
      (hp : l.inHand = some p) : Step s w caps l (init ++ [⟨p, true⟩]) ⟨l.stored, none⟩
  | store : Step s w caps l caps ⟨l.pcts, none⟩

/-- Only a header makes the list longer. -/
theorem length_listNext {w : BitVec 128} (h : s.hdrWord = false) : (listNext s w caps).length = caps.length := by
  have hmodify : ∀ g : CapPct → CapPct, (caps.modifyLast g).length = caps.length := fun g => by
    rcases List.eq_nil_or_concat caps with rfl | ⟨init, c, rfl⟩
    · rfl
    · rw [List.concat_eq_append, List.modifyLast_concat, List.length_append, List.length_append]
      rfl
  rw [listNext, h, if_neg Bool.false_ne_true]
  split
  · exact hmodify _
  · split
    · exact hmodify _
    · rfl

theorem step_next (hph : s.Phase) (htr : WrLog.Tracks s l f) (h : Agree caps l) :
    Step s i.inPctData caps l (listNext s i.inPctData caps) (l.next s i) := by
  cases hh : s.hdrWord with
  | true =>
      rw [listNext, if_pos hh, WrLog.next_of_hdrWord hh]
      exact Step.hdr (WrLog.hdrWord_spec hph htr hh).2.2
  | false =>
      cases hd : s.dataWord with
      | true =>
          obtain ⟨-, -, p, hp⟩ := WrLog.dataWord_spec hph htr hd
          obtain ⟨init, rfl⟩ := h.last p hp
          have hl : listNext s i.inPctData (init ++ [⟨p, false⟩]) = init ++ [⟨p.add i.inPctData, false⟩] := by
            simp [listNext, hh, hd, List.modifyLast_concat]
          rw [hl, WrLog.next_of_dataWord hd, hp]
          exact Step.data init p rfl hp
      | false =>
          by_cases hc : s.currentState = .clrFifo
          · obtain ⟨p, hp⟩ : ∃ p, l.inHand = some p := by
              simp only [WrLog.Tracks, hc] at htr
              obtain ⟨⟨p, hp, -⟩, -⟩ := htr
              exact ⟨p, hp⟩
            obtain ⟨init, rfl⟩ := h.last p hp
            have hl : listNext s i.inPctData (init ++ [⟨p, false⟩]) = init ++ [⟨p, true⟩] := by
              simp [listNext, hh, hd, hc, List.modifyLast_concat]
            have hw : l.next s i = ⟨l.stored, none⟩ := by simp [WrLog.next, hh, hd, hc]
            rw [hl, hw]
            exact Step.discard hc init p rfl hp
          · have hl : listNext s i.inPctData caps = caps := by simp [listNext, hh, hd, hc]
            rw [hl]
            by_cases hw : s.currentState = .waitWrEnd
            · have hn : l.next s i = ⟨l.pcts, none⟩ := by simp [WrLog.next, hh, hd, hw, WrLog.pcts]
              rw [hn]
              exact Step.store
            · have hn : l.next s i = l := by simp [WrLog.next, hh, hd, hc, hw]
              rw [hn]
              exact Step.quiet

theorem Step.agree {w : BitVec 128} {caps' : List CapPct} {l' : WrLog} (hst : Step s w caps l caps' l')
    (h : Agree caps l) : Agree caps' l' := by
  cases hst with
  | quiet => exact h
  | hdr hn =>
      refine ⟨?_, fun p hp => ⟨caps, by rw [← Option.some.inj hp]⟩⟩
      rw [kept_append, h.pcts, WrLog.pcts_of_none hn, WrLog.pcts_of_some rfl]
      rfl
  | data init p hc hp =>
      subst hc
      refine ⟨?_, fun q hq => ⟨init, by rw [← Option.some.inj hq]⟩⟩
      rw [kept_append, h.init_pcts hp, WrLog.pcts_of_some rfl]
      rfl
  | discard hs init p hc hp =>
      subst hc
      refine ⟨?_, fun q hq => by cases hq⟩
      rw [kept_append, h.init_pcts hp, WrLog.pcts_of_none rfl]
      exact List.append_nil _
  | store =>
      refine ⟨?_, fun q hq => by cases hq⟩
      rw [h.pcts]
      exact (List.append_nil _).symm

/-! ## The places of the stored packets -/

/-- Stored packet `k` is the captured packet at place `j`. -/
structure StoredAt (caps : List CapPct) (l : WrLog) (k j : Nat) : Prop where
  kept : ∃ c, caps[j]? = some c ∧ c.discarded = false
  before : keptBefore caps j = k
  stored : k < l.stored.length

theorem StoredAt.unique {k j j' : Nat} (h : StoredAt caps l k j) (h' : StoredAt caps l k j') : j = j' := by
  obtain ⟨c, hc, hd⟩ := h.kept
  obtain ⟨c', hc', hd'⟩ := h'.kept
  rcases Nat.lt_trichotomy j j' with hlt | heq | hlt
  · have hbefore := keptBefore_lt hc hd hlt
    rw [h.before, h'.before] at hbefore
    exact absurd hbefore (Nat.lt_irrefl k)
  · exact heq
  · have hbefore := keptBefore_lt hc' hd' hlt
    rw [h.before, h'.before] at hbefore
    exact absurd hbefore (Nat.lt_irrefl k)

/-- What comes behind a stored packet does not move it. -/
theorem StoredAt.append {init ds es : List CapPct} {l' : WrLog} {k j : Nat} (h : StoredAt (init ++ ds) l k j)
    (hj : j < init.length) (hl : l.stored.length ≤ l'.stored.length) : StoredAt (init ++ es) l' k j := by
  obtain ⟨⟨c, hc, hd⟩, hbefore, hstored⟩ := h
  rw [List.getElem?_append_left hj] at hc
  rw [keptBefore_append (Nat.le_of_lt hj)] at hbefore
  exact ⟨⟨c, by rw [List.getElem?_append_left hj, hc], hd⟩, by rw [keptBefore_append (Nat.le_of_lt hj), hbefore],
    Nat.lt_of_lt_of_le hstored hl⟩

/-- The packet in the writer's hands is not stored. -/
theorem StoredAt.lt_of_inHand {init : List CapPct} {p : TxPct} {k j : Nat} (h : StoredAt (init ++ [⟨p, false⟩]) l k j)
    (hag : Agree (init ++ [⟨p, false⟩]) l) (hp : l.inHand = some p) : j < init.length := by
  obtain ⟨c, hc, -⟩ := h.kept
  have hlt := (List.getElem?_eq_some_iff.mp hc).1
  rw [List.length_append, List.length_singleton] at hlt
  by_contra hge
  obtain rfl : j = init.length := by omega
  have hbefore := h.before
  rw [keptBefore, List.take_left' rfl, hag.init_pcts hp] at hbefore
  exact absurd h.stored (by omega)

theorem Step.storedAt {w : BitVec 128} {caps' : List CapPct} {l' : WrLog} {k j : Nat} (hst : Step s w caps l caps' l')
    (hag : Agree caps l) (h : StoredAt caps l k j) : StoredAt caps' l' k j := by
  cases hst with
  | quiet => exact h
  | hdr hn =>
      obtain ⟨c, hc, -⟩ := h.kept
      have hlt := (List.getElem?_eq_some_iff.mp hc).1
      have hnil : StoredAt (caps ++ []) l k j := by rwa [List.append_nil]
      exact hnil.append hlt (Nat.le_refl _)
  | data init p hc hp =>
      subst hc
      exact h.append (h.lt_of_inHand hag hp) (Nat.le_refl _)
  | discard hs init p hc hp =>
      subst hc
      exact h.append (h.lt_of_inHand hag hp) (Nat.le_refl _)
  | store =>
      refine ⟨h.kept, h.before, Nat.lt_of_lt_of_le h.stored ?_⟩
      rw [WrLog.pcts, List.length_append]
      exact Nat.le_add_right _ _

end CapPct

/-! ## The fates of the captured packets -/

namespace TxPath

section FatesOf

variable {caps : List CapPct} {fs : List Fate} {c : CapPct} {f : Fate} {j : Nat}

theorem fatesOf_cons_of_discarded (h : c.discarded = true) (cs : List CapPct) (fs : List Fate) :
    fatesOf (c :: cs) fs = .dropped :: fatesOf cs fs := by
  simp [fatesOf, h]

theorem fatesOf_cons_nil (h : c.discarded = false) (cs : List CapPct) : fatesOf (c :: cs) [] = [] := by
  simp [fatesOf, h]

theorem fatesOf_cons_cons (h : c.discarded = false) (cs : List CapPct) (f : Fate) (fs : List Fate) :
    fatesOf (c :: cs) (f :: fs) = f :: fatesOf cs fs := by
  simp [fatesOf, h]

/-- A packet that is done with was discarded, or it is one of the kept packets that the reader is done with. -/
theorem fatesOf_spec (hc : caps[j]? = some c) (hf : (fatesOf caps fs)[j]? = some f) :
    (c.discarded = true ∧ f = .dropped) ∨
      (c.discarded = false ∧ fs[CapPct.keptBefore caps j]? = some f ∧
        (CapPct.kept caps)[CapPct.keptBefore caps j]? = some c.pct) := by
  induction caps generalizing fs j with
  | nil => simp at hc
  | cons d cs ih =>
      cases hd : d.discarded with
      | true =>
          rw [fatesOf_cons_of_discarded hd] at hf
          rw [CapPct.kept_cons_of_discarded hd]
          cases j with
          | zero =>
              cases hc
              exact Or.inl ⟨hd, (Option.some.inj hf).symm⟩
          | succ j =>
              rw [CapPct.keptBefore_cons_of_discarded hd]
              exact ih hc hf
      | false =>
          cases fs with
          | nil => simp [fatesOf_cons_nil hd] at hf
          | cons g gs =>
              rw [fatesOf_cons_cons hd] at hf
              rw [CapPct.kept_cons_of_not_discarded hd]
              cases j with
              | zero =>
                  cases hc
                  exact Or.inr ⟨hd, hf, rfl⟩
              | succ j =>
                  rw [CapPct.keptBefore_cons_of_not_discarded hd]
                  exact ih hc hf

/-- The first packet not done with is the one that the reader is at. -/
theorem getElem?_length_fatesOf {p : TxPct} (hp : (CapPct.kept caps)[fs.length]? = some p) :
    ∃ c, caps[(fatesOf caps fs).length]? = some c ∧ c.pct = p ∧ c.discarded = false ∧
      CapPct.keptBefore caps (fatesOf caps fs).length = fs.length := by
  induction caps generalizing fs with
  | nil => simp at hp
  | cons d cs ih =>
      cases hd : d.discarded with
      | true =>
          rw [CapPct.kept_cons_of_discarded hd] at hp
          rw [fatesOf_cons_of_discarded hd, List.length_cons, CapPct.keptBefore_cons_of_discarded hd]
          exact ih hp
      | false =>
          rw [CapPct.kept_cons_of_not_discarded hd] at hp
          cases fs with
          | nil =>
              rw [fatesOf_cons_nil hd]
              exact ⟨d, rfl, Option.some.inj hp, hd, rfl⟩
          | cons g gs =>
              rw [fatesOf_cons_cons hd, List.length_cons, List.length_cons, CapPct.keptBefore_cons_of_not_discarded hd,
                Nat.add_right_cancel_iff]
              exact ih hp

theorem fatesOf_length_le : (fatesOf caps fs).length ≤ caps.length := by
  induction caps generalizing fs with
  | nil => exact Nat.le_refl 0
  | cons d cs ih =>
      cases hd : d.discarded with
      | true =>
          rw [fatesOf_cons_of_discarded hd]
          exact Nat.succ_le_succ ih
      | false =>
          cases fs with
          | nil => simp [fatesOf_cons_nil hd]
          | cons g gs =>
              rw [fatesOf_cons_cons hd]
              exact Nat.succ_le_succ ih

/-- The emitted ones of the kept packets, when `ps` has them at their places among the captured ones. -/
theorem emitted_fatesOf {ps : List TxPct} (hlen : fs.length ≤ (CapPct.kept caps).length)
    (hps : ∀ (j : Nat) c f, caps[j]? = some c → (fatesOf caps fs)[j]? = some f → c.discarded = false →
      ps[j]? = some c.pct)
    (hle : (fatesOf caps fs).length ≤ ps.length) :
    ((ps.zip (fatesOf caps fs)).filter fun pf => pf.2 == .emitted).map Prod.fst =
      (((CapPct.kept caps).zip fs).filter fun pf => pf.2 == .emitted).map Prod.fst := by
  induction caps generalizing fs ps with
  | nil =>
      cases fs with
      | nil => simp [fatesOf]
      | cons g gs => simp at hlen
  | cons d cs ih =>
      cases hd : d.discarded with
      | true =>
          rw [fatesOf_cons_of_discarded hd] at hps hle ⊢
          rw [CapPct.kept_cons_of_discarded hd] at hlen ⊢
          cases ps with
          | nil => simp at hle
          | cons q qs =>
              rw [List.zip_cons_cons, List.filter_cons_of_neg (by simp)]
              exact ih hlen (fun j c f hc hf hn => hps (j + 1) c f hc hf hn) (Nat.le_of_succ_le_succ hle)
      | false =>
          rw [CapPct.kept_cons_of_not_discarded hd] at hlen ⊢
          cases fs with
          | nil => simp [fatesOf_cons_nil hd]
          | cons g gs =>
              rw [fatesOf_cons_cons hd] at hps hle ⊢
              cases ps with
              | nil => simp at hle
              | cons q qs =>
                  have hq : q = d.pct := Option.some.inj (hps 0 d g rfl rfl hd)
                  have hrest := ih (Nat.le_of_succ_le_succ hlen)
                    (fun j c f hc hf hn => hps (j + 1) c f hc hf hn) (Nat.le_of_succ_le_succ hle)
                  rw [List.zip_cons_cons, List.zip_cons_cons, hq]
                  cases g with
                  | emitted =>
                      rw [List.filter_cons_of_pos rfl, List.filter_cons_of_pos rfl, List.map_cons, List.map_cons, hrest]
                  | dropped =>
                      rw [List.filter_cons_of_neg (by simp), List.filter_cons_of_neg (by simp), hrest]

end FatesOf

/-! ## The parts of a run -/

variable {nb : NBuff} {sw : BitVec 2}

def smplEdge (s : TxPath nb) : TxPathEdge nb → Option (TxSmplFifoIn nb)
  | .tx i => some (s.smplIn i)
  | .bus _ | .rx _ => none

def ingress (s : TxPath nb) : TxIngress nb := ⟨s.syncReg0, s.inst2, s.inPctRdy, s.wrFsm⟩

def ingressEdge (s : TxPath nb) : TxPathEdge nb → Option (Edge nb)
  | .bus i => some (.bus i)
  | .rx _ => none
  | .tx i => some (.tx
      { pctSyncDis := i.pctSyncDis
        sampleNr := s.syncFifoRw.syncQ
        pctBuffRdy := s.smpl.top.inst0.instxWrempty (s.smpl.top.inst0In (s.smpl.topIn (s.smplIn i)))
        rdusedwAtMost := i.rdusedwAtMost })

theorem smpl_run (x : Nat → TxPathEdge nb) (n : Nat) : ((circuit nb sw).run x n).smpl =
    (TxSmplFifo.circuit nb sw).gated.run (fun m => smplEdge ((circuit nb sw).run x m) (x m)) n := by
  refine Circuit.run_part TxPath.smpl smplEdge rfl ?_ x n
  intro s e
  cases e <;> rfl

theorem ingress_run (x : Nat → TxPathEdge nb) (n : Nat) : ingress ((circuit nb sw).run x n) =
    (TxIngress.circuit nb).gated.run (fun m => ingressEdge ((circuit nb sw).run x m) (x m)) n := by
  refine Circuit.run_part ingress ingressEdge rfl ?_ x n
  intro s e
  cases e <;> rfl

theorem isSome_smplEdge (s : TxPath nb) (e : TxPathEdge nb) : (smplEdge s e).isSome = e.isTx := by
  cases e <;> rfl

variable (sw) in
/-- `packets2data_top` and the sample FIFO run on the inputs `y` at the edges of the transmit clock. -/
def SmplRun (x : Nat → TxPathEdge nb) (y : Nat → TxSmplFifoIn nb) : Prop :=
  ∀ n, ((circuit nb sw).run x n).smpl = (TxSmplFifo.circuit nb sw).run y (txEdges x n) ∧
    ∀ i, x n = .tx i → y (txEdges x n) = ((circuit nb sw).run x n).smplIn i

variable (sw) in
theorem exists_smpl_run (x : Nat → TxPathEdge nb) : ∃ y, SmplRun sw x y := by
  obtain ⟨y, hy⟩ := Circuit.exists_run_gated (TxSmplFifo.circuit nb sw)
    (fun m => smplEdge ((circuit nb sw).run x m) (x m)) (TxPath.reset.smplIn ⟨false, false, 0, fun _ => false,
      fun _ => 0, 0, 0⟩)
  refine ⟨y, fun n => ?_⟩
  obtain ⟨hrun, hin⟩ := hy n
  simp only [isSome_smplEdge] at hrun hin
  exact ⟨(smpl_run x n).trans hrun, fun i hi => hin _ (by rw [hi]; rfl)⟩

theorem txEdges_succ {x : Nat → TxPathEdge nb} {n : Nat} {i : TxPathTxIn nb} (hx : x n = .tx i) :
    txEdges x (n + 1) = txEdges x n + 1 := by
  simp [txEdges, count_succ, hx, TxPathEdge.isTx]

theorem log_eq (hsw : inst0PctSize sw = 0x400) {x : Nat → TxPathEdge nb} {y : Nat → TxSmplFifoIn nb}
    (hy : SmplRun sw x y) (n : Nat) :
    log sw x n = Packets2Data.log (TxSmplFifo.inst0In sw y) (txEdges x n) := by
  induction n with
  | zero => rfl
  | succ n ih =>
      cases hx : x n with
      | bus i | rx i =>
          have hc : txEdges x (n + 1) = txEdges x n := by simp [txEdges, count_succ, hx, TxPathEdge.isTx]
          rw [hc, ← ih]
          simp only [log, hx]
      | tx i =>
          obtain ⟨hs, hi⟩ := hy n
          rw [txEdges_succ hx, Packets2Data.log_succ, ← ih, ← TxSmplFifo.run_inst0 sw hsw]
          simp only [log, hx, TxSmplFifo.inst0In, ← hs, hi i hx]

theorem sent_eq {x : Nat → TxPathEdge nb} {y : Nat → TxSmplFifoIn nb} (hy : SmplRun sw x y) (n : Nat) :
    sent sw x n = Fifo.taken (fun m => ((TxSmplFifo.circuit nb sw).run y m).smplFifo) (fun m => (y m).smplFifoRd)
      (txEdges x n) := by
  induction n with
  | zero => rfl
  | succ n ih =>
      cases hx : x n with
      | bus i | rx i =>
          have hc : txEdges x (n + 1) = txEdges x n := by simp [txEdges, count_succ, hx, TxPathEdge.isTx]
          rw [hc, ← ih]
          simp only [sent, hx]
      | tx i =>
          obtain ⟨hs, hi⟩ := hy n
          rw [txEdges_succ hx, Fifo.taken, ← ih, ← hs, hi i hx]
          simp only [sent, hx]
          rfl

variable (sw) in
/-- The edges of the bus and of the transmit clock before step `n`. -/
def ingressEdges (x : Nat → TxPathEdge nb) (n : Nat) : Nat :=
  count (fun m => (ingressEdge ((circuit nb sw).run x m) (x m)).isSome) n

variable (sw) in
/-- The run of the ingress on the edges of the bus and of the transmit clock, with its record. -/
theorem exists_ingress_run (x : Nat → TxPathEdge nb) : ∃ y : Nat → Edge nb, ∀ n,
    ingress ((circuit nb sw).run x n) = (TxIngress.circuit nb).run y (ingressEdges sw x n) ∧
      host sw x n = TxIngress.host y (ingressEdges sw x n) ∧
      captured sw x n = TxIngress.captured y (ingressEdges sw x n) := by
  obtain ⟨y, hy⟩ := Circuit.exists_run_gated (TxIngress.circuit nb)
    (fun m => ingressEdge ((circuit nb sw).run x m) (x m)) (.tx ⟨false, 0, fun _ => false, 0⟩)
  have hrun : ∀ n, ingress ((circuit nb sw).run x n) = (TxIngress.circuit nb).run y (ingressEdges sw x n) :=
    fun n => (ingress_run x n).trans (hy n).1
  refine ⟨y, fun n => ⟨hrun n, ?_⟩⟩
  induction n with
  | zero => exact ⟨rfl, rfl⟩
  | succ n ih =>
      obtain ⟨hhost, hcap⟩ := ih
      cases hx : x n with
      | rx i =>
          have hc : ingressEdges sw x (n + 1) = ingressEdges sw x n := by
            simp [ingressEdges, count_succ, hx, ingressEdge]
          rw [hc, ← hhost, ← hcap]
          simp [host, words_succ, captured, hx, hostWord]
      | bus i =>
          have hc : ingressEdges sw x (n + 1) = ingressEdges sw x n + 1 := by
            simp [ingressEdges, count_succ, hx, ingressEdge]
          have hi : y (ingressEdges sw x n) = .bus i := (hy n).2 (.bus i) (by rw [hx]; rfl)
          constructor
          · rw [hc, TxIngress.host, words_succ, hi, ← hrun, ← TxIngress.host, ← hhost, host, words_succ, hx]
            rfl
          · rw [hc, TxIngress.captured, hi, captured, hx]
            exact hcap
      | tx i =>
          have hc : ingressEdges sw x (n + 1) = ingressEdges sw x n + 1 := by
            simp [ingressEdges, count_succ, hx, ingressEdge]
          have hi : y (ingressEdges sw x n) = .tx _ := (hy n).2 _ (by rw [hx]; rfl)
          constructor
          · rw [hc, TxIngress.host, words_succ, hi, ← TxIngress.host, ← hhost, host, words_succ, hx]
            rfl
          · rw [hc, TxIngress.captured, hi, captured, hx]
            simp only
            rw [← hrun, ← hcap]
            rfl

/-- What is known of the ingress before a step. -/
theorem framed (x : Nat → TxPathEdge nb) (n : Nat) : ∃ moved k r,
    Framed (ingress ((circuit nb sw).run x n)) (host sw x n) moved (captured sw x n) k r := by
  obtain ⟨y, hy⟩ := exists_ingress_run sw x
  obtain ⟨hrun, hhost, hcap⟩ := hy n
  rw [hrun, hhost, hcap]
  exact framed_run y _

/-! ## Sample numbers from the receive clock -/

variable {x : Nat → TxPathEdge nb} {y : Nat → TxSmplFifoIn nb} {m n : Nat} {p : TxPct}

theorem Counted.mono {v : BitVec 64} (h : Counted x m v) (hmn : m ≤ n) : Counted x n v := by
  obtain ⟨j, hj, h⟩ := h
  exact ⟨j, Nat.lt_of_lt_of_le hj hmn, h⟩

/-- What `sync_fifo_rw` holds has come from the receive clock. -/
theorem syncFifoRw_run (x : Nat → TxPathEdge nb) (n : Nat) :
    (∀ v ∈ ((circuit nb sw).run x n).syncFifoRw.fifo.store, Counted x n v) ∧
      (((circuit nb sw).run x n).syncFifoRw.syncQ = 0 ∨ Counted x n ((circuit nb sw).run x n).syncFifoRw.syncQ) := by
  induction n with
  | zero => exact ⟨fun v hv => by simp [circuit, reset, SyncFifoRw.reset] at hv, Or.inl rfl⟩
  | succ n ih =>
      obtain ⟨hst, hq⟩ := ih
      rw [Circuit.run_succ]
      generalize (circuit nb sw).run x n = s at hst hq ⊢
      have hst' : ∀ v ∈ s.syncFifoRw.fifo.store, Counted x (n + 1) v := fun v hv => (hst v hv).mono (Nat.le_succ n)
      have hq' : s.syncFifoRw.syncQ = 0 ∨ Counted x (n + 1) s.syncFifoRw.syncQ :=
        hq.imp_right fun h => h.mono (Nat.le_succ n)
      cases hx : x n with
      | bus i => exact ⟨hst', hq'⟩
      | rx i =>
          refine ⟨fun v hv => ?_, hq'⟩
          change v ∈ (s.syncFifoRw.fifo.next _ 0).store at hv
          rw [Fifo.next_store, List.drop_zero, List.mem_append] at hv
          rcases hv with hv | hv
          · exact hst' v hv
          · refine ⟨n, Nat.lt_succ_self n, i, hx, ?_⟩
            unfold Fifo.accepted at hv
            split at hv
            · cases hv
            · split at hv
              · exact (Option.some.inj (Option.mem_toList.mp hv))
              · cases hv
      | tx i =>
          refine ⟨fun v hv => ?_, ?_⟩
          · change v ∈ (s.syncFifoRw.fifo.next none _).store at hv
            rw [Fifo.next_store, Fifo.accepted_none, Option.toList_none, List.append_nil] at hv
            exact hst' v (List.mem_of_mem_drop hv)
          · change (if _ then s.syncFifoRw.fifo.store.head?.getD s.syncFifoRw.syncQ else _) = 0 ∨ Counted x (n + 1)
              (if _ then s.syncFifoRw.fifo.store.head?.getD s.syncFifoRw.syncQ else _)
            split
            · cases hh : s.syncFifoRw.fifo.store with
              | nil => exact hq'
              | cons v vs => exact Or.inr (hst' v (by rw [hh]; exact List.mem_cons_self))
            · exact hq'

/-! ## Why a packet was sent or thrown away -/

theorem Late.mono {j : Nat} (h : Late sw x m j p) (hmn : m ≤ n) : Late sw x n j p := by
  obtain ⟨k, hk, h⟩ := h
  exact ⟨k, Nat.lt_of_lt_of_le hk hmn, h⟩

/-- Only the transmit clock captures. -/
theorem captured_of_txEdges_eq (hmn : m ≤ n) (h : txEdges x n = txEdges x m) : captured sw x n = captured sw x m := by
  induction n, hmn using Nat.le_induction with
  | base => rfl
  | succ n hn ih =>
      cases hx : x n with
      | bus i | rx i =>
          have hc : txEdges x (n + 1) = txEdges x n := by simp [txEdges, count_succ, hx, TxPathEdge.isTx]
          simp only [captured, hx]
          exact ih (hc.symm.trans h)
      | tx i =>
          have hle : txEdges x m ≤ txEdges x n := count_mono _ hn
          rw [txEdges_succ hx] at h
          omega

theorem host_mono (x : Nat → TxPathEdge nb) (n : Nat) : (host sw x n).length ≤ (host sw x (n + 1)).length :=
  words_length_mono _ (Nat.le_succ n)

theorem Late.of_hdr {j : Nat} {q : TxPct} (h : Late sw x n j p) (hq : q.hdr = p.hdr) : Late sw x n j q := by
  have h0 : q.hdr0 = p.hdr0 := by rw [TxPct.hdr0, TxPct.hdr0, hq]
  have h1 : q.hdr1 = p.hdr1 := by rw [TxPct.hdr1, TxPct.hdr1, hq]
  unfold Late TxPct.syncDis at h ⊢
  rwa [h0, h1]

section OfHost

variable {ws : List (BitVec 32)} {c : CapPct} {j : Nat}

theorem ofHost_hdr (h : c.words <+: hostPct ws j) : (TxPct.ofHost ws j).hdr = c.pct.hdr := by
  obtain ⟨us, hus⟩ := h
  rw [TxPct.ofHost, ← hus]
  rfl

theorem hostPct_length_le (ws : List (BitVec 32)) (j : Nat) : (hostPct ws j).length ≤ 256 := by
  rw [hostPct_eq]
  exact List.length_take_le _ _

/-- A packet that was taken whole is the host's packet. -/
theorem ofHost_eq (h : c.words <+: hostPct ws j) (hw : c.pct.data.length = 255) :
    TxPct.ofHost ws j = c.pct ∧ 1024 * (j + 1) ≤ ws.length := by
  have hlen : c.words.length = 256 := by rw [CapPct.words, List.length_cons, hw]
  have heq := h.eq_of_length_le (by rw [hlen]; exact hostPct_length_le ws j)
  constructor
  · rw [TxPct.ofHost, ← heq]
    rfl
  · rw [heq, hostPct, quads_length, List.length_take, List.length_drop] at hlen
    omega

end OfHost

section Ticks

variable (hy : SmplRun sw x y)

include hy

/-- What stood on the inputs at an edge of the transmit clock. -/
theorem exists_tick (h : m < txEdges x n) : ∃ k < n, ∃ i, x k = .tx i ∧ txEdges x k = m ∧
    (TxSmplFifo.inst0In sw y m).pctSyncDis = i.pctSyncDis ∧
    (TxSmplFifo.inst0In sw y m).sampleNr = ((circuit nb sw).run x k).syncFifoRw.syncQ := by
  obtain ⟨k, hk, htx, rfl⟩ := exists_of_lt_count h
  cases hx : x k with
  | bus i | rx i => simp [hx, TxPathEdge.isTx] at htx
  | tx i =>
      have hin := (hy k).2 i hx
      refine ⟨k, hk, i, hx, rfl, ?_, ?_⟩
      · change (y (txEdges x k)).pctSyncDis = _
        rw [hin]
        rfl
      · change (y (txEdges x k)).sampleNr = _
        rw [hin]
        rfl

/-- The sample number at an edge of the transmit clock is what `sync_fifo_rw` showed there. -/
theorem showed_of_tick {k d : Nat} (hk : txEdges x k = m + d) (hd : 0 < d) :
    Showed sw x k d (TxSmplFifo.inst0In sw y m).sampleNr := by
  obtain ⟨k', -, i, hi, hm, -, hnr⟩ := exists_tick hy (show m < txEdges x k by omega)
  exact ⟨k', by rw [hi]; rfl, by rw [hk, hm], hnr.symm⟩

variable (hsw : inst0PctSize sw = 0x400)

include hsw

theorem ring (n : Nat) : Packets2Data.PctRing ((circuit nb sw).run x n).smpl.top.inst0 (log sw x n) := by
  rw [log_eq hsw hy, (hy n).1, TxSmplFifo.run_inst0 sw hsw]
  exact Packets2Data.pctRing_run _ _

theorem cap_step (hag : CapPct.Agree (captured sw x n) (log sw x n).wr) {i : TxPathTxIn nb} (hx : x n = .tx i) :
    CapPct.Step ((circuit nb sw).run x n).wrFsm ((circuit nb sw).run x n).inst2.inst1Q (captured sw x n)
      (log sw x n).wr (captured sw x (n + 1)) (log sw x (n + 1)).wr := by
  have hring := ring hy hsw n
  simp only [captured, log, hx]
  exact CapPct.step_next (i := (((circuit nb sw).run x n).smpl.top.inst0).inst0In
    (((circuit nb sw).run x n).smpl.top.inst0In
      (((circuit nb sw).run x n).smpl.topIn (((circuit nb sw).run x n).smplIn i)))) hring.phase hring.wr hag

/-- The captured packets that were not discarded are those of the writer's record. -/
theorem agree_run (n : Nat) : CapPct.Agree (captured sw x n) (log sw x n).wr := by
  induction n with
  | zero => exact ⟨rfl, fun p hp => by cases hp⟩
  | succ n ih =>
      cases hx : x n with
      | bus i | rx i => simpa only [captured, log, hx] using ih
      | tx i => exact (cap_step hy hsw ih hx).agree ih

/-- A stored packet stays at its place. -/
theorem storedAt_mono {k j : Nat} (h : CapPct.StoredAt (captured sw x m) (log sw x m).wr k j) (hmn : m ≤ n) :
    CapPct.StoredAt (captured sw x n) (log sw x n).wr k j := by
  induction n, hmn using Nat.le_induction with
  | base => exact h
  | succ n hn ih =>
      cases hx : x n with
      | bus i | rx i => simpa only [captured, log, hx] using ih
      | tx i => exact (cap_step hy hsw (agree_run hy hsw n) hx).storedAt (agree_run hy hsw n) ih

/-- The stored packets are the first ones of those kept. -/
theorem kept_getElem? {k : Nat} (hp : (log sw x n).wr.stored[k]? = some p) :
    (CapPct.kept (captured sw x n))[k]? = some p := by
  rw [(agree_run hy hsw n).pcts]
  exact Packets2Data.PctRing.stored_getElem? hp

/-- The reader is at the first of the captured packets that is not done with. -/
theorem storedAt_reading (hlt : (log sw x n).fates.length < (log sw x n).wr.stored.length) :
    CapPct.StoredAt (captured sw x n) (log sw x n).wr (log sw x n).fates.length (fates sw x n).length := by
  obtain ⟨c, hc, -, hd, hbefore⟩ :=
    getElem?_length_fatesOf (kept_getElem? hy hsw (List.getElem?_eq_getElem hlt))
  exact ⟨⟨c, hc, hd⟩, hbefore, hlt⟩

theorem inst0_run (n : Nat) : ((circuit nb sw).run x n).smpl.top.inst0 =
    (Packets2Data.circuit nb 0x400).run (TxSmplFifo.inst0In sw y) (txEdges x n) := by
  rw [← TxSmplFifo.run_inst0 sw hsw, ← (hy n).1]

/-- A decision about a stored packet is one about the host's packet at its place. -/
theorem rdDecides_of_decides {k j : Nat} {st : P2dRdState}
    (h : Packets2Data.Decides (TxSmplFifo.inst0In sw y) k (m + 4) st) (hm : m + 4 < txEdges x n)
    (hat : CapPct.StoredAt (captured sw x n) (log sw x n).wr k j) :
    ∃ l < n, ∃ i, x l = .tx i ∧ (TxSmplFifo.inst0In sw y (m + 4)).pctSyncDis = i.pctSyncDis ∧
      RdDecides sw x j l (TxSmplFifo.inst0In sw y m).sampleNr st := by
  obtain ⟨l, hl, i, hi, hcount, hdis, -⟩ := exists_tick hy hm
  have hlog : log sw x l = Packets2Data.log (TxSmplFifo.inst0In sw y) (m + 4) := by rw [log_eq hsw hy, hcount]
  have hpacket : (log sw x l).fates.length = k := hlog ▸ h.packet
  have hplace := storedAt_mono hy hsw
    (storedAt_reading hy hsw (n := l) (by rw [hpacket, hlog]; exact h.stored)) (Nat.le_of_lt hl)
  rw [hpacket] at hplace
  refine ⟨l, hl, i, hi, hdis, hplace.unique hat, ?_, ?_, showed_of_tick hy hcount (by decide)⟩
  · rw [rdFsm, inst0_run hy hsw, hcount]
    exact h.idle
  · rw [rdFsm, inst0_run hy hsw, txEdges_succ hi, hcount]
    exact h.next

theorem due_of_due {k j : Nat} (h : Packets2Data.Due (TxSmplFifo.inst0In sw y) (txEdges x n) k p)
    (hat : CapPct.StoredAt (captured sw x n) (log sw x n).wr k j) : Due sw x n j p := by
  obtain ⟨m, hm, hdec, hcause⟩ := h
  obtain ⟨l, hl, i, hi, hdis, hrd⟩ := rdDecides_of_decides hy hsw hdec hm hat
  exact ⟨l, hl, i, _, hi, hrd, hcause.imp_left hdis.symm.trans⟩

theorem late_of_late {k j : Nat} (h : Packets2Data.Late (TxSmplFifo.inst0In sw y) (txEdges x n) k p)
    (hat : CapPct.StoredAt (captured sw x n) (log sw x n).wr k j) : Late sw x n j p := by
  obtain ⟨m, hm, hdec, hp, hsync, hless⟩ := h
  obtain ⟨l, hl, i, hi, hdis, hrd⟩ := rdDecides_of_decides hy hsw hdec hm hat
  exact ⟨l, hl, i, _, hi, Or.inl hrd, hp, hdis.symm.trans hsync, hless⟩

/-- The writer discards the packet it has last captured. -/
theorem late_of_clrFifo {j : Nat} (hc : ((circuit nb sw).run x n).wrFsm.currentState = .clrFifo)
    (hlen : (captured sw x n).length = j + 1) (hp : (log sw x n).wr.inHand = some p) : Late sw x n j p := by
  have hclr := hc
  rw [wrFsm, inst0_run hy hsw] at hclr
  obtain ⟨q, m, hm, hq, hcheck, hdis, hsync, hless⟩ := Packets2Data.passed_of_clrFifo _ _ hclr
  rw [← log_eq hsw hy, hp] at hq
  obtain rfl := Option.some.inj hq
  obtain ⟨l, hl, i, hi, hcount, hi', -⟩ := exists_tick hy (show m + 3 < txEdges x n by omega)
  have hcheck' : ((circuit nb sw).run x l).wrFsm.currentState = .checkSmplNr := by
    rw [wrFsm, inst0_run hy hsw, hcount]
    exact hcheck
  have hnext : txEdges x (l + 1) = m + 4 := by rw [txEdges_succ hi, hcount]
  -- The header stays the last one from the decision on.
  have hheader := P2dWrFsm.hdrWord_of_waited (ring hy hsw l).phase (Or.inl hcheck')
  have hcap : (captured sw x (l + 1)).length = (captured sw x l).length := by
    simp only [captured, hi]
    exact CapPct.length_listNext hheader
  refine ⟨l, hl, i, _, hi, Or.inr ⟨?_, hcheck', ?_, showed_of_tick hy hcount (by decide)⟩, hdis, hi'.symm.trans hsync,
    hless⟩
  · rw [← hcap, ← captured_of_txEdges_eq (Nat.succ_le_of_lt hl) (hm.trans hnext.symm), hlen]
  · rw [wrFsm, inst0_run hy hsw, hnext, ← hm]
    exact hclr

/-- A discarded packet was late, and the host had written all of it. -/
theorem late_of_discarded (n : Nat) : ∀ (j : Nat) c, (captured sw x n)[j]? = some c → c.discarded = true →
    Late sw x n j c.pct ∧ 1024 * (j + 1) ≤ (host sw x n).length := by
  induction n with
  | zero => intro j c hc; simp [captured] at hc
  | succ n ih =>
      have hold : ∀ (j : Nat) c, (captured sw x n)[j]? = some c → c.discarded = true →
          Late sw x (n + 1) j c.pct ∧ 1024 * (j + 1) ≤ (host sw x (n + 1)).length := fun j c hc hd =>
        ⟨(ih j c hc hd).1.mono (Nat.le_succ n), Nat.le_trans (ih j c hc hd).2 (host_mono x n)⟩
      cases hx : x n with
      | bus i | rx i => simpa only [captured, hx] using hold
      | tx i =>
          have hag := agree_run hy hsw n
          have hst := cap_step hy hsw hag hx
          generalize hcaps : captured sw x (n + 1) = caps at hst ⊢
          generalize (log sw x (n + 1)).wr = l' at hst
          -- Only a discard makes a new discarded packet, out of the last one.
          have hlast : ∀ (init : List CapPct) (d : CapPct) (p : TxPct), captured sw x n = init ++ [⟨p, false⟩] →
              (d.discarded = true → Late sw x (n + 1) init.length d.pct ∧
                1024 * (init.length + 1) ≤ (host sw x (n + 1)).length) →
              ∀ (j : Nat) c, (init ++ [d])[j]? = some c → c.discarded = true →
                Late sw x (n + 1) j c.pct ∧ 1024 * (j + 1) ≤ (host sw x (n + 1)).length := by
            intro init d p hc hd j c hj hdc
            rcases Nat.lt_or_ge j init.length with hlt | hge
            · rw [List.getElem?_append_left hlt] at hj
              exact hold j c (by rw [hc, List.getElem?_append_left hlt, hj]) hdc
            · obtain rfl : j = init.length := by
                have := (List.getElem?_eq_some_iff.mp hj).1
                rw [List.length_append, List.length_singleton] at this
                omega
              rw [List.getElem?_concat_length] at hj
              cases Option.some.inj hj
              exact hd hdc
          cases hst with
          | quiet => exact hold
          | store => exact hold
          | hdr hn =>
              intro j c hj hdc
              rcases Nat.lt_or_ge j (captured sw x n).length with hlt | hge
              · rw [List.getElem?_append_left hlt] at hj
                exact hold j c hj hdc
              · obtain ⟨k, rfl⟩ := Nat.exists_eq_add_of_le hge
                rw [List.getElem?_append_right hge, Nat.add_sub_cancel_left] at hj
                have hk := List.mem_of_getElem? hj
                rw [List.mem_singleton.mp hk] at hdc
                cases hdc
          | data init p hc hp => exact hlast init _ p hc fun hd => by cases hd
          | discard hs init p hc hp =>
              refine hlast init _ p hc fun _ => ⟨?_, ?_⟩
              · have hlen : (captured sw x n).length = init.length + 1 := by
                  rw [hc, List.length_append, List.length_singleton]
                exact (late_of_clrFifo hy hsw hs hlen hp).mono (Nat.le_succ n)
              · obtain ⟨moved, k, r, hf⟩ := @framed nb sw x n
                obtain ⟨hlen, hws, -⟩ := hf.cleared_pct hs
                rw [hc, List.length_append, List.length_singleton] at hlen
                rw [hlen]
                exact Nat.le_trans hws (host_mono x n)

/-- A kept packet that the reader is done with is a whole stored packet. -/
theorem stored_of_kept {k : Nat} {f : Fate} (hk : (log sw x n).fates[k]? = some f)
    (hp : (CapPct.kept (captured sw x n))[k]? = some p) :
    (log sw x n).wr.stored[k]? = some p ∧ p.data.length = 255 := by
  have hring := ring hy hsw n
  have hlt := Nat.lt_of_lt_of_le (List.getElem?_eq_some_iff.mp hk).1 hring.done
  rw [(agree_run hy hsw n).pcts, WrLog.pcts, List.getElem?_append_left hlt] at hp
  exact ⟨hp, hring.whole p (List.mem_of_getElem? hp)⟩

/-- Each packet done with is one of the host's, whole, and was sent or thrown away for a reason. -/
theorem fates_spec {j : Nat} {f : Fate} (hf : (fates sw x n)[j]? = some f) :
    1024 * (j + 1) ≤ (host sw x n).length ∧ (f = .emitted → Due sw x n j (TxPct.ofHost (host sw x n) j)) ∧
      (f = .dropped → Late sw x n j (TxPct.ofHost (host sw x n) j)) := by
  obtain ⟨moved, k, r, hfr⟩ := @framed nb sw x n
  have hj := Nat.lt_of_lt_of_le (List.getElem?_eq_some_iff.mp hf).1 fatesOf_length_le
  have hc := List.getElem?_eq_getElem hj
  have hpre := hfr.words_prefix hc
  rcases fatesOf_spec hc hf with ⟨hd, rfl⟩ | ⟨hd, hk, hkept⟩
  · obtain ⟨hlate, hws⟩ := late_of_discarded hy hsw n j _ hc hd
    exact ⟨hws, (by cases ·), fun _ => hlate.of_hdr (ofHost_hdr hpre)⟩
  · obtain ⟨hst, hwhole⟩ := stored_of_kept hy hsw hk hkept
    obtain ⟨heq, hws⟩ := ofHost_eq hpre hwhole
    have hat : CapPct.StoredAt (captured sw x n) (log sw x n).wr (CapPct.keptBefore (captured sw x n) j) j :=
      ⟨⟨_, hc, hd⟩, rfl, (List.getElem?_eq_some_iff.mp hst).1⟩
    have hearned := (Packets2Data.fatesEarned_run (TxSmplFifo.inst0In sw y) (txEdges x n)).done _ _ f
      (by rw [← log_eq hsw hy]; exact hst) (by rw [← log_eq hsw hy]; exact hk)
    rw [heq]
    cases f with
    | emitted => exact ⟨hws, fun _ => due_of_due hy hsw hearned hat, (by cases ·)⟩
    | dropped => exact ⟨hws, (by cases ·), fun _ => late_of_late hy hsw hearned hat⟩

/-- The emitted packets of the buffers are the host's emitted packets. -/
theorem emitted_log (n : Nat) : (log sw x n).emitted = emitted (host sw x n) (fates sw x n) := by
  obtain ⟨moved, k, r, hfr⟩ := @framed nb sw x n
  have hring := ring hy hsw n
  have hag := agree_run hy hsw n
  have hlen : (log sw x n).fates.length ≤ (CapPct.kept (captured sw x n)).length := by
    rw [hag.pcts, WrLog.pcts, List.length_append]
    exact Nat.le_add_right_of_le hring.done
  have hzip : (log sw x n).emitted = (((CapPct.kept (captured sw x n)).zip (log sw x n).fates).filter
      fun pf => pf.2 == .emitted).map Prod.fst := by
    rw [hag.pcts, WrLog.pcts, TxLog.zip_append_of_le hring.done]
    rfl
  rw [hzip, emitted, fates]
  refine (emitted_fatesOf hlen (fun j c f hc hf hd => ?_) (by simp)).symm
  rcases fatesOf_spec hc hf with ⟨ht, -⟩ | ⟨-, hk, hkept⟩
  · rw [hd] at ht
    cases ht
  · have hj := (List.getElem?_eq_some_iff.mp hf).1
    rw [List.getElem?_map, List.getElem?_range hj, Option.map_some,
      (ofHost_eq (hfr.words_prefix hc) (stored_of_kept hy hsw hk hkept).2).1]

/-- The packet that the reader is at is the first of the host's packets that is not done with. -/
theorem reading_log (hp : (log sw x n).wr.stored[(log sw x n).fates.length]? = some p) :
    p = TxPct.ofHost (host sw x n) (fates sw x n).length := by
  obtain ⟨moved, k, r, hfr⟩ := @framed nb sw x n
  obtain ⟨c, hc, hcp, -⟩ := getElem?_length_fatesOf (kept_getElem? hy hsw hp)
  have hwhole := (ring hy hsw n).whole p (List.mem_of_getElem? hp)
  rw [← hcp] at hwhole ⊢
  exact (ofHost_eq (hfr.words_prefix hc) hwhole).1.symm

/-- The words that have gone into the sample FIFO `d` edges of the transmit clock after step `n`, when what the
unpacker has made of its words is on the write port `d` edges after the reader's part. -/
theorem words_sent {w d m : Nat} {lanes : BitVec w → BitVec 128} (hw : w ∣ 64 * 510)
    (hfull : ∀ k, ((TxSmplFifo.circuit nb sw).run y k).top.smplFifoWr.valid = true →
      ((TxSmplFifo.circuit nb sw).run y k).smplFifo.isFull = false)
    (hout : ∀ k, ∃ ws : List (BitVec w),
      Fills (bitString (words (fun j => ((TxSmplFifo.circuit nb sw).run y j).top.inst0.smplBuff.word) (k + 2))) ws ∧
        words (fun j => ((TxSmplFifo.circuit nb sw).run y j).top.smplFifoWr.word) (k + d) = ws.map lanes)
    (hm : txEdges x m = txEdges x n + d) :
    ∃ (vs us : List (BitVec w)) (rd : Nat),
      sent sw x m ++ ((circuit nb sw).run x m).smpl.smplFifo.store = (vs ++ us).map lanes ∧
      bitString vs = bitString ((emitted (host sw x n) (fates sw x n)).flatMap TxPct.payload) ∧
      Fills (bitString ((TxPct.ofHost (host sw x n) (fates sw x n).length).payload.take rd)) us := by
  obtain ⟨ws, hfill, hws⟩ := hout (txEdges x n)
  simp only [TxSmplFifo.run_inst0 sw hsw] at hfill
  obtain ⟨vs, us, rfl, hvs, hus⟩ := TxSmplFifo.split_emitted hw _ _ hfill
  have hin : sent sw x m ++ ((circuit nb sw).run x m).smpl.smplFifo.store = (vs ++ us).map lanes := by
    rw [sent_eq hy, (hy m).1, hm, ← hws]
    refine Fifo.taken_append_store_of_not_full _ rfl (fun k => rfl) (fun k hk => hfull k ?_) _
    by_contra hno
    exact hk (Port.word_eq_none.mpr (by simpa using hno))
  rw [← log_eq hsw hy] at hvs hus
  rw [← emitted_log hy hsw]
  cases hp : (log sw x n).wr.stored[(log sw x n).fates.length]? with
  | none =>
      rw [hp, Option.elim_none, List.take_nil] at hus
      exact ⟨vs, us, 0, hin, hvs, hus⟩
  | some p =>
      rw [hp] at hus
      rw [← reading_log hy hsw hp]
      exact ⟨vs, us, _, hin, hvs, hus⟩

end Ticks

variable (x)

theorem words_sent_w12 (hm : txEdges x m = txEdges x n + 6) :
    ∃ (vs us : List (BitVec 96)) (rd : Nat),
      sent SampleWidth.w12.code x m ++ ((circuit nb SampleWidth.w12.code).run x m).smpl.smplFifo.store =
        (vs ++ us).map Unpack64To48.spread ∧
      bitString vs = bitString ((emitted (host SampleWidth.w12.code x n)
        (fates SampleWidth.w12.code x n)).flatMap TxPct.payload) ∧
      Fills (bitString ((TxPct.ofHost (host SampleWidth.w12.code x n)
        (fates SampleWidth.w12.code x n).length).payload.take rd)) us := by
  obtain ⟨y, hy⟩ := exists_smpl_run SampleWidth.w12.code x
  refine words_sent hy rfl (by decide) (fun j hj => ?_) (fun j => ?_) hm
  · obtain ⟨i, rfl, hr⟩ := TxSmplFifo.request_of_write_w12 y j hj
    exact TxSmplFifo.not_full_of_request y i 6 (Nat.le_refl _) hr
  · obtain ⟨ws, hfill, hout⟩ := BitUnpack64.words_out_w12
      (fun m => ((TxSmplFifo.circuit nb SampleWidth.w12.code).run y m).top.inst0.smplBuff) (j + 2)
    refine ⟨ws, hfill, ?_⟩
    rw [← hout]
    simp only [← TxSmplFifo.run_inst1]
    rfl

theorem words_sent_w16 (hm : txEdges x m = txEdges x n + 4) :
    ∃ (vs us : List (BitVec 128)) (rd : Nat),
      sent SampleWidth.w16.code x m ++ ((circuit nb SampleWidth.w16.code).run x m).smpl.smplFifo.store =
        (vs ++ us).map id ∧
      bitString vs = bitString ((emitted (host SampleWidth.w16.code x n)
        (fates SampleWidth.w16.code x n)).flatMap TxPct.payload) ∧
      Fills (bitString ((TxPct.ofHost (host SampleWidth.w16.code x n)
        (fates SampleWidth.w16.code x n).length).payload.take rd)) us := by
  obtain ⟨y, hy⟩ := exists_smpl_run SampleWidth.w16.code x
  refine words_sent hy rfl (by decide) (fun j hj => ?_) (fun j => ?_) hm
  · obtain ⟨i, rfl, hr⟩ := TxSmplFifo.request_of_write_w16 y j hj
    exact TxSmplFifo.not_full_of_request y i 4 (by omega) hr
  · have hfill := BitUnpack64.words_out_w16
      (fun m => ((TxSmplFifo.circuit nb SampleWidth.w16.code).run y m).top.inst0.smplBuff) (j + 2)
    refine ⟨_, hfill, ?_⟩
    rw [List.map_id]
    simp only [← TxSmplFifo.run_inst1]
    rfl

end TxPath

end LimeSdrQpcie
