import LimeSdrQpcie.DynPs.PllPsTop

/-!
# Runs of the phase shift controller

A slave that keeps the bus waiting until it is asked takes every write once. So a shift that the search asks for is
three writes, and the search goes on only when they are made.
-/

namespace LimeSdrQpcie

open Hdl

namespace PllPsAv

variable {s : PllPsAv} {i : PllPsAvIn} {p : PsCtrl}

/-- The writes of a shift before a state. -/
def writesBefore : PllPsAvState → Nat
  | .idle | .writeMode => 0
  | .setDps | .writeDps => 1
  | .setStart | .writeStart => 2
  | .setStatus | .readStatus | .last => 3

/-- The writes of a shift so far. -/
def written (s : PllPsAv) : Nat := writesBefore s.state + s.writeCount.toNat

/-- A state that asks for the bus has just been entered, and has not asked yet. -/
def fresh (s : PllPsAv) : Bool := (s.state.writes && decide (s.writeCount = 0) || decide (s.state = .readStatus)) && !s.access

/-- The bus is asked for only in the states that want it, and a write stands there until it is taken. -/
structure Ok (s : PllPsAv) : Prop where
  count : s.writeCount = 0 ∨ s.writeCount = 1 ∧ s.state.writes = true
  write : s.mgmtWrite = true → s.state.writes = true ∧ s.writeCount = 0
  read : s.mgmtRead = true → s.state = .readStatus ∨ s.state = .last

theorem ok_reset : Ok reset := ⟨Or.inl rfl, (fun h => by cases h), (fun h => by cases h)⟩

theorem Ok.next (h : Ok s) (i : PllPsAvIn) : Ok (s.next i) := by
  refine ⟨?_, fun hm => ?_, fun hm => ?_⟩
  · rcases h.count with hc | ⟨hc, hst⟩
    · cases hst : s.state <;> cases hwait : i.mgmtWaitrequest <;>
        simp [PllPsAv.next, nextState, PllPsAvState.writes, hst, hc, hwait]
    · simp [PllPsAv.next, hst, hc]
  · simp only [PllPsAv.next, Bool.and_eq_true, decide_eq_true_eq] at hm
    obtain ⟨⟨hst, hc0⟩, hwait⟩ := hm
    cases hs : s.state <;> simp [PllPsAv.next, nextState, PllPsAvState.writes, hs, hc0, hwait] at hst ⊢
  · have hst : s.state = .readStatus := by simpa [PllPsAv.next] using hm
    simp only [PllPsAv.next, nextState, hst]
    split <;> simp

theorem Ok.access_of_idle (h : Ok s) (hst : s.state.writes = false) (hrd : s.state ≠ .readStatus ∧ s.state ≠ .last) :
    s.access = false := by
  have hwrite : s.mgmtWrite = false := Bool.eq_false_iff.mpr fun hm => by
    rw [(h.write hm).1] at hst
    cases hst
  have hread : s.mgmtRead = false := Bool.eq_false_iff.mpr fun hm => (h.read hm).elim hrd.1 hrd.2
  rw [access, hwrite, hread, Bool.or_self]

/-- Before a state that asks for the bus there is a cycle without an access. -/
theorem Ok.access_of_fresh_next (h : Ok s) (hf : (s.next i).fresh = true) : s.access = false ∧ (s.next i).access = false := by
  have hnot : (s.next i).access = false := by
    simp only [fresh, Bool.and_eq_true, Bool.not_eq_true'] at hf
    exact hf.2
  refine ⟨?_, hnot⟩
  cases hst : s.state with
  | idle => exact h.access_of_idle (by simp [hst, PllPsAvState.writes]) (by simp [hst])
  | setDps => exact h.access_of_idle (by simp [hst, PllPsAvState.writes]) (by simp [hst])
  | setStart => exact h.access_of_idle (by simp [hst, PllPsAvState.writes]) (by simp [hst])
  | setStatus => exact h.access_of_idle (by simp [hst, PllPsAvState.writes]) (by simp [hst])
  | readStatus => simp [access, PllPsAv.next, hst] at hnot
  | last => simp [fresh, PllPsAv.next, nextState, PllPsAvState.writes, hst] at hf
  | _ =>
      -- A write that waits stands on the bus, and one that was taken ends the state.
      exfalso
      rcases h.count with hc | ⟨hc, -⟩ <;> cases hwait : i.mgmtWaitrequest <;>
        simp [fresh, access, PllPsAv.next, nextState, PllPsAvState.writes, hst, hc, hwait] at hf

/-- What stands on the bus is the next write of the shift. -/
def Asks (p : PsCtrl) (s : PllPsAv) : Prop :=
  s.mgmtWrite = true → p.writes[writesBefore s.state]? = some (s.mgmtAddress, s.mgmtWritedata)

theorem asks_next (hup : i.updown = p.updown) (hcnt : i.cnt = p.cnt) (hph : i.phase = p.phase.setWidth 16) :
    Asks p (s.next i) := by
  intro hm
  simp only [PllPsAv.next, Bool.and_eq_true, decide_eq_true_eq] at hm
  obtain ⟨⟨hst, hc⟩, -⟩ := hm
  cases hs : s.state <;> simp [PllPsAvState.writes, hs] at hst <;>
    simp [PllPsAv.next, nextState, writesBefore, PsCtrl.writes, hs, hc, hup, hcnt, hph]

theorem write_eq_none (h : s.mgmtWrite = false) (w : Bool) : s.write w = none := by
  simp [write, h]

/-- A state that asks for a write is left when the write is taken, and only then. -/
theorem Ok.written_next_of_writes (h : Ok s) (hw : s.fresh = true → i.mgmtWaitrequest = true)
    (hst : s.state.writes = true) :
    (s.next i).state ≠ .idle ∧ (s.next i).written = s.written + (s.write i.mgmtWaitrequest).toList.length := by
  rcases h.count with hc | ⟨hc, -⟩
  · have hread : s.mgmtRead = false := Bool.eq_false_iff.mpr fun hm => by
      rcases h.read hm with hrd | hrd <;> rw [hrd] at hst <;> cases hst
    have hwait : s.mgmtWrite = true ∨ i.mgmtWaitrequest = true := by
      cases hm : s.mgmtWrite with
      | true => exact Or.inl rfl
      | false => exact Or.inr (hw (by simp [fresh, access, hst, hc, hread, hm]))
    cases hs : s.state <;> simp [PllPsAvState.writes, hs] at hst <;> cases hwt : i.mgmtWaitrequest <;>
      simp_all [written, PllPsAv.write, PllPsAv.next, nextState, writesBefore, PllPsAvState.writes]
  · have hm : s.mgmtWrite = false := Bool.eq_false_iff.mpr fun hm => by
      rw [(h.write hm).2] at hc
      cases hc
    rw [write_eq_none hm]
    cases hs : s.state <;> simp [PllPsAvState.writes, hs] at hst <;>
      simp [written, PllPsAv.next, nextState, writesBefore, PllPsAvState.writes, hs, hc]

/-- A shift goes on to its next write when one is taken. -/
theorem Ok.take_written_next (h : Ok s) (ha : Asks p s) (hw : s.fresh = true → i.mgmtWaitrequest = true)
    (hst : s.state ≠ .idle) : p.writes.take s.written ++ (s.write i.mgmtWaitrequest).toList =
      p.writes.take (if (s.next i).state = .idle then 3 else (s.next i).written) := by
  cases hs : s.state.writes with
  | true =>
      obtain ⟨hne, hwr⟩ := h.written_next_of_writes hw hs
      rw [if_neg hne, hwr]
      cases hm : s.write i.mgmtWaitrequest with
      | none => simp
      | some w =>
          have hasks : s.mgmtWrite = true ∧ (s.mgmtAddress, s.mgmtWritedata) = w := by
            simp only [PllPsAv.write, Bool.and_eq_true, Option.ite_none_right_eq_some, Option.some.injEq] at hm
            exact ⟨hm.1.1, hm.2⟩
          have hget : p.writes[s.written]? = some w := by
            rw [written, (h.write hasks.1).2, ← hasks.2]
            exact ha hasks.1
          rw [Option.toList_some, List.length_singleton, List.take_add_one, hget, Option.toList_some]
  | false =>
      have hm : s.mgmtWrite = false := Bool.eq_false_iff.mpr fun hm => by
        rw [(h.write hm).1] at hs
        cases hs
      have hc : s.writeCount = 0 := h.count.elim id fun hc => by
        rw [hc.2] at hs
        cases hs
      rw [write_eq_none hm, Option.toList_none, List.append_nil]
      congr 1
      cases hs' : s.state <;> simp [PllPsAvState.writes, hs'] at hs hst <;>
        simp [written, PllPsAv.next, nextState, writesBefore, PllPsAvState.writes, hs', hc]
      split <;> simp

end PllPsAv

/-! ## The controller behind the search -/

namespace PllPsFsm

variable {fsm : PllPsFsm} {av : PllPsAv} {cnt : BitVec 5} {i : PllPsFsmIn} {j : PllPsAvIn}

/-- The controller during a shift: it has not begun, it works, or it has come back. -/
inductive Shifting (fsm : PllPsFsm) (av : PllPsAv) : Prop
  | asked (hst : av.state = .idle) (hbusy : av.busy = false) (hbusyReg : fsm.psCtrlBusyReg = false)
      (henReg : av.enReg = false)
  | working (hst : av.state ≠ .idle) (hen : fsm.psCtrlEnReg = true) (henReg : av.enReg = true)
      (hfirst : av.busy = false → fsm.psCtrlBusyReg = false ∧ av.state = .writeMode)
  | back (hst : av.state = .idle) (hen : fsm.psCtrlEnReg = true) (henReg : av.enReg = true)
      (hbusyReg : fsm.psCtrlBusyReg = true)

/-- The controller between two shifts. The enable of the last one goes away while the search waits after it. -/
structure Resting (fsm : PllPsFsm) (av : PllPsAv) : Prop where
  state : av.state = .idle
  busy : av.busy = true → fsm.currentState = .idle
  busyReg : fsm.psCtrlBusyReg = true → fsm.currentState = .idle ∨ fsm.currentState = .rstPll
  en : fsm.psCtrlEnReg = true →
    fsm.currentState = .waitAfterPhShift ∧ fsm.waitAfterPhShiftCnt = 0 ∧ av.enReg = true
  enReg : av.enReg = true → fsm.currentState = .waitAfterPhShift ∧
    (fsm.waitAfterPhShiftCnt = 0 ∨ fsm.waitAfterPhShiftCnt = 1)

structure Linked (cnt : BitVec 5) (fsm : PllPsFsm) (av : PllPsAv) : Prop where
  ok : av.Ok
  asks : PllPsAv.Asks (fsm.psCtrl cnt) av
  shifting : fsm.currentState = .phShift → Shifting fsm av
  resting : fsm.currentState ≠ .phShift → Resting fsm av

/-- The inputs of the controller during a shift. -/
structure Drives (cnt : BitVec 5) (fsm : PllPsFsm) (j : PllPsAvIn) : Prop where
  en : j.en = fsm.psCtrlEnReg
  updown : fsm.currentState = .phShift → j.updown = fsm.psCtrlUpdwnReg
  cnt : fsm.currentState = .phShift → j.cnt = cnt
  phase : fsm.currentState = .phShift → j.phase = fsm.psCtrlPhaseReg.setWidth 16

theorem next_psCtrl (hst : fsm.currentState = .phShift) : (fsm.next i).psCtrl cnt = fsm.psCtrl cnt := by
  simp [psCtrl, PllPsFsm.next, hst]

theorem last_of_next_idle (hav : av.state ≠ .idle) (hav' : (av.next j).state = .idle) : av.state = .last := by
  cases hs : av.state <;> simp [PllPsAv.next, PllPsAv.nextState, hs] at hav' hav ⊢ <;> grind

/-- Where a shift comes from. -/
theorem before_phShift (h : fsm.nextState i = .phShift) : fsm.currentState = .phShift ∧ fsm.psCtrlBusyFalling i = false ∨
    fsm.currentState = .waitPllLock ∨ fsm.currentState = .checkMaxSteps ∨ fsm.currentState = .prepPhase := by
  cases hs : fsm.currentState <;> simp only [nextState, hs] at h <;> grind

theorem nextState_phShift (hst : fsm.currentState = .phShift) :
    fsm.nextState i = if fsm.psCtrlBusyFalling i then .waitAfterPhShift else .phShift := by
  simp [nextState, hst]

theorem nextState_waitAfter (hst : fsm.currentState = .waitAfterPhShift) (hc : fsm.waitAfterPhShiftCnt = 0) :
    fsm.nextState i = .waitAfterPhShift := by
  simp [nextState, hst, hc]

theorem Resting.next (h : Resting fsm av) (hst : fsm.currentState ≠ .phShift) (hbusy : i.psCtrlBusy = av.busy)
    (hreset : i.psResetAtStart = true) (hen : j.en = fsm.psCtrlEnReg) :
    ((fsm.next i).currentState = .phShift → Shifting (fsm.next i) (av.next j)) ∧
      ((fsm.next i).currentState ≠ .phShift → Resting (fsm.next i) (av.next j)) := by
  have hstate : (av.next j).state = .idle := by
    have hno : ¬ (j.en = true ∧ av.enReg = false) := fun hc => by
      rw [(h.en (hen ▸ hc.1)).2.2] at hc
      cases hc.2
    simp [PllPsAv.next, PllPsAv.nextState, h.state, hno]
  have hbusy' : (av.next j).busy = false := by simp [PllPsAv.next, h.state]
  have hbusyReg' : (fsm.next i).psCtrlBusyReg = true → fsm.currentState = .idle := fun hb =>
    h.busy (hbusy ▸ hb)
  have henReg' : (av.next j).enReg = true → fsm.currentState = .waitAfterPhShift ∧ fsm.waitAfterPhShiftCnt = 0 :=
    fun he => ⟨(h.en (hen ▸ he)).1, (h.en (hen ▸ he)).2.1⟩
  refine ⟨fun hst' => ?_, fun hst' => ⟨hstate, fun hb => ?_, fun hb => ?_, fun he => ?_, fun he => ?_⟩⟩
  · have hfrom := before_phShift hst'
    refine .asked hstate hbusy' (Bool.eq_false_iff.mpr fun hb => ?_) (Bool.eq_false_iff.mpr fun he => ?_)
    · rw [hbusyReg' hb] at hfrom
      simp at hfrom
    · rw [(henReg' he).1] at hfrom
      simp at hfrom
  · rw [hbusy'] at hb
    cases hb
  · have hidle := hbusyReg' hb
    simp only [PllPsFsm.next, nextState, hidle, hreset]
    split <;> simp
  · simp [PllPsFsm.next, hst] at he
  · obtain ⟨hw, hc⟩ := henReg' he
    exact ⟨nextState_waitAfter hw hc, Or.inr (by simp [PllPsFsm.next, hw, hc])⟩

theorem Shifting.next (h : Shifting fsm av) (hst : fsm.currentState = .phShift) (hbusy : i.psCtrlBusy = av.busy)
    (hen : j.en = fsm.psCtrlEnReg) :
    ((fsm.next i).currentState = .phShift → Shifting (fsm.next i) (av.next j)) ∧
      ((fsm.next i).currentState ≠ .phShift → Resting (fsm.next i) (av.next j)) := by
  have hen' : (fsm.next i).psCtrlEnReg = true := by simp [PllPsFsm.next, hst]
  have hbusyReg' : (fsm.next i).psCtrlBusyReg = av.busy := hbusy
  have henReg' : (av.next j).enReg = fsm.psCtrlEnReg := hen
  have hnext : (fsm.next i).currentState = fsm.nextState i := rfl
  rw [hnext, nextState_phShift hst, psCtrlBusyFalling, hbusy]
  cases h with
  | asked hav hb hbr her =>
      refine ⟨fun _ => ?_, fun hne => absurd (by simp [hbr]) hne⟩
      cases hs : fsm.psCtrlEnReg with
      | false =>
          refine .asked ?_ ?_ (hbusyReg'.trans hb) (henReg'.trans hs)
          · simp [PllPsAv.next, PllPsAv.nextState, hav, hen, hs]
          · simp [PllPsAv.next, hav]
      | true =>
          have hw : (av.next j).state = .writeMode := by
            simp [PllPsAv.next, PllPsAv.nextState, hav, hen, hs, her]
          exact .working (by rw [hw]; exact PllPsAvState.noConfusion) hen' (henReg'.trans hs) fun _ =>
            ⟨hbusyReg'.trans hb, hw⟩
  | working hav hs her hfirst =>
      have hfall : (fsm.psCtrlBusyReg && !av.busy) = false := by
        cases hb : av.busy with
        | true => simp
        | false => simp [(hfirst hb).1]
      refine ⟨fun _ => ?_, fun hne => absurd (by simp [hfall]) hne⟩
      have hbusy' : (av.next j).busy = true := by simp [PllPsAv.next, hav]
      by_cases hav' : (av.next j).state = .idle
      · have hlast : av.state = .last := by
          cases hs' : av.state <;> simp [PllPsAv.next, PllPsAv.nextState, hs'] at hav' hav ⊢ <;> grind
        have hb : av.busy = true := eq_true_of_ne_false fun hb =>
          PllPsAvState.noConfusion (hlast.symm.trans (hfirst hb).2)
        exact .back hav' hen' (henReg'.trans hs) (hbusyReg'.trans hb)
      · exact .working hav' hen' (henReg'.trans hs) fun hb => by
          rw [hbusy'] at hb
          cases hb
  | back hav hs her hbr =>
      have hav' : (av.next j).state = .idle := by simp [PllPsAv.next, PllPsAv.nextState, hav, her]
      have hbusy' : (av.next j).busy = false := by simp [PllPsAv.next, hav]
      cases hb : av.busy with
      | true =>
          exact ⟨fun _ => .back hav' hen' (henReg'.trans hs) (hbusyReg'.trans hb), fun hne => absurd (by simp) hne⟩
      | false =>
          refine ⟨fun hc => by simp [hbr] at hc, fun _ => ⟨hav', fun hc => ?_, fun hc => ?_, fun _ => ?_, fun _ => ?_⟩⟩
          · rw [hbusy'] at hc
            cases hc
          · rw [hbusyReg', hb] at hc
            cases hc
          · refine ⟨?_, ?_, henReg'.trans hs⟩
            · rw [hnext, nextState_phShift hst, psCtrlBusyFalling, hbusy]
              simp [hbr, hb]
            · simp [PllPsFsm.next, hst]
          · refine ⟨?_, Or.inl ?_⟩
            · rw [hnext, nextState_phShift hst, psCtrlBusyFalling, hbusy]
              simp [hbr, hb]
            · simp [PllPsFsm.next, hst]

theorem linked_reset (cnt : BitVec 5) (hst : fsm.currentState = .idle) (hen : fsm.psCtrlEnReg = false) :
    Linked cnt fsm PllPsAv.reset :=
  ⟨PllPsAv.ok_reset, (fun h => by cases h), (fun h => by rw [hst] at h; cases h), fun _ =>
    ⟨rfl, fun _ => hst, fun _ => Or.inl hst, fun h => (Bool.false_ne_true (hen.symm.trans h)).elim, fun h => by cases h⟩⟩

theorem Linked.next (h : Linked cnt fsm av) (hbusy : i.psCtrlBusy = av.busy) (hreset : i.psResetAtStart = true)
    (hd : Drives cnt fsm j) : Linked cnt (fsm.next i) (av.next j) := by
  by_cases hst : fsm.currentState = .phShift
  · obtain ⟨hs, hr⟩ := (h.shifting hst).next hst hbusy hd.en
    refine ⟨h.ok.next j, ?_, hs, hr⟩
    rw [next_psCtrl hst]
    exact PllPsAv.asks_next (hd.updown hst) (hd.cnt hst) (hd.phase hst)
  · obtain ⟨hs, hr⟩ := (h.resting hst).next hst hbusy hreset hd.en
    refine ⟨h.ok.next j, fun hm => ?_, hs, hr⟩
    simp [PllPsAv.next, (h.resting hst).state, PllPsAvState.writes] at hm

/-- The writes of the present shift so far. -/
def pending (fsm : PllPsFsm) (av : PllPsAv) : Nat :=
  if fsm.currentState = .phShift then
    if av.state = .idle then
      if fsm.psCtrlBusyReg then 3 else 0
    else av.written
  else 0

theorem Linked.write_of_idle (h : Linked cnt fsm av) (hst : av.state = .idle) (w : Bool) : av.write w = none :=
  PllPsAv.write_eq_none (Bool.eq_false_iff.mpr fun hm => by
    have hw := (h.ok.write hm).1
    rw [hst] at hw
    cases hw) w

/-- A write that is taken is the next one of the present shift, and a shift that is over has made its three writes. -/
theorem Linked.writes_next (h : Linked cnt fsm av) (hbusy : i.psCtrlBusy = av.busy) (hreset : i.psResetAtStart = true)
    (hd : Drives cnt fsm j) (hw : av.fresh = true → j.mgmtWaitrequest = true) :
    (fsm.psCtrl cnt).writes.take (pending fsm av) ++ (av.write j.mgmtWaitrequest).toList =
      (fsm.shifted cnt i).toList.flatMap PsCtrl.writes ++
        ((fsm.next i).psCtrl cnt).writes.take (pending (fsm.next i) (av.next j)) := by
  have hl := h.next hbusy hreset hd
  have hbusyReg' : (fsm.next i).psCtrlBusyReg = av.busy := hbusy
  by_cases hst : fsm.currentState = .phShift
  · have hst' : (fsm.next i).currentState = if fsm.psCtrlBusyFalling i then .waitAfterPhShift else .phShift :=
      nextState_phShift hst
    have hfall : fsm.psCtrlBusyFalling i = (fsm.psCtrlBusyReg && !av.busy) := by rw [psCtrlBusyFalling, hbusy]
    rw [next_psCtrl hst, shifted, pending, pending, hst', hfall, hbusyReg', if_pos hst]
    cases h.shifting hst with
    | asked hav hb hbr her =>
        rw [h.write_of_idle hav]
        have hc : av.writeCount = 0 := h.ok.count.elim id fun hc => by
          rw [hav] at hc
          cases hc.2
        by_cases hav' : (av.next j).state = .idle
        · simp [hav, hav', hb, hbr]
        · have hmode : (av.next j).state = .writeMode := by
            simp only [PllPsAv.next, PllPsAv.nextState, hav] at hav' ⊢
            split <;> simp_all
          have hwr : (av.next j).written = 0 := by
            have hc' : (av.next j).writeCount = 0 := by simp [PllPsAv.next, hav, PllPsAvState.writes, hc]
            simp [PllPsAv.written, hmode, hc', PllPsAv.writesBefore]
          simp [hav, hmode, hbr, hwr]
    | working hav hs her hfirst =>
        have hno : (fsm.psCtrlBusyReg && !av.busy) = false := by
          cases hb : av.busy with
          | true => simp
          | false => simp [(hfirst hb).1]
        have hback : (av.next j).state = .idle → av.busy = true := fun hav' => by
          have hlast := last_of_next_idle hav hav'
          exact eq_true_of_ne_false fun hb => PllPsAvState.noConfusion (hlast.symm.trans (hfirst hb).2)
        have htake := h.ok.take_written_next h.asks hw hav
        rw [if_neg hav, htake, hno]
        by_cases hav' : (av.next j).state = .idle
        · simp [hav', hback hav']
        · simp [hav']
    | back hav hs her hbr =>
        have hav' : (av.next j).state = .idle := by simp [PllPsAv.next, PllPsAv.nextState, hav, her]
        rw [h.write_of_idle hav]
        cases hb : av.busy <;> simp [hav, hav', hbr, hst, PsCtrl.writes]
  · have hnone : fsm.shifted cnt i = none := by simp [shifted, hst]
    have hzero : pending (fsm.next i) (av.next j) = 0 := by
      by_cases hst' : (fsm.next i).currentState = .phShift
      · have hen' : (fsm.next i).psCtrlEnReg = false := by simp [PllPsFsm.next, hst]
        cases hl.shifting hst' with
        | asked hav hb hbr her => simp [pending, hav, hbr]
        | working hav hs her hfirst => exact Bool.noConfusion (hen'.symm.trans hs)
        | back hav hs her hbr => exact Bool.noConfusion (hen'.symm.trans hs)
      · rw [pending, if_neg hst']
    rw [h.write_of_idle (h.resting hst).state, hnone, hzero, pending, if_neg hst]
    rfl

/-! ## A shift ends -/

/-- The bus keeps the controller waiting in this cycle. -/
def stuck (av : PllPsAv) (j : PllPsAvIn) : Bool :=
  av.mgmtWrite && j.mgmtWaitrequest ||
    decide (av.state = .readStatus) && av.mgmtRead && !(j.mgmtReaddata.getLsbD 0 && !j.mgmtWaitrequest)

theorem stuck_of_write (h : av.Ok) (hm : av.mgmtWrite = true) : stuck av j = j.mgmtWaitrequest := by
  have hst : av.state ≠ .readStatus := fun hst => by
    have hwr := (h.write hm).1
    rw [hst] at hwr
    cases hwr
  simp [stuck, hm, hst]

theorem stuck_of_readStatus (h : av.Ok) (hst : av.state = .readStatus) (hm : av.mgmtRead = true) :
    stuck av j = !(j.mgmtReaddata.getLsbD 0 && !j.mgmtWaitrequest) := by
  have hwrite : av.mgmtWrite = false := Bool.eq_false_iff.mpr fun hw => by
    have hwr := (h.write hw).1
    rw [hst] at hwr
    cases hwr
  simp [stuck, hm, hst, hwrite]

/-- The states that are left, the present one included. -/
def statesLeft : PllPsAvState → Nat
  | .idle => 0
  | .writeMode => 8
  | .setDps => 7
  | .writeDps => 6
  | .setStart => 5
  | .writeStart => 4
  | .setStatus => 3
  | .readStatus => 2
  | .last => 1

/-- How long a state still takes: less when it has asked for the bus, and less again when it has its answer. -/
def stageLeft (av : PllPsAv) : Nat :=
  if av.writeCount = 1 then 0 else if av.access then 1 else 2

/-- What falls during a shift unless the bus keeps it waiting. -/
def shiftLeft (fsm : PllPsFsm) (av : PllPsAv) : Nat :=
  if av.state = .idle then
    if fsm.psCtrlBusyReg then av.busy.toNat else if fsm.psCtrlEnReg then 40 else 41
  else 4 * statesLeft av.state + stageLeft av

theorem stageLeft_le (av : PllPsAv) : stageLeft av ≤ 2 := by
  unfold stageLeft
  split
  · omega
  · split <;> omega

theorem stageLeft_next_of_writes (h : av.Ok) (hw : av.fresh = true → j.mgmtWaitrequest = true)
    (hwr : av.state.writes = true) (hsame : (av.next j).state = av.state) : stageLeft (av.next j) ≤ stageLeft av ∧
      (stuck av j = false → stageLeft (av.next j) < stageLeft av) := by
  have hc : av.writeCount = 0 := h.count.elim id fun hc => by
    cases hs : av.state <;> simp [PllPsAv.next, PllPsAv.nextState, PllPsAvState.writes, hs, hc.1] at hsame hwr
  have hread : av.mgmtRead = false := Bool.eq_false_iff.mpr fun hm => by
    rcases h.read hm with hrd | hrd <;> rw [hrd] at hwr <;> cases hwr
  have hwait : av.mgmtWrite = true ∨ j.mgmtWaitrequest = true := by
    cases hm : av.mgmtWrite with
    | true => exact Or.inl rfl
    | false => exact Or.inr (hw (by simp [PllPsAv.fresh, PllPsAv.access, hwr, hc, hread, hm]))
  cases hm : av.mgmtWrite <;> cases hwt : j.mgmtWaitrequest <;>
    simp_all [stageLeft, stuck, PllPsAv.access, PllPsAv.next]

theorem readStatus_of_same (hst : av.state ≠ .idle) (hwr : av.state.writes = false)
    (hsame : (av.next j).state = av.state) : av.state = .readStatus := by
  cases hs : av.state <;> simp [PllPsAv.next, PllPsAv.nextState, PllPsAvState.writes, hs] at hsame hwr hst ⊢

theorem stageLeft_next_of_readStatus (h : av.Ok) (hst : av.state = .readStatus) (hsame : (av.next j).state = av.state) :
    stageLeft (av.next j) ≤ stageLeft av ∧ (stuck av j = false → stageLeft (av.next j) < stageLeft av) := by
  have hc : av.writeCount = 0 := h.count.elim id fun hc => by
    rw [hst] at hc
    cases hc.2
  have hwrite : av.mgmtWrite = false := Bool.eq_false_iff.mpr fun hm => by
    have hwr := (h.write hm).1
    rw [hst] at hwr
    cases hwr
  cases hm : av.mgmtRead <;> cases hwt : j.mgmtWaitrequest <;> cases hrd : j.mgmtReaddata.getLsbD 0 <;>
    simp_all [stageLeft, stuck, PllPsAv.access, PllPsAv.next, PllPsAv.nextState, PllPsAvState.writes]

/-- A state of the controller either waits for the bus or comes closer to the end of the shift. -/
theorem left_next (h : av.Ok) (hw : av.fresh = true → j.mgmtWaitrequest = true) (hst : av.state ≠ .idle) :
    4 * statesLeft (av.next j).state + stageLeft (av.next j) ≤ 4 * statesLeft av.state + stageLeft av ∧
      (stuck av j = false →
        4 * statesLeft (av.next j).state + stageLeft (av.next j) < 4 * statesLeft av.state + stageLeft av) := by
  have hle := stageLeft_le (av.next j)
  by_cases hsame : (av.next j).state = av.state
  · have hstage : stageLeft (av.next j) ≤ stageLeft av ∧ (stuck av j = false → stageLeft (av.next j) < stageLeft av) := by
      cases hwr : av.state.writes with
      | true => exact stageLeft_next_of_writes h hw hwr hsame
      | false => exact stageLeft_next_of_readStatus h (readStatus_of_same hst hwr hsame) hsame
    rw [hsame]
    exact ⟨by omega, fun hs => by have := hstage.2 hs; omega⟩
  · have hlt : statesLeft (av.next j).state < statesLeft av.state := by
      cases hs : av.state <;> simp [PllPsAv.next, PllPsAv.nextState, hs] at hsame hst ⊢ <;> grind [statesLeft]
    exact ⟨by omega, fun _ => by omega⟩

theorem Linked.shiftLeft_next (h : Linked cnt fsm av) (hst : fsm.currentState = .phShift)
    (hfall : fsm.psCtrlBusyFalling i = false) (hbusy : i.psCtrlBusy = av.busy) (hen : j.en = fsm.psCtrlEnReg)
    (hw : av.fresh = true → j.mgmtWaitrequest = true) :
    shiftLeft (fsm.next i) (av.next j) ≤ shiftLeft fsm av ∧
      (stuck av j = false → shiftLeft (fsm.next i) (av.next j) < shiftLeft fsm av) := by
  have hbusyReg' : (fsm.next i).psCtrlBusyReg = av.busy := hbusy
  have hen' : (fsm.next i).psCtrlEnReg = true := by simp [PllPsFsm.next, hst]
  have hlow := stageLeft_le (av.next j)
  cases h.shifting hst with
  | asked hav hb hbr her =>
      have hlt : shiftLeft (fsm.next i) (av.next j) < shiftLeft fsm av := by
        cases hs : fsm.psCtrlEnReg with
        | false =>
            have hav' : (av.next j).state = .idle := by simp [PllPsAv.next, PllPsAv.nextState, hav, hen, hs]
            simp [shiftLeft, hav, hav', hbusyReg', hb, hbr, hen', hs]
        | true =>
            have hav' : (av.next j).state = .writeMode := by
              simp [PllPsAv.next, PllPsAv.nextState, hav, hen, hs, her]
            simp [shiftLeft, hav, hav', hbr, hs, statesLeft]
            omega
      exact ⟨Nat.le_of_lt hlt, fun _ => hlt⟩
  | working hav hs her hfirst =>
      obtain ⟨hle, hlt⟩ := left_next h.ok hw hav
      by_cases hav' : (av.next j).state = .idle
      · have hlast := last_of_next_idle hav hav'
        have hb : av.busy = true := eq_true_of_ne_false fun hb =>
          PllPsAvState.noConfusion (hlast.symm.trans (hfirst hb).2)
        have hone : (av.next j).busy.toNat ≤ 1 := Bool.toNat_le _
        simp only [shiftLeft, hav', hbusyReg', hb, hlast, statesLeft]
        simp
        omega
      · simpa [shiftLeft, hav, hav'] using ⟨hle, hlt⟩
  | back hav hs her hbr =>
      have hav' : (av.next j).state = .idle := by simp [PllPsAv.next, PllPsAv.nextState, hav, her]
      have hb : av.busy = true := by
        rw [psCtrlBusyFalling, hbr, hbusy] at hfall
        simpa using hfall
      have hb' : (av.next j).busy = false := by simp [PllPsAv.next, hav]
      have hlt : shiftLeft (fsm.next i) (av.next j) < shiftLeft fsm av := by
        simp [shiftLeft, hav, hav', hbusyReg', hb, hb', hbr]
      exact ⟨Nat.le_of_lt hlt, fun _ => hlt⟩

/-! ## Runs -/

/-- A run of the search and the controller, with a slave that keeps the bus waiting when nobody asks. -/
structure ShiftRun (cnt : BitVec 5) (fsm : Nat → PllPsFsm) (av : Nat → PllPsAv) (i : Nat → PllPsFsmIn)
    (j : Nat → PllPsAvIn) : Prop where
  currentState : (fsm 0).currentState = .idle
  psCtrlEnReg : (fsm 0).psCtrlEnReg = false
  reset : av 0 = PllPsAv.reset
  fsm_succ : ∀ n, fsm (n + 1) = (fsm n).next (i n)
  av_succ : ∀ n, av (n + 1) = (av n).next (j n)
  busy : ∀ n, (i n).psCtrlBusy = (av n).busy
  resetAtStart : ∀ n, (i n).psResetAtStart = true
  drives : ∀ n, Drives cnt (fsm n) (j n)
  waits : ∀ n, (av n).access = false → (av (n + 1)).access = false → (j (n + 1)).mgmtWaitrequest = true

namespace ShiftRun

variable {fsm : Nat → PllPsFsm} {av : Nat → PllPsAv} {i : Nat → PllPsFsmIn} {j : Nat → PllPsAvIn}

theorem linked (h : ShiftRun cnt fsm av i j) (n : Nat) : Linked cnt (fsm n) (av n) := by
  induction n with
  | zero =>
      rw [h.reset]
      exact linked_reset cnt h.currentState h.psCtrlEnReg
  | succ n ih =>
      rw [h.fsm_succ, h.av_succ]
      exact ih.next (h.busy n) (h.resetAtStart n) (h.drives n)

theorem wait_of_fresh (h : ShiftRun cnt fsm av i j) (n : Nat) (hf : (av n).fresh = true) :
    (j n).mgmtWaitrequest = true := by
  cases n with
  | zero =>
      rw [h.reset] at hf
      cases hf
  | succ n =>
      rw [h.av_succ] at hf
      obtain ⟨h0, h1⟩ := (h.linked n).ok.access_of_fresh_next hf
      exact h.waits n h0 (by rw [h.av_succ]; exact h1)

/-- The writes so far are those of the shifts that are over, and the first ones of the present shift. -/
theorem writes_run (h : ShiftRun cnt fsm av i j) (n : Nat) :
    words (fun m => (av m).write (j m).mgmtWaitrequest) n =
      (words (fun m => (fsm m).shifted cnt (i m)) n).flatMap PsCtrl.writes ++
        ((fsm n).psCtrl cnt).writes.take (pending (fsm n) (av n)) := by
  induction n with
  | zero => simp [pending, h.currentState]
  | succ n ih =>
      have hstep := (h.linked n).writes_next (h.busy n) (h.resetAtStart n) (h.drives n) (h.wait_of_fresh n)
      rw [words_succ, words_succ, ih, List.append_assoc, hstep, List.flatMap_append, List.append_assoc, h.fsm_succ,
        h.av_succ]

/-- No access waits for ever: a write is taken, and a read of the status says at last that the shift is made. -/
structure Answers (av : Nat → PllPsAv) (j : Nat → PllPsAvIn) : Prop where
  write : ∀ n, (∀ m, n ≤ m → (av m).mgmtWrite = true) → ∃ m, n ≤ m ∧ (j m).mgmtWaitrequest = false
  read : ∀ n, (∀ m, n ≤ m → (av m).mgmtRead = true) →
    ∃ m, n ≤ m ∧ (j m).mgmtReaddata.getLsbD 0 = true ∧ (j m).mgmtWaitrequest = false

theorem not_stuck (h : ShiftRun cnt fsm av i j) (ha : Answers av j) (n : Nat) :
    ∃ m, n ≤ m ∧ (!stuck (av m) (j m)) = true := by
  by_contra hno
  have hstuck : ∀ m, n ≤ m → stuck (av m) (j m) = true := fun m hm => by
    by_contra hs
    exact hno ⟨m, hm, by simpa using hs⟩
  cases hw : (av n).mgmtWrite with
  | true =>
      have hall : ∀ k, (av (n + k)).mgmtWrite = true := fun k => by
        induction k with
        | zero => exact hw
        | succ k ih =>
            have hs := hstuck (n + k) (Nat.le_add_right n k)
            rw [stuck_of_write (h.linked _).ok ih] at hs
            obtain ⟨hwr, hc⟩ := (h.linked (n + k)).ok.write ih
            rw [← Nat.add_assoc, h.av_succ]
            simp [PllPsAv.next, hwr, hc, hs]
      obtain ⟨m, hm, hwait⟩ := ha.write n fun m hm => by
        rw [← Nat.add_sub_cancel' hm]
        exact hall _
      have hs := hstuck m hm
      rw [stuck_of_write (h.linked m).ok (by rw [← Nat.add_sub_cancel' hm]; exact hall _), hwait] at hs
      cases hs
  | false =>
      have hall : ∀ k, (av (n + k)).state = .readStatus ∧ (av (n + k)).mgmtRead = true := fun k => by
        induction k with
        | zero =>
            have hs := hstuck n (Nat.le_refl n)
            simp only [stuck, hw, Bool.false_and, Bool.false_or, Bool.and_eq_true, decide_eq_true_eq] at hs
            exact hs.1
        | succ k ih =>
            have hs := hstuck (n + k) (Nat.le_add_right n k)
            rw [stuck_of_readStatus (h.linked _).ok ih.1 ih.2] at hs
            rw [← Nat.add_assoc, h.av_succ]
            have hnot : ¬ ((j (n + k)).mgmtReaddata.getLsbD 0 = true ∧ (j (n + k)).mgmtWaitrequest = false) := by
              rintro ⟨hd, hwait⟩
              rw [hd, hwait] at hs
              cases hs
            exact ⟨by simp only [PllPsAv.next, PllPsAv.nextState, ih.1, if_neg hnot], by simp [PllPsAv.next, ih.1]⟩
      obtain ⟨m, hm, hd, hwait⟩ := ha.read n fun m hm => by
        rw [← Nat.add_sub_cancel' hm]
        exact (hall _).2
      have hs := hstuck m hm
      obtain ⟨hst, hrd⟩ := hall (m - n)
      rw [Nat.add_sub_cancel' hm] at hst hrd
      rw [stuck_of_readStatus (h.linked m).ok hst hrd, hd, hwait] at hs
      cases hs

/-- A shift that the search asks for ends, and is the next one. -/
theorem exists_shifted (h : ShiftRun cnt fsm av i j) (ha : Answers av j) {n : Nat}
    (hst : (fsm n).currentState = .phShift) : ∃ m, n ≤ m ∧ (fsm m).psCtrlBusyFalling (i m) = true ∧
      (fsm (m + 1)).currentState = .waitAfterPhShift ∧ words (fun m => (fsm m).shifted cnt (i m)) (m + 1) =
        words (fun m => (fsm m).shifted cnt (i m)) n ++ [(fsm n).psCtrl cnt] := by
  have hlead := leads_to_of_falls (v := fun m => shiftLeft (fsm m) (av m))
    (P := fun m => (fsm m).currentState = .phShift ∧ (fsm m).psCtrl cnt = (fsm n).psCtrl cnt ∧
      words (fun m => (fsm m).shifted cnt (i m)) m = words (fun m => (fsm m).shifted cnt (i m)) n)
    (Q := fun m => (fsm m).psCtrlBusyFalling (i m) = true) (h.not_stuck ha) (fun m hm hq => ?_) ⟨hst, rfl, rfl⟩
  · obtain ⟨m, hm, ⟨hst', hctrl, hwords⟩, hq⟩ := hlead
    refine ⟨m, hm, hq, ?_, ?_⟩
    · rw [h.fsm_succ]
      exact (nextState_phShift hst').trans (if_pos hq)
    · have hsome : (fsm m).shifted cnt (i m) = some ((fsm n).psCtrl cnt) := by rw [shifted, if_pos ⟨hst', hq⟩, hctrl]
      rw [words_succ_of_some hsome, hwords]
  · obtain ⟨hst', hctrl, hwords⟩ := hm
    have hq' := Bool.eq_false_iff.mpr hq
    obtain ⟨hle, hlt⟩ := (h.linked m).shiftLeft_next hst' hq' (h.busy m) (h.drives m).en (h.wait_of_fresh m)
    rw [← h.fsm_succ, ← h.av_succ] at hle hlt
    refine ⟨⟨?_, ?_, ?_⟩, hle, fun hb => hlt (by simpa using hb)⟩
    · rw [h.fsm_succ]
      exact (nextState_phShift hst').trans (by rw [hq', if_neg Bool.false_ne_true])
    · rw [h.fsm_succ, next_psCtrl hst', hctrl]
    · have hnone : (fsm m).shifted cnt (i m) = none := by simp [shifted, hq']
      rw [words_succ_of_none hnone, hwords]

end ShiftRun

end PllPsFsm

/-! ## Runs of `pll_ps_top` -/

namespace PllPsTop

variable (x : Nat → PllPsTopIn)

def topAt (n : Nat) : PllPsTop := circuit.run x n

/-- The writes that the bus has taken. -/
def writesAt (n : Nat) : List (BitVec 6 × BitVec 32) :=
  words (fun m => (topAt x m).inst0.write (x m).pllMgmtWaitrequest) n

/-- The shifts that the search has seen come to their ends. -/
def shiftsAt (n : Nat) : List PsCtrl :=
  words (fun m => (topAt x m).inst1.shifted (topAt x m).psCntReg ((topAt x m).inst1In (x m))) n

/-- The bus keeps the controller waiting when it has not asked in this cycle and the one before. -/
def Waits : Prop := ∀ n, (topAt x n).inst0.access = false → (topAt x (n + 1)).inst0.access = false →
  (x (n + 1)).pllMgmtWaitrequest = true

def Answers : Prop :=
  PllPsFsm.ShiftRun.Answers (fun n => (topAt x n).inst0) fun n => (topAt x n).inst0In (x n)

variable {x} {cnt : BitVec 5}

/-- From the start of a search on, its counter is latched. -/
theorem psCntReg_run (hcnt : ∀ n, (x n).psCnt = cnt) (n : Nat) (hst : (topAt x n).inst1.currentState ≠ .idle) :
    (topAt x n).psCntReg = cnt := by
  induction n with
  | zero => exact absurd rfl hst
  | succ n ih =>
      have hreg : (topAt x (n + 1)).psCntReg =
          if (topAt x n).inst1.psEnRising ((topAt x n).inst1In (x n)) then (x n).psCnt else (topAt x n).psCntReg := rfl
      rw [hreg]
      split
      · exact hcnt n
      · refine ih fun hidle => hst ?_
        have hnext : (topAt x (n + 1)).inst1.currentState =
            (topAt x n).inst1.nextState ((topAt x n).inst1In (x n)) := rfl
        rw [hnext]
        simp_all [PllPsFsm.nextState]

theorem shiftRun (hmode : ∀ n, (x n).psMode = true) (hcnt : ∀ n, (x n).psCnt = cnt) (hw : Waits x) :
    PllPsFsm.ShiftRun cnt (fun n => (topAt x n).inst1) (fun n => (topAt x n).inst0)
      (fun n => (topAt x n).inst1In (x n)) (fun n => (topAt x n).inst0In (x n)) where
  currentState := rfl
  psCtrlEnReg := rfl
  reset := rfl
  fsm_succ _ := rfl
  av_succ _ := rfl
  busy _ := rfl
  resetAtStart _ := rfl
  drives n :=
    ⟨by simp [inst0In, hmode], fun _ => by simp [inst0In, hmode], fun hst => by
      simp [inst0In, hmode, psCntReg_run hcnt n (by rw [hst]; exact PllPsState.noConfusion)], fun _ => by
      simp [inst0In, hmode]⟩
  waits := hw

theorem shiftsAt_eq (hcnt : ∀ n, (x n).psCnt = cnt) (n : Nat) :
    shiftsAt x n = words (fun m => (topAt x m).inst1.shifted cnt ((topAt x m).inst1In (x m))) n :=
  words_congr fun m _ => by
    by_cases hst : (topAt x m).inst1.currentState = .phShift
    · rw [psCntReg_run hcnt m (by rw [hst]; exact PllPsState.noConfusion)]
    · simp [PllPsFsm.shifted, hst]

end PllPsTop

end LimeSdrQpcie
