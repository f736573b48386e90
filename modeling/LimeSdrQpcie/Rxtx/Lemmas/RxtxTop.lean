import LimeSdrQpcie.Rx.Lemmas.PctFifo
import LimeSdrQpcie.Rx.Lemmas.RxPath
import LimeSdrQpcie.Rxtx.RxtxTop

/-!
# The way of the loss flag

The level that tells the transmit path of a captured header passes five places on its way to the loss flag. As
long as no rising edge is on the way the flag cannot be cleared. Whether a packet is written is decided when
`data2packets_fsm` leaves its idle state, long before the packet begins.
-/

namespace LimeSdrQpcie

open Hdl

namespace RxtxTop

variable {pw : PctBuffWidth} {mode : RxMode}

/-! ## Rising edges on the way -/

/-- `data2packets` takes the words of a packet: `pct_state` is `"01"`. -/
def capturing (s : RxtxTop pw) : Bool :=
  s.inst5.inst2.top.inst2.pctState s.inst5.inst2.top.inst1.dataOut.valid == 0b01

/-- A rising edge is between `pct_state` and the end of the synchroniser. -/
def hdrCapUnderway (s : RxtxTop pw) : Bool :=
  (s.capturing && !s.inst5.pctHdrCap) || (s.inst5.pctHdrCap && !s.pctLossFlgClrSync.syncReg0) ||
    (s.pctLossFlgClrSync.syncReg0 && !s.pctLossFlgClrSync.syncReg1)

/-- No rising edge is on the way to the flag. -/
structure Quiet (s : RxtxTop pw) : Prop where
  capturing : s.capturing = true → s.inst5.pctHdrCap = true
  pctHdrCap : s.inst5.pctHdrCap = true → s.pctLossFlgClrSync.syncReg0 = true
  syncReg0 : s.pctLossFlgClrSync.syncReg0 = true → s.pctLossFlgClrSync.syncReg1 = true
  syncReg1 : s.pctLossFlgClrSync.syncReg1 = true → s.pctLossFlgClrSyncReg = true

theorem inst5_next_of_rxClk {s : RxtxTop pw} {i : RxtxTopIn} (h : i.rxClk = true) :
    (s.next mode i).inst5 = s.inst5.next mode (s.inst5In i) := if_pos h

theorem inst5_next_of_not_rxClk {s : RxtxTop pw} {i : RxtxTopIn} (h : i.rxClk = false) :
    (s.next mode i).inst5 = s.inst5 := if_neg (by rw [h]; decide)

theorem pctHdrCap_next {s : RxtxTop pw} {i : RxtxTopIn} (h : i.rxClk = true) :
    (s.next mode i).inst5.pctHdrCap = s.capturing := by
  rw [inst5_next_of_rxClk h]
  have hcap : (s.inst5.next mode (s.inst5In i)).pctHdrCap =
      if s.inst5.inst2.top.inst2.pctState s.inst5.inst2.top.inst1.dataOut.valid = 0b01 then true else false := rfl
  rw [hcap, capturing]
  split <;> simp_all

/-- `pct_state` rises only when a packet begins. -/
theorem capturing_of_next {s : RxtxTop pw} {i : RxtxTopIn} (hrx : i.rxClk = true) (hb : s.begins i = false)
    (h : (s.next mode i).capturing = true) : s.capturing = true := by
  rw [capturing, inst5_next_of_rxClk hrx, beq_iff_eq] at h
  have hns : (s.inst5.next mode (s.inst5In i)).inst2.top.inst2.currentState =
      s.inst5.inst2.top.inst2.nextState s.inst5.inst2.top.inst1.dataOut.valid := rfl
  rw [Data2Packets.pctState, hns, Data2Packets.nextState] at h
  rw [capturing, Data2Packets.pctState, beq_iff_eq]
  cases hs : s.inst5.inst2.top.inst2.currentState with
  | idle =>
      cases hv : s.inst5.inst2.top.inst1.dataOut.valid with
      | false => simp [hs, hv] at h
      | true => simp [begins, hrx, hs, hv] at hb
  | s0 => rfl
  | s1 =>
      cases hv : s.inst5.inst2.top.inst1.dataOut.valid with
      | false => rfl
      | true => simp [hs, hv] at h
  | s2 => by_cases h0 : s.inst5.inst2.top.inst2.pctEndCnt = 0 <;> simp [hs, h0] at h
  | s3 => simp [hs] at h

/-- What has passed `pct_state` and the register behind it moves on with the clock of the receive path. -/
theorem capturing_next {s : RxtxTop pw} {i : RxtxTopIn} (hc : s.capturing = true → s.inst5.pctHdrCap = true)
    (hb : s.begins i = false) :
    ((s.next mode i).capturing = true → (s.next mode i).inst5.pctHdrCap = true) ∧
      ((s.next mode i).inst5.pctHdrCap = true → s.inst5.pctHdrCap = true) := by
  cases hrx : i.rxClk with
  | true =>
      rw [pctHdrCap_next hrx]
      exact ⟨capturing_of_next hrx hb, hc⟩
  | false =>
      rw [capturing, inst5_next_of_not_rxClk hrx]
      exact ⟨hc, fun h => h⟩

theorem quiet_next_of_txClk {s : RxtxTop pw} {i : RxtxTopIn} (htx : i.txClk = true)
    (hw : s.hdrCapUnderway = false) (hb : s.begins i = false) : Quiet (s.next mode i) := by
  rw [hdrCapUnderway, Bool.or_eq_false_iff, Bool.or_eq_false_iff] at hw
  obtain ⟨⟨hc, hh⟩, h0⟩ := hw
  have hc' : s.capturing = true → s.inst5.pctHdrCap = true := fun h => by simpa [h] using hc
  obtain ⟨hcap, hhdr⟩ := @capturing_next pw mode s i hc' hb
  have hsync : (s.next mode i).pctLossFlgClrSync = s.pctLossFlgClrSync.next s.inst5.pctHdrCap := if_pos htx
  have hreg : (s.next mode i).pctLossFlgClrSyncReg = s.pctLossFlgClrSync.syncReg1 := if_pos htx
  refine ⟨hcap, ?_, ?_, ?_⟩
  · rw [hsync]; exact hhdr
  · rw [hsync]; intro h; simpa [SyncReg.next, show s.inst5.pctHdrCap = true from h] using hh
  · rw [hsync, hreg]; intro h; simpa [show s.pctLossFlgClrSync.syncReg0 = true from h] using h0

theorem Quiet.hdrCapUnderway {s : RxtxTop pw} (h : Quiet s) : s.hdrCapUnderway = false := by
  obtain ⟨hc, hh, h0, _⟩ := h
  rw [RxtxTop.hdrCapUnderway]
  cases hc' : s.capturing <;> cases hh' : s.inst5.pctHdrCap <;> cases h0' : s.pctLossFlgClrSync.syncReg0 <;>
    simp_all

theorem quiet_next {s : RxtxTop pw} {i : RxtxTopIn} (hq : Quiet s) (hb : s.begins i = false) :
    Quiet (s.next mode i) := by
  cases htx : i.txClk with
  | true => exact quiet_next_of_txClk htx hq.hdrCapUnderway hb
  | false =>
      obtain ⟨hcap, hhdr⟩ := @capturing_next pw mode s i hq.capturing hb
      have hsync : (s.next mode i).pctLossFlgClrSync = s.pctLossFlgClrSync := if_neg (by rw [htx]; decide)
      have hreg : (s.next mode i).pctLossFlgClrSyncReg = s.pctLossFlgClrSyncReg := if_neg (by rw [htx]; decide)
      refine ⟨hcap, fun h => ?_, ?_, ?_⟩
      · rw [hsync]; exact hq.pctHdrCap (hhdr h)
      · rw [hsync]; exact hq.syncReg0
      · rw [hsync, hreg]; exact hq.syncReg1

/-- The flag stays while nothing is on the way to clear it. -/
theorem pctLossFlgInt_next {s : RxtxTop pw} {i : RxtxTopIn} (hq : Quiet s) (hf : s.pctLossFlgInt = true) :
    (s.next mode i).pctLossFlgInt = true := by
  have hclr : s.pctLossFlgClr = false := by
    rw [pctLossFlgClr, SyncReg.syncOut]
    cases h1 : s.pctLossFlgClrSync.syncReg1 with
    | false => rfl
    | true => rw [hq.syncReg1 h1]; rfl
  have h : (s.next mode i).pctLossFlgInt =
      if s.pctLoss i then true else if i.txClk && s.pctLossFlgClr then false else s.pctLossFlgInt := rfl
  rw [h, hclr, hf, Bool.and_false]
  simp

variable (pw mode) in
/-- The registers in instant `n`. -/
def stateAt (x : Nat → RxtxTopIn) (n : Nat) : RxtxTop pw := (circuit pw mode).run x n

theorem stateAt_succ (x : Nat → RxtxTopIn) (n : Nat) :
    stateAt pw mode x (n + 1) = (stateAt pw mode x n).next mode (x n) := rfl

/-! ## The receive path on its own clock -/

/-- On its clock the receive path runs as `data2packets_top` between its FIFOs. -/
theorem exists_rigIn (x : Nat → RxtxTopIn) : ∃ y : Nat → Data2PacketsRigIn, ∀ n,
    (stateAt pw mode x n).inst5.inst2 =
      Data2PacketsRig.stateAt pw mode.sampleWidth y (count (fun m => (x m).rxClk) n) ∧
    ((x n).rxClk = true → y (count (fun m => (x m).rxClk) n) =
      (stateAt pw mode x n).inst5.inst2In ((stateAt pw mode x n).inst5In (x n))) := by
  let i (n : Nat) : Data2PacketsRigIn := (stateAt pw mode x n).inst5.inst2In ((stateAt pw mode x n).inst5In (x n))
  obtain ⟨y, hy⟩ := Circuit.exists_run_gated (Data2PacketsRig.circuit pw mode.sampleWidth.code)
    (fun n => if (x n).rxClk then some (i n) else none) (i 0)
  have hsome : (fun n => (if (x n).rxClk then some (i n) else none).isSome) = fun n => (x n).rxClk := by
    funext n
    cases (x n).rxClk <;> rfl
  rw [hsome] at hy
  refine ⟨y, fun n => ⟨?_, fun hrx => (hy n).2 _ (if_pos hrx)⟩⟩
  rw [Data2PacketsRig.stateAt, ← (hy n).1]
  refine Circuit.run_part (c := circuit pw mode)
    (d := (Data2PacketsRig.circuit pw mode.sampleWidth.code).gated) (fun s => s.inst5.inst2)
    (fun s i => if i.rxClk then some (s.inst5.inst2In (s.inst5In i)) else none) rfl (fun s i => ?_) x n
  cases hrx : i.rxClk with
  | true => rw [if_pos rfl, show (circuit pw mode).next s i = s.next mode i from rfl, inst5_next_of_rxClk hrx]; rfl
  | false =>
      rw [if_neg (by decide), show (circuit pw mode).next s i = s.next mode i from rfl,
        inst5_next_of_not_rxClk hrx]
      rfl

/-! ## The packet that begins -/

theorem begins_iff {s : RxtxTop pw} {i : RxtxTopIn} : s.begins i = true ↔
    i.rxClk = true ∧ s.inst5.inst2.top.inst2.currentState = .idle ∧
      s.inst5.inst2.top.inst1.dataOut.valid = true := by
  rw [begins, Bool.and_eq_true, Bool.and_eq_true, beq_iff_eq, and_assoc]

theorem of_begun {s : RxtxTop pw} {i : RxtxTopIn} {pk : Packet} (h : s.begun i = some pk) :
    s.begins i = true ∧
      pk = ⟨(s.inst5.inst2In (s.inst5In i)).pctHdr0, (s.inst5.inst2In (s.inst5In i)).pctHdr1,
        [s.inst5.inst2.top.inst1.dataOut.data], s.inst5.inst2.top.inst0.pctBuffWrDis⟩ := by
  rw [begun] at h
  split at h
  case isTrue hb => exact ⟨hb, (Option.some.inj h).symm⟩
  case isFalse => cases h

theorem exists_begun {s : RxtxTop pw} {i : RxtxTopIn} (h : s.begins i = true) : ∃ pk, s.begun i = some pk :=
  ⟨_, if_pos h⟩

theorem txPctLoss_pctHdr0 (pw : PctBuffWidth) (txPctLossSync : Bool) (pctFifoWusedw : Nat) :
    (RxPathTop.pctHdr0 pw txPctLossSync pctFifoWusedw).getLsbD 3 = txPctLossSync := by
  have h : ∀ (b : Bool) (c : BitVec 3),
      BitVec.getLsbD (0x060504030201#48 ++ (0#12 ++ BitVec.ofBool b ++ c)) 3 = b := by decide
  exact h _ _

/-- The loss bit of a packet is what the synchroniser shows when it begins. -/
theorem txPctLoss_of_begun {s : RxtxTop pw} {i : RxtxTopIn} {pk : Packet} (h : s.begun i = some pk) :
    pk.txPctLoss = s.inst5.txPctLossSync.syncOut := by
  rw [(of_begun h).2]
  exact txPctLoss_pctHdr0 _ _ _

/-! ## The check of the packet FIFO -/

/-- Before instant `n` a packet was opened last in instant `k`. -/
structure LastOpen (pw : PctBuffWidth) (mode : RxMode) (x : Nat → RxtxTopIn) (k n : Nat) : Prop where
  lt : k < n
  opens : (stateAt pw mode x k).opens (x k) = true
  after : ∀ j, k < j → j < n → (stateAt pw mode x j).opens (x j) = false

theorem LastOpen.succ {x : Nat → RxtxTopIn} {k n : Nat} (h : LastOpen pw mode x k n)
    (hn : (stateAt pw mode x n).opens (x n) = false) : LastOpen pw mode x k (n + 1) := by
  refine ⟨Nat.lt_succ_of_lt h.lt, h.opens, fun j hkj hj => ?_⟩
  rcases Nat.lt_or_eq_of_le (Nat.le_of_lt_succ hj) with hlt | rfl
  · exact h.after j hkj hlt
  · exact hn

theorem opens_eq_false_of_ne {s : RxtxTop pw} {i : RxtxTopIn} (h : s.inst5.inst2.top.inst0.currentState ≠ .idle) :
    s.opens i = false := by
  rw [opens, beq_eq_false_iff_ne.mpr h, Bool.and_false, Bool.false_and]

theorem opens_eq_false_of_not_rxClk {s : RxtxTop pw} {i : RxtxTopIn} (h : i.rxClk = false) : s.opens i = false := by
  rw [opens, h, Bool.false_and, Bool.false_and]

/-- The result of the check: behind it the register in front of `data2packets_fsm` tells it, and then `pct_buff_wr_dis`
as long as the words of the packet are read. -/
structure Checked (pw : PctBuffWidth) (mode : RxMode) (x : Nat → RxtxTopIn) (n : Nat) : Prop where
  check : (stateAt pw mode x n).inst5.inst2.top.inst0.currentState = .checkPctBuff →
    ∃ k, LastOpen pw mode x k n ∧ (HasRoom mode (stateAt pw mode x k) (x k) →
      (stateAt pw mode x n).inst5.inst2.top.inst0PctBuffRdy = true)
  read : (stateAt pw mode x n).inst5.inst2.top.inst0.currentState = .rdSmplBuff ∨
      (stateAt pw mode x n).inst5.inst2.top.inst0.currentState = .waitData2packetsDone →
    ∃ k, LastOpen pw mode x k n ∧ (HasRoom mode (stateAt pw mode x k) (x k) →
      (stateAt pw mode x n).inst5.inst2.top.inst0.pctBuffWrDis = true)

/-- When a packet is opened the limit of the check has settled. -/
theorem inst0PctBuffRdy_of_opens {x : Nat → RxtxTopIn} {n : Nat} (h : (stateAt pw mode x n).opens (x n) = true)
    (hroom : HasRoom mode (stateAt pw mode x n) (x n)) :
    (stateAt pw mode x (n + 1)).inst5.inst2.top.inst0PctBuffRdy = true := by
  rw [opens, Bool.and_eq_true, Bool.and_eq_true] at h
  obtain ⟨⟨hrx, _⟩, hrdy⟩ := h
  obtain ⟨y, hy⟩ := @exists_rigIn pw mode x
  have hlimit : (stateAt pw mode x n).inst5.inst2.top.pctBuffWrusedwMaxLimit =
      2 ^ (pw.w - 1) - (mode.sampleWidth.payloadWords + 2) := by
    rw [(hy n).1] at hrdy ⊢
    have h3 : 3 ≤ count (fun m => (x m).rxClk) n := by
      by_contra hlt
      have hstart := Data2PacketsRig.smplBuffRdy_start pw mode.sampleWidth y _ (Nat.le_of_lt_succ (Nat.lt_of_not_le hlt))
      exact absurd (hstart.symm.trans hrdy) (by decide)
    obtain ⟨c, hc⟩ := Nat.exists_eq_add_of_le' (Nat.le_of_succ_le h3)
    rw [hc]
    exact Data2PacketsRig.pctBuffWrusedwMaxLimit_eq pw mode.sampleWidth y c
  rw [stateAt_succ, inst5_next_of_rxClk hrx]
  change (if (stateAt pw mode x n).inst5.pctFifoWusedw (x n).rx ≥
    (stateAt pw mode x n).inst5.inst2.top.pctBuffWrusedwMaxLimit then false else true) = true
  rw [HasRoom, mode.sampleWidth.pctSizeOf_eq, Data2PacketsTop.pctBuffWrusedwMaxWords] at hroom
  rw [hlimit, if_neg (by omega)]

theorem idle_of_nextState {s : Data2PacketsFsm} {rdy done : Bool} (h : s.nextState rdy done = .checkPctBuff) :
    s.currentState = .idle ∧ rdy = true := by
  rw [Data2PacketsFsm.nextState] at h
  cases hs : s.currentState with
  | idle =>
      cases rdy with
      | false => simp [hs] at h
      | true => exact ⟨rfl, rfl⟩
  | checkPctBuff => simp [hs] at h
  | rdSmplBuff => simp only [hs] at h; split at h <;> cases h
  | waitData2packetsDone => simp only [hs] at h; split at h <;> cases h

theorem ne_idle_of_nextState {s : Data2PacketsFsm} {rdy done : Bool}
    (h : s.nextState rdy done = .rdSmplBuff ∨ s.nextState rdy done = .waitData2packetsDone) :
    s.currentState ≠ .idle := by
  intro hs
  rw [Data2PacketsFsm.nextState, hs] at h
  cases rdy <;> rcases h with h | h <;> cases h

theorem checked_of_not_rxClk {x : Nat → RxtxTopIn} {n : Nat} (hrx : (x n).rxClk = false)
    (h : Checked pw mode x n) : Checked pw mode x (n + 1) := by
  have hinst5 : (stateAt pw mode x (n + 1)).inst5 = (stateAt pw mode x n).inst5 := inst5_next_of_not_rxClk hrx
  have hopens := @opens_eq_false_of_not_rxClk pw (stateAt pw mode x n) (x n) hrx
  constructor
  · rw [hinst5]
    intro hs
    obtain ⟨k, hk, hroom⟩ := h.check hs
    exact ⟨k, hk.succ hopens, hroom⟩
  · rw [hinst5]
    intro hs
    obtain ⟨k, hk, hroom⟩ := h.read hs
    exact ⟨k, hk.succ hopens, hroom⟩

theorem checked_of_rxClk {x : Nat → RxtxTopIn} {n : Nat} (hrx : (x n).rxClk = true)
    (h : Checked pw mode x n) : Checked pw mode x (n + 1) := by
  have hinst0 : (stateAt pw mode x (n + 1)).inst5.inst2.top.inst0 =
      (stateAt pw mode x n).inst5.inst2.top.inst0.next (stateAt pw mode x n).inst5.inst2.top.inst0PctBuffRdy
        (stateAt pw mode x n).inst5.inst2.top.inst0SmplRdSize (stateAt pw mode x n).inst5.inst2.top.inst0SmplBuffRdy
        (stateAt pw mode x n).inst5.inst2.top.inst0Data2packetsDone := by
    rw [stateAt_succ, inst5_next_of_rxClk hrx]
    rfl
  constructor
  · rw [hinst0]
    intro hs
    obtain ⟨hidle, hrdy⟩ := idle_of_nextState hs
    have hopens : (stateAt pw mode x n).opens (x n) = true := by
      rw [opens, hrx, hidle, hrdy]
      rfl
    refine ⟨n, ⟨Nat.lt_succ_self n, hopens, fun j hnj hj => ?_⟩, inst0PctBuffRdy_of_opens hopens⟩
    exact absurd hj (Nat.not_lt.mpr hnj)
  · rw [hinst0]
    intro hs
    have hne := ne_idle_of_nextState hs
    have hopens := @opens_eq_false_of_ne pw (stateAt pw mode x n) (x n) hne
    simp only [Data2PacketsFsm.next]
    cases hc : (stateAt pw mode x n).inst5.inst2.top.inst0.currentState with
    | idle => exact absurd hc hne
    | checkPctBuff =>
        obtain ⟨k, hk, hroom⟩ := h.check hc
        rw [if_pos rfl]
        exact ⟨k, hk.succ hopens, hroom⟩
    | rdSmplBuff =>
        obtain ⟨k, hk, hroom⟩ := h.read (.inl hc)
        rw [if_neg (by decide)]
        exact ⟨k, hk.succ hopens, hroom⟩
    | waitData2packetsDone =>
        obtain ⟨k, hk, hroom⟩ := h.read (.inr hc)
        rw [if_neg (by decide)]
        exact ⟨k, hk.succ hopens, hroom⟩

theorem checked (x : Nat → RxtxTopIn) (n : Nat) : Checked pw mode x n := by
  induction n with
  | zero => exact ⟨fun h => (by cases h), fun h => by rcases h with h | h <;> cases h⟩
  | succ n ih =>
      cases hrx : (x n).rxClk with
      | false => exact checked_of_not_rxClk hrx ih
      | true => exact checked_of_rxClk hrx ih

/-- A packet begins while its words are read. -/
theorem rdSmplBuff_of_begins {x : Nat → RxtxTopIn} {n : Nat} (h : (stateAt pw mode x n).begins (x n) = true) :
    (stateAt pw mode x n).inst5.inst2.top.inst0.currentState = .rdSmplBuff ∨
      (stateAt pw mode x n).inst5.inst2.top.inst0.currentState = .waitData2packetsDone := by
  obtain ⟨y, hy⟩ := @exists_rigIn pw mode x
  obtain ⟨_, _, hv⟩ := begins_iff.mp h
  rw [(hy n).1] at hv ⊢
  exact Data2PacketsRig.rdSmplBuff_of_valid hv

/-- A packet is written when there was room for it as it was opened. -/
theorem written_of_room {x : Nat → RxtxTopIn} {n : Nat} {pk : Packet}
    (h : (stateAt pw mode x n).begun (x n) = some pk)
    (hroom : ∀ k, LastOpen pw mode x k n → HasRoom mode (stateAt pw mode x k) (x k)) : pk.written = true := by
  obtain ⟨hb, rfl⟩ := of_begun h
  obtain ⟨k, hk, hw⟩ := (checked x n).read (rdSmplBuff_of_begins hb)
  exact hw (hroom k hk)

end RxtxTop

end LimeSdrQpcie
