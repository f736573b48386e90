import LimeSdrQpcie.Rxtx.Lemmas.RxtxTop
import Mathlib.Data.Nat.Find

/-!
# Lost TX packets are reported

The loss flag is cleared by the header of any packet that is formed. The main result tells of which runs no loss goes
unreported.
-/

namespace LimeSdrQpcie

open Hdl

namespace RxtxTop

variable {pw : PctBuffWidth} {mode : RxMode}

/-! ## Reports -/

/-- What the surroundings have to leave out of a run: a loss while a header that does not show it is on its way to the
flag, and a packet that begins with the flag set before the flag has passed its synchroniser, or that was opened when
the packet FIFO had no room for it. -/
structure RunOk (pw : PctBuffWidth) (mode : RxMode) (x : Nat → RxtxTopIn) : Prop where
  pctLoss : ∀ n, (stateAt pw mode x n).pctLoss (x n) = true →
    (stateAt pw mode x n).hdrCapUnderway = false ∧ (stateAt pw mode x n).begins (x n) = false
  synced : ∀ n, (stateAt pw mode x n).begins (x n) = true → (stateAt pw mode x n).pctLossFlgInt = true →
    (stateAt pw mode x n).inst5.txPctLossSync.syncOut = true
  room : ∀ k n, LastOpen pw mode x k n → (stateAt pw mode x n).begins (x n) = true →
    (stateAt pw mode x n).pctLossFlgInt = true → HasRoom mode (stateAt pw mode x k) (x k)

/-- In such a run a packet that begins with the flag set carries it, and is written. -/
theorem RunOk.reports {x : Nat → RxtxTopIn} (h : RunOk pw mode x) {n : Nat} {pk : Packet}
    (hb : (stateAt pw mode x n).begun (x n) = some pk) (hf : (stateAt pw mode x n).pctLossFlgInt = true) :
    pk.txPctLoss = true ∧ pk.written = true := by
  have hbegins := (of_begun hb).1
  exact ⟨(txPctLoss_of_begun hb).trans (h.synced n hbegins hf),
    written_of_room hb fun k hk => h.room k n hk hbegins hf⟩

variable (pw mode) in
/-- Before the flag is cleared after a loss, a packet that carries it begins and is written. -/
def LossReported (x : Nat → RxtxTopIn) : Prop :=
  ∀ e c, e < c → (stateAt pw mode x e).pctLoss (x e) = true →
    (stateAt pw mode x c).pctLossFlgInt = true → (stateAt pw mode x (c + 1)).pctLossFlgInt = false →
    ∃ m pk, e < m ∧ m < c ∧ (stateAt pw mode x m).begun (x m) = some pk ∧ pk.txPctLoss = true ∧ pk.written = true

/-- Until a loss is reported the flag is set and nothing is on the way to clear it. -/
theorem quiet_of_not_reported {x : Nat → RxtxTopIn} (h : RunOk pw mode x) {e n : Nat}
    (hen : e < n) (he : (stateAt pw mode x e).pctLoss (x e) = true)
    (hno : ∀ m pk, e < m → m < n → (stateAt pw mode x m).begun (x m) = some pk → pk.txPctLoss = true →
      pk.written = false) :
    (stateAt pw mode x n).pctLossFlgInt = true ∧ Quiet (stateAt pw mode x n) := by
  induction n, hen using Nat.le_induction with
  | base =>
      obtain ⟨hw, hb⟩ := h.pctLoss e he
      have htx : (x e).txClk = true := by
        rw [RxtxTop.pctLoss, Bool.and_eq_true, Bool.and_eq_true] at he
        exact he.1.1
      rw [stateAt_succ]
      exact ⟨if_pos he, quiet_next_of_txClk htx hw hb⟩
  | succ n hn ih =>
      obtain ⟨hf, hq⟩ := ih fun m pk h1 h2 => hno m pk h1 (by omega)
      rw [stateAt_succ]
      refine ⟨pctLossFlgInt_next hq hf, quiet_next hq ?_⟩
      cases hb : (stateAt pw mode x n).begins (x n) with
      | false => rfl
      | true =>
          obtain ⟨pk, hpk⟩ := exists_begun hb
          obtain ⟨hloss, hwr⟩ := h.reports hpk hf
          rw [hno n pk hn (by omega) hpk hloss] at hwr
          cases hwr

/-- In every run of this kind no loss goes unreported. -/
theorem lossReported_of_runOk (pw : PctBuffWidth) (mode : RxMode) (x : Nat → RxtxTopIn) (h : RunOk pw mode x) :
    LossReported pw mode x := by
  intro e c hec he hf hclr
  by_contra hne
  obtain ⟨_, hq⟩ := quiet_of_not_reported h hec he fun m pk h1 h2 hb hloss => by
    cases hwr : pk.written with
    | false => rfl
    | true => exact absurd ⟨m, pk, h1, h2, hb, hloss, hwr⟩ hne
  rw [stateAt_succ, pctLossFlgInt_next hq hf] at hclr
  cases hclr

/-- The packets that begin are the packets formed on the clock of the receive path. -/
theorem formed_succ_of_begun (x : Nat → RxtxTopIn) : ∃ y : Nat → Data2PacketsRigIn, ∀ n pk,
    (stateAt pw mode x n).begun (x n) = some pk →
      Data2PacketsRig.formed pw mode.sampleWidth y (count (fun m => (x m).rxClk) (n + 1)) =
        Data2PacketsRig.formed pw mode.sampleWidth y (count (fun m => (x m).rxClk) n) ++ [pk] := by
  obtain ⟨y, hy⟩ := @exists_rigIn pw mode x
  refine ⟨y, fun n pk h => ?_⟩
  obtain ⟨hstate, hin⟩ := hy n
  obtain ⟨hbegins, hpk⟩ := of_begun h
  obtain ⟨hrx, hidle, hv⟩ := begins_iff.mp hbegins
  have htop : Data2PacketsRig.topAt pw mode.sampleWidth y (count (fun m => (x m).rxClk) n) =
      (stateAt pw mode x n).inst5.inst2.top := by
    rw [hstate]
    rfl
  rw [count_succ, hrx, Bool.toNat_true, Data2PacketsRig.formed_succ_idle (by rw [Data2PacketsRig.packedAt, htop, hv])
    (by rw [htop, hidle]), hin hrx, Data2PacketsRig.packedAt, htop, hpk]

/-! ## Both clocks in step -/

/-- Samples in every cycle of both clocks, which tick together, and a loss in cycle `3`. -/
def oneLoss (pctFifoRd pctFifoWrusedwAtLeast : Nat) : Nat → RxtxTopIn := fun n =>
  ⟨true, true, ⟨some 0, 1024, pctFifoRd, pctFifoWrusedwAtLeast, false, false, 0, false⟩, decide (3 ≤ n)⟩

section OneLoss

variable {rd wr : Nat}

theorem count_true (n : Nat) : count (fun _ => true) n = n := by
  induction n with
  | zero => rfl
  | succ n ih => rw [count_succ, ih]; rfl

theorem exists_rigIn_oneLoss : ∃ y : Nat → Data2PacketsRigIn, ∀ n,
    (stateAt pw mode (oneLoss rd wr) n).inst5.inst2 = Data2PacketsRig.stateAt pw mode.sampleWidth y n ∧
    y n = (stateAt pw mode (oneLoss rd wr) n).inst5.inst2In
      ((stateAt pw mode (oneLoss rd wr) n).inst5In (oneLoss rd wr n)) := by
  obtain ⟨y, hy⟩ := @exists_rigIn pw mode (oneLoss rd wr)
  have hcount : ∀ n, count (fun m => (oneLoss rd wr m).rxClk) n = n := count_true
  refine ⟨y, fun n => ?_⟩
  obtain ⟨hstate, hin⟩ := hy n
  rw [hcount] at hstate hin
  exact ⟨hstate, hin rfl⟩

theorem pctLoss_oneLoss {n : Nat} (h : (stateAt pw mode (oneLoss rd wr) n).pctLoss (oneLoss rd wr n) = true) :
    n = 3 := by
  cases n with
  | zero => cases h
  | succ n =>
      have hreg : (stateAt pw mode (oneLoss rd wr) (n + 1)).inst0InPctClrFlagReg = decide (3 ≤ n) := rfl
      rw [pctLoss, hreg] at h
      simp [oneLoss] at h
      omega

/-- The level of `pct_hdr_cap` reaches the flag three cycles after `pct_state`. -/
theorem syncReg1_oneLoss (n : Nat) : (stateAt pw mode (oneLoss rd wr) (n + 3)).pctLossFlgClrSync.syncReg1 =
    (stateAt pw mode (oneLoss rd wr) n).capturing := by
  have h : (stateAt pw mode (oneLoss rd wr) (n + 3)).pctLossFlgClrSync.syncReg1 =
      (stateAt pw mode (oneLoss rd wr) (n + 1)).inst5.pctHdrCap := rfl
  rw [h, stateAt_succ, pctHdrCap_next rfl]

theorem syncReg1_start {n : Nat} (h : n ≤ 3) :
    (stateAt pw mode (oneLoss rd wr) n).pctLossFlgClrSync.syncReg1 = false := by
  obtain rfl | rfl | rfl | rfl : n = 0 ∨ n = 1 ∨ n = 2 ∨ n = 3 := by omega
  · rfl
  · rfl
  · rfl
  · rw [syncReg1_oneLoss 0]
    rfl

/-- The flag is set by the loss and stays until the header of a packet comes back. -/
theorem pctLossFlgInt_oneLoss {n : Nat} (h4 : 4 ≤ n)
    (h : ∀ m < n, (stateAt pw mode (oneLoss rd wr) m).pctLossFlgClrSync.syncReg1 = false) :
    (stateAt pw mode (oneLoss rd wr) n).pctLossFlgInt = true := by
  induction n, h4 using Nat.le_induction with
  | base => rfl
  | succ n hn ih =>
      have hs : (stateAt pw mode (oneLoss rd wr) (n + 1)).pctLossFlgInt =
          if (stateAt pw mode (oneLoss rd wr) n).pctLoss (oneLoss rd wr n) then true
          else if true && (stateAt pw mode (oneLoss rd wr) n).pctLossFlgClr then false
          else (stateAt pw mode (oneLoss rd wr) n).pctLossFlgInt := rfl
      rw [hs, pctLossFlgClr, SyncReg.syncOut, h n (by omega), ih fun m hm => h m (by omega)]
      simp

theorem capturing_of_s0 {s : RxtxTop pw} (h : s.inst5.inst2.top.inst2.currentState = .s0) :
    s.capturing = true := by
  rw [capturing, Data2Packets.pctState, h]
  rfl

theorem exists_syncReg1_oneLoss :
    ∃ n, (stateAt pw mode (oneLoss rd wr) n).pctLossFlgClrSync.syncReg1 = true := by
  obtain ⟨y, hy⟩ := @exists_rigIn_oneLoss pw mode rd wr
  have hsat : Data2PacketsRig.Saturated y := fun n => by
    rw [(hy n).2]
    exact ⟨rfl, Nat.le_refl _⟩
  obtain ⟨n, pk, hk⟩ := @Data2PacketsRig.exists_packet pw mode.sampleWidth y hsat 0
  obtain ⟨c, _, ⟨hv, hidle, _⟩, _⟩ := Data2PacketsRig.exists_firstWordAt hk
  have hs0 : (Data2PacketsRig.topAt pw mode.sampleWidth y (c + 1)).inst2.currentState = .s0 := by
    rw [Data2PacketsRig.inst2_currentState_succ, Data2Packets.nextState, hidle, hv]
    rfl
  refine ⟨c + 1 + 3, ?_⟩
  rw [syncReg1_oneLoss]
  refine capturing_of_s0 ?_
  rw [(hy (c + 1)).1]
  exact hs0

/-- A packet begins and its header clears the flag. -/
theorem exists_clr_oneLoss : ∃ n, 4 ≤ n ∧ (stateAt pw mode (oneLoss rd wr) n).pctLossFlgInt = true ∧
    (stateAt pw mode (oneLoss rd wr) (n + 1)).pctLossFlgInt = false := by
  have hex := @exists_syncReg1_oneLoss pw mode rd wr
  obtain ⟨n, hn, hmin⟩ : ∃ n, (stateAt pw mode (oneLoss rd wr) n).pctLossFlgClrSync.syncReg1 = true ∧
      ∀ m < n, (stateAt pw mode (oneLoss rd wr) m).pctLossFlgClrSync.syncReg1 = false :=
    ⟨Nat.find hex, Nat.find_spec hex, fun m hm => by simpa using Nat.find_min hex hm⟩
  have h4 : 4 ≤ n := by
    by_contra hlt
    rw [syncReg1_start (by omega)] at hn
    cases hn
  have hf := pctLossFlgInt_oneLoss h4 hmin
  refine ⟨n, h4, hf, ?_⟩
  obtain ⟨m, rfl⟩ : ∃ m, n = m + 1 := ⟨n - 1, by omega⟩
  have hs : (stateAt pw mode (oneLoss rd wr) (m + 1 + 1)).pctLossFlgInt =
      if (stateAt pw mode (oneLoss rd wr) (m + 1)).pctLoss (oneLoss rd wr (m + 1)) then true
      else if true && (stateAt pw mode (oneLoss rd wr) (m + 1)).pctLossFlgClr then false
      else (stateAt pw mode (oneLoss rd wr) (m + 1)).pctLossFlgInt := rfl
  have hreg : (stateAt pw mode (oneLoss rd wr) (m + 1)).pctLossFlgClrSyncReg =
      (stateAt pw mode (oneLoss rd wr) m).pctLossFlgClrSync.syncReg1 := rfl
  have hclr : (stateAt pw mode (oneLoss rd wr) (m + 1)).pctLossFlgClr = true := by
    rw [pctLossFlgClr, SyncReg.syncOut, hn, hreg, hmin m (by omega)]
    rfl
  have hnl : ¬ (stateAt pw mode (oneLoss rd wr) (m + 1)).pctLoss (oneLoss rd wr (m + 1)) = true := fun h => by
    have := pctLoss_oneLoss h
    omega
  rw [hs, if_neg hnl, hclr]
  rfl

end OneLoss

/-! ## A packet FIFO that stays full -/

theorem pctBuffWrusedwMaxLimit_le (y : Nat → Data2PacketsRigIn) :
    ∀ n, (Data2PacketsRig.topAt ⟨12, by decide⟩ .w12 y n).pctBuffWrusedwMaxLimit ≤ 2048
  | 0 => Nat.zero_le _
  | 1 => by
      have h : (Data2PacketsRig.topAt ⟨12, by decide⟩ .w12 y 1).pctBuffWrusedwMaxLimit =
          (Data2PacketsTop.pctBuffWrusedwMaxWords 12 + 2 ^ 12 - 0) % 2 ^ 12 := rfl
      rw [h]
      decide
  | n + 2 => by rw [Data2PacketsRig.pctBuffWrusedwMaxLimit_eq]; decide

theorem inst0PctBuffRdy_of_full {y : Nat → Data2PacketsRigIn} (hy : ∀ n, 2048 ≤ (y n).pctFifoWrusedwAtLeast)
    (n : Nat) : (Data2PacketsRig.topAt ⟨12, by decide⟩ .w12 y n).inst0PctBuffRdy = false := by
  cases n with
  | zero => rfl
  | succ n =>
      have h : (Data2PacketsRig.topAt ⟨12, by decide⟩ .w12 y (n + 1)).inst0PctBuffRdy =
          if (Data2PacketsRig.stateAt ⟨12, by decide⟩ .w12 y n).pctFifoWrusedw (y n) ≥
            (Data2PacketsRig.topAt ⟨12, by decide⟩ .w12 y n).pctBuffWrusedwMaxLimit then false else true := rfl
      have hle : 2048 ≤ (Data2PacketsRig.stateAt ⟨12, by decide⟩ .w12 y n).pctFifoWrusedw (y n) :=
        Nat.le_trans (hy n) (Nat.le_max_left _ _)
      rw [h, if_pos (Nat.le_trans (pctBuffWrusedwMaxLimit_le y n) hle)]

theorem pctBuffWrDis_of_full {y : Nat → Data2PacketsRigIn} (hy : ∀ n, 2048 ≤ (y n).pctFifoWrusedwAtLeast)
    (n : Nat) : (Data2PacketsRig.topAt ⟨12, by decide⟩ .w12 y n).inst0.pctBuffWrDis = false := by
  induction n with
  | zero => rfl
  | succ n ih =>
      rw [Data2PacketsRig.inst0_succ]
      simp only [Data2PacketsFsm.next, inst0PctBuffRdy_of_full hy, ih, ite_self]

theorem pctBuffWrDis_oneLoss (n : Nat) :
    (stateAt ⟨12, by decide⟩ ⟨.w12, true, 3⟩ (oneLoss 0 2048) n).inst5.inst2.top.inst0.pctBuffWrDis = false := by
  obtain ⟨y, hy⟩ := @exists_rigIn_oneLoss ⟨12, by decide⟩ ⟨.w12, true, 3⟩ 0 2048
  rw [(hy n).1]
  refine pctBuffWrDis_of_full (fun m => ?_) n
  rw [(hy m).2]
  exact Nat.le_refl _

/-- With the packet FIFO full the header that clears the flag is the one of a packet that is discarded. -/
theorem loss_not_reported : ¬ LossReported ⟨12, by decide⟩ ⟨.w12, true, 3⟩ (oneLoss 0 2048) := by
  intro h
  obtain ⟨c, h4, hf, hclr⟩ := @exists_clr_oneLoss ⟨12, by decide⟩ ⟨.w12, true, 3⟩ 0 2048
  obtain ⟨m, pk, _, _, hb, _, hwr⟩ := h 3 c h4 rfl hf hclr
  obtain ⟨_, rfl⟩ := of_begun hb
  rw [pctBuffWrDis_oneLoss] at hwr
  cases hwr

/-! ## A packet FIFO that is drained at once -/

section Drained

variable {y : Nat → Data2PacketsRigIn}

theorem usedw_of_drained (hy : ∀ n, (y n).pctFifoRd = 2048) (n : Nat) :
    (Data2PacketsRig.stateAt ⟨12, by decide⟩ .w12 y n).pctFifo.usedw ≤ 1 := by
  cases n with
  | zero => exact Nat.zero_le _
  | succ n =>
      have hle : (Data2PacketsRig.stateAt ⟨12, by decide⟩ .w12 y n).pctFifo.store.length ≤ 2048 :=
        (Data2PacketsRig.stateAt ⟨12, by decide⟩ .w12 y n).pctFifo.length_le
      have hacc : ∀ o : Option (BitVec 64), o.toList.length ≤ 1 := fun o => by cases o <;> simp
      rw [Data2PacketsRig.pctFifo_succ, hy, Fifo.usedw, Fifo.next_store, List.length_append,
        List.drop_eq_nil_of_le hle, List.length_nil, Nat.zero_add]
      exact hacc _

end Drained

theorem pctLossFlgInt_pred {rd wr n : Nat} (h4 : 4 ≤ n)
    (h : (stateAt pw mode (oneLoss rd wr) (n + 1)).pctLossFlgInt = true) :
    (stateAt pw mode (oneLoss rd wr) n).pctLossFlgInt = true := by
  have hs : (stateAt pw mode (oneLoss rd wr) (n + 1)).pctLossFlgInt =
      if (stateAt pw mode (oneLoss rd wr) n).pctLoss (oneLoss rd wr n) then true
      else if true && (stateAt pw mode (oneLoss rd wr) n).pctLossFlgClr then false
      else (stateAt pw mode (oneLoss rd wr) n).pctLossFlgInt := rfl
  have hnl : ¬ (stateAt pw mode (oneLoss rd wr) n).pctLoss (oneLoss rd wr n) = true := fun hl => by
    have := pctLoss_oneLoss hl
    omega
  rw [hs, if_neg hnl] at h
  split at h
  · cases h
  · exact h

theorem runOk_oneLoss : RunOk ⟨12, by decide⟩ ⟨.w12, true, 3⟩ (oneLoss 2048 0) := by
  obtain ⟨y, hy⟩ := @exists_rigIn_oneLoss ⟨12, by decide⟩ ⟨.w12, true, 3⟩ 2048 0
  refine ⟨fun n h => ?_, fun n hb hf => ?_, fun k n _ _ _ => ?_⟩
  · rw [pctLoss_oneLoss h]
    exact ⟨rfl, rfl⟩
  · -- a packet begins when six cycles have passed, and the loss bit is the flag of two cycles before
    obtain ⟨_, hidle, hv⟩ := begins_iff.mp hb
    rw [(hy n).1] at hidle hv
    obtain ⟨t, rfl, _⟩ := Data2PacketsRig.firstReadAt_of_firstWordAt
      (Data2PacketsRig.formed_length_of_firstWordAt hv hidle)
    exact pctLossFlgInt_pred (n := t + 4) (by omega) (pctLossFlgInt_pred (n := t + 5) (by omega) hf)
  · have hdrained : ∀ m, (y m).pctFifoRd = 2048 := fun m => by
      rw [(hy m).2]
      rfl
    have hused := usedw_of_drained hdrained k
    rw [← (hy k).1] at hused
    change max 0 (stateAt ⟨12, by decide⟩ ⟨.w12, true, 3⟩ (oneLoss 2048 0) k).inst5.inst2.pctFifo.usedw + 512 < 2048
    omega

/-- With room in the packet FIFO the loss is reported. -/
theorem loss_reported_oneLoss : LossReported ⟨12, by decide⟩ ⟨.w12, true, 3⟩ (oneLoss 2048 0) :=
  lossReported_of_runOk ⟨12, by decide⟩ ⟨.w12, true, 3⟩ (oneLoss 2048 0) runOk_oneLoss

end RxtxTop

end LimeSdrQpcie
