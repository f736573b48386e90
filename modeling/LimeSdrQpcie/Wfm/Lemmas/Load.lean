import LimeSdrQpcie.Wfm.Lemmas.Writes
import LimeSdrQpcie.Wfm.Lemmas.WfmPlayer
import LimeSdrQpcie.Wfm.WfmRam

/-!
# The words of a load

While the count on which `check_wfm_infifo` decides is current, the write commands never ask for more words than
there are in the input FIFO: with every pair of words that the burst loop commands, the words in the FIFO less the
words still to be asked for fall by two, and the limit of the loop is half of a count that had at most as many.
-/

namespace LimeSdrQpcie

open Hdl

namespace WfmRam

variable {g : WfmGenerics} {s : WfmRam g} {i : WfmRamIn} {sampleWidth : BitVec 2}

/-! ## Where a load begins and what it needs -/

/-- The state in which a load begins: the player is idle and has not seen the load, the generator holds no command,
the input FIFO is empty, and the memory awaits no word. -/
structure LoadEdge (s : WfmRam g) : Prop where
  player : s.player.currentState = .idle
  inst3 : s.player.inst3 = EdgePulse.reset
  state : s.inst2.state = .idle
  doWriteReg : s.inst2.doWriteReg = false
  doReadReg : s.inst2.doReadReg = false
  entries : s.inst2.entries = []
  infifo : s.infifo.store = []
  infifoRdusedw : s.infifoRdusedw = 0
  port : s.port.wr.left = 0

/-- The inputs of a load: its signal is on and there is no reset. -/
structure Loading (i : WfmRamIn) : Prop where
  wfmLoad : i.wfmLoad = true
  resetN : i.resetN = true
  infifoResetN : i.infifoResetN = true

/-- The player goes on from `check_wfm_infifo` to a write. -/
def StartsWrite (s : WfmRam g) : Prop :=
  s.player.currentState = .checkWfmInfifo ∧ s.infifo.store ≠ [] ∧ s.inst2.ready = true

instance : Decidable (StartsWrite s) := inferInstanceAs (Decidable (_ ∧ _ ∧ _))

/-- What the player decides on is so: the pulse at the beginning of the load has come, and for a single write there
is a word that is not yet commanded, and for a burst no word is commanded any more and the registered count is one
that the FIFO still has. -/
def Current (s : WfmRam g) : Prop :=
  s.player.inst3.sigInReg1 = true ∧
    if s.player.burstCntMax = 0 then s.inst2.demand < s.infifo.usedw
    else s.inst2.demand = 0 ∧ 2 ≤ s.infifoRdusedw ∧ s.infifoRdusedw ≤ s.infifo.usedw

instance : Decidable (Current s) := inferInstanceAs (Decidable (_ ∧ ite _ _ _))

/-! ## The words commanded and the words in the FIFO -/

/-- What the burst loop keeps. -/
structure LoopInv (s : WfmRam g) : Prop where
  demand : s.inst2.demand ≤ 2 * s.player.burstWrCnt
  limit : s.inst2.demand + 2 * s.player.burstCntMax ≤ s.infifo.usedw + 2 * s.player.burstWrCnt
  count : s.inst2.demand + s.infifoRdusedw ≤ s.infifo.usedw + 2 * s.player.burstWrCnt
  pair : s.inst2.demand + 2 ≤ s.infifo.usedw
  limit_pos : 1 ≤ s.player.burstCntMax
  count_pos : 2 ≤ s.infifoRdusedw

structure Budget (s : WfmRam g) : Prop where
  sound : s.inst2.Sound
  hasWords : s.inst2.HasWords
  counted : s.infifoRdusedw ≤ g.infifoWords
  demand : s.inst2.demand ≤ s.infifo.usedw
  single : s.player.currentState = .doWrite → s.inst2.demand < s.infifo.usedw ∧ s.inst2.ready = true
  loop : s.player.currentState = .doBurstWrite → LoopInv s
  writes : ∀ e ∈ s.inst2.inflight, e.writeReq = true
  doReadReg : s.inst2.doReadReg = false
  checkOutfifo : s.player.currentState ≠ .checkWfmOutfifo
  doRead : s.player.currentState ≠ .doRead

/-- The words of the write command that the player gives. -/
def commanded (s : WfmRam g) (i : WfmRamIn) : Nat := s.inst2.takenWriteWords (s.inst2In i)

theorem commanded_doWrite (hs : s.player.currentState = .doWrite) (hr : s.inst2.ready = true) :
    s.commanded i = 1 := by
  simp [commanded, AvalonTrafficGen.takenWriteWords, inst2In, playerIn, WfmPlayer.inst2DoWrite,
    WfmPlayer.inst2WriteBurstcount, hs, hr]

theorem commanded_doBurstWrite (hs : s.player.currentState = .doBurstWrite) :
    s.commanded i = if s.inst2.ready then 2 else 0 := by
  cases hr : s.inst2.ready <;>
    simp [commanded, AvalonTrafficGen.takenWriteWords, inst2In, playerIn, WfmPlayer.inst2DoWrite,
      WfmPlayer.inst2WriteBurstcount, WfmPlayer.avlMaxBurstCount, hs, hr]

theorem commanded_other (h1 : s.player.currentState ≠ .doWrite) (h2 : s.player.currentState ≠ .doBurstWrite) :
    s.commanded i = 0 := by
  simp [commanded, AvalonTrafficGen.takenWriteWords, inst2In, WfmPlayer.inst2DoWrite, h1, h2]

theorem demand_edge (h : Budget s) : s.inst2.wdataReq.toNat + (s.edge sampleWidth i).inst2.demand =
    s.inst2.demand + s.commanded i := AvalonTrafficGen.demand_next h.sound h.hasWords

/-- A cycle takes at most the word that is asked for from the FIFO. -/
theorem usedw_edge (s : WfmRam g) (i : WfmRamIn) :
    s.infifo.usedw ≤ (s.edge sampleWidth i).infifo.usedw + s.inst2.wdataReq.toNat := by
  simp only [edge, Fifo.usedw, Fifo.next_store, List.length_append, List.length_drop]
  omega

theorem wdataReq_le_demand (h : Budget s) : s.inst2.wdataReq.toNat ≤ s.inst2.demand := by
  cases hq : s.inst2.wdataReq with
  | false => exact Nat.zero_le _
  | true => exact AvalonTrafficGen.demand_pos_of_wdataReq h.sound h.hasWords hq

/-- The next limit of the burst loop is half of the registered count. -/
theorem burstCntMax_edge (h : Budget s) : (s.edge sampleWidth i).player.burstCntMax = s.infifoRdusedw / 2 := by
  have hpow : 0 < 2 ^ g.burstCntWidth := Nat.two_pow_pos _
  have hcounted : s.infifoRdusedw ≤ 2 ^ g.burstCntWidth / 2 := h.counted
  change s.infifoRdusedw % 2 ^ g.burstCntWidth / 2 = _
  rw [Nat.mod_eq_of_lt (by omega)]

/-! ## One clock edge -/

theorem loop_start (h : Budget s) (hs : s.player.currentState = .checkWfmInfifo) (hcur : Current s)
    (hmax : s.player.burstCntMax ≠ 0) : LoopInv (s.edge sampleWidth i) := by
  have hdemand := @demand_edge g s i sampleWidth h
  have husedw := @usedw_edge g sampleWidth s i
  have hreq := wdataReq_le_demand h
  have hmax' := @burstCntMax_edge g s i sampleWidth h
  have hrd : (s.edge sampleWidth i).infifoRdusedw = s.infifo.usedw := rfl
  have hcnt : (s.edge sampleWidth i).player.burstWrCnt = 0 := by simp [edge, WfmPlayer.next, hs]
  rw [commanded_other (by simp [hs]) (by simp [hs])] at hdemand
  obtain ⟨hzero, htwo, hle⟩ := (if_neg hmax ▸ hcur.2 :)
  exact ⟨by omega, by omega, by omega, by omega, by omega, by omega⟩

/-- The loop goes on only while its count is more than one below the limit. -/
theorem burstWrCnt_edge (h : LoopInv s) (hs : s.player.currentState = .doBurstWrite)
    (hn : (s.edge sampleWidth i).player.currentState = .doBurstWrite) :
    if s.inst2.ready then s.player.burstWrCnt + 1 < s.player.burstCntMax ∧
        s.player.burstWrCnt + 1 < 2 ^ g.burstCntWidth ∧
        (s.edge sampleWidth i).player.burstWrCnt = s.player.burstWrCnt + 1
      else (s.edge sampleWidth i).player.burstWrCnt = s.player.burstWrCnt := by
  have hcnt : (s.edge sampleWidth i).player.burstWrCnt =
      if s.inst2.ready then (s.player.burstWrCnt + 1) % 2 ^ g.burstCntWidth else s.player.burstWrCnt := by
    exact if_pos hs
  cases hr : s.inst2.ready with
  | false => simpa [hr] using hcnt
  | true =>
      have hgo : s.player.burstWrCnt < (s.player.burstCntMax + 2 ^ g.burstCntWidth - 1) % 2 ^ g.burstCntWidth := by
        by_contra hno
        have hidle : (s.edge sampleWidth i).player.currentState = .doWriteIdle := by
          simp [edge, WfmPlayer.next, WfmPlayer.nextState, hs, playerIn, hr, hno]
        rw [hidle] at hn
        cases hn
      have hpos := h.limit_pos
      have hlt := Nat.mod_lt (s.player.burstCntMax + 2 ^ g.burstCntWidth - 1) (Nat.two_pow_pos g.burstCntWidth)
      have hle : (s.player.burstCntMax + 2 ^ g.burstCntWidth - 1) % 2 ^ g.burstCntWidth ≤ s.player.burstCntMax - 1 := by
        rw [show s.player.burstCntMax + 2 ^ g.burstCntWidth - 1 = s.player.burstCntMax - 1 + 2 ^ g.burstCntWidth by
          omega, Nat.add_mod_right]
        exact Nat.mod_le _ _
      rw [hr, if_pos rfl, Nat.mod_eq_of_lt (by omega)] at hcnt
      rw [if_pos rfl]
      exact ⟨by omega, by omega, hcnt⟩

theorem loop_step (h : Budget s) (hs : s.player.currentState = .doBurstWrite)
    (hn : (s.edge sampleWidth i).player.currentState = .doBurstWrite) : LoopInv (s.edge sampleWidth i) := by
  have hloop := h.loop hs
  have hdemand := @demand_edge g s i sampleWidth h
  have husedw := @usedw_edge g sampleWidth s i
  have hmax' := @burstCntMax_edge g s i sampleWidth h
  have hrd : (s.edge sampleWidth i).infifoRdusedw = s.infifo.usedw := rfl
  have hcnt := burstWrCnt_edge hloop hs hn
  rw [commanded_doBurstWrite hs] at hdemand
  obtain ⟨h1, h2, h3, h4, h5, h6⟩ := hloop
  cases hr : s.inst2.ready with
  | false =>
      rw [hr, if_neg Bool.false_ne_true] at hcnt hdemand
      exact ⟨by omega, by omega, by omega, by omega, by omega, by omega⟩
  | true =>
      rw [hr, if_pos rfl] at hcnt hdemand
      exact ⟨by omega, by omega, by omega, by omega, by omega, by omega⟩

/-- The single write and the burst loop begin in `check_wfm_infifo`, and only with the generator ready. -/
theorem state_edge (s : WfmRam g) (i : WfmRamIn) :
    ((s.edge sampleWidth i).player.currentState = .doWrite → StartsWrite s ∧ s.player.burstCntMax = 0) ∧
      ((s.edge sampleWidth i).player.currentState = .doBurstWrite →
        s.player.currentState = .doBurstWrite ∨ StartsWrite s ∧ s.player.burstCntMax ≠ 0) := by
  have hstate : (s.edge sampleWidth i).player.currentState = s.player.nextState g (s.playerIn i) := rfl
  rw [hstate]
  unfold StartsWrite
  cases hs : s.player.currentState <;> simp only [WfmPlayer.nextState, hs, playerIn]
  all_goals grind

/-- While the load is on the player does not turn to the output FIFO. -/
theorem no_read_edge (h : Budget s) (hload : i.wfmLoad = true) : (s.edge sampleWidth i).inst2.doReadReg = false ∧
    (s.edge sampleWidth i).player.currentState ≠ .checkWfmOutfifo ∧
    (s.edge sampleWidth i).player.currentState ≠ .doRead := by
  have hfifo := h.checkOutfifo
  have hread := h.doRead
  have hstate : (s.edge sampleWidth i).player.currentState = s.player.nextState g (s.playerIn i) := rfl
  have hin : (s.playerIn i).wfmLoad = true := hload
  refine ⟨?_, ?_⟩
  · simp [edge, AvalonTrafficGen.next, inst2In, WfmPlayer.inst2DoRead, hread, h.doReadReg]
  · rw [hstate]
    cases hs : s.player.currentState <;> grind [WfmPlayer.nextState]

theorem writes_edge (h : Budget s) : ∀ e ∈ (s.edge sampleWidth i).inst2.inflight, e.writeReq = true := by
  intro e he
  have hmem : e ∈ s.inst2.inflight ++ (s.inst2.fifoIn s.infifoRdata).toList.map AvlEntry.stripped :=
    AvalonTrafficGen.inflight_next (i := s.inst2In i) h.sound ▸ List.mem_append_right _ he
  rcases List.mem_append.mp hmem with hold | hnew
  · exact h.writes e hold
  · obtain ⟨e', he', rfl⟩ := List.mem_map.mp hnew
    have hw : e'.writeReq = true := AvalonTrafficGen.writeReq_of_fifoIn h.doReadReg (Option.mem_toList.mp he')
    exact hw

theorem budget_edge (h : Budget s) (hload : i.wfmLoad = true) (hcur : StartsWrite s → Current s) :
    Budget (s.edge sampleWidth i) := by
  have hdemand := @demand_edge g s i sampleWidth h
  have husedw := @usedw_edge g sampleWidth s i
  have hreq := wdataReq_le_demand h
  have hold := h.demand
  obtain ⟨hwrite, hburst⟩ := @state_edge g sampleWidth s i
  obtain ⟨hnoread, hnofifo, hnostate⟩ := @no_read_edge g s i sampleWidth h hload
  refine ⟨h.sound.next s.player.inst2WriteBurstcount_le s.player.inst2ReadBurstcount_le,
    AvalonTrafficGen.hasWords_next h.hasWords s.player.inst2WriteBurstcount_pos, s.infifo.usedw_le, ?_,
    fun hs => ?_, fun hs => ?_, writes_edge h, hnoread, hnofifo, hnostate⟩
  · by_cases hone : s.player.currentState = .doWrite
    · obtain ⟨hlt, hready⟩ := h.single hone
      rw [commanded_doWrite hone hready] at hdemand
      omega
    by_cases hloop : s.player.currentState = .doBurstWrite
    · have hpair := (h.loop hloop).pair
      rw [commanded_doBurstWrite hloop] at hdemand
      split at hdemand <;> omega
    · rw [commanded_other hone hloop] at hdemand
      omega
  · obtain ⟨hstart, hmax⟩ := hwrite hs
    have hlt : s.inst2.demand < s.infifo.usedw := (if_pos hmax ▸ (hcur hstart).2 :)
    rw [commanded_other (by simp [hstart.1]) (by simp [hstart.1])] at hdemand
    refine ⟨by omega, ?_⟩
    apply AvalonTrafficGen.ready_of_idle
    · simp [edge, AvalonTrafficGen.next, hstart.2.2, inst2In, WfmPlayer.inst2DoWrite, hstart.1]
    · simp [edge, AvalonTrafficGen.next, hstart.2.2, inst2In, WfmPlayer.inst2DoRead, hstart.1]
  · rcases hburst hs with hloop | ⟨hstart, hmax⟩
    · exact loop_step h hloop hs
    · exact loop_start h hstart.1 (hcur hstart) hmax

/-! ## The addresses -/

/-- Before the pulse at the beginning of the load no word is commanded. -/
structure BeforePulse (s : WfmRam g) (k : Nat) : Prop where
  words : k = 0
  demand : s.inst2.demand = 0
  state : s.player.inst3 = EdgePulse.reset ∧ s.player.currentState = .idle ∨
    s.player.inst3 = ⟨true, false, false⟩ ∧ s.player.currentState = .checkWfmInfifo ∨
    s.player.inst3 = ⟨true, true, true⟩ ∧ s.player.currentState = .idle

/-- After the pulse the write address runs ahead of the words asked for by the words still to be asked for. -/
structure AfterPulse (s : WfmRam g) (k : Nat) : Prop where
  inst3 : s.player.inst3 = ⟨true, true, false⟩
  writeAddr : s.player.inst2WriteAddr = (k + s.inst2.demand) % 2 ^ g.avlAddrWidth
  maxWords : s.player.writeMaxWords = k % 2 ^ g.avlAddrWidth

/-- What a load keeps when `k` words have been asked for. -/
structure LoadInv (s : WfmRam g) (k : Nat) : Prop where
  budget : Budget s
  aimed : s.inst2.Aimed g.avlAddrWidth s.port.wr k
  phase : BeforePulse s k ∨ AfterPulse s k

theorem beforePulse_edge {k : Nat} (hb : Budget s) (h : BeforePulse s k) (hload : i.wfmLoad = true)
    (hcur : StartsWrite s → Current s) :
    BeforePulse (s.edge sampleWidth i) (k + s.inst2.wdataReq.toNat) ∨
      AfterPulse (s.edge sampleWidth i) (k + s.inst2.wdataReq.toNat) := by
  have hdemand := @demand_edge g s i sampleWidth hb
  have hreq := wdataReq_le_demand hb
  have hcmd : s.commanded i = 0 := by
    rcases h.state with ⟨-, hs⟩ | ⟨-, hs⟩ | ⟨-, hs⟩ <;> exact commanded_other (by simp [hs]) (by simp [hs])
  have hzero := h.demand
  have hk : k + s.inst2.wdataReq.toNat = 0 := by
    have := h.words
    omega
  have hd : (s.edge sampleWidth i).inst2.demand = 0 := by omega
  have hinst3 : (s.edge sampleWidth i).player.inst3 = s.player.inst3.next i.wfmLoad := rfl
  have hstate : (s.edge sampleWidth i).player.currentState = s.player.nextState g (s.playerIn i) := rfl
  have hin : (s.playerIn i).wfmLoad = true := hload
  rcases h.state with ⟨h3, hs⟩ | ⟨h3, hs⟩ | ⟨h3, hs⟩
  · refine Or.inl ⟨hk, hd, Or.inr (Or.inl ⟨by rw [hinst3, h3, hload]; rfl, ?_⟩)⟩
    rw [hstate, WfmPlayer.nextState, hs]
    simp [hin]
  · refine Or.inl ⟨hk, hd, Or.inr (Or.inr ⟨by rw [hinst3, h3, hload]; rfl, ?_⟩)⟩
    have hno : ¬ StartsWrite s := fun hstart => by
      have hr1 := (hcur hstart).1
      rw [h3] at hr1
      cases hr1
    have hstay : ¬ ((s.playerIn i).wfmInfifoRdempty = false ∧ (s.playerIn i).inst2Ready = true) :=
      fun hgo => hno ⟨hs, by simpa [playerIn] using hgo.1, hgo.2⟩
    simp [hstate, WfmPlayer.nextState, hs, hstay]
  · have hrise : s.player.wfmLoadRising = true := by rw [WfmPlayer.wfmLoadRising, h3]; rfl
    rw [hk]
    refine Or.inr ⟨by rw [hinst3, h3, hload]; rfl, ?_, ?_⟩
    · rw [hd]
      simp [edge, WfmPlayer.next, hrise]
    · simp [edge, WfmPlayer.next, hrise]

theorem afterPulse_edge {k : Nat} (hb : Budget s) (h : AfterPulse s k) (hload : i.wfmLoad = true) :
    AfterPulse (s.edge sampleWidth i) (k + s.inst2.wdataReq.toNat) := by
  have hdemand := @demand_edge g s i sampleWidth hb
  have hinst3 : (s.edge sampleWidth i).player.inst3 = s.player.inst3.next i.wfmLoad := rfl
  have hrise : s.player.wfmLoadRising = false := by rw [WfmPlayer.wfmLoadRising, h.inst3]; rfl
  refine ⟨by rw [hinst3, h.inst3, hload]; rfl, ?_, ?_⟩
  · have haddr : (s.edge sampleWidth i).player.inst2WriteAddr =
        (s.player.inst2WriteAddr + s.commanded i) % 2 ^ g.avlAddrWidth := by
      cases hw : s.player.inst2DoWrite (s.playerIn i) with
      | true =>
          have hr : s.inst2.ready = true := by
            simp only [WfmPlayer.inst2DoWrite, Bool.and_eq_true] at hw
            exact hw.2
          simp [edge, WfmPlayer.next, hrise, commanded, AvalonTrafficGen.takenWriteWords, inst2In, hw, hr]
      | false =>
          simp [edge, WfmPlayer.next, hrise, commanded, AvalonTrafficGen.takenWriteWords, inst2In, hw, h.writeAddr]
    rw [haddr, h.writeAddr, Nat.mod_add_mod, Nat.add_assoc k, ← hdemand, ← Nat.add_assoc]
  · cases hq : s.inst2.wdataReq with
    | true => simp [edge, WfmPlayer.next, hrise, playerIn, hq, h.maxWords]
    | false => simp [edge, WfmPlayer.next, hrise, playerIn, hq, h.maxWords]

theorem loadInv_edge {k : Nat} (h : LoadInv s k) (hload : i.wfmLoad = true) (hcur : StartsWrite s → Current s) :
    LoadInv (s.edge sampleWidth i) (k + s.inst2.wdataReq.toNat) := by
  refine ⟨budget_edge h.budget hload hcur, ?_, ?_⟩
  · refine AvalonTrafficGen.aimed_next (i := s.inst2In i) h.budget.sound h.budget.hasWords h.aimed fun hw _ => ?_
    rcases h.phase with hbefore | hafter
    · have hno : s.player.inst2DoWrite (s.playerIn i) = false := by
        rcases hbefore.state with ⟨-, hs⟩ | ⟨-, hs⟩ | ⟨-, hs⟩ <;> simp [WfmPlayer.inst2DoWrite, hs]
      have hyes : s.player.inst2DoWrite (s.playerIn i) = true := hw
      rw [hno] at hyes
      cases hyes
    · exact hafter.writeAddr
  · rcases h.phase with hbefore | hafter
    · exact beforePulse_edge h.budget hbefore hload hcur
    · exact Or.inr (afterPulse_edge h.budget hafter hload)

end WfmRam

end LimeSdrQpcie
