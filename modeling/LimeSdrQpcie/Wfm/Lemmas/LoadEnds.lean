import LimeSdrQpcie.Wfm.Lemmas.LoadRun

/-!
# A load comes to its end

With a memory that takes an entry again and again, the generator gets ready, asks for the words that are still to be
asked for and sends what it holds; so the burst loop ends, and every word that came is written at last.
-/

namespace LimeSdrQpcie

open Hdl

/-! ## One clock edge of the generator -/

namespace AvalonTrafficGen

variable {s : AvalonTrafficGen} {i : TrafficGenIn}

/-- The memory is ready and the command FIFO shows its first word. -/
def moves (i : TrafficGenIn) : Bool := i.avlReady && !i.fifoLate

/-- The words before the Avalon signals. -/
def queued (s : AvalonTrafficGen) : Nat := s.fifo.usedw + s.pipeline.toList.length

theorem store_next (h : Sound s) : (s.next i).fifo.store =
    s.fifo.store.drop (if s.canIssueAvlCmd i.avlReady && (s.fifoOut i).isSome then 1 else 0) ++
      s.pipeline.toList := by
  simp [next, fifo_accepts h]

theorem queued_next (h : Sound s) : (s.next i).queued +
    (if s.canIssueAvlCmd i.avlReady && (s.fifoOut i).isSome then 1 else 0) ≤
      s.queued + (s.fifoIn i.wdata).toList.length := by
  have hle : (if s.canIssueAvlCmd i.avlReady && (s.fifoOut i).isSome then 1 else 0) ≤ s.fifo.usedw := by
    split
    case isTrue hc =>
      simp only [Bool.and_eq_true, fifoOut] at hc
      obtain ⟨-, hout⟩ := hc
      split at hout
      · cases hout
      · rw [List.isSome_head?] at hout
        have hne : s.fifo.store ≠ [] := by simpa using hout
        exact List.length_pos_iff.mpr hne
    case isFalse => exact Nat.zero_le _
  have hpipe : (s.next i).pipeline = s.fifoIn i.wdata := rfl
  simp only [queued, Fifo.usedw, store_next h, hpipe, List.length_append, List.length_drop] at hle ⊢
  omega

/-- While the command FIFO is full nothing goes into it, and what is in it gets less when it moves. -/
theorem queued_of_full (h : Sound s) (hf : s.fifoFull = true) :
    (s.next i).queued ≤ s.queued ∧ (moves i = true → (s.next i).queued < s.queued) := by
  have hin : s.fifoIn i.wdata = none := by simp [fifoIn, hf]
  have hq := @queued_next s i h
  rw [hin, Option.toList_none, List.length_nil] at hq
  refine ⟨by omega, fun hm => ?_⟩
  simp only [moves, Bool.and_eq_true, Bool.not_eq_true'] at hm
  have hne : s.fifo.store ≠ [] := by
    have hlow : 14 ≤ s.fifo.usedw := of_decide_eq_true hf
    intro hnil
    rw [Fifo.usedw, hnil] at hlow
    cases hlow
  obtain ⟨e, rest, hstore⟩ := List.exists_cons_of_ne_nil hne
  have hout : (s.fifoOut i).isSome = true := by simp [fifoOut, hm.2, hstore]
  have hc : s.canIssueAvlCmd i.avlReady = true := by simp [canIssueAvlCmd, hm.1]
  rw [hout, hc, Bool.and_self, if_pos rfl] at hq
  omega

/-- A generator with words to ask for that does not ask is held up by a full command FIFO. -/
theorem full_of_not_wdataReq (hd : 0 < s.demand) (hq : s.wdataReq = false) : s.fifoFull = true := by
  by_contra hf
  have hf : s.fifoFull = false := by simpa using hf
  cases hs : s.state with
  | writeBurst => simp [wdataReq, hf, hs] at hq
  | idle =>
      have hw : s.doWriteReg = false := by simpa [wdataReq, hf, hs] using hq
      simp [demand, regWriteWords, burstLeft, hs, hw] at hd

/-- What a generator that is not ready waits for: the end of the burst, and room in the command FIFO. -/
def wait (s : AvalonTrafficGen) : Nat := (if s.state = .writeBurst then 32 else 0) + s.queued

theorem wait_next (h : Sound s) (hr : s.ready = false) :
    (s.next i).wait ≤ s.wait ∧ (moves i = true → (s.next i).wait < s.wait) := by
  cases hf : s.fifoFull with
  | true =>
      have hq := @queued_of_full s i h hf
      have hstate : (s.next i).state = s.state := by simp [next, nextState, hf]
      unfold wait
      rw [hstate]
      exact ⟨by omega, fun hm => by have := hq.2 hm; omega⟩
  | false =>
      cases hs : s.state with
      | idle => simp [ready, hf, hs] at hr
      | writeBurst =>
          have hstate : (s.next i).state = .idle := by simp [next, nextState, hf, hs, h.burst hs]
          have hq := @queued_next s i h
          have hone : (s.fifoIn i.wdata).toList.length ≤ 1 := by cases s.fifoIn i.wdata <;> simp
          have hlt : (s.next i).wait < s.wait := by
            simp only [wait, hstate, hs]
            simp
            omega
          exact ⟨hlt.le, fun _ => hlt⟩

/-- How far the oldest entry is from the Avalon signals. -/
def distance (s : AvalonTrafficGen) : Nat := if s.avl.req then 0 else if s.fifo.store = [] then 2 else 1

theorem distance_next (h : Sound s) (hne : s.inflight ≠ []) (hi : s.issued i.avlReady = none) :
    (s.next i).distance ≤ s.distance ∧ (moves i = true → (s.next i).distance < s.distance) := by
  cases hq : s.avl.req with
  | true =>
      have hr : i.avlReady = false := by simpa [issued, hq] using hi
      have havl : (s.next i).avl = s.avl.stripped := by
        simp [next, nextAvl, canIssueAvlCmd, hr, hq, AvlEntry.stripped]
      have h0 : (s.next i).distance = 0 := by simp [distance, havl, hq]
      rw [h0]
      exact ⟨Nat.zero_le _, fun hm => by simp [moves, hr] at hm⟩
  | false =>
      have hc : s.canIssueAvlCmd i.avlReady = true := by simp [canIssueAvlCmd, hq]
      cases hst : s.fifo.store with
      | nil =>
          have hpipe : s.pipeline ≠ none := by
            intro hn
            exact hne (by simp [inflight, entries, hq, hst, hn])
          obtain ⟨e, he⟩ := Option.ne_none_iff_exists'.mp hpipe
          have hstore : (s.next i).fifo.store ≠ [] := by simp [store_next h, he]
          have h2 : s.distance = 2 := by simp [distance, hq, hst]
          have h1 : (s.next i).distance ≤ 1 := by
            unfold distance
            rw [if_neg hstore]
            split <;> omega
          exact ⟨by omega, fun _ => by omega⟩
      | cons e rest =>
          have h1 : s.distance = 1 := by simp [distance, hq, hst]
          cases hl : i.fifoLate with
          | true =>
              have hout : s.fifoOut i = none := by simp [fifoOut, hl]
              have hstore : (s.next i).fifo.store ≠ [] := by simp [store_next h, hst, hout]
              have hle : (s.next i).distance ≤ 1 := by
                unfold distance
                rw [if_neg hstore]
                split <;> omega
              exact ⟨by omega, fun hm => by simp [moves, hl] at hm⟩
          | false =>
              have hout : s.fifoOut i = some e := by simp [fifoOut, hl, hst]
              have havl : (s.next i).avl = e := by simp [next, nextAvl, hc, hout]
              have hreq : e.req = true := h.req e (by simp [hst])
              have h0 : (s.next i).distance = 0 := by simp [distance, havl, hreq]
              exact ⟨by omega, fun _ => by omega⟩

end AvalonTrafficGen

/-! ## One clock edge of the player -/

namespace WfmRam

variable {g : WfmGenerics} {s s₀ : WfmRam g} {i : WfmRamIn} {x : Nat → WfmRamIn} {sampleWidth : BitVec 2}

/-- How far the player is from its next write command. -/
def rank (s : WfmRam g) : Nat :=
  match s.player.currentState with
  | .doWrite | .doBurstWrite => 1
  | .checkWfmInfifo => 2
  | .idle => 3
  | .doWriteIdle => 3 + (4 - s.player.doWriteIdleCnt)
  | .checkWfmOutfifo | .doRead => 0

/-- With no word commanded and a word in the input FIFO the player gives a command or comes closer to it. -/
theorem rank_edge (h : Budget s) (hload : i.wfmLoad = true) (hd : s.inst2.demand = 0) (hne : s.infifo.store ≠ []) :
    0 < (s.edge sampleWidth i).inst2.demand ∨ (s.edge sampleWidth i).rank < s.rank := by
  have hstate : (s.edge sampleWidth i).player.currentState = s.player.nextState g (s.playerIn i) := rfl
  have hcnt : (s.edge sampleWidth i).player.doWriteIdleCnt =
    if s.player.currentState = .doWriteIdle then (s.player.doWriteIdleCnt + 1) % 2 ^ 8 else 0 := rfl
  have hdemand := @demand_edge g s i sampleWidth h
  have hreq := wdataReq_le_demand h
  have hready : s.inst2.ready = true := by
    refine AvalonTrafficGen.ready_of_idle ?_ h.doReadReg
    cases hw : s.inst2.doWriteReg with
    | false => rfl
    | true =>
        have hpos := h.hasWords hw
        simp only [AvalonTrafficGen.demand, AvalonTrafficGen.regWriteWords, hw, if_true] at hd
        omega
  have hin : (s.playerIn i).wfmLoad = true ∧ (s.playerIn i).wfmInfifoRdempty = false ∧
      (s.playerIn i).inst2Ready = true := ⟨hload, by simpa [playerIn] using hne, hready⟩
  obtain ⟨hin1, hin2, hin3⟩ := hin
  cases hs : s.player.currentState with
  | checkWfmOutfifo => exact absurd hs h.checkOutfifo
  | doRead => exact absurd hs h.doRead
  | doWrite =>
      rw [commanded_doWrite hs hready] at hdemand
      exact Or.inl (by omega)
  | doBurstWrite =>
      rw [commanded_doBurstWrite hs, hready, if_pos rfl] at hdemand
      exact Or.inl (by omega)
  | checkWfmInfifo =>
      refine Or.inr ?_
      unfold rank
      rw [hstate, hs, WfmPlayer.nextState, hs]
      by_cases hmax : 0 < s.player.burstCntMax <;> simp [hin2, hin3, hmax]
  | idle =>
      refine Or.inr ?_
      unfold rank
      rw [hstate, hs, WfmPlayer.nextState, hs]
      simp [hin1]
  | doWriteIdle =>
      refine Or.inr ?_
      unfold rank
      rw [hstate, hcnt, hs, WfmPlayer.nextState, hs]
      by_cases hlate : 3 < s.player.doWriteIdleCnt
      · simp [hlate]
        omega
      · simp [hlate]
        omega

/-! ## The whole load -/

section Run

variable (h : LoadEdge s₀) (hx : ∀ n, Loading (x n)) (hc : AlwaysCurrent sampleWidth s₀ x)
  (hfair : ∀ n, ∃ m, n ≤ m ∧ (x m).avlReady = true ∧ (x m).fifoLate = false)

theorem inst2_succ (hx : ∀ n, Loading (x n)) (n : Nat) : (loadAt sampleWidth s₀ x (n + 1)).inst2 =
    (loadAt sampleWidth s₀ x n).inst2.next ((loadAt sampleWidth s₀ x n).inst2In (x n)) := (loadAt_succ hx n).inst2

include hfair in
theorem moves_recurs (n : Nat) : ∃ m, n ≤ m ∧ ((x m).avlReady && !(x m).fifoLate) = true := by
  obtain ⟨m, hm, hr, hl⟩ := hfair n
  exact ⟨m, hm, by simp [hr, hl]⟩

include h hx hc hfair in
theorem ready_recurs (n : Nat) : ∃ m, n ≤ m ∧ (loadAt sampleWidth s₀ x m).inst2.ready = true := by
  have hwait : ∀ m, ¬ (loadAt sampleWidth s₀ x m).inst2.ready = true →
      (loadAt sampleWidth s₀ x (m + 1)).inst2.wait ≤ (loadAt sampleWidth s₀ x m).inst2.wait ∧
        (((x m).avlReady && !(x m).fifoLate) = true →
          (loadAt sampleWidth s₀ x (m + 1)).inst2.wait < (loadAt sampleWidth s₀ x m).inst2.wait) := by
    intro m hr
    rw [inst2_succ hx]
    exact AvalonTrafficGen.wait_next (i := (loadAt sampleWidth s₀ x m).inst2In (x m))
      (loadInv_run h hx hc m).budget.sound (by simpa using hr)
  exact eventually_of_falls (v := fun m => (loadAt sampleWidth s₀ x m).inst2.wait) (moves_recurs hfair)
    (fun m hr => (hwait m hr).1) (fun m hr => (hwait m hr).2) n

include h hx hc hfair in
/-- A word that is commanded is asked for. -/
theorem asks_of_demand {n : Nat} (hd : 0 < (loadAt sampleWidth s₀ x n).inst2.demand) :
    ∃ m, n ≤ m ∧ (loadAt sampleWidth s₀ x m).inst2.wdataReq = true := by
  have hstep : ∀ m, 0 < (loadAt sampleWidth s₀ x m).inst2.demand →
      ¬ (loadAt sampleWidth s₀ x m).inst2.wdataReq = true →
      0 < (loadAt sampleWidth s₀ x (m + 1)).inst2.demand ∧
        (loadAt sampleWidth s₀ x (m + 1)).inst2.queued ≤ (loadAt sampleWidth s₀ x m).inst2.queued ∧
        (((x m).avlReady && !(x m).fifoLate) = true →
          (loadAt sampleWidth s₀ x (m + 1)).inst2.queued < (loadAt sampleWidth s₀ x m).inst2.queued) := by
    intro m hd hq
    have hinv := (loadInv_run h hx hc m).budget
    have hq : (loadAt sampleWidth s₀ x m).inst2.wdataReq = false := by simpa using hq
    have hfull := AvalonTrafficGen.full_of_not_wdataReq hd hq
    have hdemand := AvalonTrafficGen.demand_next (i := (loadAt sampleWidth s₀ x m).inst2In (x m)) hinv.sound
      hinv.hasWords
    rw [hq, Bool.toNat_false] at hdemand
    rw [inst2_succ hx]
    exact ⟨by omega,
      AvalonTrafficGen.queued_of_full (i := (loadAt sampleWidth s₀ x m).inst2In (x m)) hinv.sound hfull⟩
  obtain ⟨m, hm, -, hq⟩ := leads_to_of_falls (v := fun m => (loadAt sampleWidth s₀ x m).inst2.queued)
    (moves_recurs hfair) hstep hd
  exact ⟨m, hm, hq⟩

/-- A cycle in which the player has a word and no word is commanded brings the next command closer. -/
theorem rank_succ (h : LoadEdge s₀) (hx : ∀ n, Loading (x n)) (hc : AlwaysCurrent sampleWidth s₀ x) {m : Nat}
    (hne : (loadAt sampleWidth s₀ x m).infifo.store ≠ []) (hd0 : (loadAt sampleWidth s₀ x m).inst2.demand = 0)
    (hd1 : (loadAt sampleWidth s₀ x (m + 1)).inst2.demand = 0) :
    (loadAt sampleWidth s₀ x (m + 1)).infifo.store ≠ [] ∧
      (loadAt sampleWidth s₀ x (m + 1)).rank < (loadAt sampleWidth s₀ x m).rank := by
  have hinv := (loadInv_run h hx hc m).budget
  have hreq := wdataReq_le_demand hinv
  have hq : (loadAt sampleWidth s₀ x m).inst2.wdataReq.toNat = 0 := by omega
  have hrank : (loadAt sampleWidth s₀ x (m + 1)).rank =
      ((loadAt sampleWidth s₀ x m).edge sampleWidth (x m)).rank := by
    unfold rank
    rw [(loadAt_succ hx m).player]
  rw [(loadAt_succ hx m).inst2] at hd1
  rw [(loadAt_succ hx m).infifo, hrank]
  refine ⟨by simp [edge, hq, hne], ?_⟩
  rcases @rank_edge g _ (x m) sampleWidth hinv (hx m).wfmLoad hd0 hne with hpos | hlt
  · rw [hd1] at hpos
    cases hpos
  · exact hlt

include h hx hc hfair in
/-- A word in the input FIFO is asked for. -/
theorem asks_of_infifo {n : Nat} (hne : (loadAt sampleWidth s₀ x n).infifo.store ≠ []) :
    ∃ m, n ≤ m ∧ (loadAt sampleWidth s₀ x m).inst2.wdataReq = true := by
  have hstep : ∀ m, (loadAt sampleWidth s₀ x m).infifo.store ≠ [] →
      ¬ (0 < (loadAt sampleWidth s₀ x m).inst2.demand ∨ 0 < (loadAt sampleWidth s₀ x (m + 1)).inst2.demand) →
      (loadAt sampleWidth s₀ x (m + 1)).infifo.store ≠ [] ∧
        (loadAt sampleWidth s₀ x (m + 1)).rank ≤ (loadAt sampleWidth s₀ x m).rank ∧
        (true = true → (loadAt sampleWidth s₀ x (m + 1)).rank < (loadAt sampleWidth s₀ x m).rank) := by
    intro m hne hd
    obtain ⟨hstore, hlt⟩ := rank_succ h hx hc hne (by omega) (by omega)
    exact ⟨hstore, hlt.le, fun _ => hlt⟩
  obtain ⟨m, hm, -, hd | hd⟩ := leads_to_of_falls (v := fun m => (loadAt sampleWidth s₀ x m).rank)
    (b := fun _ => true) (fun n => ⟨n, Nat.le_refl n, rfl⟩) hstep hne
  · obtain ⟨m', hm', hq⟩ := asks_of_demand h hx hc hfair hd
    exact ⟨m', by omega, hq⟩
  · obtain ⟨m', hm', hq⟩ := asks_of_demand h hx hc hfair hd
    exact ⟨m', by omega, hq⟩

/-- A cycle of the burst loop that is not its last one. -/
theorem loop_succ (h : LoadEdge s₀) (hx : ∀ n, Loading (x n)) (hc : AlwaysCurrent sampleWidth s₀ x) {m : Nat}
    (hs : (loadAt sampleWidth s₀ x m).player.currentState = .doBurstWrite)
    (hq : ¬ (loadAt sampleWidth s₀ x (m + 1)).player.currentState = .doWriteIdle) :
    (loadAt sampleWidth s₀ x (m + 1)).player.currentState = .doBurstWrite ∧
      2 ^ g.burstCntWidth - (loadAt sampleWidth s₀ x (m + 1)).player.burstWrCnt ≤
        2 ^ g.burstCntWidth - (loadAt sampleWidth s₀ x m).player.burstWrCnt ∧
      ((loadAt sampleWidth s₀ x m).inst2.ready = true →
        2 ^ g.burstCntWidth - (loadAt sampleWidth s₀ x (m + 1)).player.burstWrCnt <
          2 ^ g.burstCntWidth - (loadAt sampleWidth s₀ x m).player.burstWrCnt) := by
  have hinv := (loadInv_run h hx hc m).budget
  have hstate : ((loadAt sampleWidth s₀ x m).edge sampleWidth (x m)).player.currentState =
      (loadAt sampleWidth s₀ x m).player.nextState g ((loadAt sampleWidth s₀ x m).playerIn (x m)) := rfl
  rw [(loadAt_succ hx m).player] at hq ⊢
  have hs' : ((loadAt sampleWidth s₀ x m).edge sampleWidth (x m)).player.currentState = .doBurstWrite := by
    rw [hstate, WfmPlayer.nextState, hs] at hq ⊢
    grind
  have hcnt := burstWrCnt_edge (hinv.loop hs) hs hs'
  refine ⟨hs', ?_⟩
  cases hr : (loadAt sampleWidth s₀ x m).inst2.ready with
  | false =>
      rw [hr, if_neg Bool.false_ne_true] at hcnt
      rw [hcnt]
      exact ⟨Nat.le_refl _, fun hf => by cases hf⟩
  | true =>
      rw [hr, if_pos rfl] at hcnt
      rw [hcnt.2.2]
      exact ⟨by omega, fun _ => by omega⟩

include h hx hc hfair in
/-- The burst loop ends. -/
theorem loop_ends {n : Nat} (hs : (loadAt sampleWidth s₀ x n).player.currentState = .doBurstWrite) :
    ∃ m, n < m ∧ (loadAt sampleWidth s₀ x m).player.currentState = .doWriteIdle := by
  obtain ⟨m, hm, -, hq⟩ := leads_to_of_falls
    (v := fun m => 2 ^ g.burstCntWidth - (loadAt sampleWidth s₀ x m).player.burstWrCnt)
    (Q := fun m => (loadAt sampleWidth s₀ x (m + 1)).player.currentState = .doWriteIdle)
    (ready_recurs h hx hc hfair) (fun m hs hq => loop_succ h hx hc hs hq) hs
  exact ⟨m + 1, by omega, hq⟩

include h hx hc hfair in
/-- Every word that came is asked for. -/
theorem all_requested (n : Nat) :
    ∃ m, n ≤ m ∧ (arrived sampleWidth s₀ x n).length ≤ (requested sampleWidth s₀ x m).length := by
  refine reaches_of_grows fun m hm hlt => ?_
  have hne : (loadAt sampleWidth s₀ x m).infifo.store ≠ [] := by
    have hlen := congrArg List.length (arrived_eq h hx hc m)
    have hmono : (arrived sampleWidth s₀ x n).length ≤ (arrived sampleWidth s₀ x m).length :=
      words_length_mono _ hm
    intro hnil
    rw [hnil, List.append_nil] at hlen
    omega
  obtain ⟨m', hm', hq⟩ := asks_of_infifo h hx hc hfair hne
  refine ⟨m', hm', ?_⟩
  have hmono : (requested sampleWidth s₀ x m).length ≤ (requested sampleWidth s₀ x m').length :=
    words_length_mono _ hm'
  rw [requested_length_succ, hq, Bool.toNat_true]
  omega

include h hx hc hfair in
/-- An entry in the generator is sent, and it is a write. -/
theorem writes_of_inflight {n : Nat} (hne : (loadAt sampleWidth s₀ x n).inst2.inflight ≠ []) :
    ∃ m, n ≤ m ∧ (written sampleWidth s₀ x m).length < (written sampleWidth s₀ x (m + 1)).length := by
  have hqueue : ∀ m, ((loadAt sampleWidth s₀ x m).inst2.issued (x m).avlReady).toList.map AvlEntry.stripped ++
      (loadAt sampleWidth s₀ x (m + 1)).inst2.inflight = (loadAt sampleWidth s₀ x m).inst2.inflight ++
        ((loadAt sampleWidth s₀ x m).inst2.fifoIn (loadAt sampleWidth s₀ x m).infifoRdata).toList.map
          AvlEntry.stripped := by
    intro m
    rw [inst2_succ hx]
    exact AvalonTrafficGen.inflight_next (i := (loadAt sampleWidth s₀ x m).inst2In (x m))
      (loadInv_run h hx hc m).budget.sound
  have hstep : ∀ m, (loadAt sampleWidth s₀ x m).inst2.inflight ≠ [] →
      ¬ (loadAt sampleWidth s₀ x m).inst2.issued (x m).avlReady ≠ none →
      (loadAt sampleWidth s₀ x (m + 1)).inst2.inflight ≠ [] ∧
        (loadAt sampleWidth s₀ x (m + 1)).inst2.distance ≤ (loadAt sampleWidth s₀ x m).inst2.distance ∧
        (((x m).avlReady && !(x m).fifoLate) = true →
          (loadAt sampleWidth s₀ x (m + 1)).inst2.distance < (loadAt sampleWidth s₀ x m).inst2.distance) := by
    intro m hne hi
    have hi : (loadAt sampleWidth s₀ x m).inst2.issued (x m).avlReady = none := not_not.mp hi
    have hq := hqueue m
    rw [hi, Option.toList_none, List.map_nil, List.nil_append] at hq
    refine ⟨by simp [hq, hne], ?_⟩
    rw [inst2_succ hx]
    exact AvalonTrafficGen.distance_next (i := (loadAt sampleWidth s₀ x m).inst2In (x m))
      (loadInv_run h hx hc m).budget.sound hne hi
  obtain ⟨m, hm, hne, hi⟩ := leads_to_of_falls (v := fun m => (loadAt sampleWidth s₀ x m).inst2.distance)
    (moves_recurs hfair) hstep hne
  obtain ⟨e, he⟩ := Option.ne_none_iff_exists'.mp hi
  have hwrite : e.writeReq = true := by
    have hq := hqueue m
    obtain ⟨a, rest, hcons⟩ := List.exists_cons_of_ne_nil hne
    rw [he, hcons, Option.toList_some, List.map_cons, List.cons_append, List.cons_append] at hq
    have ha : e.stripped = a := (List.cons.inj hq).1
    have hall := (loadInv_run h hx hc m).budget.writes a (by simp [hcons])
    rw [← ha] at hall
    exact hall
  refine ⟨m, hm, ?_⟩
  rw [written_succ, he, Option.bind_some, List.length_append, WrBurst.write, hwrite, if_pos rfl]
  exact Nat.lt_succ_self _

include h hx hc hfair in
/-- Every word that is asked for is written. -/
theorem all_written (n : Nat) :
    ∃ m, n ≤ m ∧ (requested sampleWidth s₀ x n).length ≤ (written sampleWidth s₀ x m).length := by
  refine reaches_of_grows fun m hm hlt => ?_
  have hne : (loadAt sampleWidth s₀ x m).inst2.inflight ≠ [] := by
    have hlen := congrArg List.length (written_append_pending h hx hc m)
    rw [atAddresses_length, List.length_append] at hlen
    have hmono : (requested sampleWidth s₀ x n).length ≤ (requested sampleWidth s₀ x m).length :=
      words_length_mono _ hm
    intro hnil
    rw [pending, hnil, WrBurst.writes, List.length_nil] at hlen
    omega
  obtain ⟨m', hm', hq⟩ := writes_of_inflight h hx hc hfair hne
  refine ⟨m', hm', ?_⟩
  have hmono : (written sampleWidth s₀ x m).length ≤ (written sampleWidth s₀ x m').length :=
    words_length_mono _ hm'
  omega

end Run

end WfmRam

end LimeSdrQpcie
