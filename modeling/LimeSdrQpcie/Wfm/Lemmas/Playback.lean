import LimeSdrQpcie.Wfm.Lemmas.LoadRun
import LimeSdrQpcie.Wfm.Lemmas.OutfifoRoom
import LimeSdrQpcie.Wfm.Lemmas.Reads
import Mathlib.Data.List.Induction

/-!
# From the load to the output FIFO

When the load is over and all its words are in the memory, no write follows any more. The words that the memory
returns from the beginning of the playback on are those at the addresses of the read commands, in order, and so the
waveform again and again.
-/

namespace LimeSdrQpcie

open Hdl

/-! ## After the load -/

namespace WfmRam

variable {g : WfmGenerics} {s s' : WfmRam g} {i : WfmRamIn} {sampleWidth : BitVec 2} {N : Nat}

/-- Nothing is being written, and nothing will be: `N` words have been counted. -/
structure Quiet (s : WfmRam g) (N : Nat) : Prop where
  sound : s.inst2.Sound
  noWrites : s.inst2.NoWrites
  infifo : s.infifo.store = []
  doWrite : s.player.currentState ≠ .doWrite
  doBurstWrite : s.player.currentState ≠ .doBurstWrite
  rising : s.player.inst3.sigInRising = false
  held : s.player.inst3.sigInReg0 = true → s.player.inst3.sigInReg1 = true
  maxWords : s.player.writeMaxWords = N

/-- Nothing is being read. -/
structure Stopped (s : WfmRam g) : Prop where
  checkWfmOutfifo : s.player.currentState ≠ .checkWfmOutfifo
  doRead : s.player.currentState ≠ .doRead
  readAddrs : s.inst2.readAddrs = []

theorem Quiet.congr (h : Quiet s' N) (he : SameLoad s s') : Quiet s N :=
  ⟨he.inst2 ▸ h.sound, he.inst2 ▸ h.noWrites, he.infifo ▸ h.infifo, he.player ▸ h.doWrite, he.player ▸ h.doBurstWrite,
    he.player ▸ h.rising, he.player ▸ h.held, he.player ▸ h.maxWords⟩

theorem Stopped.congr (h : Stopped s') (he : SameLoad s s') : Stopped s :=
  ⟨he.player ▸ h.checkWfmOutfifo, he.player ▸ h.doRead, he.inst2 ▸ h.readAddrs⟩

theorem Quiet.not_inst2DoWrite (h : Quiet s N) : s.player.inst2DoWrite (s.playerIn i) = false := by
  rw [WfmPlayer.inst2DoWrite, beq_eq_false_iff_ne.mpr h.doWrite, beq_eq_false_iff_ne.mpr h.doBurstWrite]
  rfl

theorem Quiet.edge (h : Quiet s N) (hload : i.wfmLoad = false) (hwr : i.infifoWr = none) :
    Quiet (s.edge sampleWidth i) N := by
  obtain ⟨hsingle, hburst⟩ := @state_edge g sampleWidth s i
  have hno : ¬ StartsWrite s := fun hstart => hstart.2.1 h.infifo
  refine ⟨h.sound.next s.player.inst2WriteBurstcount_le s.player.inst2ReadBurstcount_le,
    h.noWrites.next h.sound h.not_inst2DoWrite, ?_, fun hs => hno (hsingle hs).1, fun hs => ?_, ?_, fun hr => ?_, ?_⟩
  · simp [WfmRam.edge, h.infifo, hwr]
  · rcases hburst hs with hloop | hstart
    · exact h.doBurstWrite hloop
    · exact hno hstart.1
  · change (s.player.inst3.sigInReg0 && !s.player.inst3.sigInReg1) = false
    cases h0 : s.player.inst3.sigInReg0 with
    | false => rfl
    | true => rw [h.held h0]; rfl
  · have hr' : i.wfmLoad = true := hr
    rw [hload] at hr'
    cases hr'
  · have hrise : s.player.wfmLoadRising = false := h.rising
    have hreq : (s.playerIn i).inst2WdataReq = false := h.noWrites.wdataReq
    simp [WfmRam.edge, WfmPlayer.next, hrise, hreq, h.maxWords]

/-- The read commands that the generator takes are those of the player. -/
theorem takenReadAddrs_eq (s : WfmRam g) (i : WfmRamIn) : s.inst2.takenReadAddrs (s.inst2In i) =
    (s.player.readCmd (s.playerIn i)).toList.flatMap AvlCmd.addrs := by
  have hready : s.player.inst2DoRead (s.playerIn i) = true → s.inst2.ready = true := fun h => by
    rw [WfmPlayer.inst2DoRead, Bool.and_eq_true] at h
    exact h.2
  unfold AvalonTrafficGen.takenReadAddrs WfmPlayer.readCmd
  cases hd : s.player.inst2DoRead (s.playerIn i) with
  | false => simp [inst2In, hd]
  | true => simp [inst2In, hd, hready hd, AvlCmd.addrs]

theorem Stopped.edge (h : Stopped s) (hq : Quiet s N) (hstop : i.wfmPlayStop = false) :
    Stopped (s.edge sampleWidth i) := by
  have hstate : (s.edge sampleWidth i).player.currentState = s.player.nextState g (s.playerIn i) := rfl
  have hin : (s.playerIn i).wfmPlayStop = false := hstop
  have hfifo := h.checkWfmOutfifo
  have hread := h.doRead
  refine ⟨?_, ?_, ?_⟩
  · rw [hstate]
    cases hs : s.player.currentState <;> grind [WfmPlayer.nextState]
  · rw [hstate]
    cases hs : s.player.currentState <;> grind [WfmPlayer.nextState]
  · have hnext := hq.noWrites.readAddrs_next (i := s.inst2In i) hq.sound
    have hcmd : s.player.readCmd (s.playerIn i) = none := by
      have hdo : s.player.inst2DoRead (s.playerIn i) = false := by
        rw [WfmPlayer.inst2DoRead, beq_eq_false_iff_ne.mpr hread]
        rfl
      rw [WfmPlayer.readCmd, hdo]
      rfl
    rw [takenReadAddrs_eq, hcmd, h.readAddrs] at hnext
    exact (List.append_eq_nil_iff.mp hnext).2

/-- When the words of a load are in the memory. -/
theorem quiet_of_loadInv {k : Nat} (h : LoadInv s k) (hk : k ≠ 0) (hfifo : s.infifo.store = [])
    (hin : s.inst2.inflight = []) : Quiet s (k % 2 ^ g.avlAddrWidth) ∧ Stopped s := by
  have hb := h.budget
  have hused : s.infifo.usedw = 0 := by rw [Fifo.usedw, hfifo, List.length_nil]
  have hdemand : s.inst2.demand = 0 := by have := hb.demand; omega
  have hstate : s.inst2.state = .idle := by
    cases hs : s.inst2.state with
    | idle => rfl
    | writeBurst => simp [AvalonTrafficGen.demand, AvalonTrafficGen.burstLeft, hs, hb.sound.burst hs] at hdemand
  have hdo : s.inst2.doWriteReg = false := by
    cases hw : s.inst2.doWriteReg with
    | false => rfl
    | true =>
        have hpos := hb.hasWords hw
        simp [AvalonTrafficGen.demand, AvalonTrafficGen.regWriteWords, hw] at hdemand
        omega
  have hafter : AfterPulse s k := by
    rcases h.phase with hbefore | hafter
    · exact absurd hbefore.words hk
    · exact hafter
  refine ⟨⟨hb.sound, ⟨hstate, hdo, by simp [hin]⟩, hfifo, fun hs => ?_, fun hs => ?_, ?_, fun _ => ?_, hafter.maxWords⟩,
    ⟨hb.checkOutfifo, hb.doRead, ?_⟩⟩
  · have := (hb.single hs).1
    omega
  · have := (hb.loop hs).pair
    omega
  · rw [hafter.inst3]
  · rw [hafter.inst3]
  · rw [AvalonTrafficGen.readAddrs, hin, AvalonTrafficGen.regReadAddrs, hb.doReadReg]
    rfl

/-- Without a reset only the playback side is reset. -/
theorem sameLoad_of_resetN (hr : i.resetN = true) (hf : i.infifoResetN = true) : SameLoad (s.resets i) s := by
  constructor <;> simp [resets, hr, hf]

end WfmRam

/-! ## The memory -/

theorem AvalonTrafficGen.NoWrites.issued {s : AvalonTrafficGen} (h : s.NoWrites) {avlReady : Bool} {e : AvlEntry}
    (he : s.issued avlReady = some e) : e.writeReq = false := by
  unfold AvalonTrafficGen.issued at he
  split at he
  case isTrue hq =>
    cases he
    have hmem : s.avl.stripped ∈ s.inflight := by
      rw [Bool.and_eq_true] at hq
      simp [AvalonTrafficGen.inflight, AvalonTrafficGen.entries, hq.1]
    exact h.inflight s.avl.stripped hmem
  case isFalse => cases he

namespace WfmMem

variable {g : WfmGenerics} (sampleWidth : BitVec 2) (mem : Nat → BitVec 64) (x : Nat → WfmMemIn)

def memAt (n : Nat) : WfmMem g := (circuit g sampleWidth mem).run x n

def ramInAt (g : WfmGenerics) (n : Nat) : WfmRamIn := (memAt (g := g) sampleWidth mem x n).ramIn (x n)

/-- The registers of the player and around it in cycle `n`. -/
def ramAt (n : Nat) : WfmRam g := (memAt sampleWidth mem x n).ram.resets (ramInAt sampleWidth mem x g n)

/-- The inputs of the player. -/
def playerInAt (g : WfmGenerics) (n : Nat) : WfmPlayerIn :=
  (ramAt (g := g) sampleWidth mem x n).playerIn (ramInAt sampleWidth mem x g n)

/-- The words that the memory returned in the `k` cycles from `p` on. -/
def returned (g : WfmGenerics) (p k : Nat) : List (BitVec 64) :=
  words (fun m => ((memAt (g := g) sampleWidth mem x (p + m)).avlRddata (x (p + m))).word) k

/-- A waveform is loaded from cycle `c` on and until cycle `e`, and played from cycle `p` on. -/
structure Session (x : Nat → WfmMemIn) (c e p : Nat) : Prop where
  resetN : ∀ n, (x n).resetN = true
  infifoResetN : ∀ n, c ≤ n → (x n).infifoResetN = true
  wfmLoad : ∀ n, c ≤ n → (x n).wfmLoad = decide (n < e)
  wfmPlayStop : ∀ n, c ≤ n → (x n).wfmPlayStop = decide (p ≤ n)
  infifoWr : ∀ n, e ≤ n → (x n).infifoWr = none
  loads : c < e
  plays : e < p

variable {sampleWidth mem x} {c e p N : Nat}

theorem ram_run (n : Nat) : (memAt (g := g) sampleWidth mem x n).ram =
    (WfmRam.circuit g sampleWidth).run (ramInAt sampleWidth mem x g) n :=
  Circuit.run_part (c := circuit g sampleWidth mem) (d := WfmRam.circuit g sampleWidth) WfmMem.ram ramIn rfl
    (fun _ _ => rfl) x n

theorem ram_succ (n : Nat) : (memAt (g := g) sampleWidth mem x (n + 1)).ram =
    ((ramAt sampleWidth mem x n).edge sampleWidth (ramInAt sampleWidth mem x g n)).resets
      (ramInAt sampleWidth mem x g n) := rfl

/-- The controller holds the words that are accepted and not returned. -/
theorem rdWords_eq (n : Nat) : (memAt (g := g) sampleWidth mem x n).ram.port.rdWords =
    (memAt (g := g) sampleWidth mem x n).rdData.length := by
  induction n with
  | zero => rfl
  | succ n ih =>
      have hport : (memAt (g := g) sampleWidth mem x (n + 1)).ram.port.rdWords =
          (memAt (g := g) sampleWidth mem x n).ram.port.rdWords +
            ((memAt (g := g) sampleWidth mem x n).accepted (x n)).elim 0 AvlPort.readWords -
              ((memAt (g := g) sampleWidth mem x n).avlRddata (x n)).valid.toNat := rfl
      have hdata : (memAt (g := g) sampleWidth mem x (n + 1)).rdData =
          (memAt (g := g) sampleWidth mem x n).rdData.drop
            ((memAt (g := g) sampleWidth mem x n).avlRddata (x n)).valid.toNat ++
              ((memAt (g := g) sampleWidth mem x n).accepted (x n)).elim [] fun e =>
                (AvlPort.readAddrs e).map (memAt (g := g) sampleWidth mem x n).mem := rfl
      have hle : ((memAt (g := g) sampleWidth mem x n).avlRddata (x n)).valid.toNat ≤
          (memAt (g := g) sampleWidth mem x n).rdData.length := by
        unfold avlRddata
        cases (memAt (g := g) sampleWidth mem x n).rdData with
        | nil => simp
        | cons d ds => cases (x n).rdReturn <;> simp
      rw [hport, hdata, ih, List.length_append, List.length_drop]
      cases (memAt (g := g) sampleWidth mem x n).accepted (x n) with
      | none => rw [Option.elim_none, Option.elim_none, List.length_nil]; omega
      | some e => rw [Option.elim_some, Option.elim_some, List.length_map, AvlPort.readAddrs_length]; omega

/-- With no reset of the player, it is a run of `wfm_player`. -/
theorem player_run (hr : ∀ n, (x n).resetN = true) (n : Nat) : (ramAt (g := g) sampleWidth mem x n).player =
    WfmPlayer.stateAt g (playerInAt sampleWidth mem x g) n := by
  have hreset : ∀ (s : WfmRam g) k, (s.resets (ramInAt sampleWidth mem x g k)).player = s.player := fun s k =>
    if_pos (hr k)
  induction n with
  | zero => exact hreset _ 0
  | succ n ih =>
      have hedge : ((ramAt sampleWidth mem x n).edge sampleWidth (ramInAt sampleWidth mem x g n)).player =
          (ramAt sampleWidth mem x n).player.next g (playerInAt sampleWidth mem x g n) := rfl
      rw [ramAt, hreset, ram_succ, hreset, hedge, ih, WfmPlayer.stateAt_succ]

section Session

variable (h : Session x c e p)

include h in
theorem ramAt_succ {n : Nat} (hn : c ≤ n) : WfmRam.SameLoad (ramAt (g := g) sampleWidth mem x (n + 1))
    ((ramAt sampleWidth mem x n).edge sampleWidth (ramInAt sampleWidth mem x g n)) := by
  have hsame : ∀ (s : WfmRam g) k, c ≤ k → WfmRam.SameLoad (s.resets (ramInAt sampleWidth mem x g k)) s :=
    fun s k hk => WfmRam.sameLoad_of_resetN (h.resetN k) (h.infifoResetN k hk)
  exact (hsame _ (n + 1) (by omega)).trans (hsame _ n hn)

include h in
theorem quiet_run (hq : WfmRam.Quiet (ramAt (g := g) sampleWidth mem x e) N) {n : Nat} (hn : e ≤ n) :
    WfmRam.Quiet (ramAt (g := g) sampleWidth mem x n) N := by
  induction n, hn using Nat.le_induction with
  | base => exact hq
  | succ n hn ih =>
      have hc := h.loads
      have hload : (x n).wfmLoad = false := (h.wfmLoad n (by omega)).trans (decide_eq_false (by omega))
      exact (ih.edge (i := ramInAt sampleWidth mem x g n) hload (h.infifoWr n hn)).congr
        (ramAt_succ h (by omega))

include h in
theorem stopped_run (hq : WfmRam.Quiet (ramAt (g := g) sampleWidth mem x e) N)
    (hs : WfmRam.Stopped (ramAt (g := g) sampleWidth mem x e)) {n : Nat} (hn : e ≤ n) (hp : n ≤ p) :
    WfmRam.Stopped (ramAt (g := g) sampleWidth mem x n) := by
  induction n, hn using Nat.le_induction with
  | base => exact hs
  | succ n hn ih =>
      have hc := h.loads
      have hstop : (x n).wfmPlayStop = false := (h.wfmPlayStop n (by omega)).trans (decide_eq_false (by omega))
      exact ((ih (by omega)).edge (i := ramInAt sampleWidth mem x g n) (quiet_run h hq hn) hstop).congr
        (ramAt_succ h (by omega))

include h in
/-- After the load the memory stays as it is. -/
theorem mem_run (hq : WfmRam.Quiet (ramAt (g := g) sampleWidth mem x e) N) {n : Nat} (hn : e ≤ n) :
    (memAt (g := g) sampleWidth mem x n).mem = (memAt (g := g) sampleWidth mem x e).mem := by
  induction n, hn using Nat.le_induction with
  | base => rfl
  | succ n hn ih =>
      rw [← ih]
      change (((memAt (g := g) sampleWidth mem x n).accepted (x n)).bind _).elim _ _ = _
      cases ha : (memAt (g := g) sampleWidth mem x n).accepted (x n) with
      | none => rfl
      | some e' =>
          have hwr : e'.writeReq = false := (quiet_run h hq hn).noWrites.issued ha
          rw [Option.bind_some, WrBurst.write, hwr]
          rfl

/-- What a cycle of the memory reads and returns. -/
theorem rdData_succ (n : Nat) : ((memAt (g := g) sampleWidth mem x n).avlRddata (x n)).word.toList ++
    (memAt (g := g) sampleWidth mem x (n + 1)).rdData =
      (memAt (g := g) sampleWidth mem x n).rdData ++
        (((ramAt (g := g) sampleWidth mem x n).inst2.issued (x n).avlReady).toList.flatMap AvlPort.readAddrs).map
          (memAt (g := g) sampleWidth mem x n).mem := by
  have hdata : (memAt (g := g) sampleWidth mem x (n + 1)).rdData =
      (memAt (g := g) sampleWidth mem x n).rdData.drop
        ((memAt (g := g) sampleWidth mem x n).avlRddata (x n)).valid.toNat ++
          ((ramAt (g := g) sampleWidth mem x n).inst2.issued (x n).avlReady).elim [] fun e =>
            (AvlPort.readAddrs e).map (memAt (g := g) sampleWidth mem x n).mem := rfl
  have hnew : (((ramAt (g := g) sampleWidth mem x n).inst2.issued (x n).avlReady).elim [] fun e =>
      (AvlPort.readAddrs e).map (memAt (g := g) sampleWidth mem x n).mem) =
        (((ramAt (g := g) sampleWidth mem x n).inst2.issued (x n).avlReady).toList.flatMap AvlPort.readAddrs).map
          (memAt (g := g) sampleWidth mem x n).mem := by
    cases (ramAt (g := g) sampleWidth mem x n).inst2.issued (x n).avlReady <;> simp
  rw [hdata, hnew, ← List.append_assoc]
  congr 1
  unfold avlRddata
  cases (memAt (g := g) sampleWidth mem x n).rdData with
  | nil => simp
  | cons d ds => cases (x n).rdReturn <;> simp

include h in
/-- The words returned, those that the memory still holds and those that are still to be read are the words at the
addresses of the player's read commands, in order. -/
theorem returned_append (hq : WfmRam.Quiet (ramAt (g := g) sampleWidth mem x e) N)
    (hs : WfmRam.Stopped (ramAt (g := g) sampleWidth mem x e))
    (hnil : (memAt (g := g) sampleWidth mem x p).rdData = []) (k : Nat) :
    returned sampleWidth mem x g p k ++ (memAt (g := g) sampleWidth mem x (p + k)).rdData ++
        (ramAt (g := g) sampleWidth mem x (p + k)).inst2.readAddrs.map (memAt (g := g) sampleWidth mem x e).mem =
      (WfmPlayer.readAddrs g (playerInAt sampleWidth mem x g) p k).map (memAt (g := g) sampleWidth mem x e).mem := by
  have hc := h.loads
  have hp := h.plays
  induction k with
  | zero => rw [Nat.add_zero, hnil, (stopped_run h hq hs (Nat.le_of_lt hp) (Nat.le_refl p)).readAddrs]; rfl
  | succ k ih =>
      have hquiet := quiet_run h hq (show e ≤ p + k by omega)
      have hnext := hquiet.noWrites.readAddrs_next (i := (ramAt (g := g) sampleWidth mem x (p + k)).inst2In
        (ramInAt sampleWidth mem x g (p + k))) hquiet.sound
      have hgen : (ramAt (g := g) sampleWidth mem x (p + (k + 1))).inst2 =
          (ramAt (g := g) sampleWidth mem x (p + k)).inst2.next ((ramAt (g := g) sampleWidth mem x (p + k)).inst2In
            (ramInAt sampleWidth mem x g (p + k))) := (ramAt_succ h (show c ≤ p + k by omega)).inst2
      have hcmds : WfmPlayer.readAddrs g (playerInAt sampleWidth mem x g) p (k + 1) =
          WfmPlayer.readAddrs g (playerInAt sampleWidth mem x g) p k ++
            (ramAt (g := g) sampleWidth mem x (p + k)).inst2.takenReadAddrs
              ((ramAt (g := g) sampleWidth mem x (p + k)).inst2In (ramInAt sampleWidth mem x g (p + k))) := by
        rw [WfmRam.takenReadAddrs_eq, player_run h.resetN, WfmPlayer.readAddrs, words_succ, List.flatMap_append]
        rfl
      have hdata := @rdData_succ g sampleWidth mem x (p + k)
      rw [mem_run h hq (show e ≤ p + k by omega)] at hdata
      have hret : returned sampleWidth mem x g p (k + 1) = returned sampleWidth mem x g p k ++
          ((memAt (g := g) sampleWidth mem x (p + k)).avlRddata (x (p + k))).word.toList := rfl
      rw [hcmds, List.map_append, ← ih, hret, hgen, List.append_assoc (returned sampleWidth mem x g p k),
        ← Nat.add_assoc, hdata]
      simp only [List.append_assoc, ← List.map_append]
      exact congrArg (fun l => returned sampleWidth mem x g p k ++
        ((memAt (g := g) sampleWidth mem x (p + k)).rdData ++ l.map (memAt (g := g) sampleWidth mem x e).mem)) hnext

include h in
/-- The read commands go round the `N` words of the waveform. -/
theorem readAddrs_eq (hq : WfmRam.Quiet (ramAt (g := g) sampleWidth mem x e) N) (hN : 2 ≤ N)
    (hlt : N < 2 ^ g.avlAddrWidth) (k : Nat) : WfmPlayer.readAddrs g (playerInAt sampleWidth mem x g) p k =
      (List.range (WfmPlayer.readAddrs g (playerInAt sampleWidth mem x g) p k).length).map (· % N) := by
  have hc := h.loads
  have hp := h.plays
  have hloaded : WfmPlayer.Loaded g (playerInAt sampleWidth mem x g) e N :=
    ⟨fun n hn => (h.wfmLoad n (by omega)).trans (decide_eq_false (by omega)),
      fun n hn => (quiet_run h hq hn).noWrites.wdataReq,
      fun n hn => by rw [← player_run h.resetN]; exact (quiet_run h hq hn).maxWords⟩
  have hzero : (WfmPlayer.stateAt g (playerInAt sampleWidth mem x g) p).inst2ReadAddr = 0 := by
    obtain ⟨q, rfl⟩ : ∃ q, p = q + 1 := ⟨p - 1, by omega⟩
    exact WfmPlayer.readAddr_of_stop ((h.wfmPlayStop q (by omega)).trans (decide_eq_false (by omega)))
  have hplay : WfmPlayer.Playing (playerInAt sampleWidth mem x g) p k := fun m h1 _ =>
    (h.wfmPlayStop m (by omega)).trans (decide_eq_true h1)
  have heq := (WfmPlayer.readAddrs_eq hloaded hN hlt hp (by rw [hzero]; omega) hplay).1
  simpa only [hzero, Nat.zero_add] using heq

include h in
/-- What the memory returns is the waveform, again and again. -/
theorem returned_eq (hq : WfmRam.Quiet (ramAt (g := g) sampleWidth mem x e) N)
    (hs : WfmRam.Stopped (ramAt (g := g) sampleWidth mem x e))
    (hnil : (memAt (g := g) sampleWidth mem x p).rdData = []) (hN : 2 ≤ N) (hlt : N < 2 ^ g.avlAddrWidth) (k : Nat) :
    returned sampleWidth mem x g p k = (List.range (returned sampleWidth mem x g p k).length).map
      fun j => (memAt (g := g) sampleWidth mem x e).mem (j % N) := by
  have hall := returned_append h hq hs hnil k
  rw [readAddrs_eq h hq hN hlt k, List.map_map, List.append_assoc] at hall
  have hlen := congrArg List.length hall
  rw [List.length_append, List.length_map, List.length_range] at hlen
  refine List.ext_getElem (by rw [List.length_map, List.length_range]) fun j h1 h2 => ?_
  rw [List.getElem_map, List.getElem_range]
  have hget : (_ ++ _)[j]? = _ := congrArg (fun l => l[j]?) hall
  rw [List.getElem?_append_left h1, List.getElem?_eq_getElem h1, List.getElem?_map,
    List.getElem?_range (by omega)] at hget
  exact Option.some.inj hget

/-! ## The output FIFO -/

include h in
theorem wfmPlayStop_before {n : Nat} (hn : n + 1 = p) : (x n).wfmPlayStop = false := by
  have hc := h.loads
  have hp := h.plays
  exact (h.wfmPlayStop n (by omega)).trans (decide_eq_false (by omega))

include h in
theorem wfmPlayStop_after (k : Nat) : (x (p + k)).wfmPlayStop = true := by
  have hc := h.loads
  have hp := h.plays
  exact (h.wfmPlayStop (p + k) (by omega)).trans (decide_eq_true (Nat.le_add_right p k))

include h in
/-- The unpacker and the output FIFO leave their reset when the playback begins. -/
theorem playback_start : (memAt (g := g) sampleWidth mem x p).ram.unpack = BitUnpack64.reset ∧
    (memAt (g := g) sampleWidth mem x p).ram.outfifo = Fifo.empty := by
  obtain ⟨q, rfl⟩ : ∃ q, p = q + 1 := ⟨p - 1, by have := h.plays; omega⟩
  have hstop : (ramInAt sampleWidth mem x g q).wfmPlayStop = false := wfmPlayStop_before h rfl
  constructor <;> simp [ram_succ, WfmRam.resets, hstop]

include h in
theorem unpack_run (k : Nat) : (memAt (g := g) sampleWidth mem x (p + k)).ram.unpack =
    (BitUnpack64.circuit sampleWidth).run
      (fun m => (memAt (g := g) sampleWidth mem x (p + m)).avlRddata (x (p + m))) k := by
  induction k with
  | zero => exact (playback_start h).1
  | succ k ih =>
      have hplay : (ramInAt sampleWidth mem x g (p + k)).wfmPlayStop = true := wfmPlayStop_after h k
      have hnext : (memAt (g := g) sampleWidth mem x (p + k + 1)).ram.unpack =
          (memAt (g := g) sampleWidth mem x (p + k)).ram.unpack.next sampleWidth
            ((memAt (g := g) sampleWidth mem x (p + k)).avlRddata (x (p + k))) := by
        simp only [ram_succ, WfmRam.resets, hplay, if_true, WfmRam.edge, ramAt]
        rfl
      rw [← Nat.add_assoc, hnext, ih]
      rfl

include h in
theorem outfifo_succ (k : Nat) : (memAt (g := g) sampleWidth mem x (p + (k + 1))).ram.outfifo =
    (memAt (g := g) sampleWidth mem x (p + k)).ram.outfifo.next
      (memAt (g := g) sampleWidth mem x (p + k)).ram.outfifoWr (x (p + k)).outfifoRd := by
  have hplay : (ramInAt sampleWidth mem x g (p + k)).wfmPlayStop = true := wfmPlayStop_after h k
  rw [← Nat.add_assoc]
  simp only [ram_succ, WfmRam.resets, hplay, if_true, WfmRam.edge, ramAt]
  rfl

variable (sampleWidth mem x) in
/-- The sample words that were played in the `k` cycles from `p` on, and those still in the output FIFO. -/
def played (g : WfmGenerics) (p k : Nat) : List (BitVec 128) :=
  Fifo.taken (fun m => (memAt (g := g) sampleWidth mem x (p + m)).ram.outfifo) (fun m => (x (p + m)).outfifoRd) k ++
    (memAt (g := g) sampleWidth mem x (p + k)).ram.outfifo.store

end Session

/-- No sample word is lost: the controller holds at most `L` words. -/
theorem played_eq {L : Nat} (hL : 32 ≤ L) {w : SampleWidth} (h : Session x c e p)
    (hheld : ∀ n, (memAt (g := wfmPlayerX2Generics L) w.code mem x n).rdData.length ≤ L) (k : Nat) :
    played w.code mem x (wfmPlayerX2Generics L) p k = words (fun m => ((BitUnpack64.circuit w.code).run
      (fun j => (memAt (g := wfmPlayerX2Generics L) w.code mem x (p + j)).avlRddata (x (p + j))) m).dataOut.word) k := by
  have hcontrol : WfmRam.Controller L
      ((WfmRam.circuit (wfmPlayerX2Generics L) w.code).run (ramInAt w.code mem x (wfmPlayerX2Generics L)))
      (ramInAt w.code mem x (wfmPlayerX2Generics L)) := by
    refine ⟨fun n hv => ?_, fun n => ?_⟩
    · rw [← ram_run, rdWords_eq]
      have hv' : ((x n).rdReturn && !(memAt (g := wfmPlayerX2Generics L) w.code mem x n).rdData.isEmpty) = true := hv
      rw [Bool.and_eq_true, Bool.not_eq_true', List.isEmpty_eq_false_iff] at hv'
      exact List.length_pos_iff.mpr hv'.2
    · rw [← ram_run, rdWords_eq]
      exact hheld n
  have hfull : ∀ m, (memAt (g := wfmPlayerX2Generics L) w.code mem x (p + m)).ram.outfifoWr ≠ none →
      (memAt (g := wfmPlayerX2Generics L) w.code mem x (p + m)).ram.outfifo.isFull = false := fun m hne => by
    obtain ⟨d, hd⟩ := Option.ne_none_iff_exists'.mp hne
    rw [ram_run] at hd ⊢
    exact (WfmRam.room_run hL hcontrol (p + m)).not_full hd
  have htaken := Fifo.taken_append_store_of_not_full _ (playback_start h).2 (outfifo_succ h) hfull k
  rw [played, htaken]
  exact words_congr fun m _ => congrArg (fun u => u.dataOut.word) (unpack_run h m)

/-! ## The load -/

/-- The words that came into the input FIFO from cycle `c` on and before cycle `e`. -/
def loaded (sampleWidth : BitVec 2) (mem : Nat → BitVec 64) (x : Nat → WfmMemIn) (g : WfmGenerics) (c e : Nat) :
    List (BitVec 64) :=
  words (fun k => (ramAt (g := g) sampleWidth mem x (c + k)).infifo.accepted (x (c + k)).infifoWr) (e - c)

/-- A load goes as it should from cycle `c` on, and in cycle `e` all its words are in the memory. -/
structure LoadDone (sampleWidth : BitVec 2) (mem : Nat → BitVec 64) (x : Nat → WfmMemIn) (g : WfmGenerics)
    (c e : Nat) : Prop where
  edge : WfmRam.LoadEdge (memAt (g := g) sampleWidth mem x c).ram
  current : ∀ n, c ≤ n → n < e → WfmRam.StartsWrite (ramAt (g := g) sampleWidth mem x n) →
    WfmRam.Current (ramAt (g := g) sampleWidth mem x n)
  infifo : (memAt (g := g) sampleWidth mem x e).ram.infifo.store = []
  entries : (memAt (g := g) sampleWidth mem x e).ram.inst2.entries = []

/-- The writes put the words at the addresses from 0 on. -/
theorem foldl_store_atAddresses {w : Nat} (m : Nat → BitVec 64) {l : List (BitVec 64)} (hl : l.length ≤ 2 ^ w) {j : Nat}
    (hj : j < l.length) : (WfmRam.atAddresses w l).foldl store m j = l[j] := by
  induction l using List.reverseRecOn with
  | nil => cases hj
  | append_singleton l d ih =>
      rw [List.length_append, List.length_singleton] at hl hj
      rw [WfmRam.atAddresses_append, List.foldl_append, List.foldl_cons, List.foldl_nil, store,
        Nat.mod_eq_of_lt (by omega)]
      by_cases hlast : j = l.length
      · rw [if_pos hlast]
        simp [hlast]
      · rw [if_neg hlast, ih (by omega) (by omega), List.getElem_append_left]

/-- The inputs of a load into which no word comes. -/
def restIn : WfmRamIn :=
  { resetN := true, infifoResetN := true, wfmLoad := true, wfmPlayStop := false, infifoWr := none, avlReady := false,
    fifoLate := false, avlRddata := ⟨false, 0⟩, outfifoRd := 0 }

/-- The inputs from cycle `c` on, and from cycle `e` on a load without words. -/
def loadIn (sampleWidth : BitVec 2) (mem : Nat → BitVec 64) (x : Nat → WfmMemIn) (g : WfmGenerics) (c e k : Nat) :
    WfmRamIn :=
  if k < e - c then ramInAt sampleWidth mem x g (c + k) else restIn

section Load

variable (h : Session x c e p)

include h in
theorem loading_loadIn (k : Nat) : WfmRam.Loading (loadIn sampleWidth mem x g c e k) := by
  unfold loadIn
  split
  case isTrue hk =>
    exact ⟨(h.wfmLoad (c + k) (by omega)).trans (decide_eq_true (by omega)), h.resetN _, h.infifoResetN _ (by omega)⟩
  case isFalse => exact ⟨rfl, rfl, rfl⟩

theorem loadRun_eq {k : Nat} (hk : k ≤ e - c) :
    (Circuit.mk (memAt (g := g) sampleWidth mem x c).ram (WfmRam.next sampleWidth)).run
      (loadIn sampleWidth mem x g c e) k = (memAt (g := g) sampleWidth mem x (c + k)).ram := by
  induction k with
  | zero => rfl
  | succ k ih =>
      rw [Circuit.run_succ, ih (by omega), loadIn, if_pos (by omega)]
      rfl

theorem loadAt_eq {k : Nat} (hk : k < e - c) :
    WfmRam.loadAt sampleWidth (memAt (g := g) sampleWidth mem x c).ram (loadIn sampleWidth mem x g c e) k =
      ramAt sampleWidth mem x (c + k) := by
  rw [WfmRam.loadAt, loadRun_eq (Nat.le_of_lt hk), loadIn, if_pos hk]
  rfl

include h in
theorem loadAt_end : WfmRam.SameLoad
    (WfmRam.loadAt sampleWidth (memAt (g := g) sampleWidth mem x c).ram (loadIn sampleWidth mem x g c e) (e - c))
    (memAt (g := g) sampleWidth mem x e).ram := by
  have hc := h.loads
  have hrun := @loadRun_eq g sampleWidth mem x c e (e - c) (Nat.le_refl _)
  rw [show c + (e - c) = e by omega] at hrun
  have hsame : WfmRam.SameLoad ((memAt (g := g) sampleWidth mem x e).ram.resets
      (loadIn sampleWidth mem x g c e (e - c))) (memAt (g := g) sampleWidth mem x e).ram :=
    WfmRam.sameLoad_resets (loading_loadIn h (e - c))
  rw [← hrun] at hsame ⊢
  exact hsame

include h in
theorem alwaysCurrent_loadIn (hd : LoadDone sampleWidth mem x g c e) : WfmRam.AlwaysCurrent sampleWidth
    (memAt (g := g) sampleWidth mem x c).ram (loadIn sampleWidth mem x g c e) := by
  have hempty : ∀ j, (WfmRam.loadAt sampleWidth (memAt (g := g) sampleWidth mem x c).ram
      (loadIn sampleWidth mem x g c e) (e - c + j)).infifo.store = [] := by
    intro j
    induction j with
    | zero => rw [Nat.add_zero, (loadAt_end h).infifo]; exact hd.infifo
    | succ j ih =>
        have hrest : loadIn sampleWidth mem x g c e (e - c + j) = restIn :=
          if_neg (Nat.not_lt.mpr (Nat.le_add_right _ _))
        exact WfmRam.infifo_stays_empty (loading_loadIn h) ih (congrArg WfmRamIn.infifoWr hrest)
  intro k hk
  by_cases hlt : k < e - c
  · rw [loadAt_eq hlt] at hk ⊢
    exact hd.current (c + k) (by omega) (by omega) hk
  · obtain ⟨j, rfl⟩ := Nat.exists_eq_add_of_le (Nat.le_of_not_lt hlt)
    exact absurd (hempty j) hk.2.1

/-- The memory has done the writes that it accepted. -/
theorem mem_load {k : Nat} (hk : k ≤ e - c) : (memAt (g := g) sampleWidth mem x (c + k)).mem =
    (WfmRam.written sampleWidth (memAt (g := g) sampleWidth mem x c).ram (loadIn sampleWidth mem x g c e) k).foldl
      store (memAt (g := g) sampleWidth mem x c).mem := by
  induction k with
  | zero => rfl
  | succ k ih =>
      rw [WfmRam.written_succ, List.foldl_append, ← ih (by omega), loadAt_eq (by omega), loadIn, if_pos (by omega)]
      have hmem : (memAt (g := g) sampleWidth mem x (c + (k + 1))).mem =
          (((ramAt (g := g) sampleWidth mem x (c + k)).inst2.issued (x (c + k)).avlReady).bind
            (ramAt (g := g) sampleWidth mem x (c + k)).port.wr.write).elim
              (memAt (g := g) sampleWidth mem x (c + k)).mem
                (store (memAt (g := g) sampleWidth mem x (c + k)).mem) := rfl
      have hready : (ramInAt sampleWidth mem x g (c + k)).avlReady = (x (c + k)).avlReady := rfl
      rw [hmem, hready]
      cases ((ramAt (g := g) sampleWidth mem x (c + k)).inst2.issued (x (c + k)).avlReady).bind
        (ramAt (g := g) sampleWidth mem x (c + k)).port.wr.write <;> rfl

include h in
/-- At the end of a load the memory holds the words that came, at the addresses from 0 on, and nothing is written any
more. -/
theorem load_end (hd : LoadDone sampleWidth mem x g c e) (hpos : 0 < (loaded sampleWidth mem x g c e).length)
    (hlt : (loaded sampleWidth mem x g c e).length < 2 ^ g.avlAddrWidth) :
    WfmRam.Quiet (ramAt (g := g) sampleWidth mem x e) (loaded sampleWidth mem x g c e).length ∧
      WfmRam.Stopped (ramAt (g := g) sampleWidth mem x e) ∧
      ∀ j (hj : j < (loaded sampleWidth mem x g c e).length),
        (memAt (g := g) sampleWidth mem x e).mem j = (loaded sampleWidth mem x g c e)[j] := by
  have hc := h.loads
  have hx : ∀ k, WfmRam.Loading (loadIn sampleWidth mem x g c e k) := loading_loadIn h
  have hcur := alwaysCurrent_loadIn h hd
  have hend : WfmRam.SameLoad (WfmRam.loadAt sampleWidth (memAt (g := g) sampleWidth mem x c).ram
      (loadIn sampleWidth mem x g c e) (e - c)) (memAt (g := g) sampleWidth mem x e).ram := loadAt_end h
  have hfifo := hend.infifo ▸ hd.infifo
  have hin : (WfmRam.loadAt sampleWidth (memAt (g := g) sampleWidth mem x c).ram (loadIn sampleWidth mem x g c e)
      (e - c)).inst2.inflight = [] := by
    rw [hend.inst2, AvalonTrafficGen.inflight, hd.entries]
    rfl
  -- All that came has been asked for, and written.
  have harrived : WfmRam.arrived sampleWidth (memAt (g := g) sampleWidth mem x c).ram (loadIn sampleWidth mem x g c e)
      (e - c) = loaded sampleWidth mem x g c e := words_congr fun k hk => by
    rw [loadAt_eq hk, loadIn, if_pos hk]
    rfl
  have hreq := WfmRam.arrived_eq hd.edge hx hcur (e - c)
  rw [hfifo, List.append_nil, harrived] at hreq
  have hwritten := WfmRam.written_append_pending hd.edge hx hcur (e - c)
  rw [WfmRam.pending, hin, WrBurst.writes, List.append_nil, ← hreq] at hwritten
  have hinv := WfmRam.loadInv_run hd.edge hx hcur (e - c)
  rw [← hreq] at hinv
  have hresets : WfmRam.SameLoad (ramAt (g := g) sampleWidth mem x e) (memAt (g := g) sampleWidth mem x e).ram :=
    WfmRam.sameLoad_of_resetN (h.resetN e) (h.infifoResetN e (Nat.le_of_lt hc))
  obtain ⟨hquiet, hstopped⟩ := WfmRam.quiet_of_loadInv hinv (by omega) hfifo hin
  rw [Nat.mod_eq_of_lt hlt] at hquiet
  have hback : WfmRam.SameLoad (ramAt (g := g) sampleWidth mem x e) (WfmRam.loadAt sampleWidth
      (memAt (g := g) sampleWidth mem x c).ram (loadIn sampleWidth mem x g c e) (e - c)) :=
    ⟨hresets.player.trans hend.player.symm, hresets.inst2.trans hend.inst2.symm, hresets.infifo.trans hend.infifo.symm,
      hresets.infifoRdusedw.trans hend.infifoRdusedw.symm, hresets.port.trans hend.port.symm⟩
  refine ⟨hquiet.congr hback, hstopped.congr hback, fun j hj => ?_⟩
  have hmem := @mem_load g sampleWidth mem x c e (e - c) (Nat.le_refl _)
  rw [show c + (e - c) = e by omega, hwritten] at hmem
  rw [hmem]
  exact foldl_store_atAddresses _ (Nat.le_of_lt hlt) hj

include h in
/-- From the beginning of the playback on the memory returns the words that were loaded, again and again. -/
theorem returned_eq_loaded (hd : LoadDone sampleWidth mem x g c e)
    (hN : 2 ≤ (loaded sampleWidth mem x g c e).length)
    (hlt : (loaded sampleWidth mem x g c e).length < 2 ^ g.avlAddrWidth)
    (hnil : (memAt (g := g) sampleWidth mem x p).rdData = []) (k : Nat) :
    returned sampleWidth mem x g p k = (List.range (returned sampleWidth mem x g p k).length).map fun j =>
      (loaded sampleWidth mem x g c e).getD (j % (loaded sampleWidth mem x g c e).length) 0 := by
  obtain ⟨hquiet, hstopped, hmem⟩ := load_end h hd (by omega) hlt
  refine (returned_eq h hquiet hstopped hnil hN hlt k).trans (List.map_congr_left fun j _ => ?_)
  have hj : j % (loaded sampleWidth mem x g c e).length < (loaded sampleWidth mem x g c e).length :=
    Nat.mod_lt _ (by omega)
  rw [hmem _ hj, List.getD_eq_getElem?_getD, List.getElem?_eq_getElem hj, Option.getD_some]

end Load

end WfmMem

end LimeSdrQpcie
