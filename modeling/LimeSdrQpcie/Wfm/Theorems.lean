import LimeSdrQpcie.Wfm.Lemmas.LoadEnds
import LimeSdrQpcie.Wfm.Lemmas.OutfifoRoom
import LimeSdrQpcie.Wfm.Lemmas.Playback
import LimeSdrQpcie.Tx.Lemmas.BitUnpack
import LimeSdrQpcie.Wfm.Lemmas.WfmPlayer

/-!
# The waveform player

The main results about `wfm_player`: a load writes the words that come, in order and at consecutive addresses, as
long as the counts on which it decides are current; what is played is what was loaded, and no word of it is lost on
the way out.
-/

namespace LimeSdrQpcie

open Hdl

namespace WfmPlayer

/-- For every waveform of at least two words and every pattern of `ready`: after the load the read commands go
round the words `0 .. N - 1`, each word once a round, in bursts of two or of one for a last odd word. They
begin at zero after every stop, and after a load that was held even when playback was never stopped; from any
other cycle they go on from where the read address stands, if that is inside the waveform. -/
theorem playback_covers (g : WfmGenerics) (x : Nat → WfmPlayerIn) (e N : Nat) (hN : 2 ≤ N)
    (hlt : N < 2 ^ g.avlAddrWidth) (h : Loaded g x e N) :
    (∀ s n, e ≤ s → ((x s).wfmPlayStop = false ∨ s = e ∧ LoadHeld x e) → Playing x (s + 1) n →
      readAddrs g x (s + 1) n = (List.range (readAddrs g x (s + 1) n).length).map (· % N)) ∧
    (LoadHeld x e → readCmdAt g x e = none) ∧
    (∀ t n, e < t → (stateAt g x t).inst2ReadAddr < N → Playing x t n →
      readAddrs g x t n = (List.range (readAddrs g x t n).length).map
        fun i => ((stateAt g x t).inst2ReadAddr + i) % N) ∧
    ∀ n c, e < n → readCmdAt g x n = some c →
      c.burstcount = if c.addr = N - 1 ∧ N % 2 = 1 then 1 else avlMaxBurstCount := by
  refine ⟨fun s n hs hstart hplay => ?_, fun hheld => (readAddr_of_loadHeld hheld).1,
    fun t n ht hin hplay => (readAddrs_eq h hN hlt ht hin hplay).1, fun n c hn hc => ?_⟩
  · have h0 : (stateAt g x (s + 1)).inst2ReadAddr = 0 := by
      rcases hstart with hstop | ⟨rfl, hheld⟩
      · exact readAddr_of_stop hstop
      · exact (readAddr_of_loadHeld hheld).2
    have hcov := (readAddrs_eq h hN hlt (show e < s + 1 by omega) (by omega) hplay).1
    simp only [h0, Nat.zero_add] at hcov
    exact hcov
  · rw [readCmdAt, readCmd] at hc
    split at hc
    · cases hc
      simp only [inst2ReadBurstcount, h.readMaxAddr_eq hN hlt hn, h.writeMaxWords n (by omega)]
    · cases hc

/-! ## One word and two words -/

/-- The generics of the instances, with their default widths. -/
def defaultGenerics : WfmGenerics := ⟨25, 11, 207⟩

/-- A load of `k` words, one or two, and playback from cycle 10 on. -/
def loadWords (k n : Nat) : WfmPlayerIn :=
  { wfmLoad := decide (n < 7), wfmPlayStop := decide (10 ≤ n), inst2Ready := true,
    inst2WdataReq := decide (5 ≤ n ∧ n < 5 + k), wfmInfifoRdempty := n != 3,
    wfmInfifoRdusedw := if n = 2 ∨ n = 3 then k else 0, wfmOutfifoWrusedw := 0 }

theorem loaded_loadWords {k : Nat} (hk : k = 1 ∨ k = 2) : Loaded defaultGenerics (loadWords k) 7 k := by
  have hlate : ∀ n, (stateAt defaultGenerics (loadWords k) (9 + n)).inst3 = EdgePulse.reset ∧
      (stateAt defaultGenerics (loadWords k) (9 + n)).writeMaxWords = k := by
    intro n
    induction n with
    | zero => rcases hk with rfl | rfl <;> decide
    | succ n ih =>
        have hload : (loadWords k (9 + n)).wfmLoad = false := decide_eq_false (by omega)
        have hreq : (loadWords k (9 + n)).inst2WdataReq = false := decide_eq_false (by omega)
        rw [← Nat.add_assoc, stateAt_succ]
        simp only [next, wfmLoadRising, ih.1, ih.2, hload, hreq]
        exact ⟨rfl, rfl⟩
  refine ⟨fun n hn => decide_eq_false (by omega), fun n hn => decide_eq_false (by omega), fun n hn => ?_⟩
  obtain rfl | rfl | h9 : n = 7 ∨ n = 8 ∨ 9 ≤ n := by omega
  · rcases hk with rfl | rfl <;> decide
  · rcases hk with rfl | rfl <;> decide
  · obtain ⟨m, rfl⟩ := Nat.exists_eq_add_of_le h9
    exact (hlate m).2

theorem playback_covers_two : (2 ≤ 2 ∧ 2 < 2 ^ 25 ∧ Loaded defaultGenerics (loadWords 2) 7 2) ∧
    readAddrs defaultGenerics (loadWords 2) 10 7 =
      (List.range (readAddrs defaultGenerics (loadWords 2) 10 7).length).map (· % 2) := by
  have h := loaded_loadWords (Or.inr rfl : 2 = 1 ∨ 2 = 2)
  exact ⟨⟨by decide, by decide, h⟩,
    (playback_covers defaultGenerics (loadWords 2) 7 2 (by decide) (by decide) h).1 9 7 (by decide)
      (Or.inl rfl) fun m h1 _ => decide_eq_true h1⟩

/-- With one word the limit wraps round and the addresses leave the waveform. -/
theorem playback_leaves_one : Loaded defaultGenerics (loadWords 1) 7 1 ∧
    (loadWords 1 9).wfmPlayStop = false ∧ Playing (loadWords 1) 10 5 ∧
    readAddrs defaultGenerics (loadWords 1) 10 5 = [0, 2, 3] ∧
    readAddrs defaultGenerics (loadWords 1) 10 5 ≠
      (List.range (readAddrs defaultGenerics (loadWords 1) 10 5).length).map (· % 1) :=
  ⟨loaded_loadWords (Or.inl rfl), rfl, fun m h1 _ => decide_eq_true h1, by decide, by decide⟩

end WfmPlayer

/-! ## The load -/

namespace WfmRam

/-- For every arrival of words and every pattern of the memory, from a load edge on: while every decision to write is
made on what is so, a word is asked for only from a FIFO that has one; the words that came are those asked for and
those still in the FIFO; the writes done, and those still to come of what is in the generator, are the words asked for
at the addresses from 0 on; and the count of the words is theirs. With a memory that takes entries again and again the
burst loop ends and every word that came is written. -/
theorem load_integrity (g : WfmGenerics) (sampleWidth : BitVec 2) (s₀ : WfmRam g) (x : Nat → WfmRamIn)
    (h : LoadEdge s₀) (hx : ∀ n, Loading (x n)) (hc : AlwaysCurrent sampleWidth s₀ x) :
    (∀ n, (loadAt sampleWidth s₀ x n).inst2.wdataReq = true → (loadAt sampleWidth s₀ x n).infifo.store ≠ []) ∧
    (∀ n, arrived sampleWidth s₀ x n = requested sampleWidth s₀ x n ++ (loadAt sampleWidth s₀ x n).infifo.store ∧
      written sampleWidth s₀ x n ++ pending sampleWidth s₀ x n =
        atAddresses g.avlAddrWidth (requested sampleWidth s₀ x n)) ∧
    (∀ n, 3 ≤ n → (loadAt sampleWidth s₀ x n).player.writeMaxWords =
      ((written sampleWidth s₀ x n).length + (pending sampleWidth s₀ x n).length) % 2 ^ g.avlAddrWidth) ∧
    (∀ n, (arrived sampleWidth s₀ x n).length < 2 ^ g.avlAddrWidth →
      written sampleWidth s₀ x n <+: (arrived sampleWidth s₀ x n).zipIdx.map Prod.swap ∧
        (3 ≤ n → (loadAt sampleWidth s₀ x n).player.writeMaxWords =
          (written sampleWidth s₀ x n).length + (pending sampleWidth s₀ x n).length)) ∧
    ((∀ n, ∃ m, n ≤ m ∧ (x m).avlReady = true ∧ (x m).fifoLate = false) →
      (∀ n, (loadAt sampleWidth s₀ x n).player.currentState = .doBurstWrite →
        ∃ m, n < m ∧ (loadAt sampleWidth s₀ x m).player.currentState = .doWriteIdle) ∧
      ∀ n, ∃ m, n ≤ m ∧ atAddresses g.avlAddrWidth (arrived sampleWidth s₀ x n) <+: written sampleWidth s₀ x m) := by
  have hcount : ∀ n, (requested sampleWidth s₀ x n).length =
      (written sampleWidth s₀ x n).length + (pending sampleWidth s₀ x n).length := fun n => by
    rw [← List.length_append, written_append_pending h hx hc, atAddresses_length]
  have hpre : ∀ n, written sampleWidth s₀ x n <+: atAddresses g.avlAddrWidth (arrived sampleWidth s₀ x n) := by
    intro n
    have hreq : requested sampleWidth s₀ x n <+: arrived sampleWidth s₀ x n :=
      ⟨_, (arrived_eq h hx hc n).symm⟩
    exact List.IsPrefix.trans ⟨_, written_append_pending h hx hc n⟩ (atAddresses_isPrefix _ hreq)
  refine ⟨fun n hq => not_empty_of_wdataReq h hx hc hq,
    fun n => ⟨arrived_eq h hx hc n, written_append_pending h hx hc n⟩,
    fun n hn => by rw [← hcount]; exact writeMaxWords_eq h hx hc hn, fun n hlt => ⟨?_, fun hn => ?_⟩,
    fun hfair => ⟨fun n hs => loop_ends h hx hc hfair hs, fun n => ?_⟩⟩
  · rw [← atAddresses_eq_swap hlt.le]
    exact hpre n
  · have hle := congrArg List.length (arrived_eq h hx hc n)
    rw [List.length_append] at hle
    rw [writeMaxWords_eq h hx hc hn, hcount, Nat.mod_eq_of_lt]
    rw [← hcount]
    omega
  · obtain ⟨k, hk, hle⟩ := all_requested h hx hc hfair n
    obtain ⟨m, hm, hle'⟩ := all_written h hx hc hfair k
    refine ⟨m, by omega, ?_⟩
    have hmono : arrived sampleWidth s₀ x n <+: arrived sampleWidth s₀ x m := words_prefix _ (by omega)
    refine List.prefix_of_prefix_length_le (atAddresses_isPrefix _ hmono) (hpre m) ?_
    rw [atAddresses_length]
    omega

/-- The inputs of a load into which `words` come from cycle `first` on, from a memory that is ready from cycle `ready`
on. -/
def loadInputs (first words ready n : Nat) : WfmRamIn :=
  { resetN := true, infifoResetN := true, wfmLoad := true, wfmPlayStop := false,
    infifoWr := if first ≤ n ∧ n < first + words then some (BitVec.ofNat 64 n) else none,
    avlReady := decide (ready ≤ n), fifoLate := false, avlRddata := ⟨false, 0⟩, outfifoRd := 0 }

/-- The registers after reset, in the instances of `wfm_player_x2_top`. -/
def atReset : WfmRam (wfmPlayerX2Generics 32) := reset

theorem loadEdge_atReset : LoadEdge atReset := ⟨rfl, rfl, rfl, rfl, rfl, rfl, rfl, rfl, rfl⟩

theorem loading_loadInputs (first words ready n : Nat) : Loading (loadInputs first words ready n) := ⟨rfl, rfl, rfl⟩

theorem alwaysCurrent_loadInputs : AlwaysCurrent 0 atReset (loadInputs 4 3 0) := by
  have hearly : ∀ n < 30, StartsWrite (loadAt 0 atReset (loadInputs 4 3 0) n) →
      Current (loadAt 0 atReset (loadInputs 4 3 0) n) := by
    decide +kernel
  have hlate : ∀ k, (loadAt 0 atReset (loadInputs 4 3 0) (30 + k)).infifo.store = [] := by
    intro k
    induction k with
    | zero => decide +kernel
    | succ k ih =>
        have hwr : (loadInputs 4 3 0 (30 + k)).infifoWr = none := if_neg (by omega)
        exact infifo_stays_empty (loading_loadInputs 4 3 0) ih hwr
  intro n hn
  by_cases hlt : n < 30
  · exact hearly n hlt hn
  · obtain ⟨k, rfl⟩ := Nat.exists_eq_add_of_le (Nat.le_of_not_lt hlt)
    exact absurd (hlate k) hn.2.1

theorem load_integrity_three :
    written 0 atReset (loadInputs 4 3 0) 30 = [(0, 4), (1, 5), (2, 6)] ∧
      (loadAt 0 atReset (loadInputs 4 3 0) 30).player.writeMaxWords = 3 ∧
      ∃ m, 10 ≤ m ∧ atAddresses 26 (arrived 0 atReset (loadInputs 4 3 0) 10) <+:
        written 0 atReset (loadInputs 4 3 0) m :=
  ⟨by decide +kernel, by decide +kernel,
    ((load_integrity (wfmPlayerX2Generics 32) 0 atReset (loadInputs 4 3 0) loadEdge_atReset
      (loading_loadInputs 4 3 0) alwaysCurrent_loadInputs).2.2.2.2 fun n => ⟨n, Nat.le_refl n, rfl, rfl⟩).2 10⟩

/-- Twenty words come and the memory is not ready until cycle 42: in cycle 36 the player sees four words in the FIFO,
one of which is still to be asked for by a burst that the full command FIFO holds up, and commands two more pairs; the
last word is asked for from an empty FIFO, and the memory writes 21 words. And a word that comes before the pulse is
written to the address to which the next one goes. -/
theorem load_not_intact :
    (LoadEdge atReset ∧ (∀ n, Loading (loadInputs 4 20 42 n)) ∧
      (∀ n, ∃ m, n ≤ m ∧ (loadInputs 4 20 42 m).avlReady = true ∧ (loadInputs 4 20 42 m).fifoLate = false) ∧
      (loadAt 0 atReset (loadInputs 4 20 42) 48).inst2.wdataReq = true ∧
      (loadAt 0 atReset (loadInputs 4 20 42) 48).infifo.store = [] ∧
      (arrived 0 atReset (loadInputs 4 20 42) 70).length = 20 ∧
      (written 0 atReset (loadInputs 4 20 42) 70).length = 21) ∧
    (∀ n, Loading (loadInputs 0 3 0 n)) ∧ written 0 atReset (loadInputs 0 3 0) 30 = [(0, 0), (0, 1), (1, 2)] :=
  ⟨⟨loadEdge_atReset, loading_loadInputs 4 20 42,
    fun n => ⟨n + 42, Nat.le_add_right n 42, decide_eq_true (Nat.le_add_left 42 n), rfl⟩, by decide +kernel,
    by decide +kernel, by decide +kernel, by decide +kernel⟩, loading_loadInputs 0 3 0, by decide +kernel⟩

/-! ## The output FIFO -/

/-- For every latency from 32 words on, every sample width, every pattern of the memory, of the resets, of the
control signals and of the reader of the output FIFO: no word is written to a full output FIFO, so that every word
written enters. -/
theorem outfifo_never_overflows (L : Nat) (w : SampleWidth) (x : Nat → WfmRamIn) (hL : 32 ≤ L)
    (h : Controller L ((circuit (wfmPlayerX2Generics L) w.code).run x) x) (n : Nat) :
    let s := ((circuit (wfmPlayerX2Generics L) w.code).run x n).resets (x n)
    (∀ d, s.outfifoWr = some d → s.outfifo.isFull = false) ∧ s.outfifo.accepted s.outfifoWr = s.outfifoWr := by
  intro s
  have hroom : Room L w s := (room_run hL h n).resets (x n)
  refine ⟨fun d hd => hroom.not_full hd, ?_⟩
  cases hd : s.outfifoWr with
  | none => exact Fifo.accepted_none _
  | some d => exact Fifo.accepted_of_not_full (hroom.not_full hd) _

/-- Playback from a memory that takes three read commands and returns three words of them. -/
def threeWords (n : Nat) : WfmRamIn :=
  { resetN := true, infifoResetN := true, wfmLoad := false, wfmPlayStop := true, infifoWr := none,
    avlReady := decide (n < 9), fifoLate := false,
    avlRddata := ⟨decide (10 ≤ n ∧ n < 13), BitVec.ofNat 64 n⟩, outfifoRd := 0 }

theorem controller_threeWords :
    Controller 32 ((circuit (wfmPlayerX2Generics 32) SampleWidth.w16.code).run threeWords) threeWords := by
  have hearly : ∀ n < 13, ((circuit (wfmPlayerX2Generics 32) SampleWidth.w16.code).run threeWords n).port.rdWords ≤ 32 ∧
      ((threeWords n).avlRddata.valid = true →
        0 < ((circuit (wfmPlayerX2Generics 32) SampleWidth.w16.code).run threeWords n).port.rdWords) := by
    decide +kernel
  have hlate : ∀ k, ((circuit (wfmPlayerX2Generics 32) SampleWidth.w16.code).run threeWords (13 + k)).port.rdWords = 3 := by
    intro k
    induction k with
    | zero => decide +kernel
    | succ k ih =>
        have hready : (threeWords (13 + k)).avlReady = false := decide_eq_false (by omega)
        have hvalid : (threeWords (13 + k)).avlRddata.valid = false := decide_eq_false (by omega)
        rw [← Nat.add_assoc, Circuit.run_succ]
        simp only [circuit, next, resets, edge, AvlPort.next, AvalonTrafficGen.issued, hready, hvalid, Bool.and_false,
          Bool.false_eq_true, if_false, Option.elim_none, Bool.toNat_false, Nat.sub_zero]
        exact ih
  refine ⟨fun n hv => ?_, fun n => ?_⟩
  · have hn : n < 13 := (of_decide_eq_true hv).2
    exact (hearly n hn).2 hv
  · by_cases hn : n < 13
    · exact (hearly n hn).1
    · obtain ⟨k, rfl⟩ := Nat.exists_eq_add_of_le (Nat.le_of_not_lt hn)
      rw [hlate]
      decide

theorem outfifo_never_overflows_three :
    ((((circuit (wfmPlayerX2Generics 32) SampleWidth.w16.code).run threeWords 13).resets (threeWords 13)).outfifoWr =
        some (11#64 ++ 10#64)) ∧
      (((circuit (wfmPlayerX2Generics 32) SampleWidth.w16.code).run threeWords 13).resets
        (threeWords 13)).outfifo.isFull = false := by
  have hwr : (((circuit (wfmPlayerX2Generics 32) SampleWidth.w16.code).run threeWords 13).resets
      (threeWords 13)).outfifoWr = some (11#64 ++ 10#64) := by decide +kernel
  exact ⟨hwr, (outfifo_never_overflows 32 .w16 threeWords (by decide) controller_threeWords 13).1 _ hwr⟩

end WfmRam

/-! ## Load and playback -/

namespace WfmMem

/-- The waveform `l`, again and again, up to `k` words. -/
def round (l : List (BitVec 64)) (k : Nat) : List (BitVec 64) := (List.range k).map fun j => l.getD (j % l.length) 0

/-- What has been played and what waits in the output FIFO, `d` cycles later, are the samples in the words that the
memory has returned, and these are the waveform `l` again and again. -/
def Plays {n : Nat} (played : Nat → List (BitVec 128)) (returned : Nat → List (BitVec 64)) (l : List (BitVec 64))
    (lanes : BitVec n → BitVec 128) (d k : Nat) : Prop :=
  returned k = round l (returned k).length ∧
  ∃ ws : List (BitVec n), Fills (bitString (round l (returned k).length)) ws ∧ played (k + d) = ws.map lanes

/-- Three words are loaded and played, from a memory that is ready until cycle 44. -/
def threeLoaded (n : Nat) : WfmMemIn :=
  { resetN := true, infifoResetN := true, wfmLoad := decide (n < 30), wfmPlayStop := decide (32 ≤ n),
    infifoWr := if 4 ≤ n ∧ n < 7 then some (BitVec.ofNat 64 n) else none, avlReady := decide (n < 44),
    fifoLate := false, rdReturn := true, outfifoRd := 0 }

theorem session_threeLoaded : Session threeLoaded 0 30 32 :=
  ⟨fun _ => rfl, fun _ _ => rfl, fun _ _ => rfl, fun _ _ => rfl, fun n hn => if_neg (by omega), by decide, by decide⟩

theorem loadDone_threeLoaded :
    LoadDone SampleWidth.w16.code (fun _ => 0) threeLoaded (wfmPlayerX2Generics 32) 0 30 := by
  have hcur : ∀ n < 30, WfmRam.StartsWrite
      (ramAt (g := wfmPlayerX2Generics 32) SampleWidth.w16.code (fun _ => 0) threeLoaded n) →
      WfmRam.Current (ramAt (g := wfmPlayerX2Generics 32) SampleWidth.w16.code (fun _ => 0) threeLoaded n) := by
    decide +kernel
  exact ⟨WfmRam.loadEdge_atReset, fun n _ hn => hcur n hn, by decide +kernel, by decide +kernel⟩

theorem held_threeLoaded (n : Nat) :
    (memAt (g := wfmPlayerX2Generics 32) SampleWidth.w16.code (fun _ => 0) threeLoaded n).rdData.length ≤ 32 := by
  have hearly : ∀ n < 45, (memAt (g := wfmPlayerX2Generics 32) SampleWidth.w16.code (fun _ => 0)
      threeLoaded n).rdData.length ≤ 32 := by
    decide +kernel
  have hlate : ∀ k, (memAt (g := wfmPlayerX2Generics 32) SampleWidth.w16.code (fun _ => 0)
      threeLoaded (44 + k)).rdData.length ≤ 32 := by
    intro k
    induction k with
    | zero => exact hearly 44 (by decide)
    | succ k ih =>
        have hready : (threeLoaded (44 + k)).avlReady = false := decide_eq_false (by omega)
        have hnext := congrArg List.length (@rdData_succ (wfmPlayerX2Generics 32) SampleWidth.w16.code (fun _ => 0)
          threeLoaded (44 + k))
        rw [hready, AvalonTrafficGen.issued, Bool.and_false, List.length_append] at hnext
        simp only [Bool.false_eq_true, if_false, Option.toList_none, List.flatMap_nil, List.map_nil,
          List.append_nil] at hnext
        rw [← Nat.add_assoc]
        omega
  by_cases hn : n < 45
  · exact hearly n hn
  · obtain ⟨k, rfl⟩ := Nat.exists_eq_add_of_le (show 44 ≤ n by omega)
    exact hlate k

end WfmMem

end LimeSdrQpcie
