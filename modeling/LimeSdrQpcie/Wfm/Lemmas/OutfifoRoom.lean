import LimeSdrQpcie.SampleWidth
import LimeSdrQpcie.Wfm.Lemmas.TrafficGen
import LimeSdrQpcie.Wfm.Lemmas.WfmPlayer
import LimeSdrQpcie.Wfm.WfmRam

/-!
# The room in the output FIFO

The words on their way to the output FIFO are counted in sixths of a sample word. A read word of 64 bits makes at
most four sixths: two thirds of a sample word of eight 12-bit samples, or half of one of eight 16-bit samples. A
read word that comes into the unpacker and a sample word that leaves it keep the count, and a read command is taken
only when the count of the words already in the output FIFO and in the unpacker is small.
-/

namespace LimeSdrQpcie

open Hdl

/-! ## The unpackers -/

namespace Unpack64To48

/-- The part of a sample word in the input register. -/
def phaseLoad (wrCnt : Nat) : Nat := if wrCnt = 0 then 0 else if wrCnt = 1 then 4 else 2

def load (s : Unpack64To48) : Nat :=
  6 * ((s.word128_0.valid || s.word128_1.valid).toNat + s.data48Out.valid.toNat) + phaseLoad s.wrCnt

theorem phaseLoad_le (n : Nat) : phaseLoad n ≤ 4 := by
  unfold phaseLoad
  split
  · exact Nat.zero_le 4
  split <;> decide

/-- The word that is formed and the phase after it. -/
theorem phaseLoad_next (s : Unpack64To48) (p : Port (BitVec 64)) :
    6 * ((s.next p).word128_0.valid || (s.next p).word128_1.valid).toNat + phaseLoad (s.next p).wrCnt ≤
      phaseLoad s.wrCnt + 4 * p.valid.toNat := by
  cases hp : p.valid with
  | false => simp [next, hp]
  | true =>
      obtain h0 | h1 | h2 | h3 : s.wrCnt = 0 ∨ s.wrCnt = 1 ∨ s.wrCnt = 2 ∨ 2 < s.wrCnt := by omega
      · simp [next, hp, h0, phaseLoad]
      · simp [next, hp, h1, phaseLoad]
      · simp [next, hp, h2, phaseLoad]
      · simp [next, hp, phaseLoad, show s.wrCnt ≠ 1 by omega, show s.wrCnt ≠ 2 by omega,
          show ¬ s.wrCnt < 2 by omega]

theorem load_next (s : Unpack64To48) (p : Port (BitVec 64)) :
    (s.next p).load + 6 * s.data48Out.valid.toNat ≤ s.load + 4 * p.valid.toNat := by
  have hphase := phaseLoad_next s p
  have hout : (s.next p).data48Out.valid = (s.word128_0.valid || s.word128_1.valid) := rfl
  unfold load
  rw [hout]
  omega

end Unpack64To48

namespace Unpack64To64

def load (s : Unpack64To64) : Nat := 6 * s.word128_0.valid.toNat + if s.wrCnt = 0 then 0 else 3

theorem load_next (s : Unpack64To64) (p : Port (BitVec 64)) :
    (s.next p).load + 6 * s.data64Out.valid.toNat ≤ s.load + 4 * p.valid.toNat := by
  have hout : s.data64Out.valid = s.word128_0.valid := rfl
  rw [hout]
  cases hp : p.valid with
  | false =>
      simp only [load, next, hp]
      simp
      omega
  | true =>
      obtain h0 | h1 | h2 : s.wrCnt = 0 ∨ s.wrCnt = 1 ∨ 1 < s.wrCnt := by omega
      · simp [load, next, hp, h0]
        omega
      · simp [load, next, hp, h1]
        omega
      · simp [load, next, hp, show s.wrCnt ≠ 1 by omega, show s.wrCnt ≠ 0 by omega, show ¬ s.wrCnt < 1 by omega]
        omega

end Unpack64To64

namespace BitUnpack64

/-- What the unpacker holds on the path of a sample width. -/
def load (s : BitUnpack64) : SampleWidth → Nat
  | .w12 => s.inst0.load + 6 * (s.mux0Reg.valid.toNat + s.mux1Reg.valid.toNat)
  | .w14 => 6 * (s.mux0Reg.valid.toNat + s.mux1Reg.valid.toNat)
  | .w16 => s.inst2.load + 6 * s.mux1Reg.valid.toNat

variable {w : SampleWidth}

theorem load_reset (w : SampleWidth) : reset.load w = 0 := by cases w <;> rfl

theorem load_le (w : SampleWidth) (s : BitUnpack64) : s.load w ≤ 28 := by
  have hm0 := Bool.toNat_le s.mux0Reg.valid
  have hm1 := Bool.toNat_le s.mux1Reg.valid
  cases w with
  | w12 =>
      have hw := Bool.toNat_le (s.inst0.word128_0.valid || s.inst0.word128_1.valid)
      have hd := Bool.toNat_le s.inst0.data48Out.valid
      have hp := Unpack64To48.phaseLoad_le s.inst0.wrCnt
      simp only [load, Unpack64To48.load]
      omega
  | w14 =>
      simp only [load]
      omega
  | w16 =>
      have hw := Bool.toNat_le s.inst2.word128_0.valid
      simp only [load, Unpack64To64.load]
      split
      case isTrue => omega
      case isFalse => omega

theorem dataOut_le_load (w : SampleWidth) (s : BitUnpack64) : 6 * s.dataOut.valid.toNat ≤ s.load w := by
  change 6 * s.mux1Reg.valid.toNat ≤ _
  cases w <;> simp only [load] <;> omega

/-- A read word adds at most four sixths of a sample word, and a sample word that leaves takes six. -/
theorem load_next (w : SampleWidth) (s : BitUnpack64) (p : Port (BitVec 64)) :
    (s.next w.code p).load w + 6 * s.dataOut.valid.toNat ≤ s.load w + 4 * p.valid.toNat := by
  have hout : s.dataOut.valid = s.mux1Reg.valid := rfl
  rw [hout]
  cases w with
  | w12 =>
      have h := s.inst0.load_next p
      have h0 : (s.next SampleWidth.w12.code p).mux0Reg = s.inst0.data48Out := rfl
      have h1 : (s.next SampleWidth.w12.code p).mux1Reg = s.mux0Reg := rfl
      have hi : (s.next SampleWidth.w12.code p).inst0 = s.inst0.next p := rfl
      simp only [load, h0, h1, hi]
      omega
  | w14 =>
      have h0 : (s.next SampleWidth.w14.code p).mux0Reg.valid = false := rfl
      have h1 : (s.next SampleWidth.w14.code p).mux1Reg = s.mux0Reg := rfl
      simp only [load, h0, h1, Bool.toNat_false]
      omega
  | w16 =>
      have h := s.inst2.load_next p
      have h1 : (s.next SampleWidth.w16.code p).mux1Reg = s.inst2.data64Out := rfl
      have hi : (s.next SampleWidth.w16.code p).inst2 = s.inst2.next p := rfl
      simp only [load, h1, hi]
      omega

end BitUnpack64

/-! ## The player -/

namespace WfmPlayer

variable {g : WfmGenerics} {s : WfmPlayer} {i : WfmPlayerIn}

/-- The player goes on to read only below the limit. -/
theorem lt_limit_of_doRead (h : s.nextState g i = .doRead) : i.wfmOutfifoWrusedw < g.wfmOutfifoWrwordsLimit := by
  cases hs : s.currentState <;> grind [nextState]

end WfmPlayer

/-! ## The output FIFO -/

namespace WfmRam

variable {L : Nat} {w : SampleWidth} {s : WfmRam (wfmPlayerX2Generics L)} {i : WfmRamIn}

/-- The words in the output FIFO and in the unpacker, in sixths of a sample word. -/
def load (s : WfmRam (wfmPlayerX2Generics L)) (w : SampleWidth) : Nat := 6 * s.outfifo.usedw + s.unpack.load w

/-- The read words still to come. -/
def toCome (s : WfmRam (wfmPlayerX2Generics L)) : Nat := s.port.rdWords + s.inst2.readWords

/-- What keeps the output FIFO from overflowing. The count that the player sees is a cycle old, and the player
decides on it a cycle before it reads. -/
structure Room (L : Nat) (w : SampleWidth) (s : WfmRam (wfmPlayerX2Generics L)) : Prop where
  sound : s.inst2.Sound
  counted : s.load w ≤ 6 * s.outfifoWrusedw + 32
  doRead : s.player.currentState = .doRead → s.load w + 6 * L ≤ 6 * 238 + 36
  all : s.load w + 4 * s.toCome < 6 * 257

theorem room_reset : Room L w (reset : WfmRam (wfmPlayerX2Generics L)) := by
  have hload : (reset : WfmRam (wfmPlayerX2Generics L)).load w = 0 := by
    simp [load, reset, BitUnpack64.load_reset, Fifo.usedw]
  have hgen : AvalonTrafficGen.reset.readWords = 0 := by decide
  have hcome : (reset : WfmRam (wfmPlayerX2Generics L)).toCome = 0 := by simp [toCome, reset, hgen, AvlPort.reset]
  refine ⟨AvalonTrafficGen.sound_reset, ?_, fun h => WfmState.noConfusion h, ?_⟩
  · rw [hload]
    exact Nat.zero_le _
  · rw [hload, hcome]
    decide

/-- A reset only takes words away. -/
theorem Room.resets (h : Room L w s) (i : WfmRamIn) : Room L w (s.resets i) := by
  have hload : (s.resets i).load w ≤ s.load w := by
    cases hp : i.wfmPlayStop with
    | true => simp [load, WfmRam.resets, hp]
    | false => simp [load, WfmRam.resets, hp, BitUnpack64.load_reset, Fifo.usedw]
  have hcome : (s.resets i).toCome ≤ s.toCome := by
    cases hr : i.resetN with
    | true => simp [toCome, WfmRam.resets, hr]
    | false =>
        have h0 : AvalonTrafficGen.reset.readWords = 0 := by decide
        simp [toCome, WfmRam.resets, hr, h0]
  refine ⟨?_, ?_, fun hs => ?_, ?_⟩
  · cases hr : i.resetN with
    | true => simpa [WfmRam.resets, hr] using h.sound
    | false => simpa [WfmRam.resets, hr] using AvalonTrafficGen.sound_reset
  · cases hp : i.wfmPlayStop with
    | true => simpa [load, WfmRam.resets, hp] using h.counted
    | false => simp [load, WfmRam.resets, hp, BitUnpack64.load_reset, Fifo.usedw]
  · cases hr : i.resetN with
    | true =>
        have := h.doRead (by simpa [WfmRam.resets, hr] using hs)
        omega
    | false => simp [WfmRam.resets, hr, WfmPlayer.reset] at hs
  · have := h.all
    omega

/-- A clock edge does not make the words in the output FIFO and in the unpacker more, but for a read word. -/
theorem load_edge (s : WfmRam (wfmPlayerX2Generics L)) (w : SampleWidth) (i : WfmRamIn) :
    (s.edge w.code i).load w ≤ s.load w + 4 * i.avlRddata.valid.toNat := by
  have hunpack := s.unpack.load_next w i.avlRddata
  have hfifo : (s.outfifo.next s.unpack.dataOut.word i.outfifoRd).usedw ≤
      s.outfifo.usedw + s.unpack.dataOut.valid.toNat := by
    have hacc : (s.outfifo.accepted s.unpack.dataOut.word).toList.length ≤ s.unpack.dataOut.valid.toNat := by
      unfold Fifo.accepted Port.word
      cases s.outfifo.isFull <;> cases s.unpack.dataOut.valid <;> simp
    simp only [Fifo.usedw, Fifo.next_store, List.length_append, List.length_drop]
    omega
  change 6 * (s.outfifo.next s.unpack.dataOut.word i.outfifoRd).usedw + (s.unpack.next w.code i.avlRddata).load w ≤ _
  unfold load
  omega

/-- The read words still to come do not grow, unless a read command is taken. -/
theorem toCome_edge (h : s.inst2.Sound) (hret : i.avlRddata.valid = true → 0 < s.port.rdWords) :
    (s.edge w.code i).toCome + i.avlRddata.valid.toNat ≤ s.toCome + s.inst2.takenReadWords (s.inst2In i) := by
  have hgen := @AvalonTrafficGen.readWords_next s.inst2 (s.inst2In i) h
  have hport : (s.edge w.code i).port.rdWords = s.port.rdWords +
      AvalonTrafficGen.listReadWords (s.inst2.issued i.avlReady).toList - i.avlRddata.valid.toNat := by
    simp only [WfmRam.edge, AvlPort.next]
    cases s.inst2.issued i.avlReady <;> simp [AvalonTrafficGen.listReadWords]
  have hready : (s.inst2In i).avlReady = i.avlReady := rfl
  have hinst2 : (s.edge w.code i).inst2 = s.inst2.next (s.inst2In i) := rfl
  have hvalid : i.avlRddata.valid.toNat ≤ s.port.rdWords := by
    cases hv : i.avlRddata.valid with
    | false => exact Nat.zero_le _
    | true => exact hret hv
  rw [hready] at hgen
  unfold toCome
  rw [hport, hinst2]
  omega

theorem Room.edge (hL : 32 ≤ L) (h : Room L w s) (hret : i.avlRddata.valid = true → 0 < s.port.rdWords)
    (hheld : (s.edge w.code i).port.rdWords ≤ L) : Room L w (s.edge w.code i) := by
  have hload := s.load_edge w i
  have hcome := @toCome_edge L w s i h.sound hret
  have hv := Bool.toNat_le i.avlRddata.valid
  have hsound : (s.edge w.code i).inst2.Sound :=
    h.sound.next s.player.inst2WriteBurstcount_le s.player.inst2ReadBurstcount_le
  refine ⟨hsound, ?_, fun hs => ?_, ?_⟩
  · have hw := s.unpack.load_le w
    have husedw : (s.edge w.code i).outfifoWrusedw = s.outfifo.usedw := rfl
    rw [husedw]
    have hunfold : s.load w = 6 * s.outfifo.usedw + s.unpack.load w := rfl
    omega
  · have hlt : s.outfifoWrusedw < 2 ^ (9 - 1) - 1 - L - 16 :=
      WfmPlayer.lt_limit_of_doRead (g := wfmPlayerX2Generics L) (i := s.playerIn i) hs
    have hcounted := h.counted
    omega
  · cases hr : s.player.inst2DoRead (s.playerIn i) with
    | false =>
        have h0 : s.inst2.takenReadWords (s.inst2In i) = 0 := by
          simp [AvalonTrafficGen.takenReadWords, inst2In, hr]
        have hall := h.all
        omega
    | true =>
        have hs : s.player.currentState = .doRead := by
          simp only [WfmPlayer.inst2DoRead, Bool.and_eq_true, beq_iff_eq] at hr
          exact hr.1
        have hdoRead := h.doRead hs
        have hgen := AvalonTrafficGen.readWords_le hsound
        have hunfold : (s.edge w.code i).toCome = (s.edge w.code i).port.rdWords + (s.edge w.code i).inst2.readWords :=
          rfl
        omega

/-! ## Runs -/

/-- The memory controller returns only read words that it has accepted, and it holds at most `L` accepted words
that are not returned yet. -/
structure Controller (L : Nat) (s : Nat → WfmRam (wfmPlayerX2Generics L)) (x : Nat → WfmRamIn) : Prop where
  returns : ∀ n, (x n).avlRddata.valid = true → 0 < (s n).port.rdWords
  held : ∀ n, (s n).port.rdWords ≤ L

theorem room_run {x : Nat → WfmRamIn} (hL : 32 ≤ L)
    (h : Controller L ((circuit (wfmPlayerX2Generics L) w.code).run x) x) (n : Nat) :
    Room L w ((circuit (wfmPlayerX2Generics L) w.code).run x n) := by
  induction n with
  | zero => exact room_reset
  | succ n ih => exact ((ih.resets (x n)).edge hL (h.returns n) (h.held (n + 1))).resets (x n)

/-- With room for what is still to come no word is written to a full FIFO. -/
theorem Room.not_full (h : Room L w s) {d : BitVec 128} (hd : s.outfifoWr = some d) : s.outfifo.isFull = false := by
  have hv : s.unpack.dataOut.valid = true := (Port.word_eq_some.mp hd).1
  have hout := s.unpack.dataOut_le_load w
  have hall := h.all
  have hload : s.load w = 6 * s.outfifo.usedw + s.unpack.load w := rfl
  rw [hv, Bool.toNat_true] at hout
  exact Fifo.isFull_eq_false.mpr (by omega)

end WfmRam

end LimeSdrQpcie
