import LimeSdrQpcie.Iq.Theorems
import LimeSdrQpcie.Rx.Diq2Fifo
import LimeSdrQpcie.Rx.Lemmas.Overflow
import LimeSdrQpcie.Rx.Lemmas.RxPath

/-!
# The words that reach the sample FIFO

`rxiq` writes a word for every frame or every two frames, at a steady pace, and so it does through the registers
of `diq2fifo`. What `rx_path_top` misses while it is in reset are whole words.
-/

namespace LimeSdrQpcie

open Hdl

/-- How many samples of a channel there are in a word, and how many cycles lie between its two pairs. -/
def IqMode.smplPerWord (m : IqMode) : Nat := if SmplCnt.shiftOf m.mimoEn m.chEn then 2 else 1

/-- Word `j` of the stream `s`, the first pair of word `0` being the one of cycle `c`. -/
def IqMode.streamWord (m : IqMode) (s : Nat → RxDiq) (c j : Nat) : BitVec 48 :=
  capWord (s (c + 2 * m.smplPerWord * j)) (s (c + 2 * m.smplPerWord * j + m.smplPerWord))

theorem IqMode.streamWord_add (m : IqMode) (s : Nat → RxDiq) (c i j : Nat) :
    m.streamWord s (c + 2 * m.smplPerWord * i) j = m.streamWord s c (i + j) := by
  rw [streamWord, streamWord, Nat.add_assoc c, ← Nat.mul_add]

theorem IqMode.smplPerWord_bounds (m : IqMode) : 1 ≤ m.smplPerWord ∧ m.smplPerWord ≤ 2 := by
  unfold IqMode.smplPerWord
  split <;> decide

theorem IqMode.smplNr_eq (m : IqMode) (sw : SampleWidth) (k : Nat) :
    (m.rxMode sw).smplNr k = BitVec.ofNat 64 (m.smplPerWord * k) := by
  rw [RxMode.smplNr, IqMode.smplPerWord, IqMode.rxMode]
  split
  · rfl
  · rw [Nat.one_mul]

/-- The frames of a stream change between the channels. -/
theorem FrameStream.secondFrame_add {pulse fidm : Bool} {t c : Nat} {s : Nat → RxDiq}
    (h : FrameStream pulse fidm t s) (hc : t ≤ c) (m : IqMode) (k : Nat) :
    m.secondFrame (s (c + 2 * k)) = m.secondFrame (s c) := by
  induction k with
  | zero => rfl
  | succ k ih =>
      rw [← ih]
      unfold IqMode.secondFrame
      rw [show c + 2 * (k + 1) = c + 2 * k + 1 + 1 by omega, h.alternate _ (by omega), h.alternate _ (by omega),
        Bool.not_not]

namespace Diq2Fifo

variable {m : IqMode} {y : Nat → Diq2FifoIn}

variable (m y) in
/-- The halves that are selected in cycle `n`, of the interface or of the test pattern. -/
def sel (n : Nat) : RxDiq := ((circuit m).run y n).mux0Diq m (y n)

theorem inst1_run (n : Nat) : ((circuit m).run y n).inst1 =
    (Rxiq.circuit m).run (fun k => ⟨((circuit m).run y k).mux0DiqReg, false⟩) n :=
  Circuit.run_part (c := circuit m) (d := Rxiq.circuit m) Diq2Fifo.inst1 (fun s _ => ⟨s.mux0DiqReg, false⟩) rfl
    (fun _ _ => rfl) y n

/-- The capture sees the selected halves from the second cycle on, and its words take four cycles. -/
theorem fifoWr_paced (hm : m.mimoEn = true) {a d : Nat} {f : Nat → BitVec 48}
    (hp : Paced (fun n => ((RxiqDdr.circuit (rxiqDdrKind m.trxiqpulse) m).run (fun i => sel m y (1 + i)) n).fifoWrReg.word)
      a d f) :
    Paced (fun n => ((circuit m).run y n).fifoWr.word) (a + 4) d f := by
  have hsel : (fun i => sel m y (1 + i)) = fun i => sel m y (i + 1) := funext fun i => by rw [Nat.add_comm]
  have hword : ∀ n, ((circuit m).run y n).fifoWr =
      ((Rxiq.circuit m).run (fun k => ⟨((circuit m).run y k).mux0DiqReg, false⟩) n).fifoWrReg := fun n => by
    rw [fifoWr, Rxiq.fifoWr, fifoWr_false, inst1_run]
  rw [hsel] at hp
  simp only [hword]
  refine Rxiq.paced_mimo hm (fun _ => rfl) ?_
  cases hpulse : m.trxiqpulse with
  | false =>
      rw [hpulse] at hp
      exact RxiqMimo.paced_ddr hpulse (fun _ => rfl) hp
  | true =>
      rw [hpulse] at hp
      exact RxiqMimo.paced_pulse hpulse (fun _ => rfl) hp

/-- A stream of frames becomes words at a steady pace, from one of its first frames on. -/
theorem exists_streamWord {t : Nat} (hm : m.mimoEn = true) (hch : m.chEn = 0b01 ∨ m.chEn = 0b10 ∨ m.chEn = 0b11)
    (hs : FrameStream m.trxiqpulse m.fidm t (sel m y)) (hpulse : m.trxiqpulse = true → m.fidm = false)
    (hlow : LowBefore 1 t (sel m y)) :
    ∃ c, t ≤ c ∧ c ≤ t + 7 ∧ m.secondFrame (sel m y c) = !m.chEn.getLsbD 0 ∧
      Paced (fun n => ((circuit m).run y n).fifoWr.word) (c + 5 + m.smplPerWord) (2 * m.smplPerWord)
        (m.streamWord (sel m y) c) := by
  obtain ⟨v, hv, hvt, hf, hinv⟩ := hs.exists_frames hpulse 1
  have hone := oneFrame_rxiqDdr m.trxiqpulse fun n => sel m y (1 + n)
  have halone : ∀ second, m.chEn = RxiqDdr.chEnOf second → ∃ c, t ≤ c ∧ c ≤ t + 7 ∧
      m.secondFrame (sel m y c) = !m.chEn.getLsbD 0 ∧
      Paced (fun n => ((circuit m).run y n).fifoWr.word) (c + 5 + m.smplPerWord) (2 * m.smplPerWord)
        (m.streamWord (sel m y) c) := by
    intro second hsec
    have hper : m.smplPerWord = 2 := by
      rw [IqMode.smplPerWord, hm, hsec]
      cases second <;> rfl
    obtain ⟨c, hvc, hcv, hc, hr, hquiet⟩ := @RxiqDdr.alone_sync _ m _ second _ hf
    have hp := (RxiqDdr.alone_paced hsec hone (hf.mono hvc) hc hr).shift (c + 2)
      (RxiqDdr.alone_quiet hsec hone (hquiet (hinv hlow))) fun n => by rw [Nat.add_comm n]
    refine ⟨1 + c, by omega, by omega, ?_, ?_⟩
    · rw [hc, hsec]
      cases second <;> rfl
    · have hw : m.streamWord (sel m y) (1 + c) =
          fun k => capWord (sel m y (1 + (c + 4 * k))) (sel m y (1 + (c + 4 * k + 2))) := funext fun k => by
        rw [IqMode.streamWord, hper, show 1 + c + 2 * 2 * k = 1 + (c + 4 * k) by omega, Nat.add_assoc 1]
      rw [hper, hw, show 1 + c + 5 + 2 = 2 + (c + 2) + 4 by omega]
      exact fifoWr_paced hm hp
  rcases hch with hch | hch | hch
  · exact halone false hch
  · exact halone true hch
  · have hper : m.smplPerWord = 1 := by
      rw [IqMode.smplPerWord, hm, hch]
      rfl
    obtain ⟨c, hvc, hcv, hc⟩ := hf.exists_frame m false
    have hp := (RxiqDdr.both_paced hch hone (hf.mono hvc) hc).shift (c + 2)
      (RxiqDdr.both_quiet hch hone (hinv hlow) hcv) fun n => by rw [Nat.add_comm n]
    refine ⟨1 + c, by omega, by omega, ?_, ?_⟩
    · rw [hc, hch]
      rfl
    · have hw : m.streamWord (sel m y) (1 + c) =
          fun k => capWord (sel m y (1 + (c + 2 * k))) (sel m y (1 + (c + 2 * k + 1))) := funext fun k => by
        rw [IqMode.streamWord, hper, Nat.mul_one, Nat.add_assoc 1, Nat.add_assoc 1]
      rw [hper, hw, show 1 + c + 5 + 1 = 1 + (c + 2) + 4 by omega]
      exact fifoWr_paced hm hp

end Diq2Fifo

namespace RxPathTop

variable {pw : PctBuffWidth} {mode : RxMode} {x : Nat → RxPathTopIn}

theorem clrSmplNrAt_of_low (hclr : ∀ n, (x n).clrSmplNr = false) (n : Nat) : clrSmplNrAt pw mode x n = false := by
  have h : (stateAt pw mode x n).clrSmplNrSync = ⟨false, false⟩ := by
    induction n with
    | zero => rfl
    | succ n ih =>
        have hs : (stateAt pw mode x (n + 1)).clrSmplNrSync =
            (stateAt pw mode x n).clrSmplNrSync.next (x n).clrSmplNr := rfl
        rw [hs, ih, hclr]
        rfl
  rw [clrSmplNrAt, h]
  rfl

theorem readsSinceClr_of_low (hclr : ∀ n, (x n).clrSmplNr = false) (n : Nat) : readsSinceClr pw mode x n =
    Data2PacketsRig.reads pw mode.sampleWidth (rigInAt pw mode x) n := by
  induction n with
  | zero => rfl
  | succ n ih =>
      rw [readsSinceClr, clrSmplNrAt_of_low hclr, if_neg Bool.false_ne_true, ih, smplBuffRdreqAt_eq,
        Data2PacketsRig.reads_succ]

/-- Without a clear header word 1 counts the words of the packets before, and in 14-bit mode one more. -/
theorem hdr1_of_low (hclr : ∀ n, (x n).clrSmplNr = false) {n k : Nat} {pk : Packet}
    (hk : (Data2PacketsRig.formed pw mode.sampleWidth (rigInAt pw mode x) n)[k]? = some pk) :
    pk.hdr1 = mode.smplNr (mode.sampleWidth.smplRdSize * k + if mode.sampleWidth = .w14 then 1 else 0) := by
  obtain ⟨t, hread, h1⟩ := hdr1_eq hk
  rw [h1, readsSinceClr_of_low hclr, ← hread.2]
  have hquiet := Data2PacketsRig.reads_of_firstReadAt hread
  have hbefore : ∀ i, t - 5 ≤ i → i ≤ t → Data2PacketsRig.reads pw mode.sampleWidth (rigInAt pw mode x) i =
      Data2PacketsRig.reads pw mode.sampleWidth (rigInAt pw mode x) t := fun i h1 h2 =>
    Nat.le_antisymm (count_mono _ h2) (hquiet ▸ count_mono _ h1)
  have hsucc := Data2PacketsRig.reads_succ_of_rdreq hread.1
  cases hw : mode.sampleWidth with
  | w12 =>
      rw [hw] at hbefore
      rw [if_neg (by decide), SampleWidth.firstWordDelay, hbefore (t + 6 - 7) (by omega) (by omega), Nat.add_zero]
  | w14 =>
      rw [hw] at hsucc
      rw [if_pos rfl, SampleWidth.firstWordDelay, show t + 8 - 7 = t + 1 by omega, hsucc]
  | w16 =>
      rw [hw] at hbefore
      rw [if_neg (by decide), SampleWidth.firstWordDelay, hbefore (t + 2 - 7) (by omega) (by omega), Nat.add_zero]

end RxPathTop

namespace Data2PacketsRig

variable {pw : PctBuffWidth} {sw : SampleWidth} {x : Nat → Data2PacketsRigIn}

/-- A complete packet carries its words of the sample FIFO, when none was lost and words come at a steady pace. -/
theorem payload_of_paced {a d : Nat} {f : Nat → BitVec 64} (hd : 0 < d)
    (hp : Paced (fun n => (x n).smplFifoWr) a d f) {n : Nat}
    (hall : samples pw sw x n ++ (stateAt pw sw x n).smplFifo.store = words (fun m => (x m).smplFifoWr) n) {k : Nat}
    {pk : Packet} (hk : (formed pw sw x n)[k]? = some pk) (hlen : pk.payload.length = sw.payloadWords) :
    bitString pk.payload =
      sw.keptBits ((List.range sw.smplRdSize).map fun i => f (sw.smplRdSize * k + i)) := by
  have hbits := payload_bits hk hlen
  have hread : sw.smplRdSize * k + sw.smplRdSize ≤ (samples pw sw x n).length := by
    have hl := congrArg List.length hbits
    have hmul := packet_bits sw
    have hpos : 0 < sw.bitsPerWord := by cases sw <;> decide
    rw [bitString_length, hlen, hmul, SampleWidth.keptBits_length] at hl
    have hfull := Nat.eq_of_mul_eq_mul_left hpos hl
    have hb := sw.smplRdSize_bounds
    rw [List.length_take, List.length_drop] at hfull
    omega
  rw [hp.words_eq hd] at hall
  have hcount := congrArg List.length hall
  rw [List.length_append, List.length_map, List.length_range] at hcount
  have hpre : samples pw sw x n = ((List.range ((n + d - 1 - a) / d)).map f).take (samples pw sw x n).length := by
    rw [← hall, List.take_left]
  rw [hbits, hpre]
  congr 1
  apply List.ext_getElem
  · simp only [List.length_take, List.length_drop, List.length_map, List.length_range]
    omega
  · intro i _ _
    simp

end Data2PacketsRig

/-! ## The packets of a stream -/

namespace RxChain

open RxPathTop

variable {m : IqMode} {r : RxResets} {y : Nat → Diq2FifoIn} {x : Nat → RxPathTopIn} {pw : PctBuffWidth}
  {sw : SampleWidth}

/-- From the first word on that comes when `rx_path_top` is out of reset. -/
theorem exists_smplFifoWr {t : Nat} (hm : m.mimoEn = true) (hch : m.chEn = 0b01 ∨ m.chEn = 0b10 ∨ m.chEn = 0b11)
    (hs : FrameStream m.trxiqpulse m.fidm t (Diq2Fifo.sel m y)) (hpulse : m.trxiqpulse = true → m.fidm = false)
    (hlow : LowBefore 1 t (Diq2Fifo.sel m y)) :
    ∃ a c, t ≤ c ∧ c ≤ max (t + 7) (r.rxPathUp - r.diq2fifoUp) ∧
      m.secondFrame (Diq2Fifo.sel m y c) = !m.chEn.getLsbD 0 ∧
      Paced (fun n => (rxPathIn m r y x n).smplFifoWr) a (2 * m.smplPerWord)
        (fun j => smplBuffRddata (m.streamWord (Diq2Fifo.sel m y) c j)) := by
  obtain ⟨c, htc, hc, hfirst, hp⟩ := Diq2Fifo.exists_streamWord hm hch hs hpulse hlow
  have hb := m.smplPerWord_bounds
  have hp' : Paced (fun k => ((Diq2Fifo.circuit m).run y k).fifoWr.word.map smplBuffRddata) _ _ _ := hp.map
  obtain ⟨i, a, ha, hi, hpd⟩ := (hp'.delayed r.diq2fifoUp).drop (by omega) r.rxPathUp
  refine ⟨a, c + 2 * m.smplPerWord * i, Nat.le_add_right_of_le htc, ?_, ?_, ?_⟩
  · rcases hi with rfl | hi
    · omega
    · omega
  · rw [Nat.mul_assoc, hs.secondFrame_add htc, hfirst]
  · simp only [IqMode.streamWord_add]
    exact hpd

/-- What `data2packets_top` and its FIFOs see in each cycle. -/
def rigIn (pw : PctBuffWidth) (sw : SampleWidth) (m : IqMode) (r : RxResets) (y : Nat → Diq2FifoIn)
    (x : Nat → RxPathTopIn) : Nat → Data2PacketsRigIn :=
  rigInAt pw (m.rxMode sw) (rxPathIn m r y x)

/-- The packets formed before cycle `n`, each with its samples when it is complete. -/
def packets (pw : PctBuffWidth) (sw : SampleWidth) (m : IqMode) (r : RxResets) (y : Nat → Diq2FifoIn)
    (x : Nat → RxPathTopIn) (n : Nat) : List Packet :=
  Data2PacketsRig.formed pw sw (rigIn pw sw m r y x) n

/-- The sample words of packet `k`, when word `j` of them all is `f j`, as the packet carries them, and the number of
the packet's first sample as long as the host clears no number. In 14-bit mode the number is one word ahead. -/
def Carried (m : IqMode) (sw : SampleWidth) (x : Nat → RxPathTopIn) (f : Nat → BitVec 48) (k : Nat) (pk : Packet) :
    Prop :=
  (pk.payload.length = sw.payloadWords → bitString pk.payload =
    sw.keptBits ((List.range sw.smplRdSize).map fun i => smplBuffRddata (f (sw.smplRdSize * k + i)))) ∧
  ((∀ n, (x n).clrSmplNr = false) →
    pk.hdr1 = BitVec.ofNat 64 (m.smplPerWord * (sw.smplRdSize * k + if sw = .w14 then 1 else 0)))

/-- The sample FIFO is never full, and every packet carries its words. -/
theorem carried_of_paced {a lag : Nat} {f : Nat → BitVec 48}
    (hp : Paced (fun n => (rxPathIn m r y x n).smplFifoWr) a (2 * m.smplPerWord) fun j => smplBuffRddata (f j))
    (hlag : lag ≤ 340) (hl : Data2PacketsRig.CountLags pw sw (rigIn pw sw m r y x) lag) (n : Nat) :
    (Data2PacketsRig.stateAt pw sw (rigIn pw sw m r y x) n).smplFifo.isFull = false ∧
      ∀ k pk, (packets pw sw m r y x n)[k]? = some pk → Carried m sw x f k pk := by
  have hb := m.smplPerWord_bounds
  have hspaced : Data2PacketsRig.Spaced (rigIn pw sw m r y x) := fun i hi => hp.gap_succ (by omega) hi
  have hfull : ∀ i, (Data2PacketsRig.stateAt pw sw (rigIn pw sw m r y x) i).smplFifo.isFull = false := fun i => by
    have hle := Data2PacketsRig.usedw_le hspaced hl i
    have hsize := sw.smplRdSize_bounds.2
    exact Fifo.isFull_eq_false.mpr (by omega)
  have hall := Fifo.taken_append_store_of_not_full _ rfl
    (@Data2PacketsRig.smplFifo_succ pw sw (rigIn pw sw m r y x)) (fun i _ => hfull i) n
  refine ⟨hfull n, fun k pk hk => ⟨?_, fun hclr => ?_⟩⟩
  · exact Data2PacketsRig.payload_of_paced (by omega) hp hall hk
  · have hhdr1 := @hdr1_of_low pw (m.rxMode sw) (rxPathIn m r y x) hclr n k pk hk
    rw [IqMode.smplNr_eq] at hhdr1
    exact hhdr1

theorem inst0Data48In_smplBuffRddata (w : BitVec 48) : BitPack.inst0Data48In (smplBuffRddata w) = w := by
  apply BitVec.eq_of_getLsbD_eq
  intro i hi
  unfold BitPack.inst0Data48In smplBuffRddata
  simp only [BitVec.getLsbD_append, BitVec.getLsbD_extractLsb]
  grind

/-- In 12-bit mode the packer drops what `rx_path_top` has filled in. -/
theorem keptBits_w12 (ws : List (BitVec 48)) :
    SampleWidth.w12.keptBits (ws.map smplBuffRddata) = bitString ws := by
  have hid : BitPack.inst0Data48In ∘ smplBuffRddata = id := funext inst0Data48In_smplBuffRddata
  rw [SampleWidth.keptBits_w12, List.map_map, hid, List.map_id]

end RxChain

/-! ## The test pattern -/

/-- Four numbers that follow each other. -/
def countWord (v : Nat) : BitVec 48 :=
  fifoWord (BitVec.ofNat 12 v) (BitVec.ofNat 12 (v + 1)) (BitVec.ofNat 12 (v + 2)) (BitVec.ofNat 12 (v + 3))

theorem TestDataDd.run_eq (u : Nat → Unit) (n : Nat) : circuit.run u n =
    ⟨BitVec.ofNat 12 (2 * ((n + 1) / 2) + 1), BitVec.ofNat 12 (2 * ((n + 1) / 2)), decide (n % 2 = 1)⟩ := by
  induction n with
  | zero => rfl
  | succ n ih =>
      rw [Circuit.run_succ, ih]
      show next _ = _
      have hcnt : ∀ v, BitVec.ofNat 12 v + 2 = BitVec.ofNat 12 (v + 2) := fun v => (BitVec.ofNat_add v 2).symm
      rcases Nat.mod_two_eq_zero_or_one n with h | h
      · rw [h, show (n + 1) % 2 = 1 by omega, show (n + 1 + 1) / 2 = (n + 1) / 2 + 1 by omega, Nat.mul_succ,
          Nat.add_right_comm _ 2 1, ← hcnt, ← hcnt]
        rfl
      · rw [h, show (n + 1) % 2 = 0 by omega, show (n + 1 + 1) / 2 = (n + 1) / 2 by omega]
        rfl

namespace Diq2Fifo

variable {m : IqMode} {y : Nat → Diq2FifoIn}

/-- With the test pattern on, the halves of cycle `n`. -/
theorem sel_testPtrn (hy : ∀ n, (y n).testPtrnEn = true) (n : Nat) : sel m y n =
    { diqH := ⟨decide (n % 2 = 1) ^^ m.fidm, BitVec.ofNat 12 (2 * ((n + 1) / 2) + 1)⟩
      diqL := ⟨decide (n % 2 = 1) ^^ m.fidm, BitVec.ofNat 12 (2 * ((n + 1) / 2))⟩ } := by
  have hrun : ((circuit m).run y n).inst2 = TestDataDd.circuit.run (fun _ => ()) n :=
    Circuit.run_part (c := circuit m) (d := TestDataDd.circuit) Diq2Fifo.inst2 (fun _ _ => ()) rfl
      (fun _ _ => rfl) y n
  rw [sel, mux0Diq, hy, if_pos rfl, hrun, TestDataDd.run_eq, TestDataDd.data, TestDataDd.iqSelOut]
  cases m.fidm <;> simp

theorem frameStream_testPtrn (hy : ∀ n, (y n).testPtrnEn = true) : FrameStream false m.fidm 0 (sel m y) := by
  refine ⟨fun n _ => ?_, fun n _ => ?_⟩
  · rw [sel_testPtrn hy, sel_testPtrn hy]
    rcases Nat.mod_two_eq_zero_or_one n with h | h
    · rw [h, show (n + 1) % 2 = 1 by omega]
      cases m.fidm <;> rfl
    · rw [h, show (n + 1) % 2 = 0 by omega]
      cases m.fidm <;> rfl
  · rw [sel_testPtrn hy]
    rfl

/-- The words of the test pattern count on: the channels by two with every word, one channel alone by four. -/
theorem streamWord_testPtrn (hy : ∀ n, (y n).testPtrnEn = true) (hm : m.mimoEn = true)
    (hch : m.chEn = 0b01 ∨ m.chEn = 0b10 ∨ m.chEn = 0b11) {c : Nat}
    (hc : m.secondFrame (sel m y c) = !m.chEn.getLsbD 0) (j : Nat) :
    m.streamWord (sel m y) c j = countWord (2 * ((c + 1) / 2) + 2 * m.smplPerWord * j) := by
  have hsecond : decide (c % 2 = 1) = !m.chEn.getLsbD 0 := by
    rw [← hc, IqMode.secondFrame, sel_testPtrn hy, Bool.xor_assoc, Bool.xor_self, Bool.xor_false]
  have hvals : ∀ d, m.smplPerWord = d → 2 * ((c + 2 * d * j + 1) / 2) = 2 * ((c + 1) / 2) + 2 * d * j →
      2 * ((c + 2 * d * j + d + 1) / 2) = 2 * ((c + 1) / 2) + 2 * d * j + 2 →
      m.streamWord (sel m y) c j = countWord (2 * ((c + 1) / 2) + 2 * m.smplPerWord * j) := by
    intro d hd h0 h1
    rw [IqMode.streamWord, hd, sel_testPtrn hy, sel_testPtrn hy, h0, h1]
    rfl
  have hper : ∀ d, (if SmplCnt.shiftOf true m.chEn then 2 else 1) = d → m.smplPerWord = d := fun d hd => by
    rw [IqMode.smplPerWord, hm, hd]
  have htwo : ∀ k : Nat, 2 * 2 * k = 2 * (2 * k) := fun k => Nat.mul_assoc 2 2 k
  rcases hch with hch | hch | hch
  · exact hvals 2 (hper 2 (by rw [hch]; rfl)) (by rw [htwo]; omega) (by rw [htwo]; omega)
  · exact hvals 2 (hper 2 (by rw [hch]; rfl)) (by rw [htwo]; omega) (by rw [htwo]; omega)
  · have heven : c % 2 = 0 := by
      rw [hch] at hsecond
      have := of_decide_eq_false hsecond
      omega
    exact hvals 1 (hper 1 (by rw [hch]; rfl)) (by omega) (by omega)

end Diq2Fifo

end LimeSdrQpcie
