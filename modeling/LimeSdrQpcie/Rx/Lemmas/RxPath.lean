import LimeSdrQpcie.Rx.RxPath
import LimeSdrQpcie.Rx.Lemmas.Progress
import Mathlib.Data.Fin.Basic

/-!
# The sample number of a packet

The sample counter reaches header word 1 through eight registers. The first word of a packet reaches
`data2packets` a number of cycles after its first sample word is read that depends on the sample width.
-/

namespace LimeSdrQpcie

open Hdl

/-- A word more changes neither the headers of a packet nor where it goes. -/
theorem Packet.addLast_getElem? {pks : List Packet} {d : BitVec 64} {k : Nat} {pk : Packet}
    (h : (addLast pks d)[k]? = some pk) :
    ∃ pk', pks[k]? = some pk' ∧ pk.hdr0 = pk'.hdr0 ∧ pk.hdr1 = pk'.hdr1 ∧ pk.written = pk'.written := by
  induction pks generalizing k with
  | nil => simp [addLast] at h
  | cons pk' pks ih =>
      cases pks with
      | nil =>
          cases k with
          | zero => cases h; exact ⟨pk', rfl, rfl, rfl, rfl⟩
          | succ k => simp [addLast] at h
      | cons pk'' pks =>
          cases k with
          | zero => cases h; exact ⟨pk, rfl, rfl, rfl, rfl⟩
          | succ k => exact ih h

namespace Data2PacketsRig

variable {pw : PctBuffWidth} {sw : SampleWidth} {x : Nat → Data2PacketsRigIn}

/-! ## From the first word read to the header -/

/-- The first word of the packet after the first `k` leaves the packer in cycle `c`. -/
def FirstWordAt (pw : PctBuffWidth) (sw : SampleWidth) (x : Nat → Data2PacketsRigIn) (c k : Nat) : Prop :=
  (packedAt pw sw x c).valid = true ∧ (topAt pw sw x c).inst2.currentState = .idle ∧
    packed pw sw x c = sw.payloadWords * k

theorem formed_length_of_firstWordAt {n : Nat} (hv : (packedAt pw sw x n).valid = true)
    (hs : (topAt pw sw x n).inst2.currentState = .idle) : FirstWordAt pw sw x n (formed pw sw x n).length := by
  obtain ⟨p, hf, hd, hformed⟩ := @exists_formed pw sw x n
  simp only [FormAt, hs] at hd
  have hk : packed pw sw x n = sw.payloadWords * p := by
    rcases hd.2 with hk | hk
    · exact hk
    · rw [not_valid_of_packed hf hk] at hv; cases hv
  obtain ⟨_, hlen, _⟩ | ⟨hlt, _⟩ := hformed
  · exact ⟨hv, hs, by rw [hlen, hk]⟩
  · omega

/-- The headers of a packet are the ones of the cycle that brings its first word. -/
theorem exists_firstWordAt {n k : Nat} {pk : Packet} (hk : (formed pw sw x n)[k]? = some pk) :
    ∃ c < n, FirstWordAt pw sw x c k ∧ pk.hdr0 = (x c).pctHdr0 ∧ pk.hdr1 = (x c).pctHdr1 ∧
      pk.written = (topAt pw sw x c).inst0.pctBuffWrDis := by
  induction n generalizing pk with
  | zero => simp [formed] at hk
  | succ n ih =>
      cases hv : (packedAt pw sw x n).valid with
      | false =>
          rw [formed_succ_of_none hv] at hk
          obtain ⟨c, hc, hcap⟩ := ih hk
          exact ⟨c, by omega, hcap⟩
      | true =>
          by_cases hs : (topAt pw sw x n).inst2.currentState = .idle
          · rw [formed_succ_idle hv hs] at hk
            rcases Nat.lt_or_ge k (formed pw sw x n).length with hlt | hge
            · rw [List.getElem?_append_left hlt] at hk
              obtain ⟨c, hc, hcap⟩ := ih hk
              exact ⟨c, by omega, hcap⟩
            · rw [List.getElem?_append_right hge, List.getElem?_singleton] at hk
              split at hk
              case isTrue hk0 =>
                cases hk
                have hfirst := formed_length_of_firstWordAt hv hs
                rw [show (formed pw sw x n).length = k by omega] at hfirst
                exact ⟨n, by omega, hfirst, rfl, rfl, rfl⟩
              case isFalse => cases hk
          · rw [formed_succ_of_ne hv hs] at hk
            obtain ⟨pk', hk', h0, h1, hw⟩ := Packet.addLast_getElem? hk
            obtain ⟨c, hc, hfirst, h0', h1', hw'⟩ := ih hk'
            exact ⟨c, by omega, hfirst, h0.trans h0', h1.trans h1', hw.trans hw'⟩

/-- The word `k * smpl_rd_size` of the sample FIFO, the first one of a packet, is read in cycle `t`. -/
def FirstReadAt (pw : PctBuffWidth) (sw : SampleWidth) (x : Nat → Data2PacketsRigIn) (t k : Nat) : Prop :=
  (topAt pw sw x t).smplBuffRdreq = true ∧ reads pw sw x t = sw.smplRdSize * k

end Data2PacketsRig

/-- The cycles from the first word read for a packet to the cycle that brings the first word of the packet. -/
def SampleWidth.firstWordDelay : SampleWidth → Nat
  | .w12 => 6
  | .w14 => 8
  | .w16 => 2

namespace Data2PacketsRig

theorem rdSmplBuff_of_rdreq {n : Nat} (h : (topAt pw sw x n).smplBuffRdreq = true) :
    (topAt pw sw x n).inst0.currentState = .rdSmplBuff := by
  rw [smplBuffRdreq_eq rfl] at h
  exact eq_of_beq h

theorem reads_succ_of_rdreq {n : Nat} (h : (topAt pw sw x n).smplBuffRdreq = true) :
    reads pw sw x (n + 1) = reads pw sw x n + 1 := by
  rw [reads_succ, h]
  rfl

theorem smplBuffRdCnt_eq {n k j : Nat} (hs : (topAt pw sw x n).inst0.currentState = .rdSmplBuff)
    (hr : reads pw sw x n = sw.smplRdSize * k + j) (hj : j < sw.smplRdSize) :
    (topAt pw sw x n).inst0.smplBuffRdCnt = j := by
  obtain ⟨p, hf, _⟩ := @exists_formed pw sw x n
  simp only [FsmAt, hs] at hf
  have h : (sw.smplRdSize * p + (topAt pw sw x n).inst0.smplBuffRdCnt) % sw.smplRdSize =
      (sw.smplRdSize * k + j) % sw.smplRdSize := by rw [← hf.2.1, hr]
  rwa [Nat.mul_add_mod, Nat.mul_add_mod, Nat.mod_eq_of_lt hf.2.2.1, Nat.mod_eq_of_lt hj] at h

/-- A word that is not the first one of its packet is read in the cycle after the word before it. -/
theorem rdreq_pred {n k j : Nat} (hrd : (topAt pw sw x (n + 1)).smplBuffRdreq = true)
    (hr : reads pw sw x (n + 1) = sw.smplRdSize * k + (j + 1)) (hj : j + 1 < sw.smplRdSize) :
    (topAt pw sw x n).smplBuffRdreq = true ∧ reads pw sw x n = sw.smplRdSize * k + j := by
  have hcnt := smplBuffRdCnt_eq (rdSmplBuff_of_rdreq hrd) hr hj
  have hs : (topAt pw sw x n).inst0.currentState = .rdSmplBuff := by
    by_contra hne
    rw [smplBuffRdCnt_succ_of_ne hne] at hcnt
    cases hcnt
  have hrd' : (topAt pw sw x n).smplBuffRdreq = true := smplBuffRdreq_eq hs
  have hsucc := reads_succ_of_rdreq hrd'
  exact ⟨hrd', by omega⟩

theorem firstReadAt_of_firstWordAt {c k : Nat} (h : FirstWordAt pw sw x c k) :
    ∃ t, c = t + sw.firstWordDelay ∧ FirstReadAt pw sw x t k := by
  obtain ⟨hv, _, hk⟩ := h
  have hk' := packed_succ pw sw x c
  rw [hv, hk, packed_eq, Bool.toNat_true] at hk'
  rw [packed_eq] at hk
  obtain ⟨m, rfl⟩ : ∃ m, c = m + (sw.latency + 1) := by
    refine ⟨c - (sw.latency + 1), ?_⟩
    by_contra hlt
    rw [show c + 1 - (sw.latency + 1) = 0 by omega] at hk'
    have h0 : reads pw sw x 0 = 0 := rfl
    rw [h0, Nat.mul_zero, Nat.zero_div] at hk'
    omega
  rw [Nat.add_sub_cancel] at hk
  rw [show m + (sw.latency + 1) + 1 - (sw.latency + 1) = m + 1 by omega, reads_succ] at hk'
  have hrd : (topAt pw sw x m).smplBuffRdreq = true := by
    by_contra hne
    rw [Bool.not_eq_true] at hne
    rw [hne, Bool.toNat_false, Nat.add_zero] at hk'
    omega
  rw [hrd, Bool.toNat_true] at hk'
  cases sw with
  | w12 =>
      simp only [SampleWidth.bitsPerWord, SampleWidth.payloadWords] at hk hk'
      have hr : reads pw .w12 x m = 680 * k + 1 := by omega
      obtain ⟨t, rfl⟩ : ∃ t, m = t + 1 := ⟨m - 1, by cases m with | zero => cases hr | succ m => rfl⟩
      exact ⟨t, rfl, rdreq_pred hrd hr (by decide)⟩
  | w14 =>
      simp only [SampleWidth.bitsPerWord, SampleWidth.payloadWords] at hk hk'
      have hr : reads pw .w14 x m = 144 * k + 1 := by omega
      obtain ⟨t, rfl⟩ : ∃ t, m = t + 1 := ⟨m - 1, by cases m with | zero => cases hr | succ m => rfl⟩
      exact ⟨t, rfl, rdreq_pred hrd hr (by decide)⟩
  | w16 =>
      simp only [SampleWidth.bitsPerWord, SampleWidth.payloadWords] at hk hk'
      exact ⟨m, rfl, hrd, show reads pw .w16 x m = 510 * k by omega⟩

/-- The packer has words only while a packet is read or waited for. -/
theorem rdSmplBuff_of_valid {n : Nat} (h : (packedAt pw sw x n).valid = true) :
    (topAt pw sw x n).inst0.currentState = .rdSmplBuff ∨
      (topAt pw sw x n).inst0.currentState = .waitData2packetsDone := by
  obtain ⟨p, hf, _⟩ := @exists_formed pw sw x n
  cases hs : (topAt pw sw x n).inst0.currentState with
  | idle =>
      simp only [FsmAt, hs] at hf
      have hnone := packedAt_none (Nat.le_of_eq hf.1) (Nat.le_of_eq hf.2.1.symm)
      exact absurd (h.symm.trans hnone.1) (by decide)
  | checkPctBuff =>
      simp only [FsmAt, hs] at hf
      have hnone := packedAt_none (Nat.le_of_eq hf.2.1) (Nat.le_of_eq hf.2.2.1.symm)
      exact absurd (h.symm.trans hnone.1) (by decide)
  | rdSmplBuff => exact .inl rfl
  | waitData2packetsDone => exact .inr rfl

theorem not_valid_of_idle_succ {n p : Nat} (hf : FsmAt pw sw x n p) (hd : FormAt pw sw x n p)
    (hi : (topAt pw sw x (n + 1)).inst2.currentState = .idle) : (packedAt pw sw x n).valid = false := by
  cases hv : (packedAt pw sw x n).valid with
  | false => rfl
  | true =>
      rw [inst2_currentState_succ, Data2Packets.nextState, hv] at hi
      cases hs : (topAt pw sw x n).inst2.currentState with
      | idle => simp [hs] at hi
      | s0 => simp only [hs] at hi; split at hi <;> cases hi
      | s1 => simp [hs] at hi
      | s2 => simp only [FormAt, hs] at hd; rw [not_valid_of_packed hf hd.1] at hv; cases hv
      | s3 => simp only [FormAt, hs] at hd

/-- The reader is idle only when the words of the packet before have left the packer for a cycle. -/
theorem reads_of_idle {n : Nat} (hs : (topAt pw sw x (n + 1)).inst0.currentState = .idle) :
    reads pw sw x (n + 1) = reads pw sw x (n - 1 - sw.latency) := by
  obtain ⟨p, hf, _⟩ := @exists_formed pw sw x (n + 1)
  obtain ⟨q, hf', hd', _⟩ := @exists_formed pw sw x n
  simp only [FsmAt, hs] at hf
  obtain ⟨hr, hk, hi, _⟩ := hf
  rw [packed_succ, not_valid_of_idle_succ hf' hd' hi] at hk
  have hm : reads pw sw x (n - 1 - sw.latency) ≤ reads pw sw x (n + 1) := count_mono _ (by omega)
  cases n with
  | zero =>
      have hb := sw.payloadWords_bounds
      have hk0 : sw.payloadWords * p = 0 := hk.symm
      rcases Nat.mul_eq_zero.mp hk0 with h | rfl
      · omega
      · rw [Nat.mul_zero] at hr
        omega
  | succ n =>
      have hle := le_reads pw sw x (Nat.le_of_eq hk.symm)
      rw [Nat.add_sub_cancel] at hm ⊢
      omega

/-- No word is read in the five cycles before the first word of a packet. -/
theorem reads_of_firstReadAt {t k : Nat} (h : FirstReadAt pw sw x t k) :
    reads pw sw x (t - 5) = reads pw sw x t := by
  obtain ⟨hrd, hr⟩ := h
  have hb := sw.smplRdSize_bounds
  have hl : 1 ≤ sw.latency := by cases sw <;> decide
  have hs := rdSmplBuff_of_rdreq hrd
  obtain ⟨s, rfl⟩ : ∃ s, t = s + 1 := ⟨t - 1, by cases t with | zero => cases hs | succ t => rfl⟩
  have hcheck : (topAt pw sw x s).inst0.currentState = .checkPctBuff := by
    have hns := @inst0_currentState_succ pw sw x s
    rw [hs, Data2PacketsFsm.nextState] at hns
    cases hc : (topAt pw sw x s).inst0.currentState with
    | idle => simp only [hc] at hns; split at hns <;> cases hns
    | checkPctBuff => rfl
    | rdSmplBuff =>
        obtain ⟨q, hf, _⟩ := @exists_formed pw sw x s
        simp only [FsmAt, hc] at hf
        have hcnt := smplBuffRdCnt_eq (j := 0) hs hr (by omega)
        rw [inst0_succ] at hcnt
        simp only [Data2PacketsFsm.next, if_pos hc] at hcnt
        omega
    | waitData2packetsDone => simp only [hc] at hns; split at hns <;> cases hns
  obtain ⟨q, hf, _⟩ := @exists_formed pw sw x s
  simp only [FsmAt, hcheck] at hf
  obtain ⟨r, rfl⟩ : ∃ r, s = r + 2 := ⟨s - 2, by omega⟩
  have hidle : (topAt pw sw x (r + 1)).inst0.currentState = .idle := by
    have hns := @inst0_currentState_succ pw sw x (r + 1)
    rw [hcheck, Data2PacketsFsm.nextState] at hns
    cases hc : (topAt pw sw x (r + 1)).inst0.currentState with
    | idle => rfl
    | checkPctBuff => simp only [hc] at hns; cases hns
    | rdSmplBuff => simp only [hc] at hns; split at hns <;> cases hns
    | waitData2packetsDone => simp only [hc] at hns; split at hns <;> cases hns
  have h1 : reads pw sw x (r + 2) = reads pw sw x (r + 1) := by rw [reads_succ, smplBuffRdreq_eq hidle]; rfl
  have h2 : reads pw sw x (r + 2 + 1) = reads pw sw x (r + 2) := by rw [reads_succ, smplBuffRdreq_eq hcheck]; rfl
  have hle : reads pw sw x (r - 1 - sw.latency) ≤ reads pw sw x (r + 2 + 1 - 5) := count_mono _ (by omega)
  have hge : reads pw sw x (r + 2 + 1 - 5) ≤ reads pw sw x (r + 2 + 1) := count_mono _ (by omega)
  have := reads_of_idle hidle
  omega

end Data2PacketsRig

namespace RxPathTop

variable (pw : PctBuffWidth) (mode : RxMode) (x : Nat → RxPathTopIn)

/-- The registers in cycle `n`, the inputs being wired as in `rxtx_top`. -/
def stateAt (n : Nat) : RxPathTop pw := (circuit pw mode).run (inst5In x) n

/-- What `data2packets_top` and its FIFOs see in cycle `n`. -/
def rigInAt (n : Nat) : Data2PacketsRigIn := (stateAt pw mode x n).inst2In (inst5In x n)

def clrSmplNrAt (n : Nat) : Bool := (stateAt pw mode x n).clrSmplNrSync.syncOut

def smplBuffRdreqAt (n : Nat) : Bool := (stateAt pw mode x n).inst2.top.smplBuffRdreq

/-- How many words have been read from the sample FIFO before cycle `n` and since the counter was cleared. -/
def readsSinceClr : Nat → Nat
  | 0 => 0
  | n + 1 => if clrSmplNrAt pw mode x n then 0
      else readsSinceClr n + (smplBuffRdreqAt pw mode x n).toNat

end RxPathTop

/-- The number of samples in `m` words. -/
def RxMode.smplNr (mode : RxMode) (m : Nat) : BitVec 64 :=
  BitVec.ofNat 64 (if SmplCnt.shiftOf mode.mimoEn mode.chEn then 2 * m else m)

namespace RxPathTop

variable {pw : PctBuffWidth} {mode : RxMode} {x : Nat → RxPathTopIn}

/-! ## The sample counter and its registers -/

theorem inst2_eq (n : Nat) : (stateAt pw mode x n).inst2 =
    Data2PacketsRig.stateAt pw mode.sampleWidth (rigInAt pw mode x) n :=
  Circuit.run_part (c := circuit pw mode) (d := Data2PacketsRig.circuit pw mode.sampleWidth.code) RxPathTop.inst2
    inst2In rfl (fun _ _ => rfl) (inst5In x) n

theorem smplBuffRdreqAt_eq (n : Nat) : smplBuffRdreqAt pw mode x n =
    (Data2PacketsRig.topAt pw mode.sampleWidth (rigInAt pw mode x) n).smplBuffRdreq := by
  rw [smplBuffRdreqAt, inst2_eq]
  rfl

theorem ldSmplNrSync_eq (n : Nat) : (stateAt pw mode x n).ldSmplNrSync = ⟨false, false⟩ := by
  induction n with
  | zero => rfl
  | succ n ih =>
      have h : (stateAt pw mode x (n + 1)).ldSmplNrSync = (stateAt pw mode x n).ldSmplNrSync.next false := rfl
      rw [h, ih]
      rfl

theorem inst0Q_eq (n : Nat) :
    (stateAt pw mode x n).inst3.inst0Q = BitVec.ofNat 64 (readsSinceClr pw mode x n) := by
  induction n with
  | zero => rfl
  | succ n ih =>
      have h : (stateAt pw mode x (n + 1)).inst3.inst0Q =
          if clrSmplNrAt pw mode x n then 0
          else if (stateAt pw mode x n).ldSmplNrSync.syncOut then (stateAt pw mode x n).smplNrInSync.syncOut
          else if smplBuffRdreqAt pw mode x n then (stateAt pw mode x n).inst3.inst0Q + 1
          else (stateAt pw mode x n).inst3.inst0Q := rfl
      rw [h, ldSmplNrSync_eq, ih, readsSinceClr]
      cases clrSmplNrAt pw mode x n with
      | true => rfl
      | false =>
          cases smplBuffRdreqAt pw mode x n with
          | true => simp [SyncReg.syncOut, BitVec.ofNat_add]
          | false => simp [SyncReg.syncOut]

theorem extractLsb_append_zero (m : Nat) :
    (BitVec.ofNat 64 m).extractLsb 62 0 ++ 0#1 = BitVec.ofNat 64 (2 * m) := by
  apply BitVec.eq_of_toNat_eq
  simp only [BitVec.toNat_append, BitVec.extractLsb_toNat, BitVec.toNat_ofNat, Nat.shiftRight_zero]
  simp
  omega

theorem smplNr_zero (mode : RxMode) : mode.smplNr 0 = 0 := by
  rw [RxMode.smplNr, Nat.mul_zero, ite_self]
  rfl

theorem cntMux_eq (n : Nat) :
    (stateAt pw mode x n).inst3.cntMux = mode.smplNr (readsSinceClr pw mode x (n - 1)) := by
  match n with
  | 0 => exact (smplNr_zero mode).symm
  | 1 => exact (smplNr_zero mode).symm
  | m + 2 =>
      have h : (stateAt pw mode x (m + 2)).inst3.cntMux =
          if SmplCnt.shiftOf mode.mimoEn mode.chEn then
            (stateAt pw mode x (m + 1)).inst3.inst0Q.extractLsb 62 0 ++ 0#1
          else (stateAt pw mode x (m + 1)).inst3.inst0Q := rfl
      rw [h, inst0Q_eq, RxMode.smplNr, show m + 2 - 1 = m + 1 by omega]
      split
      · exact extractLsb_append_zero _
      · rfl

theorem delayChain_eq (k : Fin 6) (n : Nat) :
    (stateAt pw mode x n).delayChain k = mode.smplNr (readsSinceClr pw mode x (n - 2 - k)) := by
  induction n generalizing k with
  | zero => rw [show 0 - 2 - k.val = 0 by omega]; exact (smplNr_zero mode).symm
  | succ n ih =>
      have h : (stateAt pw mode x (n + 1)).delayChain k =
          if k = 0 then (stateAt pw mode x n).inst3.cntMux else (stateAt pw mode x n).delayChain (k - 1) := rfl
      rw [h]
      by_cases hk : k = 0
      · rw [if_pos hk, cntMux_eq, hk]
        congr 2
      · rw [if_neg hk, ih]
        congr 2
        have hval : (k - 1).val = k.val - 1 := Fin.val_sub_one_of_ne_zero hk
        have hpos : k.val ≠ 0 := fun h0 => hk (Fin.ext h0)
        omega

/-! ## The header of a packet -/

/-- The number of words in header word 1 is the one the counter showed seven cycles before. -/
theorem hdr1_eq {n k : Nat} {pk : Packet}
    (hk : (Data2PacketsRig.formed pw mode.sampleWidth (rigInAt pw mode x) n)[k]? = some pk) :
    ∃ t, Data2PacketsRig.FirstReadAt pw mode.sampleWidth (rigInAt pw mode x) t k ∧
      pk.hdr1 = mode.smplNr (readsSinceClr pw mode x (t + mode.sampleWidth.firstWordDelay - 7)) := by
  obtain ⟨c, _, hfirst, _, h1, _⟩ := Data2PacketsRig.exists_firstWordAt hk
  obtain ⟨t, rfl, hread⟩ := Data2PacketsRig.firstReadAt_of_firstWordAt hfirst
  refine ⟨t, hread, h1.trans ?_⟩
  exact delayChain_eq 5 _

theorem smplBuffRdreqAt_of_reads {a b i : Nat}
    (h : Data2PacketsRig.reads pw mode.sampleWidth (rigInAt pw mode x) a =
      Data2PacketsRig.reads pw mode.sampleWidth (rigInAt pw mode x) b) (ha : a ≤ i) (hb : i < b) :
    smplBuffRdreqAt pw mode x i = false := by
  have h1 : Data2PacketsRig.reads pw mode.sampleWidth (rigInAt pw mode x) a ≤
      Data2PacketsRig.reads pw mode.sampleWidth (rigInAt pw mode x) i := count_mono _ ha
  have h2 : Data2PacketsRig.reads pw mode.sampleWidth (rigInAt pw mode x) (i + 1) ≤
      Data2PacketsRig.reads pw mode.sampleWidth (rigInAt pw mode x) b := count_mono _ hb
  rw [smplBuffRdreqAt_eq]
  cases hrd : (Data2PacketsRig.topAt pw mode.sampleWidth (rigInAt pw mode x) i).smplBuffRdreq with
  | false => rfl
  | true => rw [Data2PacketsRig.reads_succ_of_rdreq hrd] at h2; omega

/-- While no word is read the count stays, unless it is cleared. -/
theorem readsSinceClr_of_not_clr {a b : Nat} (hab : a ≤ b)
    (hrd : ∀ i, a ≤ i → i < b → smplBuffRdreqAt pw mode x i = false)
    (hclr : ∀ i, a ≤ i → i < b → clrSmplNrAt pw mode x i = false) :
    readsSinceClr pw mode x b = readsSinceClr pw mode x a := by
  induction b, hab using Nat.le_induction with
  | base => rfl
  | succ b hb ih =>
      rw [readsSinceClr, hrd b hb (by omega), hclr b hb (by omega),
        ih (fun i h1 h2 => hrd i h1 (by omega)) (fun i h1 h2 => hclr i h1 (by omega))]
      rfl

theorem readsSinceClr_of_clr {a b i : Nat} (ha : a ≤ i) (hb : i < b) (hclr : clrSmplNrAt pw mode x i = true)
    (hrd : ∀ i, a ≤ i → i < b → smplBuffRdreqAt pw mode x i = false) : readsSinceClr pw mode x b = 0 := by
  induction b, hb using Nat.le_induction with
  | base => rw [readsSinceClr, hclr, if_pos rfl]
  | succ b hb ih =>
      rw [readsSinceClr, ih fun i h1 h2 => hrd i h1 (by omega), hrd b (by omega) (by omega)]
      exact ite_self _

theorem smplNr_succ_ne (mode : RxMode) (m : Nat) : mode.smplNr (m + 1) ≠ mode.smplNr m := by
  intro h
  have h' := congrArg BitVec.toNat h
  simp only [RxMode.smplNr, BitVec.toNat_ofNat] at h'
  split at h' <;> omega

end RxPathTop

end LimeSdrQpcie
