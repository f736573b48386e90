import LimeSdrQpcie.Rx.Lemmas.Packets
import LimeSdrQpcie.Rx.Lemmas.RxPath

/-!
# The two sample counters

One counter of `rx_path_top` counts the write requests of the sample FIFO, the other one its reads. Both start
again on a clear or a load, while the words in the FIFO stay there.
-/

namespace LimeSdrQpcie

open Hdl

namespace SmplCnt

/-- The value on which a counter starts again. -/
theorem inst0Q_restart {s : SmplCnt} {i : SmplCntIn} (h : (i.sclr || i.sload) = true) :
    (s.next i).inst0Q = if i.sclr then 0 else i.data := by
  cases hc : i.sclr with
  | true => simp [next, hc]
  | false =>
      rw [hc, Bool.false_or] at h
      simp [next, hc, h]

theorem inst0Q_count {s : SmplCnt} {i : SmplCntIn} (h : (i.sclr || i.sload) = false) :
    (s.next i).inst0Q = s.inst0Q + BitVec.ofNat 64 i.cntEn.toNat := by
  rw [Bool.or_eq_false_iff] at h
  cases he : i.cntEn <;> simp [next, h, he]

end SmplCnt

namespace RxMode

/-- How many samples a word carries. -/
def perWord (mode : RxMode) : BitVec 64 := if SmplCnt.shiftOf mode.mimoEn mode.chEn then 2#64 else 1#64

theorem smplNr_eq (mode : RxMode) (m : Nat) : mode.smplNr m = mode.perWord * BitVec.ofNat 64 m := by
  rw [smplNr, perWord]
  split
  · exact BitVec.ofNat_mul _ _
  · rw [BitVec.one_mul]

end RxMode

namespace RxPathTop

variable (pw : PctBuffWidth) (mode : RxMode) (x : Nat → RxPathTopIn)

/-- The registers in cycle `n` when any sample number may be loaded. -/
def regsAt (n : Nat) : RxPathTop pw := (circuit pw mode).run x n

/-- How many words the sample FIFO holds. -/
def heldAt (n : Nat) : Nat := (regsAt pw mode x n).inst2.smplFifo.usedw

/-- The word that enters the sample FIFO. -/
def sampleInAt (n : Nat) : Option (BitVec 64) :=
  (regsAt pw mode x n).inst2.smplFifo.accepted (x n).smplFifoWr

/-- Whether the sample FIFO is read. -/
def sampleRdAt (n : Nat) : Bool := (regsAt pw mode x n).inst2.top.smplBuffRdreq

/-- Whether the counters are cleared or loaded. -/
def restartAt (n : Nat) : Bool :=
  (regsAt pw mode x n).clrSmplNrSync.syncOut || (regsAt pw mode x n).ldSmplNrSync.syncOut

/-- How many words the full FIFO has refused since the counters started. -/
def refusedAt : Nat → Nat
  | 0 => 0
  | n + 1 => if restartAt pw mode x n then 0
      else refusedAt n + ((x n).smplFifoWr.isSome && (regsAt pw mode x n).inst2.smplFifo.isFull).toNat

/-- How many words the FIFO held when the counters started. -/
def heldAtRestart : Nat → Nat
  | 0 => 0
  | n + 1 => if restartAt pw mode x n then heldAt pw mode x (n + 1) else heldAtRestart n

/-- How many words have been read before cycle `n`. -/
def readsAt (n : Nat) : Nat := count (sampleRdAt pw mode x) n

/-- How many words have entered before cycle `n`. -/
def enteredAt (n : Nat) : Nat := count (fun m => (sampleInAt pw mode x m).isSome) n

variable {pw mode x}

/-- What `data2packets_top` and its FIFOs see is a run of their own. -/
theorem regsAt_inst2 (n : Nat) : (regsAt pw mode x n).inst2 =
    Data2PacketsRig.stateAt pw mode.sampleWidth (fun m => (regsAt pw mode x m).inst2In (x m)) n :=
  Circuit.run_part (c := circuit pw mode) (d := Data2PacketsRig.circuit pw mode.sampleWidth.code) RxPathTop.inst2
    inst2In rfl (fun _ _ => rfl) x n

theorem heldAt_pos {n : Nat} (h : sampleRdAt pw mode x n = true) : 0 < heldAt pw mode x n := by
  rw [sampleRdAt, regsAt_inst2] at h
  rw [heldAt, regsAt_inst2]
  exact Data2PacketsRig.usedw_pos h

theorem smplFifo_step (n : Nat) : (regsAt pw mode x (n + 1)).inst2.smplFifo =
    (regsAt pw mode x n).inst2.smplFifo.next (x n).smplFifoWr (if sampleRdAt pw mode x n then 1 else 0) := rfl

theorem heldAt_succ (n : Nat) : heldAt pw mode x (n + 1) + (sampleRdAt pw mode x n).toNat =
    heldAt pw mode x n + (sampleInAt pw mode x n).isSome.toNat := by
  have hpos := @heldAt_pos pw mode x n
  have hlen : (sampleInAt pw mode x n).toList.length = (sampleInAt pw mode x n).isSome.toNat := by
    cases sampleInAt pw mode x n <;> rfl
  rw [heldAt, smplFifo_step, Fifo.usedw, Fifo.next_store, List.length_append, List.length_drop]
  change _ - _ + (sampleInAt pw mode x n).toList.length + _ = _
  rw [hlen]
  cases hrd : sampleRdAt pw mode x n with
  | false => simp [heldAt, Fifo.usedw]
  | true =>
      have h := hpos hrd
      simp only [heldAt, Fifo.usedw] at h ⊢
      simp
      omega

/-- A word on the write port enters or is refused. -/
theorem isSome_write (n : Nat) : (x n).smplFifoWr.isSome.toNat = (sampleInAt pw mode x n).isSome.toNat +
    ((x n).smplFifoWr.isSome && (regsAt pw mode x n).inst2.smplFifo.isFull).toNat := by
  rw [sampleInAt, Fifo.accepted]
  cases (regsAt pw mode x n).inst2.smplFifo.isFull <;> cases (x n).smplFifoWr <;> rfl

theorem entered_eq (n : Nat) : enteredAt pw mode x n = readsAt pw mode x n + heldAt pw mode x n := by
  induction n with
  | zero => rfl
  | succ n ih =>
      have h := @heldAt_succ pw mode x n
      rw [enteredAt, readsAt, count_succ, count_succ]
      rw [enteredAt, readsAt] at ih
      omega

/-! ## The balance of the counters -/

/-- The words counted on the write side are the words counted on the read side, held or refused, the words
held at the start apart. -/
theorem inst0Q_balance (n : Nat) :
    (regsAt pw mode x n).inst4.inst0Q + BitVec.ofNat 64 (heldAtRestart pw mode x n) =
      (regsAt pw mode x n).inst3.inst0Q + BitVec.ofNat 64 (heldAt pw mode x n + refusedAt pw mode x n) := by
  induction n with
  | zero => rfl
  | succ n ih =>
      cases hr : restartAt pw mode x n with
      | true =>
          have h4 : (regsAt pw mode x (n + 1)).inst4.inst0Q = _ := SmplCnt.inst0Q_restart hr
          have h3 : (regsAt pw mode x (n + 1)).inst3.inst0Q = _ := SmplCnt.inst0Q_restart hr
          rw [h4, h3, heldAtRestart, refusedAt, hr, if_pos rfl, if_pos rfl, Nat.add_zero]
          rfl
      | false =>
          have h4 : (regsAt pw mode x (n + 1)).inst4.inst0Q = (regsAt pw mode x n).inst4.inst0Q +
            BitVec.ofNat 64 (x n).smplFifoWr.isSome.toNat := SmplCnt.inst0Q_count hr
          have h3 : (regsAt pw mode x (n + 1)).inst3.inst0Q = (regsAt pw mode x n).inst3.inst0Q +
            BitVec.ofNat 64 (sampleRdAt pw mode x n).toNat := SmplCnt.inst0Q_count hr
          have hsum : heldAt pw mode x n + refusedAt pw mode x n + (x n).smplFifoWr.isSome.toNat =
              (sampleRdAt pw mode x n).toNat + (heldAt pw mode x (n + 1) + (refusedAt pw mode x n +
                ((x n).smplFifoWr.isSome && (regsAt pw mode x n).inst2.smplFifo.isFull).toNat)) := by
            have hheld := @heldAt_succ pw mode x n
            rw [@isSome_write pw mode x n]
            omega
          have hcomm : ∀ p q r : BitVec 64, p + q + r = p + r + q := fun p q r => by
            rw [BitVec.add_assoc, BitVec.add_comm q, BitVec.add_assoc]
          rw [h4, h3, heldAtRestart, refusedAt, hr, if_neg Bool.false_ne_true, if_neg Bool.false_ne_true,
            hcomm, ih, BitVec.add_assoc, BitVec.add_assoc, ← BitVec.ofNat_add, hsum, BitVec.ofNat_add]

/-- Between two starts the read counter counts. -/
theorem inst3_inst0Q_eq {a r : Nat} (har : a ≤ r) (h : ∀ m, a ≤ m → m < r → restartAt pw mode x m = false) :
    (regsAt pw mode x r).inst3.inst0Q + BitVec.ofNat 64 (readsAt pw mode x a) =
      (regsAt pw mode x a).inst3.inst0Q + BitVec.ofNat 64 (readsAt pw mode x r) := by
  induction r, har using Nat.le_induction with
  | base => rfl
  | succ r hr ih =>
      have h3 : (regsAt pw mode x (r + 1)).inst3.inst0Q = (regsAt pw mode x r).inst3.inst0Q +
        BitVec.ofNat 64 (sampleRdAt pw mode x r).toNat := SmplCnt.inst0Q_count (h r hr (by omega))
      rw [h3, BitVec.add_assoc, BitVec.add_comm (BitVec.ofNat 64 _), ← BitVec.add_assoc,
        ih fun m h1 h2 => h m h1 (by omega), readsAt, readsAt, count_succ, BitVec.ofNat_add, BitVec.add_assoc]

/-- A counter's output is its count, in samples, one cycle later. -/
theorem perWord_mul (q : BitVec 64) :
    (if SmplCnt.shiftOf mode.mimoEn mode.chEn then q.extractLsb 62 0 ++ 0#1 else q) = mode.perWord * q := by
  rw [RxMode.perWord]
  split
  · have h := extractLsb_append_zero q.toNat
    rw [BitVec.ofNat_toNat, BitVec.setWidth_eq, BitVec.ofNat_mul, BitVec.ofNat_toNat, BitVec.setWidth_eq] at h
    exact h
  · rw [BitVec.one_mul]

theorem smplNrCnt_succ (n : Nat) :
    (regsAt pw mode x (n + 1)).smplNrCnt = mode.perWord * (regsAt pw mode x n).inst4.inst0Q := by
  cases n with
  | zero => exact (BitVec.mul_zero).symm
  | succ n => exact perWord_mul (regsAt pw mode x (n + 1)).inst4.inst0Q

theorem inst3_q_succ (n : Nat) :
    (regsAt pw mode x (n + 1)).inst3.q = mode.perWord * (regsAt pw mode x n).inst3.inst0Q := by
  cases n with
  | zero => exact (BitVec.mul_zero).symm
  | succ n => exact perWord_mul (regsAt pw mode x (n + 1)).inst3.inst0Q

/-- A word enters before it is read. -/
theorem enters_before_read {a r : Nat} (hr : sampleRdAt pw mode x r = true)
    (h : enteredAt pw mode x a = readsAt pw mode x r) : a < r := by
  have hpos := heldAt_pos hr
  have hent := @entered_eq pw mode x r
  by_contra hlt
  have hmono : enteredAt pw mode x r ≤ enteredAt pw mode x a := count_mono _ (by omega)
  omega

/-- The word that enters is the word that is read. -/
theorem head_eq_sampleIn {a r : Nat} (ha : (sampleInAt pw mode x a).isSome = true)
    (hr : sampleRdAt pw mode x r = true) (h : enteredAt pw mode x a = readsAt pw mode x r) :
    (regsAt pw mode x r).inst2.smplFifo.store.head? = sampleInAt pw mode x a := by
  have har := enters_before_read hr h
  have hfifo := @Fifo.taken_append_store _ _ (fun m => (regsAt pw mode x m).inst2.smplFifo)
    (fun m => if sampleRdAt pw mode x m then 1 else 0) (fun m => (x m).smplFifoWr) rfl smplFifo_step r
  have hlen := congrArg List.length hfifo
  rw [List.length_append, words_length] at hlen
  change _ + heldAt pw mode x r = enteredAt pw mode x r at hlen
  rw [entered_eq, Nat.add_right_cancel_iff] at hlen
  have hget := words_getElem?_count ha har
  change (words (sampleInAt pw mode x) r)[enteredAt pw mode x a]? = _ at hget
  rw [← hget, h, ← hlen, List.head?_eq_getElem?]
  change _ = (words (fun m => (regsAt pw mode x m).inst2.smplFifo.accepted (x m).smplFifoWr) r)[_]?
  rw [← hfifo, List.getElem?_append_right (Nat.le_refl _), Nat.sub_self]

end RxPathTop

end LimeSdrQpcie
