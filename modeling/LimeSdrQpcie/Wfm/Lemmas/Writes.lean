import LimeSdrQpcie.Wfm.Lemmas.TrafficGen

/-!
# The words of the write commands

A write command asks for its words one after the other, and each word goes into the command FIFO in the cycle in
which it is asked for. The memory writes the words of a burst to the address of its command and the ones after it.
-/

namespace LimeSdrQpcie

open Hdl

/-! ## What the memory makes of entries -/

namespace WrBurst

variable {addrWidth : Nat} {b : WrBurst}

@[simp] theorem write_stripped (b : WrBurst) (e : AvlEntry) : b.write e.stripped = b.write e := rfl

@[simp] theorem accept_stripped (a : Nat) (b : WrBurst) (e : AvlEntry) : b.accept a e.stripped = b.accept a e := rfl

/-- The burst after the entries `l`. -/
def follow (addrWidth : Nat) (b : WrBurst) : List AvlEntry → WrBurst
  | [] => b
  | e :: l => (b.accept addrWidth e).follow addrWidth l

/-- The writes that the entries `l` do. -/
def writes (addrWidth : Nat) (b : WrBurst) : List AvlEntry → List (Nat × BitVec 64)
  | [] => []
  | e :: l => (b.write e).toList ++ (b.accept addrWidth e).writes addrWidth l

theorem follow_append (b : WrBurst) (l l' : List AvlEntry) :
    b.follow addrWidth (l ++ l') = (b.follow addrWidth l).follow addrWidth l' := by
  induction l generalizing b with
  | nil => rfl
  | cons e l ih => exact ih (b.accept addrWidth e)

theorem writes_append (b : WrBurst) (l l' : List AvlEntry) :
    b.writes addrWidth (l ++ l') = b.writes addrWidth l ++ (b.follow addrWidth l).writes addrWidth l' := by
  induction l generalizing b with
  | nil => rfl
  | cons e l ih =>
      rw [List.cons_append, writes, writes, ih, List.append_assoc]
      rfl

end WrBurst

/-! ## What the generator asks for -/

namespace AvalonTrafficGen

variable {s : AvalonTrafficGen} {i : TrafficGenIn}

/-- The words still to come of the burst that is sent. -/
def burstLeft (s : AvalonTrafficGen) : Nat := if s.state = .writeBurst then s.burstCounter else 0

/-- The words of the write command in the input registers. -/
def regWriteWords (s : AvalonTrafficGen) : Nat := if s.doWriteReg then s.writeBurstcountReg else 0

/-- The words that the accepted write commands still have to ask for. -/
def demand (s : AvalonTrafficGen) : Nat := s.regWriteWords + s.burstLeft

/-- The words of the write command that is taken. -/
def takenWriteWords (s : AvalonTrafficGen) (i : TrafficGenIn) : Nat :=
  if i.doWrite && s.ready then i.writeBurstcount else 0

/-- A write command has words. -/
def HasWords (s : AvalonTrafficGen) : Prop := s.doWriteReg = true → 0 < s.writeBurstcountReg

theorem ready_of_idle (hw : s.doWriteReg = false) (hr : s.doReadReg = false) : s.ready = true := by
  unfold ready
  cases s.fifoFull <;> cases s.state <;> simp [hw, hr]

theorem regWriteWords_next : (s.next i).regWriteWords =
    if s.ready then s.takenWriteWords i else s.regWriteWords := by
  cases hr : s.ready <;> simp [regWriteWords, takenWriteWords, next, hr]

theorem regWriteWords_of_not_doWrite (h : s.ready = true → s.doWriteReg = false) :
    (if s.ready then s.regWriteWords else 0) = 0 := by
  cases hr : s.ready with
  | false => rfl
  | true => simp [regWriteWords, h hr]

theorem hasWords_next (h : HasWords s) (hi : 0 < i.writeBurstcount) : HasWords (s.next i) := by
  intro hw
  cases hr : s.ready with
  | true => simpa [next, hr] using hi
  | false => simpa [next, hr] using h (by simpa [next, hr] using hw)

/-- A word that is asked for is one of the burst that is sent, or the first of a command that leaves the input
registers. -/
theorem burstLeft_next (h : Sound s) (hpos : HasWords s) :
    s.wdataReq.toNat + (s.next i).burstLeft = s.burstLeft + if s.ready then s.regWriteWords else 0 := by
  change s.wdataReq.toNat + (if s.nextState = .writeBurst then s.nextBurstCounter else 0) = _
  cases hf : s.fifoFull with
  | true =>
      cases hw : s.doWriteReg <;>
        simp [wdataReq, nextState, nextBurstCounter, burstLeft, ready, regWriteWords, hf, hw]
  | false =>
      cases hs : s.state with
      | writeBurst =>
          have hc := h.burst hs
          cases hw : s.doWriteReg <;>
            simp [wdataReq, nextState, burstLeft, ready, regWriteWords, hf, hs, hc, hw]
      | idle =>
          cases hw : s.doWriteReg with
          | false => simp [wdataReq, nextState, burstLeft, ready, regWriteWords, hf, hs, hw]
          | true =>
              have h1 := hpos hw
              have h2 := h.write hw
              obtain hc | hc : s.writeBurstcountReg = 1 ∨ s.writeBurstcountReg = 2 := by omega
              · simp [wdataReq, nextState, burstLeft, ready, regWriteWords, hf, hs, hw, hc]
              · simp [wdataReq, nextState, nextBurstCounter, burstcountWidth, burstLeft, ready, regWriteWords, hf, hs,
                  hw, hc]

/-- The words that are still to be asked for are those before, without the word asked for and with those of the
command that is taken. -/
theorem demand_next (h : Sound s) (hpos : HasWords s) :
    s.wdataReq.toNat + (s.next i).demand = s.demand + s.takenWriteWords i := by
  have hleft := @burstLeft_next s i h hpos
  have hreg := @regWriteWords_next s i
  unfold demand
  cases hr : s.ready with
  | true =>
      rw [hr, if_pos rfl] at hleft hreg
      omega
  | false =>
      have htaken : s.takenWriteWords i = 0 := by simp [takenWriteWords, hr]
      rw [hr, if_neg Bool.false_ne_true] at hleft hreg
      omega

/-- Only a word that is still to be asked for is asked for. -/
theorem demand_pos_of_wdataReq (h : Sound s) (hpos : HasWords s) (hq : s.wdataReq = true) : 0 < s.demand := by
  unfold wdataReq at hq
  cases hf : s.fifoFull with
  | true => simp [hf] at hq
  | false =>
      cases hs : s.state with
      | writeBurst => simp [demand, burstLeft, hs, h.burst hs]
      | idle =>
          have hw : s.doWriteReg = true := by simpa [hf, hs] using hq
          have := hpos hw
          simp [demand, regWriteWords, hw]
          omega

/-- What the generator sends to the command FIFO: no word to write, the first word of the command in the input
registers, or the next word of the burst. -/
theorem send_cases (h : Sound s) (d : BitVec 64) :
    (s.wdataReq = false ∧ (s.ready = true → s.doWriteReg = false) ∧ ∀ e, s.fifoIn d = some e → e.writeReq = false) ∨
      (s.wdataReq = true ∧ s.burstLeft = 0 ∧ s.ready = true ∧ s.doWriteReg = true ∧
        s.fifoIn d = some ⟨true, false, true, s.writeAddrReg, s.writeBurstcountReg, d⟩) ∨
      (s.wdataReq = true ∧ s.burstLeft = 1 ∧ (s.ready = true → s.doWriteReg = false) ∧
        s.fifoIn d = some ⟨true, false, false, s.lastWriteAddrReg, s.lastWriteBurstcountReg, d⟩) := by
  cases hf : s.fifoFull with
  | true =>
      refine Or.inl ⟨by simp [wdataReq, hf], fun hr => ?_, fun e he => by simp [fifoIn, hf] at he⟩
      simp only [ready, hf, if_true, Bool.and_eq_true, Bool.not_eq_true'] at hr
      exact hr.1
  | false =>
      cases hs : s.state with
      | writeBurst =>
          refine Or.inr (Or.inr ⟨by simp [wdataReq, hf, hs], by simp [burstLeft, hs, h.burst hs], fun hr => ?_,
            by simp [fifoIn, hf, hs]⟩)
          simp only [ready, hf, hs, Bool.false_eq_true, if_false, Bool.and_eq_true, Bool.not_eq_true'] at hr
          exact hr.1
      | idle =>
          cases hw : s.doWriteReg with
          | true =>
              exact Or.inr (Or.inl ⟨by simp [wdataReq, hf, hs, hw], by simp [burstLeft, hs], by simp [ready, hf, hs], rfl,
                by simp [fifoIn, hf, hs, hw]⟩)
          | false =>
              refine Or.inl ⟨by simp [wdataReq, hf, hs, hw], fun _ => rfl, fun e he => ?_⟩
              cases hr : s.doReadReg with
              | true =>
                  simp only [fifoIn, hf, hs, hw, hr, Bool.false_eq_true, if_false, if_true] at he
                  cases he
                  rfl
              | false => simp [fifoIn, hf, hs, hw, hr] at he

theorem writeReq_of_fifoIn {e : AvlEntry} {d : BitVec 64} (hr : s.doReadReg = false) (he : s.fifoIn d = some e) :
    e.writeReq = true := by
  unfold fifoIn at he
  split at he
  · cases he
  split at he
  · split at he
    · cases he
      rfl
    · rw [hr] at he
      cases he
  · cases he
    rfl

/-! ## Where the words go -/

/-- The entries in the generator go to the addresses before `k`, and the next word asked for goes to the address
`k`. -/
structure Aimed (addrWidth : Nat) (b : WrBurst) (s : AvalonTrafficGen) (k : Nat) : Prop where
  left : (b.follow addrWidth s.inflight).left = s.burstLeft
  addr : s.burstLeft ≠ 0 → (b.follow addrWidth s.inflight).addr = k % 2 ^ addrWidth
  reg : s.doWriteReg = true → s.writeAddrReg = (k + s.burstLeft) % 2 ^ addrWidth

variable {addrWidth k : Nat} {b : WrBurst}

/-- The burst of the memory after what the generator sends in a cycle. -/
theorem follow_next (h : Sound s) :
    ((s.issued i.avlReady).elim b (b.accept addrWidth)).follow addrWidth (s.next i).inflight =
      (b.follow addrWidth s.inflight).follow addrWidth (s.fifoIn i.wdata).toList := by
  have hq := congrArg (b.follow addrWidth) (@inflight_next s i h)
  rw [WrBurst.follow_append, WrBurst.follow_append] at hq
  cases hi : s.issued i.avlReady <;> cases hf : s.fifoIn i.wdata <;>
    simpa [hi, hf, WrBurst.follow] using hq

theorem writes_next (h : Sound s) :
    ((s.issued i.avlReady).bind b.write).toList ++
        ((s.issued i.avlReady).elim b (b.accept addrWidth)).writes addrWidth (s.next i).inflight =
      b.writes addrWidth s.inflight ++
        ((s.fifoIn i.wdata).bind (b.follow addrWidth s.inflight).write).toList := by
  have hq := congrArg (b.writes addrWidth) (@inflight_next s i h)
  rw [WrBurst.writes_append, WrBurst.writes_append] at hq
  cases hi : s.issued i.avlReady <;> cases hf : s.fifoIn i.wdata <;>
    simpa [hi, hf, WrBurst.writes, WrBurst.follow] using hq

/-- A word that is asked for goes to the address `k`. -/
theorem write_fifoIn (h : Sound s) (ha : Aimed addrWidth b s k) (d : BitVec 64) :
    (s.fifoIn d).bind (b.follow addrWidth s.inflight).write =
      if s.wdataReq then some (k % 2 ^ addrWidth, d) else none := by
  have hleft := ha.left
  rcases send_cases h d with ⟨hq, -, hno⟩ | ⟨hq, h0, -, hw, hin⟩ | ⟨hq, h1, -, hin⟩
  · rw [hq, if_neg Bool.false_ne_true]
    cases hf : s.fifoIn d with
    | none => rfl
    | some e => simp [WrBurst.write, hno e hf]
  · have hreg := ha.reg hw
    rw [h0] at hleft hreg
    simp [hq, hin, WrBurst.write, WrBurst.writeAddr, hleft, hreg]
  · have haddr := ha.addr (by rw [h1]; decide)
    rw [h1] at hleft
    simp [hq, hin, WrBurst.write, WrBurst.writeAddr, hleft, haddr]

/-- What the memory expects after the entry that the generator sends. -/
theorem follow_fifoIn (h : Sound s) (hpos : HasWords s) (ha : Aimed addrWidth b s k) :
    ((b.follow addrWidth s.inflight).follow addrWidth (s.fifoIn i.wdata).toList).left = (s.next i).burstLeft ∧
      ((s.next i).burstLeft ≠ 0 →
        ((b.follow addrWidth s.inflight).follow addrWidth (s.fifoIn i.wdata).toList).addr =
          (k + s.wdataReq.toNat) % 2 ^ addrWidth) := by
  have hnext := @burstLeft_next s i h hpos
  have hleft := ha.left
  rcases send_cases h i.wdata with ⟨hq, hr, hno⟩ | ⟨hq, h0, hr, hw, hin⟩ | ⟨hq, h1, hr, hin⟩
  · have hsame : (b.follow addrWidth s.inflight).follow addrWidth (s.fifoIn i.wdata).toList =
        b.follow addrWidth s.inflight := by
      cases hf : s.fifoIn i.wdata with
      | none => rfl
      | some e => simp [WrBurst.follow, WrBurst.accept, hno e hf]
    have hreg := regWriteWords_of_not_doWrite hr
    have hkeep : (s.next i).burstLeft = s.burstLeft := by
      rw [hreg, hq] at hnext
      simpa using hnext
    rw [hsame, hkeep, hq]
    exact ⟨hleft, ha.addr⟩
  · have hreg := ha.reg hw
    rw [h0] at hleft hreg
    have hnew : (s.next i).burstLeft = s.writeBurstcountReg - 1 := by
      rw [hr, if_pos rfl, hq, h0, regWriteWords, hw, if_pos rfl, Bool.toNat_true] at hnext
      omega
    simp [hin, hq, hnew, WrBurst.follow, WrBurst.accept, WrBurst.writeAddr, hleft, hreg]
  · have haddr := ha.addr (by rw [h1]; decide)
    rw [h1] at hleft
    have hreg := regWriteWords_of_not_doWrite hr
    have hnew : (s.next i).burstLeft = 0 := by
      rw [hreg, hq, h1, Bool.toNat_true] at hnext
      omega
    simp [hin, hnew, WrBurst.follow, WrBurst.accept, hleft]

theorem aimed_next (h : Sound s) (hpos : HasWords s) (ha : Aimed addrWidth b s k)
    (haddr : i.doWrite = true → s.ready = true → i.writeAddr = (k + s.demand) % 2 ^ addrWidth) :
    Aimed addrWidth ((s.issued i.avlReady).elim b (b.accept addrWidth)) (s.next i) (k + s.wdataReq.toNat) := by
  have hnext := @burstLeft_next s i h hpos
  obtain ⟨hleft, hexp⟩ := @follow_fifoIn s i addrWidth k b h hpos ha
  rw [← follow_next h] at hleft hexp
  refine ⟨hleft, hexp, fun hw => ?_⟩
  rw [Nat.add_assoc, hnext]
  cases hr : s.ready with
  | true =>
      have hi : i.doWrite = true := by simpa [next, hr] using hw
      have hreg : (s.next i).writeAddrReg = i.writeAddr := by simp [next, hr]
      rw [if_pos rfl, Nat.add_comm s.burstLeft, hreg]
      exact haddr hi hr
  | false =>
      rw [if_neg Bool.false_ne_true, Nat.add_zero]
      simpa [next, hr] using ha.reg (by simpa [next, hr] using hw)

end AvalonTrafficGen

end LimeSdrQpcie
