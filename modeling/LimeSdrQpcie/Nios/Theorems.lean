import LimeSdrQpcie.Nios.Lemmas.Analog
import LimeSdrQpcie.Nios.Lemmas.Channel
import LimeSdrQpcie.Nios.Lemmas.Operations
import LimeSdrQpcie.Nios.Lemmas.PllCfg
import LimeSdrQpcie.Nios.Lemmas.RegBits

/-!
# The firmware and its control channel

The main results about one command packet, for every command, number of blocks, peripheral, payload and
response of the devices; about runs of the firmware that write and read analog values; about the way of the
packets from the host and back; and about the requests for the PLLs.
-/

namespace LimeSdrQpcie

namespace Nios

open Prog

variable {s : Fw} {dev : Dev} {pkt : CtrlPacket}

/-! ## Bounds -/

/-- No index of the packet leaves the data fields. -/
def InBounds (pkt : CtrlPacket) : Prop := pkt.cmd = some .analogValRd → ∀ b < pkt.blocks, RdFits pkt b

theorem fits_iff {c : Command} (h : pkt.cmd = some c) : Fits pkt c ↔ InBounds pkt := by
  unfold InBounds
  rw [h]
  cases c with
  | analogValRd => exact ⟨fun hf _ => hf, fun hf => hf rfl⟩
  | getInfo | lmsRst | lms7002Wr | lms7002Rd | brdspi16Wr | brdspi16Rd | adf4002Wr | analogValWr | si5351Wr
    | si5351Rd => exact ⟨fun _ h => (by cases h), fun _ => trivial⟩

theorem processPacket_done {c : Command} (h : pkt.cmd = some c) (hp : PeriphOk pkt c) (hb : BlocksOk pkt c) :
    wp (processPacket dev pkt)
      (fun _ t => InBounds pkt ∧ Done (doneStatus (BitVec.ofNat 8 (errors dev pkt c)) c) (errors dev pkt c)
        (noacks dev pkt c) (s.received pkt) t)
      (fun _ => ¬ InBounds pkt) s := by
  rw [wp_processPacket h]
  refine wp_mono (runCommand_ends (s := s.received pkt) c rfl hp hb) (fun _ t ht => ?_) fun _ hf hi => ?_
  · exact ⟨(fits_iff h).mp ht.1, ht.2⟩
  · exact hf ((fits_iff h).mpr hi)

/-- The end of a packet that a check refuses. -/
theorem processPacket_refused {c : Command} {E : Fault → Prop} (h : pkt.cmd = some c)
    (hr : ¬ (PeriphOk pkt c ∧ BlocksOk pkt c)) :
    wp (processPacket dev pkt) (fun _ t => ∃ st, (st = statusInvalidPeriphIdCmd ∨ st = statusBlocksErrorCmd) ∧
      Done st 0 0 (s.received pkt) t) E s := by
  rw [wp_processPacket h]
  by_cases hp : PeriphOk pkt c
  · refine wp_post (runCommand_blocks (s := s.received pkt) hp fun hb => hr ⟨hp, hb⟩) fun _ t ht => ?_
    rw [ht]
    exact ⟨_, .inr rfl, Done.withStatus rfl⟩
  · refine wp_post (runCommand_periph (s := s.received pkt) hp) fun _ t ht => ?_
    rw [ht]
    exact ⟨_, .inl rfl, Done.withStatus rfl⟩

theorem processPacket_unknown {E : Fault → Prop} (h : pkt.cmd = none) :
    wp (processPacket dev pkt) (fun _ t => Done statusUnknownCmd 0 0 (s.received pkt) t) E s := by
  rw [wp_processPacket_unknown h, wp_setStatus]
  exact ⟨rfl, rfl, rfl⟩

/-- A packet that a check refuses stays in bounds. -/
theorem inBounds_of_refused {c : Command} (h : pkt.cmd = some c) (hr : ¬ (PeriphOk pkt c ∧ BlocksOk pkt c)) :
    InBounds pkt := by
  intro hc
  rw [hc] at h
  cases h
  exact absurd ⟨fun h => (by cases h), fun _ h => by cases h⟩ hr

/-- The header fields of the request in the reply. -/
structure Echoes (pkt : CtrlPacket) (t : Fw) : Prop where
  command : t.tx.header.command = pkt.header.command
  dataBlocks : t.tx.header.dataBlocks = pkt.header.dataBlocks
  periphID : t.tx.header.periphID = pkt.header.periphID

theorem Done.echoes {st : Byte} {e f : Nat} {t : Fw} (h : Done st e f (s.received pkt) t) : Echoes pkt t := by
  constructor <;> rw [h.txHeader] <;> rfl

/-- A packet is processed without an index outside the data fields, and the reply echoes its header, exactly
when it is not a `CMD_ANALOG_VAL_RD` with a block outside: from block 56 on the request is left, and from block
14 on the reply by every channel that is known. -/
theorem packet_bounds (s : Fw) (dev : Dev) (pkt : CtrlPacket) :
    (∃ r, (processPacket dev pkt).run s = .ok r ∧ Echoes pkt r.2) ↔
      (pkt.cmd = some .analogValRd → ∀ b < pkt.blocks,
        b < dataFieldSize ∧ (rdChannel (pkt.field b) → b < dataFieldSize / 4)) := by
  refine ok_iff_of_wp (P := InBounds pkt) (Q := fun _ t => Echoes pkt t) ?_
  cases h : pkt.cmd with
  | none =>
      have hin : InBounds pkt := fun hc => by rw [h] at hc; cases hc
      exact wp_post (processPacket_unknown h) fun _ t ht => iff_of_true ht.echoes hin
  | some c =>
      by_cases hr : PeriphOk pkt c ∧ BlocksOk pkt c
      · exact wp_post (processPacket_done h hr.1 hr.2) fun _ t ht => iff_of_true ht.2.echoes ht.1
      · refine wp_post (processPacket_refused h hr) fun _ t ⟨st, _, ht⟩ => ?_
        exact iff_of_true ht.echoes (inBounds_of_refused h hr)

/-- A request to read 15 times the DAC. -/
def read15 : CtrlPacket := ⟨⟨Command.analogValRd.code, 0, 15, 0⟩, fun _ => 0⟩

/-- The reply to it is written at index 56. -/
theorem analogValRd_overruns :
    (session [⟨read15, fun _ _ => noResp⟩]).run powerOn = .error (.tx 56) ∧ ¬ 56 < dataFieldSize :=
  ⟨rfl, by decide⟩

/-! ## Status -/

/-- The statuses of a request that was not carried out. -/
def IsError (st : Byte) : Prop := st = statusBlocksErrorCmd ∨ st = statusErrorCmd ∨ st = statusInvalidPeriphIdCmd

/-- What the status of the reply tells about the packet: it is left at busy never, it is completed exactly when
the command is known, passed its checks and counted no error, and it is an error when something was refused,
counted or left without an acknowledge. -/
structure StatusLaw (pkt : CtrlPacket) (s t : Fw) : Prop where
  notBusy : t.tx.header.status ≠ statusBusyCmd
  completed : t.tx.header.status = statusCompletedCmd ↔
    ∃ c, pkt.cmd = some c ∧ PeriphOk pkt c ∧ BlocksOk pkt c ∧ t.cmdErrors = 0
  failed : (∃ c, pkt.cmd = some c ∧ ¬ (PeriphOk pkt c ∧ BlocksOk pkt c)) ∨ t.cmdErrors ≠ 0 ∨ s.noacks < t.noacks →
    IsError t.tx.header.status

/-- The packets that two branches do not answer wrongly: the operation of a reset is known, and every block of a
reading of analog values lies in the data fields, has a known channel and its transfers acknowledged. -/
structure StatusGood (dev : Dev) (pkt : CtrlPacket) : Prop where
  rst : pkt.cmd = some .lmsRst → ¬ pkt.header.periphID > maxIdLms7 → rstKnown (pkt.field 0)
  rd : pkt.cmd = some .analogValRd → ∀ b < pkt.blocks,
    RdFits pkt b ∧ rdChannel (pkt.field b) ∧ (pkt.field b = chTemperature → i2cNoacks dev b = 0)

/-- The law for a packet whose checks are passed, by what its branch leaves. -/
theorem statusLaw_of_done {c : Command} {st : Byte} {e f : Nat} {t : Fw} (h : pkt.cmd = some c)
    (hp : PeriphOk pkt c) (hb : BlocksOk pkt c) (hd : Done st e f (s.received pkt) t) :
    StatusLaw pkt s t ↔ st ≠ statusBusyCmd ∧ (st = statusCompletedCmd ↔ BitVec.ofNat 8 e = 0) ∧
      (BitVec.ofNat 8 e ≠ 0 ∨ 0 < f → IsError st) := by
  have hst : t.tx.header.status = st := congrArg CtrlHeader.status hd.txHeader
  have hf : t.noacks = s.noacks + f := hd.noacks
  have hcmd : (∃ c, pkt.cmd = some c ∧ PeriphOk pkt c ∧ BlocksOk pkt c ∧ t.cmdErrors = 0) ↔
      BitVec.ofNat 8 e = 0 := by
    rw [hd.cmdErrors]
    exact ⟨fun ⟨_, _, _, _, he⟩ => he, fun he => ⟨c, h, hp, hb, he⟩⟩
  have hno : ¬ ∃ c, pkt.cmd = some c ∧ ¬ (PeriphOk pkt c ∧ BlocksOk pkt c) := by
    rintro ⟨c', hc', hn⟩
    rw [h] at hc'
    cases hc'
    exact hn ⟨hp, hb⟩
  have hlt : s.noacks < t.noacks ↔ 0 < f := by
    rw [hf]
    exact Nat.lt_add_right_iff_pos
  constructor
  · rintro ⟨h1, h2, h3⟩
    rw [hst] at h1 h2 h3
    rw [hcmd] at h2
    rw [hd.cmdErrors, hlt] at h3
    exact ⟨h1, h2, fun hx => h3 (.inr hx)⟩
  · rintro ⟨h1, h2, h3⟩
    constructor
    · rw [hst]
      exact h1
    · rw [hst, hcmd]
      exact h2
    · rw [hst, hd.cmdErrors, hlt]
      exact fun hx => h3 (hx.resolve_left hno)

/-- Errors are fewer than the counter can hold, so that it is zero exactly when there is none. -/
theorem ofNat_eq_zero {e : Nat} (h : e < 256) : BitVec.ofNat 8 e = 0 ↔ e = 0 := by
  constructor
  · intro h0
    have hn := congrArg BitVec.toNat h0
    rw [BitVec.toNat_ofNat, Nat.mod_eq_of_lt h] at hn
    exact hn
  · rintro rfl
    rfl

theorem i2cNoacks_le (dev : Dev) (b : Nat) : i2cNoacks dev b ≤ 3 := by
  unfold i2cNoacks
  have h0 := Bool.toNat_le (dev b 0).noack
  have h1 := Bool.toNat_le (dev b 1).noack
  have h2 := Bool.toNat_le (dev b 2).noack
  omega

theorem blocks_le (pkt : CtrlPacket) : pkt.blocks ≤ 255 := Nat.le_of_lt_succ pkt.header.dataBlocks.isLt

theorem total_blocks_lt (pkt : CtrlPacket) {f : Nat → Nat} (h : ∀ b, f b ≤ 1) : total f pkt.blocks < 256 := by
  have ht := total_le h pkt.blocks
  rw [Nat.mul_one] at ht
  exact Nat.lt_succ_of_le (Nat.le_trans ht (blocks_le pkt))

/-- A branch that counts every failed transfer and looks at its errors. -/
theorem statusLaw_counted {e f : Nat} (hlt : e < 256) (hf : f ≤ e) :
    let st := if BitVec.ofNat 8 e ≠ 0 then statusErrorCmd else statusCompletedCmd
    st ≠ statusBusyCmd ∧ (st = statusCompletedCmd ↔ BitVec.ofNat 8 e = 0) ∧
      (BitVec.ofNat 8 e ≠ 0 ∨ 0 < f → IsError st) := by
  intro st
  by_cases he : BitVec.ofNat 8 e = 0
  · have hst : st = statusCompletedCmd := if_neg (not_not.mpr he)
    rw [hst]
    refine ⟨by decide, ⟨fun _ => he, fun _ => rfl⟩, ?_⟩
    rintro (hne | hpos)
    · exact absurd he hne
    · have h0 := (ofNat_eq_zero hlt).mp he
      omega
  · have hst : st = statusErrorCmd := if_pos he
    rw [hst]
    exact ⟨by decide, ⟨fun h => absurd h (by decide), fun h => absurd h he⟩, fun _ => .inr (.inl rfl)⟩

/-- A branch that always says that it has completed. -/
theorem statusLaw_completed {e f : Nat} (hlt : e < 256) :
    (statusCompletedCmd ≠ statusBusyCmd ∧ (statusCompletedCmd = statusCompletedCmd ↔ BitVec.ofNat 8 e = 0) ∧
      (BitVec.ofNat 8 e ≠ 0 ∨ 0 < f → IsError statusCompletedCmd)) ↔ e = 0 ∧ f = 0 := by
  rw [ofNat_eq_zero hlt]
  have hne : ¬ IsError statusCompletedCmd := by
    unfold IsError
    decide
  constructor
  · rintro ⟨_, h2, h3⟩
    have he := h2.mp rfl
    refine ⟨he, ?_⟩
    by_contra hf
    exact hne (h3 (.inr (Nat.pos_of_ne_zero hf)))
  · rintro ⟨rfl, rfl⟩
    refine ⟨by decide, ⟨fun _ => rfl, fun _ => rfl⟩, ?_⟩
    rintro (h | h)
    · exact absurd rfl h
    · exact absurd h (Nat.lt_irrefl 0)

/-- A command that no check refuses obeys the law exactly when the two branches do not answer wrongly. -/
theorem statusGood_iff {c : Command} (h : pkt.cmd = some c) (hp : PeriphOk pkt c) (hb : BlocksOk pkt c)
    (hin : InBounds pkt) :
    (let st := doneStatus (BitVec.ofNat 8 (errors dev pkt c)) c
     st ≠ statusBusyCmd ∧ (st = statusCompletedCmd ↔ BitVec.ofNat 8 (errors dev pkt c) = 0) ∧
      (BitVec.ofNat 8 (errors dev pkt c) ≠ 0 ∨ 0 < noacks dev pkt c → IsError st)) ↔ StatusGood dev pkt := by
  have hquiet : c ≠ .lmsRst → c ≠ .analogValRd → StatusGood dev pkt := fun h1 h2 =>
    ⟨fun hc => absurd (Option.some.inj (h.symm.trans hc)) h1, fun hc => absurd (Option.some.inj (h.symm.trans hc)) h2⟩
  cases c with
  | getInfo | lms7002Wr | lms7002Rd | brdspi16Wr | brdspi16Rd | adf4002Wr =>
      exact iff_of_true ((@statusLaw_completed 0 0 (by decide)).mpr ⟨rfl, rfl⟩)
        (hquiet (by intro hc; cases hc) (by intro hc; cases hc))
  | lmsRst =>
      refine (@statusLaw_completed (errors dev pkt .lmsRst) 0 ?_).trans ?_
      · rw [errors]
        split
        · decide
        · decide
      · constructor
        · intro he
          refine ⟨fun _ _ => ?_, fun hc => absurd (h.symm.trans hc) (by decide)⟩
          by_contra hk
          rw [errors, if_neg hk] at he
          exact absurd he.1 (by decide)
        · intro hg
          exact ⟨if_pos (hg.rst h (hp rfl)), rfl⟩
  | analogValRd =>
      have hle : errors dev pkt .analogValRd < 256 :=
        total_blocks_lt pkt fun b => by unfold rdErrors; split <;> decide
      refine (statusLaw_completed hle).trans ?_
      rw [errors, noacks, total_eq_zero, total_eq_zero]
      constructor
      · rintro ⟨he, hf⟩
        refine ⟨fun hc => absurd (h.symm.trans hc) (by decide), fun _ b hb' => ⟨hin h b hb', ?_, fun ht => ?_⟩⟩
        · by_contra hk
          have h1 := he b hb'
          rw [rdErrors, if_neg hk] at h1
          exact absurd h1 (by decide)
        · have h1 := hf b hb'
          rw [rdNoacks, if_pos ht] at h1
          exact h1
      · intro hg
        refine ⟨fun b hb' => if_pos (hg.rd h b hb').2.1, fun b hb' => ?_⟩
        unfold rdNoacks
        split
        · next ht => exact (hg.rd h b hb').2.2 ht
        · rfl
  | analogValWr =>
      have hle : errors dev pkt .analogValWr < 256 :=
        total_blocks_lt pkt fun b => by unfold wrErrors; split <;> decide
      exact iff_of_true (statusLaw_counted hle (Nat.zero_le _))
        (hquiet (by intro hc; cases hc) (by intro hc; cases hc))
  | si5351Wr | si5351Rd =>
      have hle : total (i2cNoacks dev) pkt.blocks < 256 := by
        have ht := total_le (i2cNoacks_le dev) pkt.blocks
        have hbl : pkt.blocks ≤ 28 := Nat.le_of_not_gt (hb 2 rfl)
        omega
      exact iff_of_true (statusLaw_counted hle (Nat.le_refl _))
        (hquiet (by intro hc; cases hc) (by intro hc; cases hc))

/-- The status of the reply tells how the packet was processed exactly when a reset has a known operation and a
reading of analog values has no block outside the data fields, none of an unknown channel and no temperature
whose transfers stay without an acknowledge: these two branches set their status without a look at the errors. -/
theorem status_law (s : Fw) (dev : Dev) (pkt : CtrlPacket) :
    (∃ r, (processPacket dev pkt).run s = .ok r ∧ StatusLaw pkt s r.2) ↔ StatusGood dev pkt := by
  refine ok_iff_of_wp (Q := fun _ t => StatusLaw pkt s t) ?_
  cases h : pkt.cmd with
  | none =>
      refine wp_post (processPacket_unknown h) fun _ t ht => iff_of_true ?_ ?_
      · have hst : t.tx.header.status = statusUnknownCmd := congrArg CtrlHeader.status ht.txHeader
        have hf : t.noacks = s.noacks := ht.noacks
        constructor
        · rw [hst]
          decide
        · rw [hst]
          refine ⟨fun hc => absurd hc (by decide), fun ⟨c, hc, _⟩ => ?_⟩
          rw [h] at hc
          cases hc
        · rintro (⟨c, hc, _⟩ | he | hlt)
          · rw [h] at hc
            cases hc
          · exact absurd ht.cmdErrors he
          · rw [hf] at hlt
            exact absurd hlt (Nat.lt_irrefl _)
      · exact ⟨fun hc => (by rw [h] at hc; cases hc), fun hc => (by rw [h] at hc; cases hc)⟩
  | some c =>
      by_cases hr : PeriphOk pkt c ∧ BlocksOk pkt c
      · refine wp_mono (processPacket_done h hr.1 hr.2) (fun _ t ht => ?_) fun _ hn hg => ?_
        · exact (statusLaw_of_done h hr.1 hr.2 ht.2).trans (statusGood_iff h hr.1 hr.2 ht.1)
        · exact hn fun hc b hb => (hg.rd hc b hb).1
      · refine wp_post (processPacket_refused h hr) fun _ t ⟨st, hst, ht⟩ => iff_of_true ?_ ?_
        · have hst' : t.tx.header.status = st := congrArg CtrlHeader.status ht.txHeader
          have herr : IsError st := hst.elim (fun h => .inr (.inr h)) .inl
          constructor
          · rw [hst']
            rcases hst with rfl | rfl <;> decide
          · rw [hst']
            refine ⟨fun hc => ?_, fun ⟨c', hc', hp, hb, _⟩ => ?_⟩
            · rw [hc] at herr
              unfold IsError at herr
              exact absurd herr (by decide)
            · rw [h] at hc'
              cases hc'
              exact absurd ⟨hp, hb⟩ hr
          · rw [hst']
            exact fun _ => herr
        · constructor
          · intro hc hid
            rw [h] at hc
            cases hc
            exact absurd ⟨fun _ => hid, fun _ hn => (by cases hn)⟩ hr
          · intro hc
            rw [h] at hc
            cases hc
            exact absurd ⟨fun hn => (by cases hn), fun _ hn => (by cases hn)⟩ hr

/-- A reset with an operation that there is not. -/
def rst7 : CtrlPacket := ⟨⟨Command.lmsRst.code, 0, 1, 0⟩, fun _ => 7⟩

/-- It is counted as an error and answered as completed. -/
theorem lmsRst_completed : ∃ r, (session [⟨rst7, fun _ _ => noResp⟩]).run powerOn = .ok r ∧
    r.2.tx.header.status = statusCompletedCmd ∧ r.2.cmdErrors ≠ 0 :=
  ⟨_, rfl, by decide, by decide⟩

/-! ## Analog values -/

/-- The values of the firmware are the same in `t` as in `s`, and no device was sent anything in between. -/
def Untouched (s t : Fw) : Prop := t.dacVal = s.dacVal ∧ t.wiperPos = s.wiperPos ∧ t.ops = s.ops

/-- The reply to a reading tells what the devices hold. -/
theorem read_reports {q : Request} (hs : s.Synced) (hc : q.pkt.cmd = some .analogValRd) (hq : q.InRange) :
    ∃ r, (processPacket q.dev q.pkt).run s = .ok r ∧
      ∀ b < q.pkt.blocks, ∀ v, deviceVal s.ops (q.pkt.field b) = some v → reported r.2.tx b = v := by
  have hrep := @analogValRd_reports (s.received q.pkt) q.dev (hq.read hc)
  obtain ⟨r, hr, _, hvals⟩ := wp_ok_iff.mp ((wp_processPacket hc).mpr hrep)
  refine ⟨r, hr, fun b hb v hv => hvals b hb v ?_⟩
  rw [(received_synced hs q.pkt).analogVal]
  exact hv

/-- A block that is refused, in the middle of a packet without a position out of range. -/
theorem wrBlock_untouched {b : Nat} (ha : ¬ WrAccepted s.rx b) (hr : ¬ WrOutOfRange s.rx b) :
    Untouched s (s.wrBlock b) := by
  rcases wrBlock_cases s b with ⟨ha', _⟩ | ⟨_, ha', _, _⟩ | ⟨_, _, hr', _⟩ | ⟨_, _, he⟩
  · exact absurd ha' ha
  · exact absurd ha' ha
  · exact absurd hr' hr
  · rw [he]
    exact ⟨rfl, rfl, rfl⟩

/-- Every block of a write: before it what is stored is what the devices hold, and a refused block leaves both. -/
theorem write_blocks {q : Request} (hs : s.Synced) (hc : q.pkt.cmd = some .analogValWr) (hq : q.InRange)
    (hn : q.pkt.blocks ≤ dataFieldSize / 4) {n : Nat} (hle : n ≤ q.pkt.blocks) :
    ∃ r, (each analogValWrBlock n).run (s.received q.pkt) = .ok r ∧ r.2.Synced ∧
      (n < q.pkt.blocks → ¬ WrAccepted q.pkt n →
        ∃ u, (analogValWrBlock n).run r.2 = .ok u ∧ Untouched r.2 u.2) := by
  have hr := hq.write hc hn
  have hin : ∀ b < n, ¬ WrOutOfRange q.pkt b := fun b hb => hr b (Nat.lt_of_lt_of_le hb hle)
  obtain ⟨r, hrun, hrx, hsync⟩ := wp_ok_iff.mp
    (each_analogValWr_synced (received_synced hs q.pkt) (Nat.le_trans hle hn) hin)
  refine ⟨r, hrun, hsync, fun hlt ha => ?_⟩
  have ha' : ¬ WrAccepted r.2.rx n := by rw [hrx]; exact ha
  have hr' : ¬ WrOutOfRange r.2.rx n := by rw [hrx]; exact hr n hlt
  exact wp_ok_iff.mp ((wp_analogValWrBlock (Q := fun _ t => Untouched r.2 t) (Nat.lt_of_lt_of_le hlt hn)).mpr
    (wrBlock_untouched ha' hr'))

/-- In every run whose writes give no wiper position out of range and whose reads have no block outside the data
fields, what is stored is what the devices were last told, before and after every packet and every block of a
write; a reading reports it, and a refused block or packet leaves both as they were. -/
theorem analog_values (rs : List Request) (h : ∀ r ∈ rs, r.Analog ∧ r.InRange) :
    ∃ r, (session rs).run powerOn = .ok r ∧ r.2.Synced ∧
      (∀ q : Request, q.pkt.cmd = some .analogValRd → q.InRange →
        ∃ u, (processPacket q.dev q.pkt).run r.2 = .ok u ∧
          ∀ b < q.pkt.blocks, ∀ v, deviceVal r.2.ops (q.pkt.field b) = some v → reported u.2.tx b = v) ∧
      (∀ q : Request, q.pkt.cmd = some .analogValWr → q.InRange → q.pkt.blocks ≤ dataFieldSize / 4 →
        ∀ n ≤ q.pkt.blocks, ∃ u, (each analogValWrBlock n).run (r.2.received q.pkt) = .ok u ∧ u.2.Synced ∧
          (n < q.pkt.blocks → ¬ WrAccepted q.pkt n →
            ∃ w, (analogValWrBlock n).run u.2 = .ok w ∧ Untouched u.2 w.2)) ∧
      (∀ q : Request, q.pkt.cmd = some .analogValWr → q.pkt.blocks > dataFieldSize / 4 →
        ∃ u, (processPacket q.dev q.pkt).run r.2 = .ok u ∧ Untouched r.2 u.2) := by
  obtain ⟨r, hr, hs⟩ := wp_ok_iff.mp (session_synced h)
  refine ⟨r, hr, hs, fun q hc hq => read_reports hs hc hq, fun q hc hq hn n hle => write_blocks hs hc hq hn hle, ?_⟩
  intro q hc hn
  exact wp_ok_iff.mp ((wp_processPacket hc).mpr (analogValWr_refused (s := r.2.received q.pkt) hn))

/-- A request that sets wiper 0 to the position 256 and then the DAC. -/
def write256 : Request where
  pkt := ⟨⟨Command.analogValWr.code, 0, 2, 0⟩, fun i => [2, 0, 1, 0, 0, 0, 0x77, 0xfa].getD i.val 0⟩
  dev := fun _ _ => noResp

theorem analog_values_write256 : ∃ r, (session [write256]).run powerOn = .ok r ∧ r.2.Synced := by
  have h : ∀ r ∈ [write256], r.Analog ∧ r.InRange := by
    intro r hr
    rw [List.mem_singleton.mp hr]
    exact ⟨.inl rfl, fun _ _ => by decide, fun hc => by cases hc⟩
  obtain ⟨r, hr, hs, _⟩ := analog_values [write256] h
  exact ⟨r, hr, hs⟩

/-- A request that sets wiper 0 to the position 257. -/
def write257 : Request where
  pkt := ⟨⟨Command.analogValWr.code, 0, 1, 0⟩, fun i => [2, 0, 1, 1].getD i.val 0⟩
  dev := fun _ _ => noResp

/-- It is refused, but the position is stored. -/
theorem wiper_stores_refused : ∃ r, (session [write257]).run powerOn = .ok r ∧
    r.2.tx.header.status = statusErrorCmd ∧ r.2.wiperPos 0 = 257 ∧ deviceWiper 0 r.2.ops = 0x80 :=
  ⟨_, rfl, by decide, by decide, by decide⟩

/-! ## Checks -/

/-- What the checks are for: a packet for a chip that there is not, or with more blocks than fit, touches nothing
and is answered by the error for it; any other packet has its operations performed, block after block. -/
structure ChecksLaw (dev : Dev) (pkt : CtrlPacket) (s t : Fw) : Prop where
  refused : ∀ c, pkt.cmd = some c → NoSuchChip pkt c ∨ TooManyBlocks pkt c → Untouched s t ∧
    (NoSuchChip pkt c ∧ t.tx.header.status = statusInvalidPeriphIdCmd ∨
      TooManyBlocks pkt c ∧ t.tx.header.status = statusBlocksErrorCmd)
  performed : ∀ c, pkt.cmd = some c → ¬ NoSuchChip pkt c → ¬ TooManyBlocks pkt c →
    Performed (operations dev pkt c) s t

/-- The packets that the checks catch: `CMD_LMS7002_RD` has no check of the chip, `CMD_ANALOG_VAL_RD` none of the
number of blocks. -/
structure ChecksGood (pkt : CtrlPacket) : Prop where
  chip : pkt.cmd = some .lms7002Rd → pkt.header.periphID > maxIdLms7 → pkt.blocks > dataFieldSize / 4
  blocks : pkt.cmd = some .analogValRd → ¬ pkt.blocks > dataFieldSize / 4

theorem checksLaw_iff {c : Command} {t : Fw} (h : pkt.cmd = some c) : ChecksLaw dev pkt s t ↔
    (NoSuchChip pkt c ∨ TooManyBlocks pkt c → Untouched s t ∧
      (NoSuchChip pkt c ∧ t.tx.header.status = statusInvalidPeriphIdCmd ∨
        TooManyBlocks pkt c ∧ t.tx.header.status = statusBlocksErrorCmd)) ∧
    (¬ NoSuchChip pkt c → ¬ TooManyBlocks pkt c → Performed (operations dev pkt c) s t) := by
  constructor
  · exact fun hl => ⟨hl.refused c h, hl.performed c h⟩
  · rintro ⟨hr, hp⟩
    constructor
    · intro c' hc'
      cases h.symm.trans hc'
      exact hr
    · intro c' hc'
      cases h.symm.trans hc'
      exact hp

/-- A packet that is carried out although it is to be refused. -/
theorem not_checksLaw {c : Command} {t : Fw} (h : pkt.cmd = some c) (hr : NoSuchChip pkt c ∨ TooManyBlocks pkt c)
    (hst : t.tx.header.status = statusCompletedCmd) : ¬ ChecksLaw dev pkt s t := by
  intro hl
  rcases (hl.refused c h hr).2 with ⟨_, he⟩ | ⟨_, he⟩
  · rw [hst] at he
    exact absurd he (by decide)
  · rw [hst] at he
    exact absurd he (by decide)

/-- A packet that is refused when it is to be, and only then. -/
theorem checksLaw_of_refused {c : Command} {E : Fault → Prop} (h : pkt.cmd = some c)
    (hchip : NoSuchChip pkt c → ¬ (PeriphOk pkt c ∧ BlocksOk pkt c)) (hperiph : ¬ PeriphOk pkt c → NoSuchChip pkt c)
    (hblocks : TooManyBlocks pkt c ↔ ¬ BlocksOk pkt c) :
    wp (processPacket dev pkt) (fun _ t => ChecksLaw dev pkt s t) E s := by
  rw [wp_processPacket h]
  by_cases hp : PeriphOk pkt c
  · by_cases hb : BlocksOk pkt c
    · have hno : ¬ NoSuchChip pkt c := fun hn => hchip hn ⟨hp, hb⟩
      have hnb : ¬ TooManyBlocks pkt c := fun hn => hblocks.mp hn hb
      refine wp_post (runCommand_performs (s := s.received pkt) hno hnb) fun _ t ht => (checksLaw_iff h).mpr ?_
      exact ⟨fun hr => (hr.elim hno hnb).elim, fun _ _ => ⟨ht.ops, ht.dacVal, ht.wiperPos⟩⟩
    · have hmany := hblocks.mpr hb
      refine wp_post (runCommand_blocks (s := s.received pkt) hp hb) fun _ t ht => (checksLaw_iff h).mpr ?_
      rw [ht]
      exact ⟨fun _ => ⟨⟨rfl, rfl, rfl⟩, .inr ⟨hmany, rfl⟩⟩, fun _ hn => absurd hmany hn⟩
  · have hno := hperiph hp
    refine wp_post (runCommand_periph (s := s.received pkt) hp) fun _ t ht => (checksLaw_iff h).mpr ?_
    rw [ht]
    exact ⟨fun _ => ⟨⟨rfl, rfl, rfl⟩, .inl ⟨hno, rfl⟩⟩, fun hn => absurd hno hn⟩

/-- A packet that is to be refused, and whose command is carried out and completed. -/
theorem not_checksLaw_of_done {c : Command} (h : pkt.cmd = some c) (hr : NoSuchChip pkt c ∨ TooManyBlocks pkt c)
    (hp : PeriphOk pkt c) (hb : BlocksOk pkt c) (hst : ∀ e, doneStatus e c = statusCompletedCmd) :
    wp (processPacket dev pkt) (fun _ t => ¬ ChecksLaw dev pkt s t) (fun _ => True) s :=
  wp_mono (processPacket_done h hp hb)
    (fun _ _ ht => not_checksLaw h hr ((congrArg CtrlHeader.status ht.2.txHeader).trans (hst _))) fun _ _ => trivial

/-- `CMD_LMS7002_RD` has a check of the number of blocks only. -/
theorem lms7002Rd_checks (h : pkt.cmd = some .lms7002Rd) :
    wp (processPacket dev pkt) (fun _ t => ChecksLaw dev pkt s t ↔ ChecksGood pkt) (fun _ => ¬ ChecksGood pkt) s := by
  have hp : PeriphOk pkt .lms7002Rd := fun hc => by cases hc
  by_cases hbad : NoSuchChip pkt .lms7002Rd ∧ BlocksOk pkt .lms7002Rd
  · have hno : ¬ ChecksGood pkt := fun hg => hbad.2 4 rfl (hg.chip h hbad.1.2)
    refine wp_mono (not_checksLaw_of_done h (.inl hbad.1) hp hbad.2 fun _ => rfl) (fun _ t ht => ?_) fun _ _ => hno
    exact iff_of_false ht hno
  · have hgood : ChecksGood pkt := by
      refine ⟨fun _ hgt => ?_, fun hc => absurd (h.symm.trans hc) (by decide)⟩
      by_contra hle
      exact hbad ⟨⟨rfl, hgt⟩, fun n hn => by cases hn; exact hle⟩
    have hblocks := @tooManyBlocks_iff_blocksOk pkt .lms7002Rd (by decide)
    refine wp_post (checksLaw_of_refused h (fun hn hok => hbad ⟨hn, hok.2⟩) (fun hn => absurd hp hn) hblocks) ?_
    exact fun _ t ht => iff_of_true ht hgood

/-- `CMD_ANALOG_VAL_RD` has no check, and there is always a chip for it. -/
theorem analogValRd_checks (h : pkt.cmd = some .analogValRd) :
    wp (processPacket dev pkt) (fun _ t => ChecksLaw dev pkt s t ↔ ChecksGood pkt) (fun _ => ¬ ChecksGood pkt) s := by
  have hp : PeriphOk pkt .analogValRd := fun hc => by cases hc
  have hb : BlocksOk pkt .analogValRd := fun n hn => by cases hn
  by_cases hbad : pkt.blocks > dataFieldSize / 4
  · have hno : ¬ ChecksGood pkt := fun hg => hg.blocks h hbad
    have hmany := tooManyBlocks_analogValRd.mpr hbad
    refine wp_mono (not_checksLaw_of_done h (.inr hmany) hp hb fun _ => rfl) (fun _ t ht => ?_) fun _ _ => hno
    exact iff_of_false ht hno
  · have hfew : ¬ TooManyBlocks pkt .analogValRd := fun hn => hbad (tooManyBlocks_analogValRd.mp hn)
    have hgood : ChecksGood pkt := ⟨fun hc => absurd (h.symm.trans hc) (by decide), fun _ => hbad⟩
    refine wp_post (checksLaw_of_refused h (fun hn => by cases hn.1) (fun hn => absurd hp hn) ?_) ?_
    · exact iff_of_false hfew fun hn => hn hb
    · exact fun _ t ht => iff_of_true ht hgood

/-- The other commands have the checks they need. -/
theorem other_checks {c : Command} (h : pkt.cmd = some c) (hrd : c ≠ .lms7002Rd) (hval : c ≠ .analogValRd) :
    wp (processPacket dev pkt) (fun _ t => ChecksLaw dev pkt s t ↔ ChecksGood pkt) (fun _ => ¬ ChecksGood pkt) s := by
  have hcmd : ∀ c', pkt.cmd = some c' → c = c' := fun c' hc' => Option.some.inj (h.symm.trans hc')
  have hgood : ChecksGood pkt := ⟨fun hc => absurd (hcmd _ hc) hrd, fun hc => absurd (hcmd _ hc) hval⟩
  have hchip := @noSuchChip_iff_periphOk pkt c hrd
  exact wp_post (checksLaw_of_refused h (fun hn hok => hchip.mp hn hok.1) hchip.mpr (tooManyBlocks_iff_blocksOk hval))
    fun _ t ht => iff_of_true ht hgood

/-- For every packet and state: the checks do what they are for exactly when the packet is not a `CMD_LMS7002_RD`
for a chip that there is not, and not a `CMD_ANALOG_VAL_RD` with more blocks than the reply holds. -/
theorem checks_law (s : Fw) (dev : Dev) (pkt : CtrlPacket) :
    (∃ r, (processPacket dev pkt).run s = .ok r ∧ ChecksLaw dev pkt s r.2) ↔ ChecksGood pkt := by
  refine ok_iff_of_wp (Q := fun _ t => ChecksLaw dev pkt s t) ?_
  cases h : pkt.cmd with
  | none =>
      have hno : ∀ c, pkt.cmd ≠ some c := fun c hc => by rw [h] at hc; cases hc
      refine wp_post (processPacket_unknown h) fun _ t _ => iff_of_true ?_ ?_
      · exact ⟨fun c hc => absurd hc (hno c), fun c hc => absurd hc (hno c)⟩
      · exact ⟨fun hc => absurd hc (hno _), fun hc => absurd hc (hno _)⟩
  | some c =>
      by_cases hrd : c = .lms7002Rd
      · exact lms7002Rd_checks (hrd ▸ h)
      · by_cases hval : c = .analogValRd
        · exact analogValRd_checks (hval ▸ h)
        · exact other_checks h hrd hval

/-- A request to read a register of the third chip. -/
def readThird : CtrlPacket := ⟨⟨Command.lms7002Rd.code, 0, 1, 2⟩, fun _ => 0⟩

/-- It is answered as completed, with a register of the first one. -/
theorem lms7002Rd_wrong_chip : ∃ r, (processPacket (fun _ _ => noResp) readThird).run powerOn = .ok r ∧
    NoSuchChip readThird .lms7002Rd ∧ r.2.tx.header.status = statusCompletedCmd ∧
    r.2.ops = [.spi .fpgaSpi0 spiNrLms7002m0 [0, 0] 2] ∧
    ¬ ChecksLaw (fun _ _ => noResp) readThird powerOn r.2 := by
  have hchip : NoSuchChip readThird .lms7002Rd := ⟨rfl, by decide⟩
  exact ⟨_, rfl, hchip, rfl, by decide, not_checksLaw rfl (.inl hchip) rfl⟩

/-! ## Framing -/

/-- In every run in which no access of the firmware that it makes without a look at the FIFO comes too early: the
packets it processes are the host's words in order, sixteen at a time; the replies go into the reply FIFO in order
and come out of it so, and `coe_fifo_rst` is pulsed only between whole replies. When the firmware runs on, every packet
that has begun to arrive is processed, and every reply gets into the FIFO as a whole. -/
theorem channel_framing {σ : Type} {cmdDepth replyDepth : Nat} (r : ChannelRun σ cmdDepth replyDepth) :
    (∀ n, r.AccessesOk n →
      ((r.packets n).flatten = (r.arrived n).take (packetWords * (r.packets n).length) ∧
        ∀ p ∈ r.packets n, p.length = packetWords) ∧
      (r.written n <+: (r.replies n).flatten ∧ (r.replies n).length = (r.packets n).length ∧
        ∀ q ∈ r.replies n, q.length = packetWords) ∧
      r.hostRead n ++ (r.stateAt n).f2hC0.store = r.written n ∧
      ((r.stateAt n).avfifo.coeFifoRst = true → r.written n = (r.replies n).flatten)) ∧
    ((∀ n, r.AccessesOk n) → r.Runs → ∀ n k,
      (packetWords * k < (r.arrived n).length → ∃ m, k < (r.packets m).length) ∧
      (k < (r.packets n).length → ∃ m, packetWords * (k + 1) ≤ (r.written m).length)) := by
  refine ⟨fun n h => ?_, fun hok hgo n k => ⟨r.packets_reach hok hgo, r.written_reach hok hgo⟩⟩
  have hf := r.framed h
  refine ⟨⟨?_, hf.whole⟩, ⟨?_, r.replies_length n, fun q hq => r.length_of_mem_replies hq⟩,
    r.hostRead_append_store n, fun hrst => ?_⟩
  · rw [hf.arrived, ← ChannelRun.length_flatten hf.whole, List.take_left]
  · exact ⟨_, hf.replies⟩
  · have hpc := (r.consistent h).rst.mp hrst
    have hreplies := hf.replies
    rw [Channel.pending, hpc, List.append_nil] at hreplies
    exact hreplies

/-- A switch that sends a packet back. -/
def echo : Switch Unit where
  answer m ws := (m, (ws ++ List.replicate packetWords 0).take packetWords)
  length_answer m ws := by
    rw [List.length_take, List.length_append, List.length_replicate]
    omega

/-- A host that writes and reads in every cycle. -/
def busyHost : ChannelRun Unit 256 256 := ⟨echo, (), fun n => ⟨some (BitVec.ofNat 32 n), true, true⟩⟩

theorem busyHost_ok (n : Nat) : busyHost.AccessesOk n := by
  have hfifo : ∀ k, (busyHost.stateAt k).f2hC0.store.length ≤ 1 ∧
      (0 < k → (busyHost.stateAt k).h2fC0.store ≠ []) := by
    intro k
    induction k with
    | zero => exact ⟨Nat.zero_le _, fun h => absurd h (Nat.lt_irrefl 0)⟩
    | succ k ih =>
        constructor
        · have hnext : (busyHost.stateAt (k + 1)).f2hC0 =
              (busyHost.stateAt k).f2hC0.next ((busyHost.stateAt k).replyPort (busyHost.x k)) 1 := rfl
          have hone := Option.length_toList_le
            (o := (busyHost.stateAt k).f2hC0.accepted ((busyHost.stateAt k).replyPort (busyHost.x k)))
          rw [hnext, Hdl.Fifo.next_store, List.length_append, List.length_drop]
          omega
        · intro _ hnil
          have hnext : (busyHost.stateAt (k + 1)).h2fC0.store =
              (busyHost.stateAt k).h2fC0.store.drop (if (busyHost.stateAt k).h2fC0Rd (busyHost.x k) then 1 else 0) ++
                ((busyHost.stateAt k).h2fC0.accepted (some (BitVec.ofNat 32 k))).toList := rfl
          rw [hnext, List.append_eq_nil_iff] at hnil
          cases hfull : (busyHost.stateAt k).h2fC0.isFull with
          | false =>
              rw [Hdl.Fifo.accepted_of_not_full hfull] at hnil
              cases hnil.2
          | true =>
              have hlen := Hdl.Fifo.isFull_eq_true.mp hfull
              have hdrop := congrArg List.length hnil.1
              rw [List.length_drop, List.length_nil] at hdrop
              unfold Hdl.Fifo.usedw at hlen
              split at hdrop <;> omega
  intro k _ _ _
  refine ⟨fun w buf hpc => ?_, fun ws _ => ?_⟩
  · cases k with
    | zero => cases hpc
    | succ k => exact (hfifo (k + 1)).2 (Nat.succ_pos k)
  · rw [Hdl.Fifo.isFull_eq_false]
    exact Nat.lt_of_le_of_lt (hfifo k).1 (by decide)

/-- Its packets are processed and answered. -/
theorem channel_framing_busyHost :
    (busyHost.packets 60).flatten = (busyHost.arrived 60).take (packetWords * (busyHost.packets 60).length) ∧
      ∃ m, packetWords * 1 ≤ (busyHost.written m).length := by
  have hok : ∀ n, busyHost.AccessesOk n := busyHost_ok
  have hgo : busyHost.Runs := fun n => ⟨n, Nat.le_refl n, rfl⟩
  have h := channel_framing busyHost
  obtain ⟨m, hm⟩ := (h.2 hok hgo 1 0).1 (by decide)
  exact ⟨(h.1 60 (hok 60)).1.1, (h.2 hok hgo m 0).2 hm⟩

/-- A host that writes one word of a packet. -/
def slowHost : ChannelRun Unit 256 256 := ⟨echo, (), fun n => ⟨if n = 0 then some 5 else none, true, true⟩⟩

/-- The firmware processes it as a whole packet. -/
theorem getFifoData_repeats : slowHost.arrived 60 = [5] ∧ slowHost.packets 60 = [List.replicate packetWords 5] := by
  decide +kernel

/-! ## Register fields -/

/-- What the FPGA registers hold after a sequence of calls of `Modify_BRDSPI16_Reg_bits`. -/
def regsAfter (init : BitVec 15 → BitVec 16) (cs : List RegBits) (s : Fw) :
    Except Fault (BitVec 15 → BitVec 16) :=
  ((modifyRegs init cs).run s).map fun r => deviceRegs init r.2.ops

theorem regsAfter_eq (init : BitVec 15 → BitVec 16) (cs : List RegBits) (s : Fw) :
    regsAfter init cs s = .ok (cs.foldl (fun m c => c.apply m) (deviceRegs init s.ops)) := by
  obtain ⟨r, hr, hm⟩ := wp_ok_iff.mp (wp_modifyRegs (E := fun _ => False) init cs s)
  rw [regsAfter, hr]
  exact congrArg Except.ok hm

/-- A call writes back to the register it has read, with the low bits of the data in its field and what it has read
in all other bits. After any sequence of calls every bit of every register is the one that the last call on it put
there; so calls on disjoint fields can be swapped, and a call leaves nothing of an earlier one on the same field. -/
theorem modifyBRDSPI16RegBits_frame :
    (∀ (c : RegBits) (r : DevResp) (s : Fw), ∃ w,
      (modifyBRDSPI16RegBits c.addr c.msb c.lsb c.data r).run s =
        .ok ((), { s with ops := s.ops ++ [readReg c.addr, writeReg c.addr w] }) ∧
      ∀ i < 16, w.getLsbD i = if c.lsb ≤ i ∧ i ≤ c.msb then c.data.getLsbD (i - c.lsb)
        else (word16 (r.spiRd 0) (r.spiRd 1)).getLsbD i) ∧
    ∀ (init : BitVec 15 → BitVec 16) (s : Fw),
      (∀ cs, ∃ m, regsAfter init cs s = .ok m ∧ ∀ a, ∀ i < 16,
        (m a).getLsbD i = (RegBits.lastBit cs a i).getD ((deviceRegs init s.ops a).getLsbD i)) ∧
      (∀ c d, c.Disjoint d → ∀ pre post,
        regsAfter init (pre ++ c :: d :: post) s = regsAfter init (pre ++ d :: c :: post) s) ∧
      (∀ c d, c.SameField d → ∀ pre mid post,
        regsAfter init (pre ++ c :: mid ++ d :: post) s = regsAfter init (pre ++ mid ++ d :: post) s) := by
  refine ⟨fun c r s => ?_, fun init s => ⟨fun cs => ?_, fun c d h pre post => ?_, fun c d h pre mid post => ?_⟩⟩
  · refine ⟨Hdl.putBits c.msb c.lsb c.data (word16 (r.spiRd 0) (r.spiRd 1)), ?_, fun i hi => ?_⟩
    · exact run_of_wp ((wp_modifyBRDSPI16RegBits ..).mpr ⟨rfl, rfl⟩)
    · exact Hdl.getLsbD_putBits _ _ hi c.lsb_le (Nat.lt_succ_of_le c.msb_le)
  · exact ⟨_, regsAfter_eq init cs s, fun a i hi => RegBits.foldl_getLsbD cs _ a hi⟩
  · rw [regsAfter_eq, regsAfter_eq, RegBits.foldl_congr (RegBits.lastBit_swap h pre post)]
  · rw [regsAfter_eq, regsAfter_eq, RegBits.foldl_congr (RegBits.lastBit_same h pre mid post)]

/-- The first RF chip is put into reset, the second one taken out of it. -/
def resetLms1 : RegBits := ⟨brdSpiRegLms1Lms2Ctrl, lms1Reset, lms1Reset, 0, by decide, by decide⟩
def releaseLms2 : RegBits := ⟨brdSpiRegLms1Lms2Ctrl, lms2Reset, lms2Reset, 1, by decide, by decide⟩

/-- Both can be done in either order, and again. -/
theorem modifyBRDSPI16RegBits_frame_resets :
    regsAfter (fun _ => 0) [resetLms1, releaseLms2] powerOn = regsAfter (fun _ => 0) [releaseLms2, resetLms1] powerOn ∧
      regsAfter (fun _ => 0) [resetLms1, releaseLms2, resetLms1] powerOn =
        regsAfter (fun _ => 0) [releaseLms2, resetLms1] powerOn :=
  have h := modifyBRDSPI16RegBits_frame.2 (fun _ => 0) powerOn
  ⟨h.2.1 resetLms1 releaseLms2 (fun _ => .inl (by decide)) [] [],
    h.2.2 resetLms1 resetLms1 ⟨rfl, rfl, rfl⟩ [] [releaseLms2] []⟩

/-! ## PLL configuration -/

/-- What the first `n` turns of the main loop do for the PLLs. A request is served in the turn after its flag has come
up, once. -/
structure PllServed (env : Nat → PllEnv) (rez : Byte) (n : Nat) (ops : List PllOp) : Prop where
  /-- All accesses in their order: in a turn the phase request comes before the configuration and the reset request
  after it, a configuration sets the core up and starts it, then polls its status and only then pulses the reset line,
  and what a request does stands between busy and its report. The fields below tell what the accesses of each kind
  are. -/
  order : ops = .pllcfgStatus pllcfgDone :: (List.range n).flatMap (turnOps env rez)
  /-- The registers are written to the core of the PLL and the core is started, for a configuration and for nothing
  else. -/
  cores : ops.filterMap PllOp.coreWrite = (List.range n).flatMap fun k =>
    if rises (cfgAsked env) k then ((env k).setup ++ [(pllStart, 1)]).map fun w => ((env k).core, w) else []
  /-- The status of that core is read until it is not zero, or once more than it is looked at. -/
  waits : ops.filterMap PllOp.coreRead = (List.range n).flatMap fun k =>
    if rises (cfgAsked env) k then List.replicate (zeroReads (env k).status + 1) ((env k).core, pllStatus) else []
  /-- The reset line of the PLL is pulsed once for a configuration and once for a reset request. It is the line of the
  index, also where no core has it. -/
  resets : ops.filterMap PllOp.reset = (List.range n).flatMap fun k =>
    (if rises (cfgAsked env) k then (env k).pulse else []) ++ (if rises (rstAsked env) k then (env k).pulse else [])
  /-- A configuration reports its result. A phase request does nothing and reports the result of the configuration
  before it. -/
  reports : ops.filterMap PllOp.status = pllcfgDone :: (List.range n).flatMap fun k =>
    (if rises (phAsked env) k then [pllcfgBusy, report (rezAt env rez k)] else []) ++
      (if rises (cfgAsked env) k then [pllcfgBusy, report (waitRez (env k).status)] else []) ++
      (if rises (rstAsked env) k then [pllcfgBusy, pllcfgDone] else [])
  /-- Cores and reset lines are touched only while the status register says busy. -/
  guarded : ∀ pre op post, ops = pre ++ op :: post → op.touches = true → saysBusy false pre = true
  idle : saysBusy false ops = false

/-- Whatever the host writes into `pllcfg` and however long the cores take. The wait succeeds when the core is ready at
one of the first 100001 reads. -/
theorem pll_requests (env : Nat → PllEnv) (rez : Byte) (n : Nat) :
    ∃ s, (pllTurns env n).run (pllPowerOn rez) = .ok ((), s) ∧ PllServed env rez n s.ops ∧
      ∀ k, waitRez (env k).status = pllcfgNoerr ↔ ∃ t ≤ pllcfgTimeout, (env k).status t ≠ 0 := by
  have hops : Bracketed (pllStateAt env rez n).ops :=
    Bracketed.append (show Bracketed [.pllcfgStatus pllcfgDone] from ⟨⟨fun h => (by cases h), trivial⟩, rfl⟩)
      (Bracketed.flatMap turnOps_bracketed n)
  have hkinds : ∀ {β : Type} {f : PllOp → Option β}, (∀ w, f (.pllcfgStatus w) = none) →
      (pllStateAt env rez n).ops.filterMap f = (List.range n).flatMap fun k =>
        (if rises (cfgAsked env) k then (env k).configOps.filterMap f else []) ++
          (if rises (rstAsked env) k then (env k).resetOps.filterMap f else []) := by
    intro β f hf
    rw [pllStateAt, List.filterMap_cons_none (hf _), List.filterMap_flatMap]
    simp only [turnOps_filterMap hf]
  refine ⟨_, pllTurns_run env rez n, ⟨rfl, ?_, ?_, ?_, ?_, fun pre op post h ht => ?_, hops.2⟩,
    fun k => waitRez_eq_noerr _⟩
  · rw [hkinds fun _ => rfl]
    simp only [configOps_coreWrite]
    have hrst : ∀ k, (env k).resetOps.filterMap PllOp.coreWrite = [] := fun _ => rfl
    simp only [hrst, ite_self, List.append_nil]
  · rw [hkinds fun _ => rfl]
    have hrst : ∀ k, (env k).resetOps.filterMap PllOp.coreRead = [] := fun _ => rfl
    simp only [configOps_coreRead, hrst, ite_self, List.append_nil]
  · rw [hkinds fun _ => rfl]
    have hrst : ∀ k, (env k).resetOps.filterMap PllOp.reset = (env k).pulse := fun _ => rfl
    simp only [configOps_reset, hrst]
  · change pllcfgDone :: List.filterMap PllOp.status _ = _
    rw [List.filterMap_flatMap]
    simp only [turnOps_status]
  · have hg := hops.1
    rw [h] at hg
    exact hg.touches ht

end Nios

end LimeSdrQpcie
