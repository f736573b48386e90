import LimeSdrQpcie.Nios.Avfifo

/-! What the control channel keeps from one cycle to the next. -/

namespace LimeSdrQpcie

namespace Nios

open Hdl

/-! ## Answers -/

namespace Switch

variable {σ : Type} (sw : Switch σ)

/-- The memory and the replies after packets that are processed one after the other. -/
def answers (m : σ) : List (List Word) → σ × List (List Word)
  | [] => (m, [])
  | p :: ps => ((answers (sw.answer m p).1 ps).1, (sw.answer m p).2 :: (answers (sw.answer m p).1 ps).2)

theorem answers_append (m : σ) (ps : List (List Word)) (p : List Word) :
    sw.answers m (ps ++ [p]) = ((sw.answer (sw.answers m ps).1 p).1,
      (sw.answers m ps).2 ++ [(sw.answer (sw.answers m ps).1 p).2]) := by
  induction ps generalizing m with
  | nil => rfl
  | cons q ps ih =>
      rw [List.cons_append, answers, ih]
      rfl

theorem answers_length (m : σ) (ps : List (List Word)) : (sw.answers m ps).2.length = ps.length := by
  induction ps generalizing m with
  | nil => rfl
  | cons q ps ih => rw [answers, List.length_cons, List.length_cons, ih]

theorem length_of_mem_answers {m : σ} {ps : List (List Word)} {r : List Word} (h : r ∈ (sw.answers m ps).2) :
    r.length = packetWords := by
  induction ps generalizing m with
  | nil => cases h
  | cons q ps ih =>
      rcases List.mem_cons.mp h with rfl | h
      · exact sw.length_answer m q
      · exact ih h

end Switch

/-! ## The end of an access -/

namespace MainLoop

variable {σ : Type} {sw : Switch σ} {l : MainLoop σ} {d : Word}

theorem complete_phase : (l.complete sw d).phase = .gap := by
  unfold complete
  split
  · rfl
  · rfl
  · rfl
  · split <;> rfl
  · rfl

theorem complete_pc_rstOff : (l.complete sw d).pc = .rstOff ↔ l.pc = .rstOn := by
  unfold complete
  cases l.pc with
  | poll => cases d.getLsbD 0 <;> simp
  | rstOn | rstOff => simp
  | getFifoData buf => by_cases hl : buf.length + 1 = packetWords <;> simp [hl]
  | reply ws => by_cases ht : ws.tail = [] <;> simp [ht]

/-- A packet is begun only behind a poll that has seen a word. -/
theorem complete_first (h : (l.complete sw d).pc = .rstOn ∨ (l.complete sw d).pc = .rstOff ∨
    (l.complete sw d).pc = .getFifoData []) :
    (l.pc = .poll ∧ d.getLsbD 0 = false) ∨ l.pc = .rstOn ∨ l.pc = .rstOff := by
  unfold complete at h
  cases hpc : l.pc with
  | poll => cases hd : d.getLsbD 0 <;> simp [hpc, hd] at h ⊢
  | rstOn => exact .inr (.inl rfl)
  | rstOff => exact .inr (.inr rfl)
  | getFifoData buf => by_cases hl : buf.length + 1 = packetWords <;> simp [hpc, hl] at h
  | reply ws => by_cases ht : ws.tail = [] <;> simp [hpc, ht] at h

theorem complete_buf (hbuf : ∀ buf, l.pc = .getFifoData buf → buf.length < packetWords) {buf : List Word}
    (h : (l.complete sw d).pc = .getFifoData buf) : buf.length < packetWords := by
  unfold complete at h
  cases hpc : l.pc with
  | poll =>
      simp only [hpc] at h
      split at h <;> cases h
  | rstOn => simp [hpc] at h
  | rstOff =>
      simp only [hpc, Pc.getFifoData.injEq] at h
      rw [← h]
      decide
  | getFifoData old =>
      by_cases hl : old.length + 1 = packetWords
      · simp [hpc, hl] at h
      · simp only [hpc, hl, if_false, Pc.getFifoData.injEq] at h
        rw [← h, List.length_append]
        exact Nat.lt_of_le_of_ne (hbuf old hpc) hl
  | reply ws => by_cases ht : ws.tail = [] <;> simp [hpc, ht] at h

theorem complete_reply {ws : List Word} (h : (l.complete sw d).pc = .reply ws) : ws ≠ [] := by
  unfold complete at h
  cases hpc : l.pc with
  | poll =>
      simp only [hpc] at h
      split at h <;> cases h
  | rstOn | rstOff => simp [hpc] at h
  | getFifoData buf =>
      by_cases hl : buf.length + 1 = packetWords
      · simp only [hpc, hl, if_true, Pc.reply.injEq] at h
        intro hnil
        have hlen := sw.length_answer l.mem (buf ++ [d])
        rw [h, hnil] at hlen
        exact absurd hlen (by decide)
      · simp [hpc, hl] at h
  | reply old =>
      by_cases ht : old.tail = []
      · simp [hpc, ht] at h
      · simp only [hpc, ht, if_false, Pc.reply.injEq] at h
        rw [← h]
        exact ht

end MainLoop

namespace Channel

variable {σ : Type} {cmdDepth replyDepth : Nat} {sw : Switch σ} {m : σ}

/-! ## The invariant -/

/-- The words of the next packet that have left the command FIFO. -/
def current (s : Channel σ cmdDepth replyDepth) : List Word :=
  match s.loop.pc with
  | .getFifoData buf => if s.loop.phase = .waiting then buf ++ [s.h2fC0Rdata] else buf
  | _ => []

/-- The words of the reply that are still to be written. -/
def pending (s : Channel σ cmdDepth replyDepth) : List Word :=
  match s.loop.pc with
  | .reply ws => ws
  | _ => []

/-- What the state of the firmware says about the registers and the FIFOs. -/
structure Consistent (s : Channel σ cmdDepth replyDepth) : Prop where
  idle : s.loop.phase = .idle → s.avfifo.fifordReg = false
  waiting : s.loop.phase = .waiting → s.loop.pc.isRead = true
  popped : s.loop.phase = .waiting → ∀ buf, s.loop.pc = .getFifoData buf → s.avfifo.fifordReg = true
  polled : s.loop.phase = .waiting → s.loop.pc = .poll → s.avfifo.statusReg.getLsbD 0 = false → s.h2fC0.store ≠ []
  first : s.loop.phase ≠ .waiting → s.loop.pc = .rstOn ∨ s.loop.pc = .rstOff ∨ s.loop.pc = .getFifoData [] →
    s.h2fC0.store ≠ []
  buf : ∀ buf, s.loop.pc = .getFifoData buf → buf.length < packetWords
  reply : ∀ ws, s.loop.pc = .reply ws → ws ≠ []
  rst : s.avfifo.coeFifoRst = true ↔ s.loop.pc = .rstOff

/-- What has gone through the channel: the words `arrived` are the packets processed, the words of the next one
and what is still in the FIFO; the words `written` are the replies but for what is left of the last one. -/
structure Framed (sw : Switch σ) (m : σ) (arrived : List Word) (packets : List (List Word)) (written : List Word)
    (s : Channel σ cmdDepth replyDepth) : Prop where
  arrived : arrived = packets.flatten ++ (s.current ++ s.h2fC0.store)
  whole : ∀ p ∈ packets, p.length = packetWords
  mem : s.loop.mem = (sw.answers m packets).1
  replies : written ++ s.pending = (sw.answers m packets).2.flatten

/-- The two accesses that the firmware makes without a look at the FIFO find what they need: a read of a word
behind the first finds the command FIFO with a word in it, a write finds room in the reply FIFO. -/
def AccessOk (s : Channel σ cmdDepth replyDepth) (i : ChannelIn) : Prop :=
  s.loop.phase = .idle → i.go = true →
    (∀ w buf, s.loop.pc = .getFifoData (w :: buf) → s.h2fC0.store ≠ []) ∧
      (∀ ws, s.loop.pc = .reply ws → s.f2hC0.isFull = false)

section Step

variable {s : Channel σ cmdDepth replyDepth} {i : ChannelIn}

/-! ## The bus in one cycle -/

/-- A word is asked for in this cycle. -/
def Asks (s : Channel σ cmdDepth replyDepth) (i : ChannelIn) : Prop :=
  s.loop.phase = .idle ∧ i.go = true ∧ ∃ buf, s.loop.pc = .getFifoData buf

/-- The command FIFO is read exactly in the first cycle of a read of its address. -/
theorem h2fC0Rd_iff (hc : s.Consistent) (ha : s.AccessOk i) :
    (s.h2fC0Rd i = true ↔ s.Asks i) ∧ (s.Asks i → s.h2fC0.store ≠ []) := by
  have hstore : s.Asks i → s.h2fC0.store ≠ [] := by
    rintro ⟨hp, hgo, buf, hpc⟩
    cases buf with
    | nil => exact hc.first (by rw [hp]; decide) (.inr (.inr hpc))
    | cons w buf => exact (ha hp hgo).1 w buf hpc
  refine ⟨⟨fun h => ?_, fun h => ?_⟩, hstore⟩
  · unfold h2fC0Rd Avfifo.coeIfRd Avfifo.fiford MainLoop.bus at h
    cases hp : s.loop.phase with
    | idle =>
        cases hgo : i.go with
        | false => simp [hp, hgo, AvalonBus.idle] at h
        | true =>
            cases hpc : s.loop.pc with
            | getFifoData buf => exact ⟨hp, hgo, buf, hpc⟩
            | poll | rstOn | rstOff | reply ws =>
                simp [hp, hgo, hpc, MainLoop.access, AvalonBus.iord, AvalonBus.iowr] at h
    | waiting =>
        cases hpc : s.loop.pc with
        | getFifoData buf => simp [hc.popped hp buf hpc] at h
        | poll | rstOn | rstOff | reply ws =>
            simp [hp, hpc, MainLoop.access, AvalonBus.iord, AvalonBus.iowr] at h
    | gap => simp [hp, AvalonBus.idle] at h
  · have hne := hstore h
    obtain ⟨hp, hgo, buf, hpc⟩ := h
    have hempty : s.h2fC0Rempty = false := by
      unfold h2fC0Rempty
      cases hs : s.h2fC0.store with
      | nil => exact absurd hs hne
      | cons w ws => rfl
    simp [h2fC0Rd, Avfifo.coeIfRd, Avfifo.fiford, MainLoop.bus, hp, hgo, hpc, MainLoop.access, AvalonBus.iord,
      hc.idle hp, hempty]

/-! ## The firmware in one cycle -/

/-- The access that ends in this cycle, if one does. -/
def Ends (s : Channel σ cmdDepth replyDepth) (i : ChannelIn) : Prop :=
  s.loop.phase = .waiting ∨ s.loop.phase = .idle ∧ i.go = true ∧ s.loop.pc.isRead = false

theorem Ends.bus (h : s.Ends i) : s.loop.bus i.go = MainLoop.access s.loop.pc := by
  rcases h with hp | ⟨hp, hgo, _⟩
  · rw [MainLoop.bus, hp]
  · rw [MainLoop.bus, hp, hgo]
    rfl

/-- A read ends in its second cycle. -/
theorem Ends.waiting (h : s.Ends i) (hr : s.loop.pc.isRead = true) : s.loop.phase = .waiting := by
  rcases h with hp | ⟨_, _, hw⟩
  · exact hp
  · exact absurd (hr.symm.trans hw) (by decide)

theorem Ends.readdata_poll (h : s.Ends i) (hpc : s.loop.pc = .poll) : s.readdata i = s.avfifo.statusReg := by
  rw [readdata, h.bus, hpc]
  rfl

theorem Ends.readdata_getFifoData (h : s.Ends i) {buf : List Word} (hpc : s.loop.pc = .getFifoData buf) :
    s.readdata i = s.h2fC0Rdata := by
  rw [readdata, h.bus, hpc]
  rfl

theorem Consistent.not_waiting (hc : s.Consistent) (hr : s.loop.pc.isRead = false) : s.loop.phase ≠ .waiting :=
  fun h => absurd ((hc.waiting h).symm.trans hr) (by decide)

theorem Consistent.coeFifoRst_eq (hc : s.Consistent) (h : s.loop.pc ≠ .rstOff) : s.avfifo.coeFifoRst = false :=
  Bool.eq_false_iff.mpr fun hr => h (hc.rst.mp hr)

theorem loop_next_ends (h : s.Ends i) : (s.next sw i).loop = s.loop.complete sw (s.readdata i) := by
  rcases h with hp | ⟨hp, hgo, hr⟩
  · simp only [next, MainLoop.next, hp]
  · simp only [next, MainLoop.next, hp, hgo, hr, if_true, Bool.false_eq_true, if_false]

theorem loop_next_gap (h : s.loop.phase = .gap) : (s.next sw i).loop = { s.loop with phase := .idle } := by
  simp only [next, MainLoop.next, h]

theorem loop_next_stays (h : s.loop.phase = .idle) (hgo : i.go = false) : (s.next sw i).loop = s.loop := by
  simp only [next, MainLoop.next, h, hgo, Bool.false_eq_true, if_false]

theorem loop_next_begins (h : s.loop.phase = .idle) (hgo : i.go = true) (hr : s.loop.pc.isRead = true) :
    (s.next sw i).loop = { s.loop with phase := .waiting } := by
  simp only [next, MainLoop.next, h, hgo, hr, if_true]

/-- The ways of the firmware through a cycle. -/
theorem loop_cases (s : Channel σ cmdDepth replyDepth) (i : ChannelIn) :
    s.loop.phase = .gap ∨ (s.loop.phase = .idle ∧ i.go = false) ∨
      (s.loop.phase = .idle ∧ i.go = true ∧ s.loop.pc.isRead = true) ∨ s.Ends i := by
  cases hp : s.loop.phase with
  | gap => exact .inl rfl
  | waiting => exact .inr (.inr (.inr (.inl hp)))
  | idle =>
      cases hgo : i.go with
      | false => exact .inr (.inl ⟨rfl, rfl⟩)
      | true =>
          cases hr : s.loop.pc.isRead with
          | true => exact .inr (.inr (.inl ⟨rfl, rfl, rfl⟩))
          | false => exact .inr (.inr (.inr (.inr ⟨hp, hgo, hr⟩)))

/-- The processed packet, if one ends in this cycle. -/
theorem packet_eq_some {p : List Word} (h : s.packet i = some p) :
    ∃ buf, s.loop.pc = .getFifoData buf ∧ s.loop.phase = .waiting ∧ buf.length + 1 = packetWords ∧
      p = buf ++ [s.h2fC0Rdata] := by
  unfold packet at h
  split at h
  · next buf hpc =>
      split at h
      · next hcond =>
          refine ⟨buf, hpc, hcond.1, hcond.2, ?_⟩
          have he : s.Ends i := .inl hcond.1
          rw [← Option.some.inj h, he.readdata_getFifoData hpc]
      · cases h
  · cases h

theorem packet_eq_none (h : s.loop.phase ≠ .waiting) : s.packet i = none := by
  cases hp : s.packet i with
  | none => rfl
  | some p =>
      obtain ⟨_, _, hw, _⟩ := packet_eq_some hp
      exact absurd hw h

/-! ## The command side -/

theorem not_asks_of_ends (he : s.Ends i) : ¬ s.Asks i := by
  rintro ⟨hp, _, buf, hpc⟩
  rcases he with hp' | ⟨_, _, hr⟩
  · exact absurd (hp.symm.trans hp') (by decide)
  · rw [hpc] at hr
    cases hr

/-- What has left the command FIFO is what is processed in this cycle and what is still current. -/
theorem current_next (hc : s.Consistent) (ha : s.AccessOk i) :
    (s.packet i).toList.flatten ++ (s.next sw i).current =
      s.current ++ s.h2fC0.store.take (if s.h2fC0Rd i then 1 else 0) := by
  obtain ⟨hrd, hne⟩ := h2fC0Rd_iff hc ha
  have hno : ¬ s.Asks i → s.h2fC0.store.take (if s.h2fC0Rd i then 1 else 0) = [] := by
    intro h
    rw [if_neg (fun hr => h (hrd.mp hr)), List.take_zero]
  rcases loop_cases s i with hp | ⟨hp, hgo⟩ | ⟨hp, hgo, hr⟩ | he
  · rw [packet_eq_none (by rw [hp]; decide), hno fun h => absurd (h.1.symm.trans hp) (by decide)]
    unfold current
    rw [loop_next_gap hp]
    cases hpc : s.loop.pc <;> simp [hp]
  · rw [packet_eq_none (by rw [hp]; decide), hno fun h => absurd (h.2.1.symm.trans hgo) (by decide)]
    unfold current
    rw [loop_next_stays hp hgo]
    cases hpc : s.loop.pc <;> simp [hp]
  · rw [packet_eq_none (by rw [hp]; decide)]
    cases hpc : s.loop.pc with
    | rstOn | rstOff | reply ws => rw [hpc] at hr; cases hr
    | poll =>
        rw [hno fun ⟨_, _, _, h⟩ => by rw [hpc] at h; cases h]
        unfold current
        rw [loop_next_begins hp hgo (by rw [hpc]; rfl)]
        simp [hpc]
    | getFifoData buf =>
        have hasks : s.Asks i := ⟨hp, hgo, buf, hpc⟩
        have hq : (s.next sw i).h2fC0Rdata = s.h2fC0.store.headD s.h2fC0Rdata := if_pos (hrd.mpr hasks)
        rw [if_pos (hrd.mpr hasks)]
        unfold current
        rw [loop_next_begins hp hgo (by rw [hpc]; rfl), hq]
        cases hs : s.h2fC0.store with
        | nil => exact absurd hs (hne hasks)
        | cons w ws => simp [hpc, hp]
  · rw [hno (not_asks_of_ends he)]
    unfold current
    rw [loop_next_ends he]
    rcases he with hp | ⟨hp, _, hr⟩
    · cases hpc : s.loop.pc with
      | rstOn | rstOff | reply ws => simpa [hpc, Pc.isRead] using hc.waiting hp
      | poll =>
          simp only [packet, MainLoop.complete, hpc]
          cases (s.readdata i).getLsbD 0 <;> rfl
      | getFifoData buf =>
          have hq := Ends.readdata_getFifoData (i := i) (.inl hp) hpc
          by_cases hl : buf.length + 1 = packetWords
          · simp [packet, MainLoop.complete, hpc, hp, hl, hq]
          · simp [packet, MainLoop.complete, hpc, hp, hl, hq]
    · rw [packet_eq_none (by rw [hp]; decide)]
      cases hpc : s.loop.pc with
      | poll | getFifoData buf => rw [hpc] at hr; cases hr
      | rstOn | rstOff => simp [MainLoop.complete, hpc]
      | reply ws => by_cases ht : ws.tail = [] <;> simp [MainLoop.complete, hpc, ht]

theorem h2fC0_next : (s.next sw i).h2fC0.store =
    s.h2fC0.store.drop (if s.h2fC0Rd i then 1 else 0) ++ (s.arrival i).toList := rfl

theorem arrived_next (hc : s.Consistent) (ha : s.AccessOk i) :
    s.current ++ s.h2fC0.store ++ (s.arrival i).toList =
      (s.packet i).toList.flatten ++ ((s.next sw i).current ++ (s.next sw i).h2fC0.store) := by
  have hsplit := List.take_append_drop (if s.h2fC0Rd i then 1 else 0) s.h2fC0.store
  rw [← List.append_assoc, current_next hc ha, h2fC0_next]
  conv_lhs => rw [← hsplit]
  simp only [List.append_assoc]

/-! ## The reply side -/

theorem replyPort_eq_none (h : (s.loop.bus i.go).write = false) : s.replyPort i = none := by
  rw [replyPort, f2hC0Wr, Avfifo.coeOfWr, h, Bool.and_false, Bool.false_and, Bool.false_and]
  rfl

/-- What the switch answers in this cycle. -/
def answer (sw : Switch σ) (s : Channel σ cmdDepth replyDepth) (i : ChannelIn) : List Word :=
  (s.packet i).elim [] fun p => (sw.answer s.loop.mem p).2

theorem pending_next (hc : s.Consistent) (ha : s.AccessOk i) :
    (s.replyWord i).toList ++ (s.next sw i).pending = s.pending ++ answer sw s i := by
  have hnone : (s.loop.bus i.go).write = false → s.replyWord i = none := by
    intro h
    rw [replyWord, replyPort_eq_none h, Fifo.accepted_none]
  rcases loop_cases s i with hp | ⟨hp, hgo⟩ | ⟨hp, hgo, hr⟩ | he
  · rw [hnone (by rw [MainLoop.bus, hp]; rfl), answer, packet_eq_none (by rw [hp]; decide)]
    unfold pending
    rw [loop_next_gap hp]
    simp
  · rw [hnone (by rw [MainLoop.bus, hp, hgo]; rfl), answer, packet_eq_none (by rw [hp]; decide)]
    unfold pending
    rw [loop_next_stays hp hgo]
    simp
  · have hw : (s.loop.bus i.go).write = false := by
      rw [MainLoop.bus, hp, hgo]
      cases hpc : s.loop.pc with
      | poll | getFifoData buf => rfl
      | rstOn | rstOff | reply ws => rw [hpc] at hr; cases hr
    rw [hnone hw, answer, packet_eq_none (by rw [hp]; decide)]
    unfold pending
    rw [loop_next_begins hp hgo hr]
    simp
  · unfold pending
    rw [loop_next_ends he]
    rcases he with hp | ⟨hp, hgo, hr⟩
    · cases hpc : s.loop.pc with
      | rstOn | rstOff | reply ws => simpa [hpc, Pc.isRead] using hc.waiting hp
      | poll =>
          rw [hnone (by rw [MainLoop.bus, hp, hpc]; rfl)]
          simp only [answer, packet, MainLoop.complete, hpc]
          cases (s.readdata i).getLsbD 0 <;> rfl
      | getFifoData buf =>
          rw [hnone (by rw [MainLoop.bus, hp, hpc]; rfl)]
          by_cases hl : buf.length + 1 = packetWords
          · simp [answer, packet, MainLoop.complete, hpc, hp, hl]
          · simp [answer, packet, MainLoop.complete, hpc, hp, hl]
    · rw [answer, packet_eq_none (by rw [hp]; decide)]
      cases hpc : s.loop.pc with
      | poll | getFifoData buf => rw [hpc] at hr; cases hr
      | rstOn | rstOff =>
          have hport : s.replyPort i = none := by
            simp [replyPort, f2hC0Wr, Avfifo.coeOfWr, MainLoop.bus, hp, hgo, hpc, MainLoop.access, AvalonBus.iowr]
          simp [replyWord, hport, MainLoop.complete, hpc]
      | reply ws =>
          have hfull := (ha hp hgo).2 ws hpc
          have hport : s.replyPort i = some (ws.headD 0) := by
            simp [replyPort, f2hC0Wr, Avfifo.coeOfWr, MainLoop.bus, hp, hgo, hpc, MainLoop.access, AvalonBus.iowr,
              hfull]
          have hword : s.replyWord i = some (ws.headD 0) := by
            rw [replyWord, hport]
            exact Fifo.accepted_of_not_full hfull _
          rw [hword]
          cases ws with
          | nil => exact absurd rfl (hc.reply _ hpc)
          | cons w ws => by_cases ht : ws = [] <;> simp [MainLoop.complete, hpc, ht]

theorem mem_next : (s.next sw i).loop.mem = (s.packet i).elim s.loop.mem fun p => (sw.answer s.loop.mem p).1 := by
  rcases loop_cases s i with hp | ⟨hp, hgo⟩ | ⟨hp, hgo, hr⟩ | he
  · rw [loop_next_gap hp, packet_eq_none (by rw [hp]; decide)]
    rfl
  · rw [loop_next_stays hp hgo, packet_eq_none (by rw [hp]; decide)]
    rfl
  · rw [loop_next_begins hp hgo hr, packet_eq_none (by rw [hp]; decide)]
    rfl
  · rw [loop_next_ends he]
    cases hpc : s.loop.pc with
    | poll | rstOn | rstOff | reply ws => simp only [MainLoop.complete, packet, hpc, Option.elim]
    | getFifoData buf =>
        have hp : s.loop.phase = .waiting := he.waiting (by rw [hpc]; rfl)
        by_cases hl : buf.length + 1 = packetWords
        · simp [packet, MainLoop.complete, hpc, hp, hl]
        · simp [packet, MainLoop.complete, hpc, hp, hl]

/-! ## The registers -/

theorem statusReg_next : (s.next sw i).avfifo.statusReg.getLsbD 0 = s.h2fC0Rempty := by
  change ((s.avfifo.statusReg &&& ~~~3) ||| (if s.f2hC0.isFull = true then 2 else 0) |||
    (if s.h2fC0Rempty = true then 1 else 0)).getLsbD 0 = _
  rw [BitVec.getLsbD_or, BitVec.getLsbD_or, BitVec.getLsbD_and]
  have hmask : (~~~3 : Word).getLsbD 0 = false := rfl
  rw [hmask, Bool.and_false, Bool.false_or]
  cases s.f2hC0.isFull <;> cases s.h2fC0Rempty <;> rfl

/-- A word that is not asked for stays in the command FIFO. -/
theorem h2fC0_next_ne_nil (hc : s.Consistent) (ha : s.AccessOk i) (hn : ¬ s.Asks i) (h : s.h2fC0.store ≠ []) :
    (s.next sw i).h2fC0.store ≠ [] := by
  rw [h2fC0_next, if_neg fun hr => hn ((h2fC0Rd_iff hc ha).1.mp hr), List.drop_zero]
  exact fun hnil => h (List.append_eq_nil_iff.mp hnil).1

/-- A cycle without an access. -/
theorem consistent_of_quiet (hc : s.Consistent) (ha : s.AccessOk i) (hbus : s.loop.bus i.go = .idle)
    (hpc : (s.next sw i).loop.pc = s.loop.pc) (hphase : (s.next sw i).loop.phase = .idle)
    (hw : s.loop.phase ≠ .waiting) (hn : ¬ s.Asks i) : (s.next sw i).Consistent where
  idle _ := by
    change Avfifo.fiford (s.loop.bus i.go) s.h2fC0Rempty = false
    rw [hbus]
    rfl
  waiting h := absurd (hphase.symm.trans h) (by decide)
  popped h := absurd (hphase.symm.trans h) (by decide)
  polled h := absurd (hphase.symm.trans h) (by decide)
  first _ h := h2fC0_next_ne_nil hc ha hn (hc.first hw (hpc ▸ h))
  buf buf h := hc.buf buf (hpc ▸ h)
  reply ws h := hc.reply ws (hpc ▸ h)
  rst := by
    have hrst : (s.next sw i).avfifo.coeFifoRst = s.avfifo.coeFifoRst := by
      change (if (s.loop.bus i.go).chipselect && (s.loop.bus i.go).write && (s.loop.bus i.go).address == 3 then _
        else _) = _
      rw [hbus]
      rfl
    rw [hrst, hpc]
    exact hc.rst

theorem coeFifoRst_next : (s.next sw i).avfifo.coeFifoRst =
    if (s.loop.bus i.go).chipselect && (s.loop.bus i.go).write && (s.loop.bus i.go).address == 3 then
      (s.loop.bus i.go).writedata.getLsbD 0
    else s.avfifo.coeFifoRst := rfl

/-- The first cycle of a read. -/
theorem consistent_of_begins (hc : s.Consistent) (ha : s.AccessOk i) (hp : s.loop.phase = .idle)
    (hgo : i.go = true) (hr : s.loop.pc.isRead = true) : (s.next sw i).Consistent := by
  have hloop : (s.next sw i).loop = { s.loop with phase := .waiting } := loop_next_begins hp hgo hr
  have hpc : (s.next sw i).loop.pc = s.loop.pc := by rw [hloop]
  have hphase : (s.next sw i).loop.phase = .waiting := by rw [hloop]
  have hbus : s.loop.bus i.go = MainLoop.access s.loop.pc := by rw [MainLoop.bus, hp, hgo]; rfl
  constructor
  · exact fun h => absurd (hphase.symm.trans h) (by decide)
  · exact fun _ => by rw [hpc]; exact hr
  · intro _ buf hbuf
    rw [hpc] at hbuf
    have hne : s.h2fC0.store ≠ [] := (h2fC0Rd_iff hc ha).2 ⟨hp, hgo, buf, hbuf⟩
    change Avfifo.fiford (s.loop.bus i.go) s.h2fC0Rempty = true
    rw [hbus, hbuf, h2fC0Rempty]
    cases hs : s.h2fC0.store with
    | nil => exact absurd hs hne
    | cons w ws => rfl
  · intro _ hpoll hst
    rw [hpc] at hpoll
    rw [statusReg_next, h2fC0Rempty] at hst
    refine h2fC0_next_ne_nil hc ha ?_ fun hnil => by rw [hnil] at hst; cases hst
    rintro ⟨_, _, _, hbuf⟩
    rw [hpoll] at hbuf
    cases hbuf
  · exact fun h => absurd hphase h
  · exact fun buf h => hc.buf buf (hpc ▸ h)
  · exact fun ws h => hc.reply ws (hpc ▸ h)
  · have hrst : (s.next sw i).avfifo.coeFifoRst = s.avfifo.coeFifoRst := by
      rw [coeFifoRst_next, hbus]
      cases h : s.loop.pc with
      | poll | getFifoData buf => rfl
      | rstOn | rstOff | reply ws => rw [h] at hr; cases hr
    rw [hrst, hpc]
    exact hc.rst

theorem coeFifoRst_of_ends (hc : s.Consistent) (he : s.Ends i) :
    (s.next sw i).avfifo.coeFifoRst = true ↔ s.loop.pc = .rstOn := by
  rw [coeFifoRst_next, he.bus]
  cases hpc : s.loop.pc with
  | poll | getFifoData buf | reply ws => simp [MainLoop.access, AvalonBus.iord, AvalonBus.iowr, hc.coeFifoRst_eq, hpc]
  | rstOn | rstOff => simp [MainLoop.access, AvalonBus.iowr]

/-- The end of an access. -/
theorem consistent_of_ends (hc : s.Consistent) (ha : s.AccessOk i) (he : s.Ends i) : (s.next sw i).Consistent := by
  have hloop : (s.next sw i).loop = s.loop.complete sw (s.readdata i) := loop_next_ends he
  have hphase : (s.next sw i).loop.phase = .gap := by rw [hloop]; exact MainLoop.complete_phase
  have hkeep : s.h2fC0.store ≠ [] → (s.next sw i).h2fC0.store ≠ [] :=
    h2fC0_next_ne_nil hc ha (not_asks_of_ends he)
  constructor
  · exact fun h => absurd (hphase.symm.trans h) (by decide)
  · exact fun h => absurd (hphase.symm.trans h) (by decide)
  · exact fun h => absurd (hphase.symm.trans h) (by decide)
  · exact fun h => absurd (hphase.symm.trans h) (by decide)
  · intro _ hfirst
    rw [hloop] at hfirst
    rcases MainLoop.complete_first hfirst with ⟨hpc, hd⟩ | hpc | hpc
    · rw [he.readdata_poll hpc] at hd
      exact hkeep (hc.polled (he.waiting (by rw [hpc]; rfl)) hpc hd)
    · exact hkeep (hc.first (hc.not_waiting (by rw [hpc]; rfl)) (.inl hpc))
    · exact hkeep (hc.first (hc.not_waiting (by rw [hpc]; rfl)) (.inr (.inl hpc)))
  · intro buf hbuf
    rw [hloop] at hbuf
    exact MainLoop.complete_buf hc.buf hbuf
  · intro ws hws
    rw [hloop] at hws
    exact MainLoop.complete_reply hws
  · rw [coeFifoRst_of_ends hc he, hloop, MainLoop.complete_pc_rstOff]

theorem consistent_next (hc : s.Consistent) (ha : s.AccessOk i) : (s.next sw i).Consistent := by
  rcases loop_cases s i with hp | ⟨hp, hgo⟩ | ⟨hp, hgo, hr⟩ | he
  · refine consistent_of_quiet hc ha (by rw [MainLoop.bus, hp]) (by rw [loop_next_gap hp]) (by rw [loop_next_gap hp])
      (by rw [hp]; decide) fun h => ?_
    exact absurd (h.1.symm.trans hp) (by decide)
  · refine consistent_of_quiet hc ha (by rw [MainLoop.bus, hp, hgo]; rfl) (by rw [loop_next_stays hp hgo])
      (by rw [loop_next_stays hp hgo]; exact hp) (by rw [hp]; decide) fun h => ?_
    exact absurd (h.2.1.symm.trans hgo) (by decide)
  · exact consistent_of_begins hc ha hp hgo hr
  · exact consistent_of_ends hc ha he

/-! ## Runs -/

theorem framed_next {arrived : List Word} {packets : List (List Word)} {written : List Word} (hc : s.Consistent)
    (ha : s.AccessOk i) (h : Framed sw m arrived packets written s) :
    Framed sw m (arrived ++ (s.arrival i).toList) (packets ++ (s.packet i).toList)
      (written ++ (s.replyWord i).toList) (s.next sw i) := by
  have hanswers : sw.answers m (packets ++ (s.packet i).toList) =
      ((s.packet i).elim s.loop.mem fun p => (sw.answer s.loop.mem p).1,
        (sw.answers m packets).2 ++ ((s.packet i).map fun p => (sw.answer s.loop.mem p).2).toList) := by
    cases s.packet i with
    | none => simp [h.mem]
    | some p => simp [Switch.answers_append, h.mem]
  constructor
  · have hnext : s.current ++ s.h2fC0.store ++ (s.arrival i).toList = (s.packet i).toList.flatten ++
        ((s.next sw i).current ++ (s.next sw i).h2fC0.store) := arrived_next hc ha
    rw [h.arrived, List.flatten_append, List.append_assoc packets.flatten, List.append_assoc packets.flatten, ← hnext]
  · intro p hp
    rcases List.mem_append.mp hp with hp | hp
    · exact h.whole p hp
    · obtain ⟨buf, _, _, hl, rfl⟩ := packet_eq_some (Option.mem_toList.mp hp)
      rw [List.length_append]
      exact hl
  · rw [mem_next, hanswers]
  · rw [List.append_assoc, pending_next hc ha, ← List.append_assoc, h.replies, hanswers, List.flatten_append]
    congr 1
    unfold answer
    cases s.packet i with
    | none => rfl
    | some p => simp

end Step

end Channel

end Nios

end LimeSdrQpcie
