import LimeSdrQpcie.Nios.Lemmas.Avfifo

/-! Runs of the control channel: what has gone through it, and that the firmware gets on. -/

namespace LimeSdrQpcie

namespace Nios

open Hdl

namespace Channel

section Step

variable {σ : Type} {cmdDepth replyDepth : Nat} {sw : Switch σ} {s : Channel σ cmdDepth replyDepth} {i : ChannelIn}

/-! ## Progress -/

/-- How many accesses the firmware is away from the next packet. -/
def accessesLeft (s : Channel σ cmdDepth replyDepth) : Nat :=
  match s.loop.pc with
  | .poll => packetWords + 3
  | .rstOn => packetWords + 2
  | .rstOff => packetWords + 1
  | .getFifoData buf => packetWords - buf.length
  | .reply ws => ws.length + packetWords + 3

/-- How far the firmware is from the next packet; a poll that has seen an empty FIFO is one in vain. -/
def distance (s : Channel σ cmdDepth replyDepth) : Nat :=
  match s.loop.phase with
  | .gap => 3 * s.accessesLeft + 2
  | .idle => 3 * s.accessesLeft + 1
  | .waiting => 3 * s.accessesLeft + if s.loop.pc = .poll ∧ s.avfifo.statusReg.getLsbD 0 = true then 3 else 0

theorem distance_of_gap {t : Channel σ cmdDepth replyDepth} (h : t.loop.phase = .gap) :
    t.distance = 3 * t.accessesLeft + 2 := by
  rw [distance, h]

theorem distance_of_idle {t : Channel σ cmdDepth replyDepth} (h : t.loop.phase = .idle) :
    t.distance = 3 * t.accessesLeft + 1 := by
  rw [distance, h]

/-- An access that is no poll in vain and ends no packet brings the firmware nearer to the next one. -/
theorem accessesLeft_complete (hc : s.Consistent) (he : s.Ends i) (hp : s.packet i = none)
    (hpoll : s.loop.pc = .poll → s.avfifo.statusReg.getLsbD 0 = false) :
    (s.next sw i).accessesLeft + 1 = s.accessesLeft := by
  unfold accessesLeft
  rw [loop_next_ends he]
  cases hpc : s.loop.pc with
  | poll =>
      simp only [MainLoop.complete, hpc, he.readdata_poll hpc, hpoll hpc, Bool.false_eq_true, if_false]
  | rstOn | rstOff => simp only [MainLoop.complete, hpc, List.length_nil, Nat.sub_zero]
  | getFifoData buf =>
      have hlt := hc.buf buf hpc
      by_cases hl : buf.length + 1 = packetWords
      · simp [packet, hpc, he.waiting (by rw [hpc]; rfl), hl] at hp
      · simp only [MainLoop.complete, hpc, if_neg hl, List.length_append, List.length_cons, List.length_nil]
        omega
  | reply ws =>
      cases ws with
      | nil => exact absurd rfl (hc.reply _ hpc)
      | cons w ws =>
          cases ws with
          | nil => simp [MainLoop.complete, hpc]; omega
          | cons w' ws => simp [MainLoop.complete, hpc]; omega

theorem distance_next (hc : s.Consistent) (hne : s.loop.pc = .poll → s.h2fC0.store ≠ [])
    (hp : s.packet i = none) :
    (s.next sw i).distance ≤ s.distance ∧ (i.go = true → (s.next sw i).distance < s.distance) := by
  suffices h : (s.next sw i).distance < s.distance ∨ (i.go = false ∧ (s.next sw i).distance = s.distance) by
    rcases h with h | ⟨hgo, h⟩
    · exact ⟨Nat.le_of_lt h, fun _ => h⟩
    · exact ⟨Nat.le_of_eq h, fun hgo' => absurd (hgo.symm.trans hgo') (by decide)⟩
  have hleft : (s.next sw i).loop.pc = s.loop.pc → (s.next sw i).accessesLeft = s.accessesLeft := by
    intro h
    rw [accessesLeft, h]
    rfl
  rcases loop_cases s i with hg | ⟨hi, hgo⟩ | ⟨hi, hgo, hr⟩ | he
  · have hl : (s.next sw i).loop = { s.loop with phase := .idle } := loop_next_gap hg
    left
    rw [distance_of_gap hg, distance_of_idle (by rw [hl]), hleft (by rw [hl])]
    exact Nat.lt_succ_self _
  · have hl : (s.next sw i).loop = s.loop := loop_next_stays hi hgo
    right
    rw [distance_of_idle hi, distance_of_idle (by rw [hl]; exact hi), hleft (by rw [hl])]
    exact ⟨hgo, rfl⟩
  · have hl : (s.next sw i).loop = { s.loop with phase := .waiting } := loop_next_begins hi hgo hr
    have hw : (s.next sw i).loop.phase = .waiting := by rw [hl]
    have hpc : (s.next sw i).loop.pc = s.loop.pc := by rw [hl]
    left
    rw [distance_of_idle hi, distance, hw, hleft hpc, hpc, if_neg]
    · exact Nat.lt_succ_self _
    · rintro ⟨hpoll, hst⟩
      rw [statusReg_next, h2fC0Rempty] at hst
      exact hne hpoll (List.isEmpty_iff.mp hst)
  · have hl : (s.next sw i).loop = s.loop.complete sw (s.readdata i) := loop_next_ends he
    left
    rw [distance_of_gap (by rw [hl]; exact MainLoop.complete_phase)]
    by_cases hv : s.loop.pc = .poll ∧ s.avfifo.statusReg.getLsbD 0 = true
    · have hw : s.loop.phase = .waiting := he.waiting (by rw [hv.1]; rfl)
      have hd := he.readdata_poll hv.1
      rw [hleft (by rw [hl]; simp only [MainLoop.complete, hv.1, hd, hv.2, if_true]), distance, hw, if_pos hv]
      exact Nat.lt_succ_self _
    · have hpoll : s.loop.pc = .poll → s.avfifo.statusReg.getLsbD 0 = false := by
        intro h
        cases hst : s.avfifo.statusReg.getLsbD 0 with
        | false => rfl
        | true => exact absurd ⟨h, hst⟩ hv
      have hleft' : (s.next sw i).accessesLeft + 1 = s.accessesLeft := accessesLeft_complete hc he hp hpoll
      have hge : 3 * s.accessesLeft ≤ s.distance := by
        unfold distance
        split <;> omega
      omega

end Step

end Channel

/-- The sides of a channel in every cycle. -/
structure ChannelRun (σ : Type) (cmdDepth replyDepth : Nat) where
  sw : Switch σ
  mem : σ
  x : Nat → ChannelIn

namespace ChannelRun

variable {σ : Type} {cmdDepth replyDepth : Nat} (r : ChannelRun σ cmdDepth replyDepth)

def stateAt (n : Nat) : Channel σ cmdDepth replyDepth := (Channel.circuit r.sw r.mem).run r.x n

/-- The words the host has sent, before cycle `n`. -/
def arrived (n : Nat) : List Word := words (fun k => (r.stateAt k).arrival (r.x k)) n

/-- The packets the firmware has processed. -/
def packets (n : Nat) : List (List Word) := words (fun k => (r.stateAt k).packet (r.x k)) n

/-- The words that have entered the reply FIFO. -/
def written (n : Nat) : List Word := words (fun k => (r.stateAt k).replyWord (r.x k)) n

/-- The words the host has read from it. -/
def hostRead (n : Nat) : List Word :=
  Fifo.taken (fun k => (r.stateAt k).f2hC0) (fun k => if (r.x k).hostRd then 1 else 0) n

/-- What the firmware answers to the packets it has processed. -/
def replies (n : Nat) : List (List Word) := (r.sw.answers r.mem (r.packets n)).2

/-- Every access before cycle `n` finds what it needs. -/
def AccessesOk (n : Nat) : Prop := ∀ k < n, (r.stateAt k).AccessOk (r.x k)

theorem stateAt_succ (n : Nat) : r.stateAt (n + 1) = (r.stateAt n).next r.sw (r.x n) := rfl

/-- The host gets the words in the order in which they were written. -/
theorem hostRead_append_store (n : Nat) : r.hostRead n ++ (r.stateAt n).f2hC0.store = r.written n :=
  Fifo.taken_append_store (fun k => (r.stateAt k).replyPort (r.x k)) rfl (fun _ => rfl) n

theorem consistent {n : Nat} (h : r.AccessesOk n) : (r.stateAt n).Consistent := by
  induction n with
  | zero =>
      refine ⟨fun _ => rfl, fun h => ?_, fun h => ?_, fun h => ?_, fun _ h => ?_, fun _ h => ?_, fun _ h => ?_, ?_⟩
      · cases h
      · cases h
      · cases h
      · rcases h with h | h | h <;> cases h
      · cases h
      · cases h
      · exact ⟨fun h => (by cases h), fun h => by cases h⟩
  | succ n ih =>
      rw [stateAt_succ]
      exact Channel.consistent_next (ih fun k hk => h k (Nat.lt_succ_of_lt hk)) (h n (Nat.lt_succ_self n))

theorem framed {n : Nat} (h : r.AccessesOk n) :
    Channel.Framed r.sw r.mem (r.arrived n) (r.packets n) (r.written n) (r.stateAt n) := by
  induction n with
  | zero => exact ⟨rfl, fun _ hp => (by cases hp), rfl, rfl⟩
  | succ n ih =>
      have hn : r.AccessesOk n := fun k hk => h k (Nat.lt_succ_of_lt hk)
      rw [stateAt_succ]
      exact Channel.framed_next (r.consistent hn) (h n (Nat.lt_succ_self n)) (ih hn)

/-! ### What must happen -/

variable {r}

/-- The firmware begins an access again and again. -/
def Runs (r : ChannelRun σ cmdDepth replyDepth) : Prop := ∀ n, ∃ m, n ≤ m ∧ (r.x m).go = true

/-- As long as no packet ends and no poll is in vain, the firmware comes nearer; so this cannot last. -/
theorem not_falling (hok : ∀ n, r.AccessesOk n) (hgo : r.Runs) (n : Nat)
    (hne : ∀ m, n ≤ m → (r.stateAt m).loop.pc = .poll → (r.stateAt m).h2fC0.store ≠ [])
    (hp : ∀ m, n ≤ m → (r.stateAt m).packet (r.x m) = none) : False := by
  have hstep : ∀ j, (r.stateAt (n + j + 1)).distance ≤ (r.stateAt (n + j)).distance ∧
      ((r.x (n + j)).go = true → (r.stateAt (n + j + 1)).distance < (r.stateAt (n + j)).distance) := by
    intro j
    have hle : n ≤ n + j := Nat.le_add_right n j
    exact Channel.distance_next (r.consistent (hok (n + j))) (hne _ hle) (hp _ hle)
  have hb : ∀ j, ∃ j', j ≤ j' ∧ (r.x (n + j')).go = true := by
    intro j
    obtain ⟨m, hm, hgo⟩ := hgo (n + j)
    obtain ⟨k, rfl⟩ := Nat.exists_eq_add_of_le hm
    exact ⟨j + k, Nat.le_add_right j k, by rw [← Nat.add_assoc]; exact hgo⟩
  obtain ⟨_, _, h⟩ := eventually_of_falls (v := fun j => (r.stateAt (n + j)).distance) (P := fun _ => False) hb
    (fun j _ => (hstep j).1) (fun j _ => (hstep j).2) 0
  exact h

/-- What whole packets hold. -/
theorem length_flatten {ps : List (List Word)} (h : ∀ p ∈ ps, p.length = packetWords) :
    ps.flatten.length = packetWords * ps.length := by
  induction ps with
  | nil => rfl
  | cons p ps ih =>
      rw [List.flatten_cons, List.length_append, List.length_cons, Nat.mul_succ, Nat.add_comm,
        ih fun q hq => h q (List.mem_cons_of_mem p hq), h p List.mem_cons_self]

/-- When more words have arrived than the processed packets hold, a packet follows. -/
theorem packet_follows (hok : ∀ n, r.AccessesOk n) (hgo : r.Runs) {n : Nat}
    (h : packetWords * (r.packets n).length < (r.arrived n).length) :
    ∃ m, n ≤ m ∧ (r.packets n).length < (r.packets m).length := by
  by_contra hno
  have hsame : ∀ m, n ≤ m → (r.packets m).length = (r.packets n).length := by
    intro m hm
    have hle : (r.packets n).length ≤ (r.packets m).length := words_length_mono _ hm
    exact Nat.le_antisymm (Nat.le_of_not_lt fun hlt => hno ⟨m, hm, hlt⟩) hle
  refine not_falling hok hgo n (fun m hm hpoll hnil => ?_) fun m hm => ?_
  · have hframed := (r.framed (hok m)).arrived
    have hcur : (r.stateAt m).current = [] := by rw [Channel.current, hpoll]
    rw [hcur, hnil, List.append_nil, List.append_nil] at hframed
    have hlen : (r.arrived m).length = packetWords * (r.packets n).length := by
      rw [hframed, length_flatten (r.framed (hok m)).whole, hsame m hm]
    have hmono : (r.arrived n).length ≤ (r.arrived m).length := words_length_mono _ hm
    omega
  · cases hp : (r.stateAt m).packet (r.x m) with
    | none => rfl
    | some p =>
        have hsucc : r.packets (m + 1) = r.packets m ++ [p] := words_succ_of_some hp
        have h1 := hsame (m + 1) (Nat.le_succ_of_le hm)
        rw [hsucc, List.length_append, hsame m hm] at h1
        simp at h1

theorem packets_reach (hok : ∀ n, r.AccessesOk n) (hgo : r.Runs) {k n : Nat}
    (h : packetWords * k < (r.arrived n).length) : ∃ m, k < (r.packets m).length := by
  induction hd : k + 1 - (r.packets n).length using Nat.strong_induction_on generalizing n with
  | _ d ih =>
      by_cases hk : k < (r.packets n).length
      · exact ⟨n, hk⟩
      · have hlt : packetWords * (r.packets n).length < (r.arrived n).length :=
          Nat.lt_of_le_of_lt (Nat.mul_le_mul_left _ (Nat.le_of_not_lt hk)) h
        obtain ⟨m, hm, hmore⟩ := packet_follows hok hgo hlt
        have hmono : (r.arrived n).length ≤ (r.arrived m).length := words_length_mono _ hm
        exact ih _ (by omega) (Nat.lt_of_lt_of_le h hmono) rfl

theorem length_of_mem_replies {n : Nat} {q : List Word} (h : q ∈ r.replies n) : q.length = packetWords :=
  r.sw.length_of_mem_answers h

theorem replies_length (n : Nat) : (r.replies n).length = (r.packets n).length := r.sw.answers_length _ _

/-- The reply to a processed packet gets into the reply FIFO as a whole. -/
theorem written_reach (hok : ∀ n, r.AccessesOk n) (hgo : r.Runs) {k n : Nat} (h : k < (r.packets n).length) :
    ∃ m, packetWords * (k + 1) ≤ (r.written m).length := by
  by_contra hno
  have hpending : ∀ m, n ≤ m → ∃ ws, (r.stateAt m).loop.pc = .reply ws := by
    intro m hm
    have hframed := congrArg List.length (r.framed (hok m)).replies
    have hmono : (r.packets n).length ≤ (r.packets m).length := words_length_mono _ hm
    have hmul : packetWords * (k + 1) ≤ packetWords * (r.packets m).length :=
      Nat.mul_le_mul_left _ (Nat.le_trans h hmono)
    have hlen : (r.replies m).flatten.length = packetWords * (r.packets m).length := by
      rw [length_flatten fun q hq => length_of_mem_replies hq, replies_length]
    have hwr : (r.written m).length < packetWords * (k + 1) := Nat.lt_of_not_le fun hle => hno ⟨m, hle⟩
    rw [List.length_append] at hframed
    rw [replies] at hlen
    have hpos : (r.stateAt m).pending ≠ [] := by
      intro hnil
      rw [hnil, hlen, List.length_nil] at hframed
      omega
    cases hpc : (r.stateAt m).loop.pc with
    | reply ws => exact ⟨ws, rfl⟩
    | poll | rstOn | rstOff | getFifoData buf => simp [Channel.pending, hpc] at hpos
  refine not_falling hok hgo n (fun m hm hpoll => ?_) fun m hm => ?_
  · obtain ⟨ws, hws⟩ := hpending m hm
    rw [hws] at hpoll
    cases hpoll
  · obtain ⟨ws, hws⟩ := hpending m hm
    rw [Channel.packet, hws]

end ChannelRun

end Nios

end LimeSdrQpcie
