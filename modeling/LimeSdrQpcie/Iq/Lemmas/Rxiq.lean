import LimeSdrQpcie.Iq.Rxiq

/-!
# The captures of the receive side

What each capture writes for a stream of halves, counted in the cycles since its reset was released. Cycle `0`
still brings zeros; from cycle `1` on there is a pair of samples in every cycle, and the first of them is not
seen, because a frame bit has to be there before it can change or stay.
-/

namespace LimeSdrQpcie

open Hdl

/-- The word of two captured cycles. -/
def capWord (a b : RxDiq) : BitVec 48 := fifoWord a.diqL.smpl a.diqH.smpl b.diqL.smpl b.diqH.smpl

namespace DiqCap

@[simp] theorem next_cap (s : DiqCap) (en : Bool) (i : RxDiq) : (s.next en i).cap = en := by
  cases en <;> rfl

end DiqCap

/-! ## Pairs of one channel -/

/-- The captures of a channel that is alone: which of the two comes next, and what they hold. -/
inductive PairState where
  | idle
  | first
  | second
  deriving DecidableEq

structure PairCap where
  state : PairState
  cap0 : DiqCap
  cap1 : DiqCap

/-- A cycle as the captures of one channel see it: whether the frame bits are valid, and whether the frame is one
of the channel. -/
structure PairCapIn where
  valid : Bool
  hit : Bool
  diq : RxDiq

namespace PairCap

def reset : PairCap := ⟨.idle, DiqCap.reset, DiqCap.reset⟩

def next (s : PairCap) (i : PairCapIn) : PairCap :=
  { state :=
      match s.state with
      | .idle => if i.valid then .first else .idle
      | .first => if s.cap0.cap then .second else .first
      | .second => if i.valid then (if s.cap1.cap then .first else .second) else .idle
    cap0 := s.cap0.next (i.hit && i.valid && decide (s.state = .first)) i.diq
    cap1 := s.cap1.next (i.hit && i.valid && decide (s.state = .second)) i.diq }

def circuit : Circuit PairCap PairCapIn := ⟨reset, next⟩

theorem run_succ (z : Nat → PairCapIn) (n : Nat) : circuit.run z (n + 1) = (circuit.run z n).next (z n) := rfl

/-- The channel waits for the first of two frames. -/
structure Ready (s : PairCap) : Prop where
  state : s.state = .first
  cap0 : s.cap0.cap = false
  cap1 : s.cap1.cap = false

variable {z : Nat → PairCapIn} {n : Nat}

/-- The four cycles of a pair, with a frame of the channel in the first and in the third one. -/
theorem ready_run (hv : ∀ k, n ≤ k → (z k).valid = true) (h : Ready (circuit.run z n)) (h0 : (z n).hit = true)
    (h1 : (z (n + 1)).hit = false) (h2 : (z (n + 2)).hit = true) (h3 : (z (n + 3)).hit = false) :
    Ready (circuit.run z (n + 4)) ∧ (circuit.run z (n + 1)).cap1.cap = false ∧
      (circuit.run z (n + 2)).cap1.cap = false ∧
      (circuit.run z (n + 3)).cap1 = ⟨(z (n + 2)).diq.diqL.smpl, (z (n + 2)).diq.diqH.smpl, true⟩ ∧
      (circuit.run z (n + 3)).cap0.posL = (z n).diq.diqL.smpl ∧
      (circuit.run z (n + 3)).cap0.posH = (z n).diq.diqH.smpl := by
  have r1 : circuit.run z (n + 1) =
      ⟨.first, ⟨(z n).diq.diqL.smpl, (z n).diq.diqH.smpl, true⟩, { (circuit.run z n).cap1 with cap := false }⟩ := by
    rw [run_succ]
    simp [next, h.state, h.cap0, h0, hv n (Nat.le_refl n), DiqCap.next]
  have r2 : circuit.run z (n + 2) =
      ⟨.second, ⟨(z n).diq.diqL.smpl, (z n).diq.diqH.smpl, false⟩,
        { (circuit.run z n).cap1 with cap := false }⟩ := by
    rw [run_succ, r1]
    simp [next, h1, DiqCap.next]
  have r3 : circuit.run z (n + 3) =
      ⟨.second, ⟨(z n).diq.diqL.smpl, (z n).diq.diqH.smpl, false⟩,
        ⟨(z (n + 2)).diq.diqL.smpl, (z (n + 2)).diq.diqH.smpl, true⟩⟩ := by
    rw [run_succ, r2]
    simp [next, h2, hv (n + 2) (Nat.le_add_right n 2), DiqCap.next]
  have r4 : Ready (circuit.run z (n + 4)) := by
    rw [run_succ, r3]
    constructor <;> simp [next, h3, hv (n + 3) (Nat.le_add_right n 3)]
  exact ⟨r4, by rw [r1], by rw [r2], by rw [r3], by rw [r3], by rw [r3]⟩

/-- The words of the channel, as a port. -/
def data (s : PairCap) : Port (BitVec 48) := ⟨s.cap1.cap, fifoWord s.cap0.posL s.cap0.posH s.cap1.posL s.cap1.posH⟩

/-- From a cycle on in which the channel is ready two successive frames of it make a word. -/
theorem data_paced {a : Nat} (hv : ∀ k, a ≤ k → (z k).valid = true) (hr : Ready (circuit.run z a))
    (hit : ∀ k, (z (a + k)).hit = decide (k % 2 = 0)) :
    Paced (fun n => (circuit.run z (a + 1 + n)).data.word) 2 4
      (fun k => capWord (z (a + 4 * k)).diq (z (a + 4 * k + 2)).diq) := by
  have hstep : ∀ k, Ready (circuit.run z (a + 4 * k)) → _ := fun k h =>
    ready_run (fun j hj => hv j (by omega)) h (by rw [hit]; exact decide_eq_true (by omega))
      (by rw [Nat.add_assoc, hit]; exact decide_eq_false (by omega))
      (by rw [Nat.add_assoc, hit]; exact decide_eq_true (by omega))
      (by rw [Nat.add_assoc, hit]; exact decide_eq_false (by omega))
  have hready : ∀ k, Ready (circuit.run z (a + 4 * k)) := by
    intro k
    induction k with
    | zero => exact hr
    | succ k ih => exact (hstep k ih).1
  refine Paced.of_cycles (Nat.succ_pos 3) (fun n hn => ?_) (fun k => ?_) (fun k j h0 hj => ?_)
  · rw [Port.word_eq_none]
    rcases (show n = 0 ∨ n = 1 by omega) with rfl | rfl
    · exact (hstep 0 hr).2.1
    · exact (hstep 0 hr).2.2.1
  · obtain ⟨_, _, _, hc1, hl, hh⟩ := hstep k (hready k)
    rw [Port.word_eq_some, show a + 1 + (2 + 4 * k) = a + 4 * k + 3 by omega]
    exact ⟨by simp only [data, hc1], by simp only [data, hc1, hl, hh, capWord]⟩
  · rw [Port.word_eq_none]
    rcases (show j = 1 ∨ j = 2 ∨ j = 3 by omega) with rfl | rfl | rfl
    · rw [show a + 1 + (2 + 4 * k + 1) = a + 4 * (k + 1) by omega]
      exact (hready (k + 1)).cap1
    · rw [show a + 1 + (2 + 4 * k + 2) = a + 4 * (k + 1) + 1 by omega]
      exact (hstep (k + 1) (hready (k + 1))).2.1
    · rw [show a + 1 + (2 + 4 * k + 3) = a + 4 * (k + 1) + 2 by omega]
      exact (hstep (k + 1) (hready (k + 1))).2.2.1

/-- A channel keeps its reset values until a frame is valid. -/
theorem run_reset {v : Nat} (hv : ∀ k < v, (z k).valid = false) : ∀ k ≤ v, circuit.run z k = reset
  | 0, _ => rfl
  | k + 1, hk => by
      rw [run_succ, run_reset hv k (Nat.le_of_succ_le hk)]
      simp [next, reset, hv k hk, DiqCap.reset, DiqCap.next]

/-- The channel is ready behind the first cycle that is valid. -/
theorem ready_first {v : Nat} (hv : ∀ k < v, (z k).valid = false) (hvalid : (z v).valid = true) :
    Ready (circuit.run z (v + 1)) ∧ ∀ k ≤ v + 1, (circuit.run z k).cap1.cap = false := by
  have hr : circuit.run z (v + 1) = ⟨.first, DiqCap.reset, DiqCap.reset⟩ := by
    rw [run_succ, run_reset hv v (Nat.le_refl v)]
    simp [next, reset, hvalid, DiqCap.reset, DiqCap.next]
  refine ⟨by rw [hr]; exact ⟨rfl, rfl, rfl⟩, fun k hk => ?_⟩
  rcases Nat.lt_or_eq_of_le hk with hlt | rfl
  · rw [run_reset hv k (Nat.le_of_lt_succ hlt)]
    rfl
  · rw [hr]
    rfl

theorem Ready.next_of_miss {s : PairCap} {i : PairCapIn} (h : Ready s) (hi : i.hit = false) : Ready (s.next i) := by
  constructor <;> simp [next, h.state, h.cap0, hi]

/-- Whatever the captures hold, the channel is ready in the second or the fourth cycle after a frame of it. -/
theorem ready_after (hv : ∀ k, n ≤ k → (z k).valid = true) (h0 : (z n).hit = true) (h1 : (z (n + 1)).hit = false)
    (h2 : (z (n + 2)).hit = true) (h3 : (z (n + 3)).hit = false) :
    Ready (circuit.run z (n + 2)) ∨ Ready (circuit.run z (n + 4)) := by
  have hv0 := hv n (Nat.le_refl n)
  have hv1 := hv (n + 1) (Nat.le_add_right n 1)
  have hv2 := hv (n + 2) (Nat.le_add_right n 2)
  have hv3 := hv (n + 3) (Nat.le_add_right n 3)
  have hmiss : ∀ k, (z k).hit = false → (circuit.run z (k + 1)).cap0.cap = false ∧
      (circuit.run z (k + 1)).cap1.cap = false := fun k hk => by
    rw [run_succ]
    simp [next, hk]
  cases hs : (circuit.run z n).state with
  | idle =>
      refine .inl ⟨?_, (hmiss _ h1).1, (hmiss _ h1).2⟩
      rw [run_succ, run_succ]
      simp [next, hs, hv0]
  | second =>
      refine .inl ⟨?_, (hmiss _ h1).1, (hmiss _ h1).2⟩
      rw [run_succ, run_succ]
      cases hc : (circuit.run z n).cap1.cap <;> simp [next, hs, hc, hv0, hv1, h0]
  | first =>
      -- the frame is taken for the first of a pair, which may be the second time it is the first
      have r2 : (circuit.run z (n + 2)).state = .second := by
        rw [run_succ, run_succ]
        cases hc : (circuit.run z n).cap0.cap <;> simp [next, hs, hc, hv0, hv1, h0]
      refine .inr ⟨?_, (hmiss _ h3).1, (hmiss _ h3).2⟩
      rw [run_succ, run_succ]
      simp [next, r2, (hmiss _ h1).2, hv2, hv3, h2]

end PairCap

/-! ## rxiq_mimo_ddr and rxiq_pulse_ddr -/

/-- The halves of the cycle before, zero in cycle `0`. -/
def halvesBefore (y : Nat → RxDiq) : Nat → RxDiq
  | 0 => ⟨Diq.zero, Diq.zero⟩
  | n + 1 => y n

/-- The frame bits of a stream of halves as a capture of two channels takes them: valid from cycle `2` on, the
frames of the second channel in the even cycles. -/
structure TwoFrames (kind : RxiqDdrKind) (y : Nat → RxDiq) : Prop where
  valid : ∀ n, kind.diqValid (halvesBefore y n).diqH.fsync (halvesBefore y n).diqL.fsync (y n).diqH.fsync
    (y n).diqL.fsync = decide (2 ≤ n)
  frame : ∀ n, 1 ≤ n → (y n).diqL.fsync = decide (n % 2 = 0)
  chB1 : ∀ n, 1 ≤ n → (kind.chB1Half (y n)).fsync = decide (n % 2 = 0)

/-- Whether the frame bits of a cycle are valid beside those of the cycle before. -/
def validAt (kind : RxiqDdrKind) (y : Nat → RxDiq) (n : Nat) : Bool :=
  kind.diqValid (halvesBefore y n).diqH.fsync (halvesBefore y n).diqL.fsync (y n).diqH.fsync (y n).diqL.fsync

/-- Whether the frame of a cycle is one of the second channel. -/
def IqMode.secondFrame (m : IqMode) (i : RxDiq) : Bool := i.diqL.fsync ^^ m.fidm

/-- Both halves of a valid cycle name the same channel. -/
def OneFrame (kind : RxiqDdrKind) (y : Nat → RxDiq) : Prop :=
  ∀ n, validAt kind y n = true → (kind.chB1Half (y n)).fsync = (y n).diqL.fsync

/-- From cycle `a` on every cycle is valid, and the frames change between the channels. -/
structure Frames (kind : RxiqDdrKind) (y : Nat → RxDiq) (a : Nat) : Prop where
  valid : ∀ n, a ≤ n → validAt kind y n = true
  alternate : ∀ n, a ≤ n → (y (n + 1)).diqL.fsync = !(y n).diqL.fsync

namespace Frames

variable {kind : RxiqDdrKind} {m : IqMode} {y : Nat → RxDiq} {a b : Nat}

theorem mono (h : Frames kind y a) (hab : a ≤ b) : Frames kind y b :=
  ⟨fun n hn => h.valid n (Nat.le_trans hab hn), fun n hn => h.alternate n (Nat.le_trans hab hn)⟩

theorem secondFrame_succ (h : Frames kind y a) (m : IqMode) {n : Nat} (hn : a ≤ n) :
    m.secondFrame (y (n + 1)) = !m.secondFrame (y n) := by
  unfold IqMode.secondFrame
  rw [h.alternate n hn, Bool.not_xor]

theorem secondFrame_add (h : Frames kind y a) (m : IqMode) (k : Nat) :
    m.secondFrame (y (a + k)) = (m.secondFrame (y a) ^^ decide (k % 2 = 1)) := by
  induction k with
  | zero => exact (Bool.xor_false _).symm
  | succ k ih =>
      rw [← Nat.add_assoc, h.secondFrame_succ m (Nat.le_add_right a k), ih, ← Bool.xor_not]
      congr 1
      rcases Nat.mod_two_eq_zero_or_one k with h0 | h1
      · rw [h0, show (k + 1) % 2 = 1 by omega]
        rfl
      · rw [h1, show (k + 1) % 2 = 0 by omega]
        rfl

/-- Of two cycles one has a frame of the channel. -/
theorem exists_frame (h : Frames kind y a) (m : IqMode) (second : Bool) :
    ∃ n, a ≤ n ∧ n ≤ a + 1 ∧ m.secondFrame (y n) = second := by
  by_cases ha : m.secondFrame (y a) = second
  · exact ⟨a, Nat.le_refl a, Nat.le_succ a, ha⟩
  · refine ⟨a + 1, Nat.le_succ a, Nat.le_refl _, ?_⟩
    rw [h.secondFrame_succ m (Nat.le_refl a)]
    exact (Bool.eq_not.mpr fun he => ha he.symm).symm

end Frames

theorem TwoFrames.frames {kind : RxiqDdrKind} {y : Nat → RxDiq} (h : TwoFrames kind y) : Frames kind y 2 := by
  refine ⟨fun n hn => (h.valid n).trans (decide_eq_true hn), fun n hn => ?_⟩
  rw [h.frame n (Nat.le_of_succ_le hn), h.frame (n + 1) (Nat.le_add_left 1 n)]
  rcases Nat.mod_two_eq_zero_or_one n with h0 | h1
  · rw [h0, show (n + 1) % 2 = 1 by omega]
    rfl
  · rw [h1, show (n + 1) % 2 = 0 by omega]
    rfl

theorem TwoFrames.oneFrame {kind : RxiqDdrKind} {y : Nat → RxDiq} (h : TwoFrames kind y) : OneFrame kind y := by
  intro n hn
  have h2 : 2 ≤ n := of_decide_eq_true ((h.valid n).symm.trans hn)
  rw [h.chB1 n (Nat.le_of_succ_le h2), h.frame n (Nat.le_of_succ_le h2)]

namespace RxiqDdr

variable {kind : RxiqDdrKind} {m : IqMode} {y : Nat → RxDiq}

theorem diqValid_run (kind : RxiqDdrKind) (m : IqMode) (y : Nat → RxDiq) (n : Nat) :
    ((circuit kind m).run y n).diqValid kind (y n) = validAt kind y n := by
  cases n with
  | zero => rfl
  | succ n => rfl

/-- The frames of the two channels, as the captures compare them. -/
theorem beq_fidm (m : IqMode) (i : RxDiq) :
    (i.diqL.fsync == m.fidm) = !m.secondFrame i ∧ (i.diqL.fsync == !m.fidm) = m.secondFrame i := by
  unfold IqMode.secondFrame
  cases i.diqL.fsync <;> cases m.fidm <;> exact ⟨rfl, rfl⟩

theorem chB1_hit (hone : OneFrame kind y) (m : IqMode) (n : Nat) (en : Bool) :
    ((kind.chB1Half (y n)).fsync == !m.fidm && validAt kind y n && en) =
      (m.secondFrame (y n) && validAt kind y n && en) := by
  cases hv : validAt kind y n with
  | false => simp only [Bool.and_false, Bool.false_and]
  | true => rw [hone n hv, (beq_fidm m (y n)).2]

/-- What the captures do in a cycle of a run. -/
theorem next_run (hone : OneFrame kind y) (n : Nat) :
    let s := (circuit kind m).run y n
    (circuit kind m).run y (n + 1) =
      { regH0 := (y n).diqH
        regL0 := (y n).diqL
        currentState := s.nextState m.chEn (validAt kind y n)
        chA0 := s.chA0.next (!m.secondFrame (y n) && validAt kind y n && s.chA0CapEn m.chEn) (y n)
        chA1 := s.chA1.next (!m.secondFrame (y n) && validAt kind y n && s.chA1CapEn) (y n)
        chB0 := s.chB0.next (m.secondFrame (y n) && validAt kind y n && s.chB0CapEn m.chEn) (y n)
        chB1 := s.chB1.next (m.secondFrame (y n) && validAt kind y n && s.chB1CapEn) (y n)
        fifoWrReg := s.muxFifoWr m.chEn } := by
  intro s
  have hv : s.diqValid kind (y n) = validAt kind y n := diqValid_run kind m y n
  rw [Circuit.run_succ]
  show s.next kind m (y n) = _
  rw [next, hv, (beq_fidm m (y n)).1, (beq_fidm m (y n)).2, chB1_hit hone]

theorem fifoWrReg_run (kind : RxiqDdrKind) (m : IqMode) (y : Nat → RxDiq) (n : Nat) :
    ((circuit kind m).run y (n + 1)).fifoWrReg = ((circuit kind m).run y n).muxFifoWr m.chEn := rfl

/-! ### One channel -/

/-- `ch_en` when only the second channel is on, or only the first one. -/
def chEnOf (second : Bool) : BitVec 2 := if second then 0b10 else 0b01

def stateOf : Bool → PairState → RxiqState
  | _, .idle => .idle
  | false, .first => .chA0Cap
  | false, .second => .chA1Cap
  | true, .first => .chB0Cap
  | true, .second => .chB1Cap

/-- One channel alone does what the captures of a pair do. -/
structure Alone (second : Bool) (s : RxiqDdr) (p : PairCap) : Prop where
  state : s.currentState = stateOf second p.state
  cap0 : (if second then s.chB0 else s.chA0) = p.cap0
  cap1 : (if second then s.chB1 else s.chA1) = p.cap1

/-- A cycle of a stream as the captures of one channel see it. -/
def channelIn (kind : RxiqDdrKind) (m : IqMode) (second : Bool) (y : Nat → RxDiq) (n : Nat) : PairCapIn :=
  ⟨validAt kind y n, m.secondFrame (y n) == second, y n⟩

namespace Alone

variable {second : Bool} {s : RxiqDdr} {p : PairCap}

theorem nextState (h : Alone second s p) (i : PairCapIn) :
    s.nextState (chEnOf second) i.valid = stateOf second (p.next i).state := by
  obtain ⟨hs, h0, h1⟩ := h
  cases second with
  | false =>
      rw [RxiqDdr.nextState, hs, show s.chA0 = p.cap0 from h0, show s.chA1 = p.cap1 from h1]
      cases hp : p.state with
      | idle => cases hv : i.valid <;> simp [stateOf, chEnOf, PairCap.next, hp, hv]
      | first => cases hc : p.cap0.cap <;> simp [stateOf, chEnOf, PairCap.next, hp, hc]
      | second => cases hv : i.valid <;> cases hc : p.cap1.cap <;> simp [stateOf, PairCap.next, hp, hv, hc]
  | true =>
      rw [RxiqDdr.nextState, hs, show s.chB0 = p.cap0 from h0, show s.chB1 = p.cap1 from h1]
      cases hp : p.state with
      | idle => cases hv : i.valid <;> simp [stateOf, chEnOf, PairCap.next, hp, hv]
      | first => cases hc : p.cap0.cap <;> simp [stateOf, chEnOf, PairCap.next, hp, hc]
      | second => cases hv : i.valid <;> cases hc : p.cap1.cap <;> simp [stateOf, PairCap.next, hp, hv, hc]

theorem capEn0 (h : Alone second s p) :
    (if second then s.chB0CapEn (chEnOf second) else s.chA0CapEn (chEnOf second)) = decide (p.state = .first) := by
  cases second <;> cases hp : p.state <;> simp [chA0CapEn, chB0CapEn, chEnOf, h.state, stateOf, hp]

theorem capEn1 (h : Alone second s p) :
    (if second then s.chB1CapEn else s.chA1CapEn) = decide (p.state = .second) := by
  cases second <;> cases hp : p.state <;> simp [chA1CapEn, chB1CapEn, h.state, stateOf, hp]

theorem muxFifoWr (h : Alone second s p) : s.muxFifoWr (chEnOf second) = p.data := by
  obtain ⟨_, h0, h1⟩ := h
  cases second with
  | false =>
      show s.chAData = p.data
      rw [chAData, show s.chA0 = p.cap0 from h0, show s.chA1 = p.cap1 from h1]
      rfl
  | true =>
      show s.chBData = p.data
      rw [chBData, show s.chB0 = p.cap0 from h0, show s.chB1 = p.cap1 from h1]
      rfl

end Alone

theorem alone_run {second : Bool} (hch : m.chEn = chEnOf second) (hone : OneFrame kind y) :
    ∀ n, Alone second ((circuit kind m).run y n) (PairCap.circuit.run (channelIn kind m second y) n) := by
  refine Circuit.run_rel y (channelIn kind m second y) (by cases second <;> exact ⟨rfl, rfl, rfl⟩) fun n hn => ?_
  rw [← Circuit.run_succ, ← PairCap.circuit.run_succ, next_run hone, PairCap.run_succ, hch]
  have hen0 := hn.capEn0
  have hen1 := hn.capEn1
  have hhit : (channelIn kind m second y n).hit = if second then m.secondFrame (y n) else !m.secondFrame (y n) := by
    cases second with
    | false => exact beq_false _
    | true => exact beq_true _
  refine ⟨hn.nextState (channelIn kind m second y n), ?_, ?_⟩
  · cases second with
    | false => rw [PairCap.next, hhit]; exact congrArg₂ (fun c en => DiqCap.next c (_ && en) (y n)) hn.cap0 hen0
    | true => rw [PairCap.next, hhit]; exact congrArg₂ (fun c en => DiqCap.next c (_ && en) (y n)) hn.cap0 hen0
  · cases second with
    | false => rw [PairCap.next, hhit]; exact congrArg₂ (fun c en => DiqCap.next c (_ && en) (y n)) hn.cap1 hen1
    | true => rw [PairCap.next, hhit]; exact congrArg₂ (fun c en => DiqCap.next c (_ && en) (y n)) hn.cap1 hen1

/-- The output register shows the words of a channel a cycle later. -/
theorem alone_word {second : Bool} (hch : m.chEn = chEnOf second) (hone : OneFrame kind y) (n : Nat) :
    ((circuit kind m).run y (n + 1)).fifoWrReg.word =
      (PairCap.circuit.run (channelIn kind m second y) n).data.word := by
  rw [fifoWrReg_run, hch, (alone_run hch hone n).muxFifoWr]

theorem channelIn_hit {second : Bool} {a : Nat} (hf : Frames kind y a) (ha : m.secondFrame (y a) = second) (k : Nat) :
    (channelIn kind m second y (a + k)).hit = decide (k % 2 = 0) := by
  change (m.secondFrame (y (a + k)) == second) = _
  rw [hf.secondFrame_add m k, ha]
  rcases Nat.mod_two_eq_zero_or_one k with h0 | h1
  · rw [h0]
    cases second <;> rfl
  · rw [h1]
    cases second <;> rfl

/-- Whatever came before, the channel is ready for one of its frames soon after the frames have become valid. It has
made no word until then when nothing was valid before. -/
theorem alone_sync {second : Bool} {v : Nat} (hf : Frames kind y v) :
    ∃ c, v ≤ c ∧ c ≤ v + 5 ∧ m.secondFrame (y c) = second ∧
      PairCap.Ready (PairCap.circuit.run (channelIn kind m second y) c) ∧
      ((∀ k < v, validAt kind y k = false) →
        ∀ k ≤ c, (PairCap.circuit.run (channelIn kind m second y) k).cap1.cap = false) := by
  by_cases hlow : ∀ k < v, validAt kind y k = false
  · have hr := PairCap.ready_first (z := channelIn kind m second y) hlow (hf.valid v (Nat.le_refl v))
    by_cases hc : m.secondFrame (y (v + 1)) = second
    · exact ⟨v + 1, Nat.le_succ v, by omega, hc, hr.1, fun _ => hr.2⟩
    · have hmiss : (channelIn kind m second y (v + 1)).hit = false := beq_eq_false_iff_ne.mpr hc
      have hr2 := hr.1.next_of_miss hmiss
      refine ⟨v + 2, by omega, by omega, ?_, hr2, fun _ k hk => ?_⟩
      · rw [hf.secondFrame_succ m (Nat.le_succ v)]
        exact (Bool.eq_not.mpr fun he => hc he.symm).symm
      · rcases Nat.lt_or_eq_of_le hk with hlt | rfl
        · exact hr.2 k (Nat.le_of_lt_succ hlt)
        · exact hr2.cap1
  · obtain ⟨n, hvn, hnv, hn⟩ := hf.exists_frame m second
    have hfn := hf.mono hvn
    have hit := channelIn_hit hfn hn
    have hframe : ∀ k, k % 2 = 0 → m.secondFrame (y (n + k)) = second := fun k hk =>
      beq_iff_eq.mp ((hit k).trans (decide_eq_true hk))
    rcases PairCap.ready_after (z := channelIn kind m second y) hfn.valid (hit 0) (hit 1) (hit 2) (hit 3) with hr | hr
    · exact ⟨n + 2, by omega, by omega, hframe 2 rfl, hr, fun h => absurd h hlow⟩
    · exact ⟨n + 4, by omega, by omega, hframe 4 rfl, hr, fun h => absurd h hlow⟩

/-- From a frame on for which the channel is ready. -/
theorem alone_paced {second : Bool} {c : Nat} (hch : m.chEn = chEnOf second) (hone : OneFrame kind y)
    (hf : Frames kind y c) (hc : m.secondFrame (y c) = second)
    (hr : PairCap.Ready (PairCap.circuit.run (channelIn kind m second y) c)) :
    Paced (fun n => ((circuit kind m).run y (c + 2 + n)).fifoWrReg.word) 2 4
      (fun k => capWord (y (c + 4 * k)) (y (c + 4 * k + 2))) := by
  have hp := PairCap.data_paced (z := channelIn kind m second y) hf.valid hr (channelIn_hit hf hc)
  have hw : ∀ n, ((circuit kind m).run y (c + 2 + n)).fifoWrReg.word =
      (PairCap.circuit.run (channelIn kind m second y) (c + 1 + n)).data.word := fun n => by
    rw [show c + 2 + n = c + 1 + n + 1 by omega, alone_word hch hone]
  simp only [hw]
  exact hp

/-- Nothing is written before the first pair of frames. -/
theorem alone_quiet {second : Bool} {c : Nat} (hch : m.chEn = chEnOf second) (hone : OneFrame kind y)
    (hcap : ∀ k ≤ c, (PairCap.circuit.run (channelIn kind m second y) k).cap1.cap = false) :
    ∀ n < c + 2, ((circuit kind m).run y n).fifoWrReg.word = none
  | 0, _ => rfl
  | n + 1, hn => by
      rw [alone_word hch hone, Port.word_eq_none]
      exact hcap n (by omega)

/-! ### Both channels -/

/-- With both channels every frame of the first one is captured, and one of the second one behind it or when the
machine waits for it. -/
theorem both_run (hch : m.chEn = 0b11) (hone : OneFrame kind y) (n : Nat) :
    let s := (circuit kind m).run y n
    ((circuit kind m).run y (n + 1)).chA0 = s.chA0.next (!m.secondFrame (y n) && validAt kind y n) (y n) ∧
      ((circuit kind m).run y (n + 1)).chB0 = s.chB0.next (m.secondFrame (y n) && validAt kind y n &&
        decide (s.currentState = .chB0Cap ∨ s.chA0.cap = true)) (y n) := by
  intro s
  rw [next_run hone n]
  constructor
  · simp [chA0CapEn, hch, s]
  · simp [chB0CapEn, hch, s]

theorem both_word (hch : m.chEn = 0b11) (n : Nat) :
    ((circuit kind m).run y (n + 1)).fifoWrReg = chABData ((circuit kind m).run y n) := by
  rw [fifoWrReg_run, muxFifoWr, hch, if_pos rfl]

/-- A frame of the first channel and the one of the second channel behind it. -/
theorem both_pair (hch : m.chEn = 0b11) (hone : OneFrame kind y) {n : Nat} (hf : Frames kind y n)
    (hn : m.secondFrame (y n) = false) :
    ((circuit kind m).run y (n + 1)).chB0.cap = false ∧
      chABData ((circuit kind m).run y (n + 2)) = ⟨true, capWord (y n) (y (n + 1))⟩ := by
  have hv := hf.valid n (Nat.le_refl n)
  have hv' := hf.valid (n + 1) (Nat.le_succ n)
  have hn' : m.secondFrame (y (n + 1)) = true := by rw [hf.secondFrame_succ m (Nat.le_refl n), hn]; rfl
  have hA : ((circuit kind m).run y (n + 1)).chA0 = ⟨(y n).diqL.smpl, (y n).diqH.smpl, true⟩ := by
    rw [(both_run hch hone n).1, hn, hv]
    rfl
  have hA' : ((circuit kind m).run y (n + 2)).chA0 = ⟨(y n).diqL.smpl, (y n).diqH.smpl, false⟩ := by
    rw [(both_run hch hone (n + 1)).1, hn', hA]
    rfl
  have hB : ((circuit kind m).run y (n + 2)).chB0 =
      ⟨(y (n + 1)).diqL.smpl, (y (n + 1)).diqH.smpl, true⟩ := by
    rw [(both_run hch hone (n + 1)).2, hn', hv', hA, decide_eq_true (.inr rfl)]
    rfl
  constructor
  · rw [(both_run hch hone n).2, hn, DiqCap.next_cap]
    rfl
  · rw [chABData, hA', hB]
    rfl

/-- From a frame of the first channel on. -/
theorem both_paced {c : Nat} (hch : m.chEn = 0b11) (hone : OneFrame kind y) (hf : Frames kind y c)
    (hc : m.secondFrame (y c) = false) :
    Paced (fun n => ((circuit kind m).run y (c + 2 + n)).fifoWrReg.word) 1 2
      (fun k => capWord (y (c + 2 * k)) (y (c + 2 * k + 1))) := by
  have hfirst : ∀ k, m.secondFrame (y (c + 2 * k)) = false := fun k => by
    rw [hf.secondFrame_add m, hc, show 2 * k % 2 = 0 by omega]
    rfl
  have hpair := fun k => both_pair hch hone (hf.mono (Nat.le_add_right c (2 * k))) (hfirst k)
  have hnone : ∀ k, ((circuit kind m).run y (c + 2 + 2 * k)).fifoWrReg.word = none := fun k => by
    rw [show c + 2 + 2 * k = c + 2 * k + 1 + 1 by omega, both_word hch, Port.word_eq_none]
    exact (hpair k).1
  refine Paced.of_cycles (Nat.succ_pos 1) (fun n hn => ?_) (fun k => ?_) (fun k j h0 hj => ?_)
  · rw [Nat.lt_one_iff.mp hn]
    exact hnone 0
  · rw [show c + 2 + (1 + 2 * k) = c + 2 * k + 2 + 1 by omega, both_word hch, (hpair k).2]
    rfl
  · rw [show c + 2 + (1 + 2 * k + j) = c + 2 + 2 * (k + 1) by omega]
    exact hnone (k + 1)

/-- Nothing is written before the first pair of frames, when the first frame of the first channel is in the first
cycle that is valid or in the one behind it. -/
theorem both_quiet {c v : Nat} (hch : m.chEn = 0b11) (hone : OneFrame kind y)
    (hv : ∀ k < v, validAt kind y k = false) (hcv : c ≤ v + 1) :
    ∀ n < c + 2, ((circuit kind m).run y n).fifoWrReg.word = none := by
  have hidle : ∀ k ≤ v, ((circuit kind m).run y k).currentState = .idle ∧
      ((circuit kind m).run y k).chA0.cap = false := by
    intro k hk
    induction k with
    | zero => exact ⟨rfl, rfl⟩
    | succ k ih =>
        have hs := (ih (Nat.le_of_succ_le hk)).1
        rw [next_run hone k, hv k hk]
        exact ⟨by rw [nextState, hs]; rfl, by rw [Bool.and_false, Bool.false_and, DiqCap.next_cap]⟩
  have hcap : ∀ k ≤ c, ((circuit kind m).run y k).chB0.cap = false := by
    intro k hk
    cases k with
    | zero => rfl
    | succ k =>
        rw [(both_run hch hone k).2, DiqCap.next_cap]
        by_cases hkv : k < v
        · rw [hv k hkv, Bool.and_false, Bool.false_and]
        · obtain ⟨hs, hA⟩ := hidle k (by omega)
          rw [hs, hA, decide_eq_false (by rintro (h | h) <;> cases h), Bool.and_false]
  intro n hn
  cases n with
  | zero => rfl
  | succ n =>
      rw [both_word hch, Port.word_eq_none]
      exact hcap n (by omega)

/-! ### Frames from cycle two on -/

section TwoFrames

theorem secondFrame_twoFrames (hm : m.fidm = false) (h : TwoFrames kind y) {n : Nat} (hn : 1 ≤ n) :
    m.secondFrame (y n) = decide (n % 2 = 0) := by
  rw [IqMode.secondFrame, hm, Bool.xor_false, h.frame n hn]

theorem chAB_twoFrames (hm : m.fidm = false) (hch : m.chEn = 0b11) (h : TwoFrames kind y) :
    Paced (fun n => ((circuit kind m).run y n).fifoWrReg.word) 6 2
      (fun k => capWord (y (3 + 2 * k)) (y (3 + 2 * k + 1))) := by
  have hp := both_paced hch h.oneFrame (h.frames.mono (Nat.le_succ 2)) (secondFrame_twoFrames hm h (Nat.le_add_left 1 2))
  have hq := both_quiet hch h.oneFrame (fun k hk => (h.valid k).trans (decide_eq_false (Nat.not_le.mpr hk)))
    (Nat.le_refl 3)
  exact hp.shift 5 hq fun n => by rw [Nat.add_comm n 5]

/-- The first frame that makes a pair is in cycle `3`, or in cycle `4` on the second channel. -/
theorem alone_twoFrames (hm : m.fidm = false) {second : Bool} (hch : m.chEn = chEnOf second) (h : TwoFrames kind y) :
    Paced (fun n => ((circuit kind m).run y n).fifoWrReg.word) (2 + (3 + second.toNat + 2)) 4
      (fun k => capWord (y (3 + second.toNat + 4 * k)) (y (3 + second.toNat + 4 * k + 2))) := by
  have h3 := PairCap.ready_first (z := channelIn kind m second y) (v := 2)
    (fun k hk => (h.valid k).trans (decide_eq_false (Nat.not_le.mpr hk))) (h.valid 2)
  have hready : PairCap.Ready (PairCap.circuit.run (channelIn kind m second y) (3 + second.toNat)) ∧
      ∀ k ≤ 3 + second.toNat, (PairCap.circuit.run (channelIn kind m second y) k).cap1.cap = false := by
    cases second with
    | false => exact h3
    | true =>
        have hmiss : (channelIn kind m true y 3).hit = false := by
          change (m.secondFrame (y 3) == true) = false
          rw [secondFrame_twoFrames hm h (Nat.le_add_left 1 2)]
          rfl
        have h4 := h3.1.next_of_miss hmiss
        refine ⟨h4, fun k hk => ?_⟩
        rcases Nat.lt_or_eq_of_le hk with hlt | rfl
        · exact h3.2 k (Nat.le_of_lt_succ hlt)
        · exact h4.cap1
  have hc : m.secondFrame (y (3 + second.toNat)) = second := by
    rw [secondFrame_twoFrames hm h (by omega)]
    cases second <;> rfl
  have hp := alone_paced hch h.oneFrame (h.frames.mono (by omega)) hc hready.1
  exact hp.shift (3 + second.toNat + 2) (alone_quiet hch h.oneFrame hready.2) fun n => by rw [Nat.add_comm n]

end TwoFrames

end RxiqDdr

/-! ## rxiq_siso_ddr -/

/-- The frame bits of a stream of halves as `rxiq_siso_ddr` takes them. -/
structure SteadyFrames (y : Nat → RxDiq) : Prop where
  lead : y 0 = ⟨Diq.zero, Diq.zero⟩
  frameH : ∀ n, (y (n + 1)).diqH.fsync = true
  frameL : ∀ n, (y (n + 1)).diqL.fsync = false

namespace RxiqSisoDdr

variable {m : IqMode} {y : Nat → RxDiq}

theorem diqValid_run (h : SteadyFrames y) (m : IqMode) (n : Nat) :
    ((circuit m).run y n).diqValid (y n) = decide (2 ≤ n) := by
  have hreg : ((circuit m).run y n).regH0 = (halvesBefore y n).diqH ∧
      ((circuit m).run y n).regL0 = (halvesBefore y n).diqL := by
    cases n with
    | zero => exact ⟨rfl, rfl⟩
    | succ n => exact ⟨rfl, rfl⟩
  rw [diqValid, hreg.1, hreg.2]
  match n with
  | 0 => rw [h.lead]; rfl
  | 1 => rw [halvesBefore, h.lead, h.frameH, h.frameL]; rfl
  | n + 2 => simp [halvesBefore, h.frameH, h.frameL]

theorem capEn_run (h : SteadyFrames y) : ∀ n,
    ((circuit m).run y n).pos01CapEn = (decide (n % 2 = 1) && decide (3 ≤ n))
  | 0 => rfl
  | n + 1 => by
      have ih := capEn_run h n
      have hv := diqValid_run h m n
      rw [Circuit.run_succ]
      show (if _ then _ else _) = _
      rw [hv, ih]
      by_cases h2 : 2 ≤ n
      · rcases Nat.mod_two_eq_zero_or_one n with he | ho
        · simp [h2, he, show (n + 1) % 2 = 1 by omega]
        · simp [h2, ho, show (n + 1) % 2 = 0 by omega, show 3 ≤ n by omega]
      · simp [h2, show ¬ 3 ≤ n by omega]

theorem pos_run (hm : m.fidm = false) (h : SteadyFrames y) (k : Nat) :
    ((circuit m).run y (2 + 2 * k + 2)).fifoData =
      ⟨true, capWord (y (2 + 2 * k)) (y (2 + 2 * k + 1))⟩ := by
  have hv1 := (diqValid_run h m (2 + 2 * k)).trans (decide_eq_true (by omega))
  have hv2 := (diqValid_run h m (2 + 2 * k + 1)).trans (decide_eq_true (by omega))
  have hc1 := capEn_run (m := m) h (2 + 2 * k)
  have hc2 := capEn_run (m := m) h (2 + 2 * k + 1)
  have hL1 : (y (2 + 2 * k)).diqL.fsync = false := by rw [show 2 + 2 * k = 1 + 2 * k + 1 by omega]; exact h.frameL _
  have hH1 : (y (2 + 2 * k)).diqH.fsync = true := by rw [show 2 + 2 * k = 1 + 2 * k + 1 by omega]; exact h.frameH _
  have hL2 := h.frameL (2 + 2 * k)
  have hH2 := h.frameH (2 + 2 * k)
  have e1 : (decide ((2 + 2 * k) % 2 = 1) && decide (3 ≤ 2 + 2 * k)) = false := by simp
  have e2 : (decide ((2 + 2 * k + 1) % 2 = 1) && decide (3 ≤ 2 + 2 * k + 1)) = true := by simp; omega
  rw [e1] at hc1
  rw [e2] at hc2
  have r1 : (circuit m).run y (2 + 2 * k + 1) = next m ((circuit m).run y (2 + 2 * k)) (y (2 + 2 * k)) := rfl
  have r2 : (circuit m).run y (2 + 2 * k + 2) = next m ((circuit m).run y (2 + 2 * k + 1)) (y (2 + 2 * k + 1)) := rfl
  rw [r2]
  simp only [next, fifoData, hv2, hc2, hL2, hH2, hm]
  rw [r1]
  simp [next, hv1, hc1, hL1, hH1, hm, capWord]

theorem paced (hm : m.fidm = false) (h : SteadyFrames y) :
    Paced (fun n => ((circuit m).run y n).fifoData.word) 4 2
      (fun k => capWord (y (2 + 2 * k)) (y (2 + 2 * k + 1))) := by
  have hvalid : ∀ n, ((circuit m).run y (n + 1)).fifoData.valid = (decide (n % 2 = 1) && decide (3 ≤ n)) :=
    capEn_run h
  refine Paced.of_cycles (Nat.succ_pos 1) (fun n hn => ?_) (fun k => ?_) (fun k j h0 hj => ?_)
  · rw [Port.word_eq_none]
    cases n with
    | zero => rfl
    | succ n => rw [hvalid, decide_eq_false (show ¬ 3 ≤ n by omega), Bool.and_false]
  · rw [show 4 + 2 * k = 2 + 2 * k + 2 by omega, pos_run hm h]
    rfl
  · rw [show 4 + 2 * k + j = 3 + 2 * k + j + 1 by omega, Port.word_eq_none, hvalid,
      decide_eq_false (show ¬ (3 + 2 * k + j) % 2 = 1 by omega), Bool.false_and]

end RxiqSisoDdr

end LimeSdrQpcie
