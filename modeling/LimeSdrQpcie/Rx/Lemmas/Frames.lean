import LimeSdrQpcie.Rx.Data2Packets

/-!
# The frames that `data2packets` sends

`data2packets` by itself, with a constant packet size and any input that keeps its contract. The two words
that stand in the second and third register are the ones that are still to be sent.
-/

namespace LimeSdrQpcie

open Hdl

namespace Data2Packets

/-- A word on the data input with the headers that stand beside it. -/
structure InputWord where
  hdr0 : BitVec 64
  hdr1 : BitVec 64
  data : BitVec 64
  deriving DecidableEq, Repr

namespace In

def word (i : In) : Option InputWord := i.pctData.word.map fun d => ⟨i.pctHdr0, i.pctHdr1, d⟩

end In

/-- A packet: the headers that stand beside its first word, then its words. -/
def frame : List InputWord → List (BitVec 64)
  | [] => []
  | d :: ds => d.hdr0 :: d.hdr1 :: d.data :: ds.map InputWord.data

/-- The input words cut into packets of `k` words, the last one perhaps incomplete. -/
def frames (k : Nat) (ins : List InputWord) : List (BitVec 64) :=
  (List.range ((ins.length + (k - 1)) / k)).flatMap fun p => frame ((ins.drop (k * p)).take k)

theorem frame_concat {ds : List InputWord} (h : 0 < ds.length) (d : InputWord) :
    frame (ds ++ [d]) = frame ds ++ [d.data] := by
  cases ds with
  | nil => exact absurd h (Nat.lt_irrefl 0)
  | cons e es => simp [frame]

theorem frames_of_lt {k : Nat} {ds : List InputWord} (h : ds.length < k) : frames k ds = frame ds := by
  cases ds with
  | nil => rw [frames, List.length_nil, Nat.zero_add, Nat.div_eq_of_lt (by omega)]; rfl
  | cons d ds =>
      have h1 : ((d :: ds).length + (k - 1)) / k = 1 := by
        rw [show (d :: ds).length + (k - 1) = k + ds.length by rw [List.length_cons]; omega,
          Nat.add_div_left _ (by omega), Nat.div_eq_of_lt (by rw [List.length_cons] at h; omega)]
      rw [frames, h1]
      simp [List.take_of_length_le (Nat.le_of_lt h)]

theorem frames_append {k : Nat} {pk : List InputWord} (hk : 0 < k) (h : pk.length = k) (ds : List InputWord) :
    frames k (pk ++ ds) = frame pk ++ frames k ds := by
  have h1 : ((pk ++ ds).length + (k - 1)) / k = (ds.length + (k - 1)) / k + 1 := by
    rw [List.length_append, h, Nat.add_assoc, Nat.add_div_left _ hk]
  rw [frames, h1, List.range_succ_eq_map, List.flatMap_cons, List.flatMap_map, frames]
  congr 1
  · rw [Nat.mul_zero, List.drop_zero, List.take_left' h]
  · congr 1
    funext p
    rw [Nat.mul_succ, Nat.add_comm, ← List.drop_drop, List.drop_left' h]

theorem frames_flatten {k : Nat} (hk : 0 < k) {pks : List (List InputWord)} (h : ∀ pk ∈ pks, pk.length = k)
    {ds : List InputWord} (hd : ds.length < k) :
    frames k (pks.flatten ++ ds) = pks.flatMap frame ++ frame ds := by
  induction pks with
  | nil => exact frames_of_lt hd
  | cons pk pks ih =>
      rw [List.flatten_cons, List.append_assoc, frames_append hk (h pk (by simp)),
        ih fun q hq => h q (by simp [hq]), List.flatMap_cons, List.append_assoc]

theorem frame_length {ds : List InputWord} (h : 0 < ds.length) : (frame ds).length = ds.length + 2 := by
  cases ds with
  | nil => exact absurd h (Nat.lt_irrefl 0)
  | cons d ds => simp [frame]

theorem frames_length {k : Nat} (hk : 0 < k) {pks : List (List InputWord)} (h : ∀ pk ∈ pks, pk.length = k) :
    (pks.flatMap frame).length = (k + 2) * pks.length := by
  induction pks with
  | nil => rfl
  | cons pk pks ih =>
      have hl : pk.length = k := h pk (by simp)
      rw [List.flatMap_cons, List.length_append, frame_length (by omega), hl,
        ih fun q hq => h q (by simp [hq]), List.length_cons, Nat.mul_succ, Nat.add_comm]

theorem flatten_length {k : Nat} {pks : List (List InputWord)} (h : ∀ pk ∈ pks, pk.length = k) :
    pks.flatten.length = k * pks.length := by
  induction pks with
  | nil => rfl
  | cons pk pks ih =>
      rw [List.flatten_cons, List.length_append, h pk (by simp), ih fun q hq => h q (by simp [hq]),
        List.length_cons, Nat.mul_succ, Nat.add_comm]

/-! ## The words accepted and the words sent -/

/-- `pks` are the packets accepted, `ds` the words of the packet begun, `out` the words sent, and `k` words
make a packet. -/
def SentAt (k : Nat) (s : Data2Packets) (pks : List (List InputWord)) (ds : List InputWord)
    (out : List (BitVec 64)) : Prop :=
  match s.currentState with
  | .idle => ds = [] ∧ s.pctDataWrCnt = 0 ∧ out = pks.flatMap frame
  | .s0 => 0 < ds.length ∧ ds.length + 2 ≤ k ∧ s.pctDataWrCnt = ds.length ∧ s.pctDataWrCntMax = k - 2 ∧
      out ++ [s.reg1, s.reg2] = pks.flatMap frame ++ frame ds
  | .s1 => ds.length + 1 = k ∧ out ++ [s.reg1, s.reg2] = pks.flatMap frame ++ frame ds
  | .s2 => ds = [] ∧ s.pctDataWrCnt = 0 ∧
      (s.pctEndCnt = 1 ∧ out ++ [s.reg1, s.reg2] = pks.flatMap frame ∨
        s.pctEndCnt = 0 ∧ out ++ [s.reg1] = pks.flatMap frame)
  | .s3 => False

/-- One clock edge accepts the word on the input and sends one word, or flushes one. -/
theorem sentAt_next {w k : Nat} (hk : 4 ≤ k) (hw : k + 2 < 2 ^ w) {s : Data2Packets} (i : In)
    (hc : s.currentState = .s2 → i.pctData.valid = false) {pks : List (List InputWord)} {ds : List InputWord}
    {out : List (BitVec 64)} (hp : ∀ pk ∈ pks, pk.length = k) (h : SentAt k s pks ds out) :
    ∃ pks' ds', (∀ pk ∈ pks', pk.length = k) ∧
      pks'.flatten ++ ds' = pks.flatten ++ ds ++ i.word.toList ∧
      SentAt k ((circuit w (k + 2)).next s i) pks' ds'
        (out ++ ((circuit w (k + 2)).next s i).pctQ.word.toList) := by
  have hmax : (k + 2 + 2 ^ w - 4) % 2 ^ w = k - 2 := by
    rw [show k + 2 + 2 ^ w - 4 = k - 2 + 2 ^ w by omega, Nat.add_mod_right, Nat.mod_eq_of_lt (by omega)]
  obtain ⟨hdr0, hdr1, valid, d⟩ := i
  cases hs : s.currentState with
  | idle =>
      simp only [SentAt, hs] at h
      obtain ⟨rfl, hcnt, rfl⟩ := h
      cases valid with
      | false => exact ⟨pks, [], hp, by simp [In.word],
          by simp [SentAt, circuit, next, nextState, hs, hcnt, pctQ]⟩
      | true =>
          refine ⟨pks, [⟨hdr0, hdr1, d⟩], hp, by simp [In.word], ?_⟩
          simp [SentAt, circuit, next, nextState, hs, hcnt, pctQ, hmax, frame,
            Nat.mod_eq_of_lt (show 1 < 2 ^ w by omega)]
          omega
  | s0 =>
      simp only [SentAt, hs] at h
      obtain ⟨hpos, hle, hcnt, hm, hout⟩ := h
      cases valid with
      | false => exact ⟨pks, ds, hp, by simp [In.word],
          by simp [SentAt, circuit, next, nextState, hs, hcnt, hmax, pctQ, hpos, hle, hout]⟩
      | true =>
          refine ⟨pks, ds ++ [⟨hdr0, hdr1, d⟩], hp, by simp [In.word], ?_⟩
          have hout' : out ++ [s.reg1] ++ [s.reg2, d] = pks.flatMap frame ++ frame (ds ++ [⟨hdr0, hdr1, d⟩]) := by
            rw [frame_concat hpos, ← List.append_assoc, ← hout]
            simp
          by_cases hlast : ds.length = k - 2
          · have hs1 : s.nextState true = .s1 := by simp [nextState, hs, hcnt, hm, hlast]
            simp only [SentAt, circuit, next, hs1]
            exact ⟨by simp; omega, by simpa [hs, pctQ] using hout'⟩
          · have hs0 : s.nextState true = .s0 := by simp [nextState, hs, hcnt, hm, hlast]
            simp only [SentAt, circuit, next, hs0]
            refine ⟨by simp, by simp; omega, ?_, hmax, by simpa [hs, pctQ] using hout'⟩
            simp [hs, hcnt, Nat.mod_eq_of_lt (show ds.length + 1 < 2 ^ w by omega)]
  | s1 =>
      simp only [SentAt, hs] at h
      obtain ⟨hlen, hout⟩ := h
      cases valid with
      | false => exact ⟨pks, ds, hp, by simp [In.word],
          by simp [SentAt, circuit, next, nextState, hs, pctQ, hlen, hout]⟩
      | true =>
          refine ⟨pks ++ [ds ++ [⟨hdr0, hdr1, d⟩]], [], ?_, by simp [In.word], ?_⟩
          · intro pk hpk
            rcases List.mem_append.mp hpk with hold | hnew
            · exact hp pk hold
            · rw [List.mem_singleton.mp hnew, List.length_append, List.length_singleton, hlen]
          · have hout' : out ++ [s.reg1] ++ [s.reg2, d] =
                pks.flatMap frame ++ frame (ds ++ [⟨hdr0, hdr1, d⟩]) := by
              rw [frame_concat (by omega), ← List.append_assoc, ← hout]
              simp
            simp only [SentAt, circuit, next, nextState, hs]
            refine ⟨trivial, by simp, Or.inl ⟨by simp, ?_⟩⟩
            simpa [pctQ] using hout'
  | s2 =>
      obtain rfl : valid = false := hc hs
      simp only [SentAt, hs] at h
      obtain ⟨rfl, hcnt, hend⟩ := h
      refine ⟨pks, [], hp, by simp [In.word], ?_⟩
      rcases hend with ⟨he, hout⟩ | ⟨he, hout⟩
      · simp [SentAt, circuit, next, nextState, hs, he, hcnt, pctQ, ← hout]
      · simp [SentAt, circuit, next, nextState, hs, he, hcnt, pctQ, ← hout]
  | s3 => simp only [SentAt, hs] at h

variable {w pctSize : Nat} {x : Nat → In}

/-- The packets accepted and the words sent in a run that keeps the contract of `pct_data_wrreq`. -/
theorem run_sentAt (hmin : 6 ≤ pctSize) (hmax : pctSize < 2 ^ w)
    (hc : ∀ n, ((circuit w pctSize).run x n).pctState (x n).pctData.valid = 0b11 → (x n).pctData.valid = false)
    (n : Nat) :
    ∃ pks ds, (∀ pk ∈ pks, pk.length = pctSize - 2) ∧ pks.flatten ++ ds = words (fun m => (x m).word) n ∧
      SentAt (pctSize - 2) ((circuit w pctSize).run x n) pks ds
        (words (fun m => ((circuit w pctSize).run x m).pctQ.word) (n + 1)) := by
  obtain ⟨k, rfl⟩ : ∃ k, pctSize = k + 2 := ⟨pctSize - 2, by omega⟩
  simp only [Nat.add_sub_cancel]
  induction n with
  | zero => exact ⟨[], [], by simp, rfl, by simp [SentAt, circuit, reset, words_succ, pctQ]⟩
  | succ n ih =>
      obtain ⟨pks, ds, hp, hin, hs⟩ := ih
      have hv : ((circuit w (k + 2)).run x n).currentState = .s2 → (x n).pctData.valid = false := fun h2 =>
        hc n (by simp [pctState, h2])
      obtain ⟨pks', ds', hp', hin', hs'⟩ := sentAt_next (by omega) (by omega) (x n) hv hp hs
      refine ⟨pks', ds', hp', ?_, ?_⟩
      · rw [hin', hin, words_succ]
      · rw [words_succ, Circuit.run_succ]
        exact hs'

theorem SentAt.length_lt {k : Nat} (hk : 4 ≤ k) {s : Data2Packets} {pks : List (List InputWord)}
    {ds : List InputWord} {out : List (BitVec 64)} (h : SentAt k s pks ds out) : ds.length < k := by
  cases hs : s.currentState with
  | idle => simp only [SentAt, hs] at h; simp [h.1]; omega
  | s0 => simp only [SentAt, hs] at h; omega
  | s1 => simp only [SentAt, hs] at h; omega
  | s2 => simp only [SentAt, hs] at h; simp [h.1]; omega
  | s3 => simp only [SentAt, hs] at h

/-- At most two words are late. -/
theorem SentAt.late {k : Nat} {s : Data2Packets} {pks : List (List InputWord)}
    {ds : List InputWord} {out : List (BitVec 64)} (h : SentAt k s pks ds out) :
    ∃ late : List (BitVec 64), late.length ≤ 2 ∧ out ++ late = pks.flatMap frame ++ frame ds := by
  cases hs : s.currentState with
  | idle =>
      simp only [SentAt, hs] at h
      obtain ⟨rfl, _, rfl⟩ := h
      exact ⟨[], by simp, by simp [frame]⟩
  | s0 =>
      simp only [SentAt, hs] at h
      exact ⟨[s.reg1, s.reg2], by simp, h.2.2.2.2⟩
  | s1 =>
      simp only [SentAt, hs] at h
      exact ⟨[s.reg1, s.reg2], by simp, h.2⟩
  | s2 =>
      simp only [SentAt, hs] at h
      obtain ⟨rfl, _, ⟨_, hout⟩ | ⟨_, hout⟩⟩ := h
      · exact ⟨[s.reg1, s.reg2], by simp, by rw [hout]; simp [frame]⟩
      · exact ⟨[s.reg1], by simp, by rw [hout]; simp [frame]⟩
  | s3 => simp only [SentAt, hs] at h

/-- Two cycles after the last word of a packet its flush is over. -/
theorem exists_idle (hmin : 6 ≤ pctSize) (hmax : pctSize < 2 ^ w)
    (hc : ∀ n, ((circuit w pctSize).run x n).pctState (x n).pctData.valid = 0b11 → (x n).pctData.valid = false)
    {n p : Nat} (hp : (words (fun m => (x m).word) n).length = (pctSize - 2) * p) :
    ∃ m ≤ 2, words (fun m => (x m).word) (n + m) = words (fun m => (x m).word) n ∧
      ((circuit w pctSize).run x (n + m)).currentState = .idle := by
  have hquiet : ∀ j, ((circuit w pctSize).run x j).currentState = .s2 → (x j).pctData.valid = false ∧
      words (fun m => (x m).word) (j + 1) = words (fun m => (x m).word) j := by
    intro j hj
    have hv : (x j).pctData.valid = false := hc j (by simp [pctState, hj])
    exact ⟨hv, words_succ_of_none (by rw [In.word, Port.word_eq_none.mpr hv]; rfl)⟩
  have hlast : ∀ j, ((circuit w pctSize).run x j).currentState = .s2 →
      ((circuit w pctSize).run x j).pctEndCnt = 0 →
      ((circuit w pctSize).run x (j + 1)).currentState = .idle := by
    intro j hj he
    rw [Circuit.run_succ]
    simp [circuit, next, nextState] at hj he ⊢
    simp [hj, he]
  obtain ⟨pks, ds, hpks, hin, hs⟩ := run_sentAt hmin hmax hc n
  have hlt := hs.length_lt (by omega)
  -- A whole number of packets has been accepted, so no packet is begun.
  have hds : ds = [] := by
    rw [← hin, List.length_append, flatten_length hpks] at hp
    have hdvd : pctSize - 2 ∣ ds.length := (Nat.dvd_add_right ⟨_, rfl⟩).mp ⟨p, hp⟩
    exact List.eq_nil_of_length_eq_zero (Nat.eq_zero_of_dvd_of_lt hdvd hlt)
  cases hst : ((circuit w pctSize).run x n).currentState with
  | idle => exact ⟨0, by omega, rfl, hst⟩
  | s0 => simp [SentAt, hst, hds] at hs
  | s1 => simp [SentAt, hst, hds] at hs; omega
  | s2 =>
      simp only [SentAt, hst] at hs
      obtain ⟨_, _, ⟨he, _⟩ | ⟨he, _⟩⟩ := hs
      · have h1 : ((circuit w pctSize).run x (n + 1)).currentState = .s2 ∧
            ((circuit w pctSize).run x (n + 1)).pctEndCnt = 0 := by
          rw [Circuit.run_succ]
          simp [circuit, next, nextState] at hst he ⊢
          simp [hst, he]
        exact ⟨2, Nat.le_refl 2, (hquiet (n + 1) h1.1).2.trans (hquiet n hst).2, hlast (n + 1) h1.1 h1.2⟩
      · exact ⟨1, by omega, (hquiet n hst).2, hlast n hst he⟩
  | s3 => simp only [SentAt, hst] at hs

end Data2Packets

end LimeSdrQpcie
