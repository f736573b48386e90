import LimeSdrQpcie.Lms.HostToPins
import LimeSdrQpcie.Lms.Lemmas.Lms7002Tx
import LimeSdrQpcie.Tx.Lemmas.TxPath

/-!
# Both sides of the sample FIFO

What the reading side has read and what is still in the FIFO are the words that have been written, each in its two
halves. The reading side knows the oldest of those it has not read.
-/

namespace LimeSdrQpcie

open Hdl

/-! ## 12-bit samples -/

theorem bits_inst4FifoQ (w : BitVec 64) :
    bits (inst4FifoQ w) = [4, 20, 36, 52].flatMap fun k => ((bits w).drop k).take 12 := by
  have h : bits (inst4FifoQ w) = bits (w.extractLsb 15 4) ++ (bits (w.extractLsb 31 20) ++
      (bits (w.extractLsb 47 36) ++ bits (w.extractLsb 63 52))) :=
    (bits_append _ _).trans (congrArg _ ((bits_append _ _).trans (congrArg _ (bits_append _ _))))
  rw [h]
  simp [bits_extractLsb, List.drop_take]

/-- The interface takes each sample out of its lane. -/
theorem bits_inst4FifoQ_lanes {w : BitVec 64} {a b c d : BitVec 12}
    (h : bits w = [a, b, c, d].flatMap fun l => bits 0#4 ++ bits l) : bits (inst4FifoQ w) = bitString [a, b, c, d] := by
  have hlane : ∀ (l : BitVec 12) (rest : List Bool), ((bits 0#4 ++ (bits l ++ rest)).drop 4).take 12 = bits l := by
    intro l rest
    rw [List.drop_left' (bits_length _), List.take_left' (bits_length _)]
  have hnext : ∀ (k : Nat) (l : BitVec 12) (rest : List Bool),
      (bits 0#4 ++ (bits l ++ rest)).drop (16 + k) = rest.drop k := by
    intro k l rest
    rw [← List.append_assoc, List.drop_append, List.drop_of_length_le (by simp)]
    simp
  simp only [List.flatMap_cons, List.flatMap_nil, List.append_assoc] at h
  simp only [bits_inst4FifoQ, h, List.flatMap_cons, List.flatMap_nil, bitString_cons, bitString_nil]
  rw [hlane a, hnext 4 a, hlane b, hnext 20 a, hnext 4 b, hlane c, hnext 36 a, hnext 20 b, hnext 4 c, hlane d]

/-- The samples of a word one after the other. -/
theorem bitString_samples (w : BitVec 96) :
    bitString [w.extractLsb 11 0, w.extractLsb 23 12, w.extractLsb 35 24, w.extractLsb 47 36, w.extractLsb 59 48,
      w.extractLsb 71 60, w.extractLsb 83 72, w.extractLsb 95 84] = bits w := by
  have hcut : ∀ k, ((bits w).drop k).take 12 ++ (bits w).drop (k + 12) = (bits w).drop k := by
    intro k
    rw [← List.drop_drop, List.take_append_drop]
  rw [bitString, List.flatMap_cons, bits_extractLsb_low w (by omega)]
  simp (disch := omega) only [List.flatMap_cons, List.flatMap_nil, List.append_nil, bits_extractLsb, List.drop_take]
  rw [List.take_of_length_le (l := (bits w).drop 84) (by simp), hcut 72, hcut 60, hcut 48, hcut 36, hcut 24, hcut 12,
    List.take_append_drop]

theorem bits_halves_spread (w : BitVec 96) :
    bitString ((halves (Unpack64To48.spread w)).map inst4FifoQ) = bits w := by
  have hlen : ∀ l : BitVec 12, (bits 0#4 ++ bits l).length = 16 := fun l => by simp
  have hspread := Unpack64To48.bits_lanes128 (w.extractLsb 95 84) (w.extractLsb 83 72) (w.extractLsb 71 60)
    (w.extractLsb 59 48) (w.extractLsb 47 36) (w.extractLsb 35 24) (w.extractLsb 23 12) (w.extractLsb 11 0)
  have hlow := bits_inst4FifoQ_lanes ((bits_extractLsb_low (Unpack64To48.spread w) (show 63 < 128 by omega)).trans (by
    rw [Unpack64To48.spread, hspread]
    exact (flatMap_take hlen _ 4).symm))
  have hhigh := bits_inst4FifoQ_lanes
    ((bits_extractLsb_top (Unpack64To48.spread w) (show 64 ≤ 127 by omega) rfl).trans (by
      rw [Unpack64To48.spread, hspread]
      exact (flatMap_drop hlen _ 4).symm))
  rw [halves, List.map_cons, List.map_cons, List.map_nil, bitString_cons, bitString_cons, bitString_nil,
    List.append_nil, hlow, hhigh, ← bitString_append]
  exact bitString_samples w

theorem bitString_halves_spread (ws : List (BitVec 96)) :
    bitString (((ws.map Unpack64To48.spread).flatMap halves).map inst4FifoQ) = bitString ws := by
  induction ws with
  | nil => rfl
  | cons w ws ih =>
      rw [List.map_cons, List.flatMap_cons, List.map_append, bitString_append, bits_halves_spread, ih, bitString_cons]

theorem bitString_halves (ws : List (BitVec 128)) : bitString (ws.flatMap halves) = bitString ws := by
  induction ws with
  | nil => rfl
  | cons w ws ih =>
      rw [List.flatMap_cons, bitString_append, ih, bitString_cons]
      congr 1
      rw [halves, bitString_cons, bitString_cons, bitString_nil, List.append_nil, bits_extractLsb_low _ (by omega),
        bits_extractLsb_top _ (by omega) (by omega), List.take_append_drop]

namespace HostToPins

variable {nb : NBuff} {sw : BitVec 2} {m : IqMode} {early : TxEarly} {s : HostToPins nb} {i : HostToPinsTxIn nb}

/-! ## One edge of the transmit clock -/

/-- The word that enters the sample FIFO at an edge of the transmit clock. -/
def accepted (s : HostToPins nb) : List (BitVec 128) :=
  (s.path.smpl.smplFifo.accepted s.path.smpl.top.smplFifoWr.word).toList

structure Ok (s : HostToPins nb) : Prop where
  /-- The reading side knows the oldest words. -/
  known : s.tx.inst0.known <+: s.unread
  /-- A word of which half is read is in the FIFO. -/
  half : s.halfRead = true → s.path.smpl.smplFifo.store ≠ []

theorem unread_eq_nil_of_store (h : s.path.smpl.smplFifo.store = []) : s.unread = [] := by
  rw [unread, h, List.flatMap_nil, List.drop_nil]

theorem next_store (sw : BitVec 2) (m : IqMode) : (s.next sw m (.tx i)).path.smpl.smplFifo.store =
    s.path.smpl.smplFifo.store.drop (s.pathIn i).smplFifoRd ++ s.accepted := rfl

/-- A read takes the oldest word. -/
theorem readWord_spec (hok : Ok s) :
    (s.readWord i = none ∧ (s.tx.fifoRdreq i.tx.txSrcSel && !i.tx.txSrcSel) = false) ∨
      ∃ w ws ks, s.readWord i = some w ∧ s.unread = w :: ws ∧ s.tx.inst0.known = w :: ks ∧ ks <+: ws ∧
        (s.tx.fifoRdreq i.tx.txSrcSel && !i.tx.txSrcSel) = true := by
  unfold readWord Lms7002Tx.readWord
  cases hsel : i.tx.txSrcSel with
  | true => exact Or.inl ⟨rfl, Bool.and_false _⟩
  | false =>
      cases hrd : s.tx.fifoRdreq false with
      | false => exact Or.inl ⟨rfl, rfl⟩
      | true =>
          obtain ⟨ws, hws⟩ := hok.known
          cases hk : s.tx.inst0.known with
          | nil => simp [Lms7002Tx.fifoRdreq, Txiq.fifoRdreq, Lms7002Tx.fifo, FifoInstRd.rdempty, hk] at hrd
          | cons w ks =>
              rw [hk] at hws
              exact Or.inr ⟨w, ks ++ ws, ks, by simp [Lms7002Tx.fifo, hk], hws.symm, rfl, List.prefix_append _ _, rfl⟩

theorem unread_next (hok : Ok s) (sw : BitVec 2) (m : IqMode) : (s.next sw m (.tx i)).unread =
    s.unread.drop (s.readWord i).toList.length ++ s.accepted.flatMap halves := by
  have hhalf : (s.next sw m (.tx i)).halfRead = (s.halfRead ^^ (s.readWord i).isSome) := rfl
  rw [unread, next_store, hhalf, pathIn]
  rcases readWord_spec (i := i) hok with ⟨hr, -⟩ | ⟨w, ws, ks, hr, hu, -⟩
  · rw [hr]
    simp only [Option.isSome_none, Bool.false_and, Bool.false_eq_true, if_false, List.drop_zero, Bool.xor_false,
      Option.toList_none, List.length_nil, List.flatMap_append]
    rw [unread, List.drop_append_of_le_length]
    cases hh : s.halfRead with
    | false => exact Nat.zero_le _
    | true =>
        cases hst : s.path.smpl.smplFifo.store with
        | nil => exact absurd hst (hok.half hh)
        | cons v vs => simp [halves]
  · rw [hr, unread]
    have hne : s.path.smpl.smplFifo.store ≠ [] := fun hst => by
      rw [unread_eq_nil_of_store hst] at hu
      cases hu
    obtain ⟨v, vs, hst⟩ := List.exists_cons_of_ne_nil hne
    rw [hst]
    cases s.halfRead with
    | false | true => simp [halves]

theorem ok_next (hok : Ok s) (sw : BitVec 2) (m : IqMode) : Ok (s.next sw m (.tx i)) := by
  have hunread := unread_next (i := i) hok sw m
  have hinst0 : (s.next sw m (.tx i)).tx.inst0.known =
      (if s.tx.fifoRdreq i.tx.txSrcSel && !i.tx.txSrcSel then s.tx.inst0.known.tail else s.tx.inst0.known) ++
        (s.unread.drop s.tx.inst0.known.length).take i.knownMore := rfl
  refine ⟨?_, fun hh hst => ?_⟩
  · rw [hinst0, hunread]
    refine List.IsPrefix.trans ?_ (List.prefix_append _ _)
    rcases readWord_spec (i := i) hok with ⟨hr, hrd⟩ | ⟨w, ws, ks, hr, hu, hk, hks, hrd⟩
    · obtain ⟨us, hus⟩ := hok.known
      rw [hr, hrd, ← hus, List.drop_left]
      exact (List.prefix_append_right_inj _).mpr (List.take_prefix _ _)
    · obtain ⟨us, hus⟩ := hks
      rw [hr, hrd, hk, hu, ← hus]
      simp only [if_true, List.tail_cons, List.length_cons, List.drop_succ_cons, List.drop_left,
        Option.toList_some, List.length_nil, List.drop_zero]
      exact (List.prefix_append_right_inj _).mpr (List.take_prefix _ _)
  · rw [next_store, List.append_eq_nil_iff] at hst
    change (s.halfRead ^^ (s.readWord i).isSome) = true at hh
    rcases readWord_spec (i := i) hok with ⟨hr, -⟩ | ⟨w, ws, ks, hr, hu, -⟩
    · rw [hr, Option.isSome_none, Bool.xor_false] at hh
      rw [pathIn, hr] at hst
      exact hok.half hh hst.1
    · rw [hr, Option.isSome_some, Bool.xor_true] at hh
      have hlow : s.halfRead = false := by simpa using hh
      rw [pathIn, hr, hlow] at hst
      rw [unread_eq_nil_of_store hst.1] at hu
      cases hu

/-! ## Runs -/

variable (x : Nat → HostToPinsEdge nb)

theorem path_run (n : Nat) : ((circuit nb sw m early).run x n).path =
    (TxPath.circuit nb sw).run (pathEdges sw m early x) n :=
  Circuit.run_part path pathEdge rfl (fun _ _ => rfl) x n

variable (sw m s) in
/-- An edge of another clock leaves both sides of the FIFO as they are. -/
theorem next_of_not_tx {e : HostToPinsEdge nb} (he : s.txEdge e = none) :
    (s.next sw m e).path.smpl = s.path.smpl ∧ (s.next sw m e).halfRead = s.halfRead ∧
      (s.next sw m e).tx = s.tx ∧ s.edgeWord e = none := by
  cases e with
  | bus i | rx i => exact ⟨rfl, Bool.xor_false _, rfl, rfl⟩
  | tx i => cases he

theorem early_known_run (early : TxEarly) (c : Nat) :
    ((Lms7002Tx.circuit m).run (fun k => { early.tx k with fifo0Come := [] }) c).inst0.known = [] := by
  induction c with
  | zero => rfl
  | succ n ih =>
      rw [Circuit.run_succ]
      change (if _ then List.tail _ else _) ++ [] = []
      rw [ih]
      simp

theorem ok_run (n : Nat) : Ok ((circuit nb sw m early).run x n) := by
  induction n with
  | zero => exact ⟨by change (reset m early).tx.inst0.known <+: []; rw [reset, early_known_run], fun h => by cases h⟩
  | succ n ih =>
      rw [Circuit.run_succ]
      cases hx : x n with
      | tx i => exact ok_next ih sw m
      | bus i | rx i =>
          obtain ⟨hsmpl, hhalf, htx, -⟩ := next_of_not_tx sw m ((circuit nb sw m early).run x n)
            (e := x n) (by rw [hx]; rfl)
          rw [hx] at hsmpl hhalf htx
          refine ⟨?_, ?_⟩
          · change ((next sw m _ _).tx.inst0.known) <+: unread (next sw m _ _)
            rw [unread, hsmpl, hhalf, htx]
            exact ih.known
          · change (next sw m _ _).halfRead = true → (next sw m _ _).path.smpl.smplFifo.store ≠ []
            rw [hsmpl, hhalf]
            exact ih.half

/-- What has been read and what is in the FIFO are the words that have gone into it, in their halves. -/
theorem read_append_unread (n : Nat) :
    read sw m early x n ++ ((circuit nb sw m early).run x n).unread =
      (TxPath.sent sw (pathEdges sw m early x) n ++
        ((TxPath.circuit nb sw).run (pathEdges sw m early x) n).smpl.smplFifo.store).flatMap halves := by
  rw [← path_run]
  induction n with
  | zero => rfl
  | succ n ih =>
      rw [read, words_succ, ← read, Circuit.run_succ]
      generalize hs : (circuit nb sw m early).run x n = s at ih ⊢
      have hok : Ok s := hs ▸ ok_run x n
      have hpath : ((TxPath.circuit nb sw).run (pathEdges sw m early x) n).smpl = s.path.smpl := by
        rw [← path_run, hs]
      cases hx : x n with
      | bus i | rx i =>
          obtain ⟨hsmpl, hhalf, -, hword⟩ := next_of_not_tx sw m s (e := x n) (by rw [hx]; rfl)
          have hedge : pathEdges sw m early x n = s.pathEdge (x n) := by rw [pathEdges, hs]
          rw [hx] at hsmpl hhalf hword hedge
          simp only [TxPath.sent, hedge, pathEdge]
          change _ ++ unread (next sw m _ _) = List.flatMap _ (_ ++ (next sw m _ _).path.smpl.smplFifo.store)
          rw [hword, Option.toList_none, List.append_nil, unread, hsmpl, hhalf]
          exact ih
      | tx i =>
          have hedge : pathEdges sw m early x n = .tx (s.pathIn i) := by rw [pathEdges, hs, hx]; rfl
          have hword : s.unread = (s.readWord i).toList ++ s.unread.drop (s.readWord i).toList.length := by
            rcases readWord_spec (i := i) hok with ⟨hr, -⟩ | ⟨w, ws, ks, hr, hu, -⟩
            · rw [hr]
              rfl
            · rw [hr, hu]
              rfl
          simp only [TxPath.sent, hedge, hpath]
          change _ ++ (s.readWord i).toList ++ (s.next sw m (.tx i)).unread =
            List.flatMap _ (_ ++ (s.next sw m (.tx i)).path.smpl.smplFifo.store)
          rw [unread_next hok, next_store]
          calc read sw m early x n ++ (s.readWord i).toList ++
                (s.unread.drop (s.readWord i).toList.length ++ s.accepted.flatMap halves)
              = read sw m early x n ++ s.unread ++ s.accepted.flatMap halves := by
                rw [hword]
                simp only [List.append_assoc, List.drop_left]
            _ = _ := by
                rw [ih, ← List.flatMap_append, List.append_assoc, List.append_assoc,
                  ← List.append_assoc (List.take _ _), List.take_append_drop]

/-! ## The run of the interface -/

theorem txEdges_pathEdges (n : Nat) :
    TxPath.txEdges (pathEdges sw m early x) n = count (fun k => (x k).isTx) n := by
  have hedge : (fun k => (pathEdges sw m early x k).isTx) = fun k => (x k).isTx := by
    funext k
    unfold pathEdges
    cases x k <;> rfl
  rw [TxPath.txEdges, hedge]

theorem isSome_txEdge (s : HostToPins nb) (e : HostToPinsEdge nb) : (s.txEdge e).isSome = e.isTx := by
  cases e <;> rfl

variable (sw m early) in
/-- `lms7002_tx` runs on the inputs `y`. -/
structure TxRun (y : Nat → Lms7002TxIn) : Prop where
  before : ∀ c ≤ early.cycles, (Lms7002Tx.circuit m).run y c =
    (Lms7002Tx.circuit m).run (fun k => { early.tx k with fifo0Come := [] }) c
  since : ∀ n, ((circuit nb sw m early).run x n).tx = (Lms7002Tx.circuit m).run y (cycle early x n)

variable (sw m early) in
/-- The inputs of `lms7002_tx` on a clock of its own, that of the path being still in reset at first. -/
def txInputs (c : Nat) : Option Lms7002TxIn :=
  if c < early.cycles then some { early.tx c with fifo0Come := [] }
  else ((circuit nb sw m early).run x (c - early.cycles)).txEdge (x (c - early.cycles))

theorem txInputs_early {c : Nat} (hc : c < early.cycles) :
    txInputs sw m early x c = some { early.tx c with fifo0Come := [] } := if_pos hc

theorem txInputs_add (n : Nat) : txInputs sw m early x (early.cycles + n) =
    ((circuit nb sw m early).run x n).txEdge (x n) := by
  rw [txInputs, if_neg (by omega), Nat.add_sub_cancel_left]

theorem count_txInputs_of_le {c : Nat} (hc : c ≤ early.cycles) :
    count (fun c => (txInputs sw m early x c).isSome) c = c := by
  induction c with
  | zero => rfl
  | succ c ih => rw [count_succ, ih (Nat.le_of_succ_le hc), txInputs_early x hc]; rfl

theorem count_txInputs (n : Nat) :
    count (fun c => (txInputs sw m early x c).isSome) (early.cycles + n) = cycle early x n := by
  induction n with
  | zero => exact count_txInputs_of_le x (Nat.le_refl _)
  | succ n ih =>
      rw [← Nat.add_assoc, count_succ, ih, txInputs_add, isSome_txEdge, cycle, cycle, count_succ, Nat.add_assoc]

theorem gated_txInputs_of_le {c : Nat} (hc : c ≤ early.cycles) :
    (Lms7002Tx.circuit m).gated.run (txInputs sw m early x) c =
      (Lms7002Tx.circuit m).run (fun k => { early.tx k with fifo0Come := [] }) c := by
  induction c with
  | zero => rfl
  | succ c ih => rw [Circuit.run_succ, Circuit.run_succ, ih (Nat.le_of_succ_le hc), txInputs_early x hc]; rfl

theorem gated_txInputs (n : Nat) :
    (Lms7002Tx.circuit m).gated.run (txInputs sw m early x) (early.cycles + n) =
      ((circuit nb sw m early).run x n).tx := by
  induction n with
  | zero => exact gated_txInputs_of_le x (Nat.le_refl _)
  | succ n ih => rw [← Nat.add_assoc, Circuit.run_succ, ih, txInputs_add]; rfl

variable (sw m) in
theorem exists_tx_run (h : FromHost early x) : ∃ y, (∀ c, (y c).Plain) ∧ TxRun sw m early x y := by
  obtain ⟨y, hmem, hy⟩ := (Lms7002Tx.circuit m).exists_run_gated_mem (txInputs sw m early x)
    ⟨false, 0, 0, false, false, [], []⟩
  refine ⟨y, fun c => ?_, fun c hc => ?_, fun n => ?_⟩
  · rcases hmem c with h0 | ⟨k, hk⟩
    · rw [h0]
      exact ⟨rfl, rfl, rfl⟩
    · unfold txInputs at hk
      split at hk
      · rename_i hlt
        rw [← Option.some.inj hk]
        exact h.1 k hlt
      · generalize hx : x (k - early.cycles) = e at hk
        cases e with
        | bus i | rx i => cases hk
        | tx i =>
            rw [← Option.some.inj hk]
            exact h.2 _ i hx
  · rw [← @gated_txInputs_of_le nb sw m early x c hc, (hy c).1, count_txInputs_of_le x hc]
  · rw [← gated_txInputs, (hy _).1, count_txInputs]

end HostToPins

end LimeSdrQpcie
