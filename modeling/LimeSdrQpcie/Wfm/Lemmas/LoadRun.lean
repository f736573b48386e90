import LimeSdrQpcie.Wfm.Lemmas.Load

/-!
# A whole load

The words that came into the input FIFO are those asked for and those still there, and the writes of the memory
with those still to come are the words asked for, in order, at the addresses from 0 on.
-/

namespace LimeSdrQpcie

open Hdl

namespace WfmRam

variable {g : WfmGenerics} (sampleWidth : BitVec 2) (s₀ : WfmRam g) (x : Nat → WfmRamIn)

/-- The registers in cycle `n` of a run from `s₀`. -/
def loadAt (n : Nat) : WfmRam g := ((Circuit.mk s₀ (next sampleWidth)).run x n).resets (x n)

/-- The words that came into the input FIFO before cycle `n`. -/
def arrived (n : Nat) : List (BitVec 64) :=
  words (fun m => (loadAt sampleWidth s₀ x m).infifo.accepted (x m).infifoWr) n

/-- The words that the generator asked for before cycle `n`. -/
def requested (n : Nat) : List (BitVec 64) :=
  words (fun m => if (loadAt sampleWidth s₀ x m).inst2.wdataReq then some (loadAt sampleWidth s₀ x m).infifoRdata
    else none) n

/-- The addresses and the words that the memory wrote before cycle `n`. -/
def written (n : Nat) : List (Nat × BitVec 64) :=
  words (fun m => ((loadAt sampleWidth s₀ x m).inst2.issued (x m).avlReady).bind
    (loadAt sampleWidth s₀ x m).port.wr.write) n

/-- The writes that are still to come of the entries in the generator. -/
def pending (n : Nat) : List (Nat × BitVec 64) :=
  (loadAt sampleWidth s₀ x n).port.wr.writes g.avlAddrWidth (loadAt sampleWidth s₀ x n).inst2.inflight

/-- The words `l` at consecutive addresses from 0 on. -/
def atAddresses (addrWidth : Nat) (l : List (BitVec 64)) : List (Nat × BitVec 64) :=
  l.zipIdx.map fun p => (p.2 % 2 ^ addrWidth, p.1)

theorem atAddresses_append (a : Nat) (l : List (BitVec 64)) (d : BitVec 64) :
    atAddresses a (l ++ [d]) = atAddresses a l ++ [(l.length % 2 ^ a, d)] := by
  simp [atAddresses, List.zipIdx_append]

theorem atAddresses_length (a : Nat) (l : List (BitVec 64)) : (atAddresses a l).length = l.length := by
  simp [atAddresses]

/-- Up to the number of addresses the address of a word is its number. -/
theorem atAddresses_eq_swap {a : Nat} {l : List (BitVec 64)} (h : l.length ≤ 2 ^ a) :
    atAddresses a l = l.zipIdx.map Prod.swap := by
  refine List.map_congr_left fun p hp => ?_
  have hlt : p.2 < l.length := by simpa using List.snd_lt_of_mem_zipIdx hp
  rw [Nat.mod_eq_of_lt (Nat.lt_of_lt_of_le hlt h)]
  rfl

theorem atAddresses_isPrefix (a : Nat) {l l' : List (BitVec 64)} (h : l <+: l') :
    atAddresses a l <+: atAddresses a l' := by
  obtain ⟨r, rfl⟩ := h
  rw [atAddresses, atAddresses, List.zipIdx_append, List.map_append]
  exact List.prefix_append _ _

variable {sampleWidth s₀ x}

theorem requested_succ (n : Nat) : requested sampleWidth s₀ x (n + 1) = requested sampleWidth s₀ x n ++
    (if (loadAt sampleWidth s₀ x n).inst2.wdataReq then some (loadAt sampleWidth s₀ x n).infifoRdata
      else none).toList := rfl

theorem arrived_succ (n : Nat) : arrived sampleWidth s₀ x (n + 1) = arrived sampleWidth s₀ x n ++
    ((loadAt sampleWidth s₀ x n).infifo.accepted (x n).infifoWr).toList := rfl

theorem written_succ (n : Nat) : written sampleWidth s₀ x (n + 1) = written sampleWidth s₀ x n ++
    (((loadAt sampleWidth s₀ x n).inst2.issued (x n).avlReady).bind
      (loadAt sampleWidth s₀ x n).port.wr.write).toList := rfl

theorem requested_length_succ (n : Nat) : (requested sampleWidth s₀ x (n + 1)).length =
    (requested sampleWidth s₀ x n).length + (loadAt sampleWidth s₀ x n).inst2.wdataReq.toNat := by
  rw [requested_succ, List.length_append]
  cases (loadAt sampleWidth s₀ x n).inst2.wdataReq <;> rfl

/-! ## A cycle of a load -/

/-- In a load no reset acts on the registers of the load side. -/
structure SameLoad (s s' : WfmRam g) : Prop where
  player : s.player = s'.player
  inst2 : s.inst2 = s'.inst2
  infifo : s.infifo = s'.infifo
  infifoRdusedw : s.infifoRdusedw = s'.infifoRdusedw
  port : s.port = s'.port

theorem sameLoad_resets {s : WfmRam g} {i : WfmRamIn} (h : Loading i) : SameLoad (s.resets i) s := by
  constructor <;> simp [resets, h.resetN, h.infifoResetN]

theorem SameLoad.trans {s s' s'' : WfmRam g} (h : SameLoad s s') (h' : SameLoad s' s'') : SameLoad s s'' :=
  ⟨h.player.trans h'.player, h.inst2.trans h'.inst2, h.infifo.trans h'.infifo,
    h.infifoRdusedw.trans h'.infifoRdusedw, h.port.trans h'.port⟩

theorem LoadInv.congr {s s' : WfmRam g} {k : Nat} (h : LoadInv s' k) (he : SameLoad s s') : LoadInv s k := by
  obtain ⟨p, q, _, f, r, _, _, m⟩ := s
  obtain ⟨p', q', _, f', r', _, _, m'⟩ := s'
  obtain ⟨rfl, rfl, rfl, rfl, rfl⟩ : p = p' ∧ q = q' ∧ f = f' ∧ r = r' ∧ m = m' :=
    ⟨he.player, he.inst2, he.infifo, he.infifoRdusedw, he.port⟩
  obtain ⟨hb, ha, hp⟩ := h
  refine ⟨⟨hb.sound, hb.hasWords, hb.counted, hb.demand, hb.single, fun hs => ?_, hb.writes, hb.doReadReg,
    hb.checkOutfifo, hb.doRead⟩, ha, ?_⟩
  · obtain ⟨h1, h2, h3, h4, h5, h6⟩ := hb.loop hs
    exact ⟨h1, h2, h3, h4, h5, h6⟩
  · rcases hp with ⟨h1, h2, h3⟩ | ⟨h1, h2, h3⟩
    · exact Or.inl ⟨h1, h2, h3⟩
    · exact Or.inr ⟨h1, h2, h3⟩

theorem loadAt_succ (hx : ∀ n, Loading (x n)) (n : Nat) : SameLoad (loadAt sampleWidth s₀ x (n + 1))
    ((loadAt sampleWidth s₀ x n).edge sampleWidth (x n)) :=
  (sameLoad_resets (hx (n + 1))).trans (sameLoad_resets (hx n))

theorem infifo_stays_empty (hx : ∀ n, Loading (x n)) {n : Nat} (hs : (loadAt sampleWidth s₀ x n).infifo.store = [])
    (hwr : (x n).infifoWr = none) : (loadAt sampleWidth s₀ x (n + 1)).infifo.store = [] := by
  rw [(loadAt_succ hx n).infifo]
  simp [edge, hs, hwr]

/-! ## The whole load -/

/-- In every cycle the player decides to write on what is so. -/
def AlwaysCurrent (sampleWidth : BitVec 2) (s₀ : WfmRam g) (x : Nat → WfmRamIn) : Prop :=
  ∀ n, StartsWrite (loadAt sampleWidth s₀ x n) → Current (loadAt sampleWidth s₀ x n)

theorem loadInv_of_loadEdge {s : WfmRam g} (h : LoadEdge s) : LoadInv s 0 := by
  have hin : s.inst2.inflight = [] := by rw [AvalonTrafficGen.inflight, h.entries]; rfl
  have hnil := h.entries
  rw [AvalonTrafficGen.entries, List.append_eq_nil_iff, List.append_eq_nil_iff] at hnil
  obtain ⟨⟨-, hfifo⟩, hpipe⟩ := hnil
  have hleft : s.inst2.burstLeft = 0 := by simp [AvalonTrafficGen.burstLeft, h.state]
  have hdemand : s.inst2.demand = 0 := by
    simp [AvalonTrafficGen.demand, AvalonTrafficGen.regWriteWords, h.doWriteReg, hleft]
  have hsound : s.inst2.Sound :=
    ⟨by simp [Fifo.usedw, hfifo, hpipe], by simp [hfifo, hpipe], by simp [hin], by simp [h.doWriteReg],
      by simp [h.doReadReg], by simp [h.state], by simp [h.state]⟩
  refine ⟨⟨hsound, by simp [AvalonTrafficGen.HasWords, h.doWriteReg], by simp [h.infifoRdusedw], by simp [hdemand],
    by simp [h.player], by simp [h.player], by simp [hin], h.doReadReg, by simp [h.player], by simp [h.player]⟩, ?_,
    Or.inl ⟨rfl, hdemand, Or.inl ⟨h.inst3, h.player⟩⟩⟩
  refine ⟨?_, fun hne => absurd hleft hne, by simp [h.doWriteReg]⟩
  rw [hin, hleft]
  exact h.port

theorem loadInv_run (h : LoadEdge s₀) (hx : ∀ n, Loading (x n)) (hc : AlwaysCurrent sampleWidth s₀ x) (n : Nat) :
    LoadInv (loadAt sampleWidth s₀ x n) (requested sampleWidth s₀ x n).length := by
  induction n with
  | zero => exact (loadInv_of_loadEdge h).congr (sameLoad_resets (hx 0))
  | succ n ih =>
      rw [requested_length_succ]
      exact (loadInv_edge ih (hx n).wfmLoad (hc n)).congr (loadAt_succ hx n)

section Run

variable (h : LoadEdge s₀) (hx : ∀ n, Loading (x n)) (hc : AlwaysCurrent sampleWidth s₀ x)

include h hx hc in
/-- A word is asked for only when the input FIFO has one. -/
theorem not_empty_of_wdataReq {n : Nat} (hq : (loadAt sampleWidth s₀ x n).inst2.wdataReq = true) :
    (loadAt sampleWidth s₀ x n).infifo.store ≠ [] := by
  have hinv := (loadInv_run h hx hc n).budget
  have hpos := AvalonTrafficGen.demand_pos_of_wdataReq hinv.sound hinv.hasWords hq
  have hle := hinv.demand
  intro hnil
  rw [Fifo.usedw, hnil, List.length_nil] at hle
  omega

include h hx hc in
theorem arrived_eq (n : Nat) :
    arrived sampleWidth s₀ x n = requested sampleWidth s₀ x n ++ (loadAt sampleWidth s₀ x n).infifo.store := by
  induction n with
  | zero =>
      have h0 : (loadAt sampleWidth s₀ x 0).infifo = s₀.infifo := (sameLoad_resets (hx 0)).infifo
      rw [h0, h.infifo]
      rfl
  | succ n ih =>
      have hnext : (loadAt sampleWidth s₀ x (n + 1)).infifo.store =
          (loadAt sampleWidth s₀ x n).infifo.store.drop (loadAt sampleWidth s₀ x n).inst2.wdataReq.toNat ++
            ((loadAt sampleWidth s₀ x n).infifo.accepted (x n).infifoWr).toList := by
        rw [(loadAt_succ hx n).infifo]
        rfl
      rw [hnext, arrived_succ, requested_succ, ih]
      cases hq : (loadAt sampleWidth s₀ x n).inst2.wdataReq with
      | false => simp
      | true =>
          obtain ⟨d, rest, hstore⟩ := List.exists_cons_of_ne_nil (not_empty_of_wdataReq h hx hc hq)
          simp [infifoRdata, hstore]

include h hx hc in
/-- The writes done and those still to come are the words asked for, at the addresses from 0 on. -/
theorem written_append_pending (n : Nat) : written sampleWidth s₀ x n ++ pending sampleWidth s₀ x n =
    atAddresses g.avlAddrWidth (requested sampleWidth s₀ x n) := by
  induction n with
  | zero =>
      have h0 : (loadAt sampleWidth s₀ x 0).inst2 = s₀.inst2 := (sameLoad_resets (hx 0)).inst2
      rw [pending, h0, AvalonTrafficGen.inflight, h.entries]
      rfl
  | succ n ih =>
      have hinv := loadInv_run h hx hc n
      have hnext : pending sampleWidth s₀ x (n + 1) =
          (((loadAt sampleWidth s₀ x n).inst2.issued (x n).avlReady).elim (loadAt sampleWidth s₀ x n).port.wr
            ((loadAt sampleWidth s₀ x n).port.wr.accept g.avlAddrWidth)).writes g.avlAddrWidth
              ((loadAt sampleWidth s₀ x n).inst2.next ((loadAt sampleWidth s₀ x n).inst2In (x n))).inflight := by
        rw [pending, (loadAt_succ hx n).inst2, (loadAt_succ hx n).port]
        rfl
      have hwrites := @AvalonTrafficGen.writes_next _ ((loadAt sampleWidth s₀ x n).inst2In (x n)) g.avlAddrWidth
        (loadAt sampleWidth s₀ x n).port.wr hinv.budget.sound
      rw [AvalonTrafficGen.write_fifoIn hinv.budget.sound hinv.aimed] at hwrites
      rw [hnext, written_succ, List.append_assoc]
      refine (congrArg (written sampleWidth s₀ x n ++ ·) hwrites).trans ?_
      change written sampleWidth s₀ x n ++ (pending sampleWidth s₀ x n ++ _) = _
      rw [← List.append_assoc, ih, requested_succ]
      cases (loadAt sampleWidth s₀ x n).inst2.wdataReq with
      | false => simp
      | true =>
          simp only [if_true, Option.toList_some, atAddresses_append]
          rfl

include h hx hc in
/-- From the pulse on the number of words counted is the number of words asked for. -/
theorem writeMaxWords_eq {n : Nat} (hn : 3 ≤ n) : (loadAt sampleWidth s₀ x n).player.writeMaxWords =
    (requested sampleWidth s₀ x n).length % 2 ^ g.avlAddrWidth := by
  obtain ⟨m, rfl⟩ := Nat.exists_eq_add_of_le' hn
  have hinst3 : (loadAt sampleWidth s₀ x (m + 3)).player.inst3 = ⟨true, true, false⟩ := by
    have hsucc : ∀ k, (loadAt sampleWidth s₀ x (k + 1)).player.inst3 =
        (loadAt sampleWidth s₀ x k).player.inst3.next true := by
      intro k
      rw [(loadAt_succ hx k).player, ← (hx k).wfmLoad]
      rfl
    rw [hsucc, hsucc, hsucc]
    rfl
  rcases (loadInv_run h hx hc (m + 3)).phase with hbefore | hafter
  · rcases hbefore.state with ⟨h3, -⟩ | ⟨h3, -⟩ | ⟨h3, -⟩ <;> rw [hinst3] at h3 <;> cases h3
  · exact hafter.maxWords

end Run

end WfmRam

end LimeSdrQpcie
