import LimeSdrQpcie.Wfm.TrafficGen
import Mathlib.Algebra.BigOperators.Group.List.Basic
import Mathlib.Algebra.Order.BigOperators.Group.List

/-!
# The entries in the traffic generator

What goes into the command FIFO comes out to the memory in order, up to `avl_burstbegin`, which falls when the
memory is not ready. The command FIFO never holds more than fifteen words.
-/

namespace LimeSdrQpcie

open Hdl

namespace AvlEntry

/-- An entry without its `avl_burstbegin`. -/
def stripped (e : AvlEntry) : AvlEntry := { e with burstbegin := false }

@[simp] theorem stripped_req (e : AvlEntry) : e.stripped.req = e.req := rfl

end AvlEntry

namespace AvlPort

@[simp] theorem readWords_stripped (e : AvlEntry) : readWords e.stripped = readWords e := rfl

theorem readWords_le {e : AvlEntry} (h : e.size ≤ 2) : readWords e ≤ 2 := by
  unfold readWords
  split
  · exact Nat.zero_le 2
  split
  · exact h
  · exact Nat.zero_le 2

end AvlPort

namespace AvalonTrafficGen

/-- The entries on their way to the memory, the oldest first. -/
def entries (s : AvalonTrafficGen) : List AvlEntry :=
  (if s.avl.req then [s.avl] else []) ++ s.fifo.store ++ s.pipeline.toList

def inflight (s : AvalonTrafficGen) : List AvlEntry := s.entries.map AvlEntry.stripped

/-- What holds in every state: the command FIFO has room for the word in the input registers, what is in it is a
request of at most two words, and only the second word of a burst is awaited. -/
structure Sound (s : AvalonTrafficGen) : Prop where
  room : s.fifo.usedw + s.pipeline.toList.length ≤ 15
  req : ∀ e ∈ s.fifo.store ++ s.pipeline.toList, e.req = true
  size : ∀ e ∈ s.inflight, e.size ≤ 2
  write : s.doWriteReg = true → s.writeBurstcountReg ≤ 2
  read : s.doReadReg = true → s.readBurstcountReg ≤ 2
  last : s.state = .writeBurst → s.lastWriteBurstcountReg ≤ 2
  burst : s.state = .writeBurst → s.burstCounter = 1

variable {s : AvalonTrafficGen} {i : TrafficGenIn}

theorem sound_reset : Sound reset :=
  ⟨by decide, by simp [reset], by simp [reset, inflight, entries, AvlEntry.idle, AvlEntry.req], by simp [reset],
    by simp [reset], by simp [reset], by simp [reset]⟩

/-! ## One clock edge -/

theorem fifoIn_eq_some {e : AvlEntry} {d : BitVec 64} (hs : Sound s) (h : s.fifoIn d = some e) :
    s.fifoFull = false ∧ e.req = true ∧ e.size ≤ 2 := by
  unfold fifoIn at h
  cases hf : s.fifoFull with
  | true => simp [hf] at h
  | false =>
      rw [hf] at h
      cases hst : s.state with
      | writeBurst =>
          simp only [hst] at h
          cases h
          exact ⟨rfl, rfl, hs.last hst⟩
      | idle =>
          cases hw : s.doWriteReg with
          | true =>
              simp only [hst, hw] at h
              cases h
              exact ⟨rfl, rfl, hs.write hw⟩
          | false =>
              cases hr : s.doReadReg with
              | true =>
                  simp only [hst, hw, hr] at h
                  cases h
                  exact ⟨rfl, rfl, hs.read hr⟩
              | false => simp [hst, hw, hr] at h

theorem fifo_accepts (h : Sound s) : s.fifo.accepted s.pipeline = s.pipeline := by
  refine Fifo.accepted_of_not_full (Fifo.isFull_eq_false.mpr ?_) _
  have := h.room
  omega

/-- The entries that stand on the Avalon signals or are taken from them. -/
theorem avl_next (h : Sound s) :
    ((s.issued i.avlReady).toList ++ if (s.nextAvl i).req then [s.nextAvl i] else []).map AvlEntry.stripped ++
        (s.fifo.store.drop (if s.canIssueAvlCmd i.avlReady && (s.fifoOut i).isSome then 1 else 0)).map
          AvlEntry.stripped =
      ((if s.avl.req then [s.avl] else []) ++ s.fifo.store).map AvlEntry.stripped := by
  cases hc : s.canIssueAvlCmd i.avlReady with
  | false =>
      obtain ⟨hr, hq⟩ : i.avlReady = false ∧ s.avl.req = true := by simpa [canIssueAvlCmd] using hc
      have hn : s.nextAvl i = s.avl.stripped := by simp [nextAvl, hc, AvlEntry.stripped]
      have hss : s.avl.stripped.stripped = s.avl.stripped := rfl
      simp [hn, hr, hq, hss, issued]
  | true =>
      have hi : (s.issued i.avlReady).toList = if s.avl.req then [s.avl] else [] := by
        cases hq : s.avl.req with
        | false => simp [issued, hq]
        | true =>
            have hr : i.avlReady = true := by simpa [canIssueAvlCmd, hq] using hc
            simp [issued, hq, hr]
      cases ho : s.fifoOut i with
      | none =>
          have hn : (s.nextAvl i).req = false := by simp [nextAvl, hc, ho, AvlEntry.req]
          simp [hn, hi]
      | some e =>
          have hhead : s.fifo.store.head? = some e := by
            unfold fifoOut at ho
            split at ho
            · cases ho
            · exact ho
          obtain ⟨rest, hrest⟩ := List.head?_eq_some_iff.mp hhead
          have hn : s.nextAvl i = e := by simp [nextAvl, hc, ho]
          have he : e.req = true := h.req e (by simp [hrest])
          simp [hn, he, hi, hrest]

/-- What goes into the command FIFO comes to the memory in order. -/
theorem inflight_next (h : Sound s) :
    (s.issued i.avlReady).toList.map AvlEntry.stripped ++ (s.next i).inflight =
      s.inflight ++ (s.fifoIn i.wdata).toList.map AvlEntry.stripped := by
  have hstore : (s.next i).entries = (if (s.nextAvl i).req then [s.nextAvl i] else []) ++
      (s.fifo.store.drop (if s.canIssueAvlCmd i.avlReady && (s.fifoOut i).isSome then 1 else 0) ++
        s.pipeline.toList) ++ (s.fifoIn i.wdata).toList := by
    simp [entries, next, fifo_accepts h]
  have havl := @avl_next s i h
  simp only [List.map_append] at havl
  rw [inflight, hstore, inflight, entries]
  simp only [List.map_append, ← List.append_assoc, havl]

theorem room_next (h : Sound s) : (s.next i).fifo.usedw + (s.next i).pipeline.toList.length ≤ 15 := by
  have hroom := h.room
  have hfifo : (s.next i).fifo.usedw ≤ s.fifo.usedw + s.pipeline.toList.length := by
    simp only [next, Fifo.usedw, Fifo.next_store, fifo_accepts h, List.length_append, List.length_drop]
    omega
  cases hin : s.fifoIn i.wdata with
  | none =>
      have hp : (s.next i).pipeline.toList.length = 0 := by simp [next, hin]
      omega
  | some e =>
      have hlow : ¬ 14 ≤ s.fifo.usedw := of_decide_eq_false (fifoIn_eq_some h hin).1
      have hp : (s.next i).pipeline.toList.length = 1 := by simp [next, hin]
      have hp1 : s.pipeline.toList.length ≤ 1 := by cases s.pipeline <;> simp
      omega

theorem burst_next (h : Sound s) (hn : (s.next i).state = .writeBurst) : (s.next i).burstCounter = 1 := by
  change s.nextState = .writeBurst at hn
  change s.nextBurstCounter = 1
  unfold nextState at hn
  unfold nextBurstCounter
  cases hf : s.fifoFull with
  | true => simpa [hf] using h.burst (by simpa [hf] using hn)
  | false =>
      cases hs : s.state with
      | idle =>
          simp only [hf, hs] at hn ⊢
          by_cases hd : s.doWriteReg ∧ 1 < s.writeBurstcountReg
          · have h2 : s.writeBurstcountReg = 2 := Nat.le_antisymm (h.write hd.1) hd.2
            simp [hd.1, h2, burstcountWidth]
          · simp [hd] at hn
      | writeBurst => simp [hf, hs, h.burst hs] at hn

theorem last_next (h : Sound s) (hn : (s.next i).state = .writeBurst) : (s.next i).lastWriteBurstcountReg ≤ 2 := by
  change s.nextState = .writeBurst at hn
  change (if s.keepsLast then s.writeBurstcountReg else s.lastWriteBurstcountReg) ≤ 2
  split
  case isTrue hk =>
    simp only [keepsLast, Bool.and_eq_true] at hk
    exact h.write hk.2
  case isFalse hk =>
    apply h.last
    unfold nextState at hn
    cases hf : s.fifoFull with
    | true => simpa [hf] using hn
    | false =>
        cases hs : s.state with
        | writeBurst => rfl
        | idle => simp [keepsLast, hf, hs] at hn hk; simp [hk] at hn

theorem Sound.next (h : Sound s) (hw : i.writeBurstcount ≤ 2) (hr : i.readBurstcount ≤ 2) : Sound (s.next i) := by
  refine ⟨room_next h, fun e he => ?_, fun e he => ?_, ?_, ?_, ?_, burst_next h⟩
  · simp only [AvalonTrafficGen.next, Fifo.next_store, fifo_accepts h, List.mem_append, Option.mem_toList] at he
    rcases he with (hold | hpipe) | hin
    · exact h.req e (List.mem_append_left _ (List.mem_of_mem_drop hold))
    · exact h.req e (List.mem_append_right _ (Option.mem_toList.mpr hpipe))
    · exact (fifoIn_eq_some h hin).2.1
  · have hmem : e ∈ s.inflight ++ (s.fifoIn i.wdata).toList.map AvlEntry.stripped := by
      rw [← inflight_next h]
      exact List.mem_append_right _ he
    rcases List.mem_append.mp hmem with hold | hnew
    · exact h.size e hold
    · obtain ⟨e', he', rfl⟩ := List.mem_map.mp hnew
      exact (fifoIn_eq_some h (Option.mem_toList.mp he')).2.2
  · cases hready : s.ready with
    | true => simpa [AvalonTrafficGen.next, hready] using fun _ => hw
    | false => simpa [AvalonTrafficGen.next, hready] using h.write
  · cases hready : s.ready with
    | true => simpa [AvalonTrafficGen.next, hready] using fun _ => hr
    | false => simpa [AvalonTrafficGen.next, hready] using h.read
  · exact last_next h

/-! ## The words still to be read -/

def listReadWords (l : List AvlEntry) : Nat := (l.map AvlPort.readWords).sum

theorem listReadWords_append (l l' : List AvlEntry) :
    listReadWords (l ++ l') = listReadWords l + listReadWords l' := by
  simp [listReadWords]

theorem listReadWords_le {l : List AvlEntry} (h : ∀ e ∈ l, e.size ≤ 2) : listReadWords l ≤ 2 * l.length := by
  induction l with
  | nil => exact Nat.le_refl 0
  | cons e l ih =>
      have he := AvlPort.readWords_le (h e (List.mem_cons_self ..))
      have hl := ih fun e' h' => h e' (List.mem_cons_of_mem _ h')
      simp only [listReadWords, List.map_cons, List.sum_cons, List.length_cons] at hl ⊢
      omega

/-- The words that the read command in the input registers reads. -/
def regReadWords (s : AvalonTrafficGen) : Nat := if s.doReadReg then s.readBurstcountReg else 0

/-- The words that the accepted read commands still have to read. -/
def readWords (s : AvalonTrafficGen) : Nat := listReadWords s.inflight + s.regReadWords

/-- The words of the read command that is taken. -/
def takenReadWords (s : AvalonTrafficGen) (i : TrafficGenIn) : Nat :=
  if i.doRead && s.ready then i.readBurstcount else 0

theorem fifoIn_readWords_le (d : BitVec 64) : listReadWords (s.fifoIn d).toList ≤ s.regReadWords := by
  unfold fifoIn regReadWords
  split
  · exact Nat.zero_le _
  split
  · split
    · exact Nat.zero_le _
    split <;> simp [listReadWords, AvlPort.readWords]
  · exact Nat.zero_le _

/-- Only a generator that is ready sends a read command on. -/
theorem fifoIn_readWords_of_not_ready (hr : s.ready = false) (d : BitVec 64) :
    listReadWords (s.fifoIn d).toList = 0 := by
  unfold ready at hr
  unfold fifoIn
  split
  · rfl
  case isFalse hf =>
    rw [if_neg hf] at hr
    cases hs : s.state with
    | idle => simp [hs] at hr
    | writeBurst => rfl

theorem regReadWords_next : listReadWords (s.fifoIn i.wdata).toList + (s.next i).regReadWords ≤
    s.regReadWords + s.takenReadWords i := by
  cases hr : s.ready with
  | false =>
      have hnext : (s.next i).regReadWords = s.regReadWords := by simp [regReadWords, next, hr]
      rw [fifoIn_readWords_of_not_ready hr, hnext]
      omega
  | true =>
      have hnext : (s.next i).regReadWords = s.takenReadWords i := by
        simp [regReadWords, takenReadWords, next, hr]
      rw [hnext]
      exact Nat.add_le_add_right (fifoIn_readWords_le _) _

theorem readWords_next (h : Sound s) : listReadWords (s.issued i.avlReady).toList + (s.next i).readWords ≤
    s.readWords + s.takenReadWords i := by
  have hmap : ∀ l : List AvlEntry, listReadWords (l.map AvlEntry.stripped) = listReadWords l := fun l => by
    simp [listReadWords, Function.comp_def]
  have hq := congrArg listReadWords (@inflight_next s i h)
  rw [listReadWords_append, listReadWords_append, hmap, hmap] at hq
  have hreg := @regReadWords_next s i
  unfold readWords
  omega

/-- At most sixteen entries and the command in the input registers. -/
theorem readWords_le (h : Sound s) : s.readWords ≤ 34 := by
  have hl : s.inflight.length ≤ 16 := by
    have hroom := h.room
    rw [inflight, List.length_map, entries, List.length_append, List.length_append]
    have havl : (if s.avl.req then [s.avl] else []).length ≤ 1 := by split <;> simp
    change _ + s.fifo.usedw + _ ≤ 16
    omega
  have hw := listReadWords_le h.size
  have hreg : s.regReadWords ≤ 2 := by
    unfold regReadWords
    split
    case isTrue hr => exact h.read hr
    case isFalse => exact Nat.zero_le 2
  unfold readWords
  omega

end AvalonTrafficGen

end LimeSdrQpcie
