import LimeSdrQpcie.Wfm.Lemmas.TrafficGen
import LimeSdrQpcie.Wfm.WfmMem

/-!
# The addresses of the read commands

While the generator has no write command, the addresses that the memory reads, with those that are still to come of
the entries and of the command in the input registers, are the addresses of the commands taken, in order.
-/

namespace LimeSdrQpcie

open Hdl

namespace AvlPort

@[simp] theorem readAddrs_stripped (e : AvlEntry) : readAddrs e.stripped = readAddrs e := rfl

theorem readAddrs_length (e : AvlEntry) : (readAddrs e).length = readWords e := by
  unfold readAddrs readWords
  split
  · rfl
  split
  · exact List.length_range'
  · rfl

end AvlPort

namespace AvalonTrafficGen

variable {s : AvalonTrafficGen} {i : TrafficGenIn}

/-- The addresses of the read command in the input registers. -/
def regReadAddrs (s : AvalonTrafficGen) : List Nat :=
  if s.doReadReg then List.range' s.readAddrReg s.readBurstcountReg else []

/-- The addresses that the accepted read commands still have to read, the oldest first. -/
def readAddrs (s : AvalonTrafficGen) : List Nat := s.inflight.flatMap AvlPort.readAddrs ++ s.regReadAddrs

/-- The addresses of the read command that is taken. -/
def takenReadAddrs (s : AvalonTrafficGen) (i : TrafficGenIn) : List Nat :=
  if i.doRead && s.ready then List.range' i.readAddr i.readBurstcount else []

/-- The generator holds no word to write. -/
structure NoWrites (s : AvalonTrafficGen) : Prop where
  state : s.state = .idle
  doWriteReg : s.doWriteReg = false
  inflight : ∀ e ∈ s.inflight, e.writeReq = false

theorem flatMap_stripped (l : List AvlEntry) :
    (l.map AvlEntry.stripped).flatMap AvlPort.readAddrs = l.flatMap AvlPort.readAddrs := by
  rw [List.flatMap_map]
  rfl

/-- What the generator sends without a word to write. -/
theorem NoWrites.fifoIn_eq (h : NoWrites s) (d : BitVec 64) : s.fifoIn d =
    if s.fifoFull = false ∧ s.doReadReg = true then
      some ⟨false, true, true, s.readAddrReg, s.readBurstcountReg, d⟩ else none := by
  unfold fifoIn
  cases hf : s.fifoFull <;> cases hr : s.doReadReg <;> simp [h.state, h.doWriteReg]

theorem NoWrites.ready_eq (h : NoWrites s) : s.ready = (!s.fifoFull || !s.doReadReg) := by
  unfold ready
  cases hf : s.fifoFull <;> simp [h.state, h.doWriteReg]

theorem NoWrites.wdataReq (h : NoWrites s) : s.wdataReq = false := by
  unfold AvalonTrafficGen.wdataReq
  cases hf : s.fifoFull <;> simp [h.state, h.doWriteReg]

theorem NoWrites.next (h : NoWrites s) (hs : Sound s) (hi : i.doWrite = false) : NoWrites (s.next i) := by
  refine ⟨?_, ?_, fun e he => ?_⟩
  · change s.nextState = .idle
    unfold nextState
    cases hf : s.fifoFull <;> simp [h.state, h.doWriteReg]
  · cases hr : s.ready with
    | true => simpa [AvalonTrafficGen.next, hr] using hi
    | false => simpa [AvalonTrafficGen.next, hr] using h.doWriteReg
  · have hmem : e ∈ s.inflight ++ (s.fifoIn i.wdata).toList.map AvlEntry.stripped := by
      rw [← inflight_next hs]
      exact List.mem_append_right _ he
    rcases List.mem_append.mp hmem with hold | hnew
    · exact h.inflight e hold
    · rw [h.fifoIn_eq] at hnew
      split at hnew
      case isTrue =>
        rw [Option.toList_some, List.map_singleton, List.mem_singleton] at hnew
        rw [hnew]
        rfl
      case isFalse => cases hnew

/-- A read command leaves the input registers for the command FIFO, or it stays there and no other is taken. -/
theorem NoWrites.regReadAddrs_next (h : NoWrites s) :
    (s.fifoIn i.wdata).toList.flatMap AvlPort.readAddrs ++ (s.next i).regReadAddrs =
      s.regReadAddrs ++ s.takenReadAddrs i := by
  rw [h.fifoIn_eq]
  unfold regReadAddrs takenReadAddrs
  have hready := h.ready_eq
  cases hf : s.fifoFull <;> cases hr : s.doReadReg <;> rw [hf, hr] at hready <;>
    simp [AvalonTrafficGen.next, hready, hr, AvlPort.readAddrs]

/-- What is read and what is still to be read are the commands before and the one that is taken. -/
theorem NoWrites.readAddrs_next (h : NoWrites s) (hs : Sound s) :
    (s.issued i.avlReady).toList.flatMap AvlPort.readAddrs ++ (s.next i).readAddrs =
      s.readAddrs ++ s.takenReadAddrs i := by
  have hq := congrArg (List.flatMap AvlPort.readAddrs) (@inflight_next s i hs)
  rw [List.flatMap_append, List.flatMap_append, flatMap_stripped, flatMap_stripped] at hq
  unfold readAddrs
  rw [← List.append_assoc, hq, List.append_assoc, h.regReadAddrs_next, List.append_assoc]

end AvalonTrafficGen

end LimeSdrQpcie
