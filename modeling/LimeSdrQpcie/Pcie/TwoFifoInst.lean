import LimeSdrQpcie.Pcie.H2F

/-!
# Two FIFOs in a row

`two_fifo_inst` as it stands behind the host to FPGA streams: `TRNSF_SIZE` 512 bytes, `TRNSF_N` 8, a first FIFO
of 512 words of 32 bits and a second one of 256 words of 128 bits, written 32 bits at a time.
-/

namespace LimeSdrQpcie

open Hdl

/-- Four 32-bit words read as a 128-bit word, the first one in the lowest bits. -/
def word128 (ws : List (BitVec 32)) : BitVec 128 :=
  ws.getD 3 0 ++ ws.getD 2 0 ++ ws.getD 1 0 ++ ws.getD 0 0

inductive TwoFifoState where
  | idle
  | checkFifo0
  | checkTrnsf
  | trnsfFifo
  | checkFifo1
  deriving DecidableEq, Repr

structure TwoFifoInst where
  inst0 : Fifo (BitVec 32) (fifoWords 10)
  inst0Q : BitVec 32
  inst1 : Fifo (BitVec 32) (fifoWords 11)
  inst1Q : BitVec 128
  currentState : TwoFifoState
  trnsfCnt : Nat
  rdCnt : Nat
  inst0Rdreq : Bool
  inst1Wrreq : Bool

/-- What happens at an edge of `wrclk`. A full flag may stay up late, an empty flag come late, and a count be too
small. -/
structure TwoFifoWrIn where
  /-- The word that is written unless the FIFO says that it is full. -/
  data : Option (BitVec 32)
  wrfullLate : Bool
  inst0RdusedwAtMost : Nat
  inst1WremptyLate : Bool

namespace TwoFifoInst

def reset : TwoFifoInst :=
  { inst0 := Fifo.empty, inst0Q := 0, inst1 := Fifo.empty, inst1Q := 0, currentState := .idle, trnsfCnt := 0,
    rdCnt := 0, inst0Rdreq := false, inst1Wrreq := false }

def inst0Rdusedw (s : TwoFifoInst) (i : TwoFifoWrIn) : Nat := min i.inst0RdusedwAtMost s.inst0.usedw

def inst1Wrempty (s : TwoFifoInst) (i : TwoFifoWrIn) : Bool := s.inst1.usedw == 0 && !i.inst1WremptyLate

/-- The word the host writes. -/
def hostWord (s : TwoFifoInst) (i : TwoFifoWrIn) : Option (BitVec 32) :=
  if s.inst0.isFull || i.wrfullLate then none else i.data

def nextState (s : TwoFifoInst) (i : TwoFifoWrIn) : TwoFifoState :=
  match s.currentState with
  | .idle => if s.inst0Rdusedw i > 512 * 8 / 32 - 1 ∧ s.inst1Wrempty i = true then .checkTrnsf else .idle
  | .checkTrnsf => if s.trnsfCnt < 8 then .checkFifo0 else .checkFifo1
  | .checkFifo0 => if s.inst0Rdusedw i > 512 * 8 / 32 - 1 then .trnsfFifo else .checkFifo0
  | .trnsfFifo => if s.rdCnt < 512 * 8 / 32 - 1 then .trnsfFifo else .checkTrnsf
  | .checkFifo1 => if s.inst1Wrempty i then .idle else .checkFifo1

/-- What `reset_1_n` clears: everything but the first FIFO. -/
def clear (s : TwoFifoInst) : TwoFifoInst :=
  { s with
    inst1 := Fifo.empty
    currentState := .idle
    trnsfCnt := 0
    rdCnt := 0
    inst0Rdreq := false
    inst1Wrreq := false }

/-- An edge of `wrclk`; `reset_0_n` is high. -/
def wrEdge (s : TwoFifoInst) (reset1N : Bool) (i : TwoFifoWrIn) : TwoFifoInst :=
  let s' : TwoFifoInst :=
    { inst0 := s.inst0.next (s.hostWord i) (if s.inst0Rdreq then 1 else 0)
      inst0Q := if s.inst0Rdreq then s.inst0.store.head?.getD s.inst0Q else s.inst0Q
      inst1 := s.inst1.next (if s.inst1Wrreq then some s.inst0Q else none) 0
      inst1Q := s.inst1Q
      currentState := s.nextState i
      trnsfCnt :=
        if s.currentState = .checkTrnsf then (s.trnsfCnt + 1) % 2 ^ 8
        else if s.currentState = .idle then 0
        else s.trnsfCnt
      rdCnt := if s.currentState = .trnsfFifo then (s.rdCnt + 1) % 2 ^ 16 else 0
      inst0Rdreq := if s.currentState = .trnsfFifo then true else false
      inst1Wrreq := s.inst0Rdreq }
  if reset1N then s' else s'.clear

/-- An edge of `rdclk`: four words leave the second FIFO unless it is empty. -/
def rdEdge (s : TwoFifoInst) (rdreq : Bool) : TwoFifoInst :=
  if rdreq = true ∧ 4 ≤ s.inst1.usedw then
    { s with
      inst1 := s.inst1.next none 4
      inst1Q := word128 (s.inst1.store.take 4) }
  else s

/-- `rdusedw` in words of 128 bits. -/
def rdusedw (s : TwoFifoInst) (atMost : Nat) : Nat := min atMost (s.inst1.usedw / 4)

end TwoFifoInst

end LimeSdrQpcie
