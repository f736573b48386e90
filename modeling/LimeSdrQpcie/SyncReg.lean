import Mathlib.Tactic.Common

/-!
# Synchronisers

`sync_reg` and `bus_sync_reg`: two registers in a row in the clock domain a signal goes to.
-/

namespace LimeSdrQpcie

structure SyncReg (α : Type) where
  syncReg0 : α
  syncReg1 : α
  deriving DecidableEq, Repr

namespace SyncReg

variable {α : Type}

def next (s : SyncReg α) (asyncIn : α) : SyncReg α := ⟨asyncIn, s.syncReg0⟩

def syncOut (s : SyncReg α) : α := s.syncReg1

end SyncReg

/-- `bus_synch`, with a third register. -/
structure BusSynch (α : Type) where
  signalD0 : α
  signalD1 : α
  signalD2 : α

namespace BusSynch

variable {α : Type}

def next (s : BusSynch α) (signalIn : α) : BusSynch α := ⟨signalIn, s.signalD0, s.signalD1⟩

def signalSinch (s : BusSynch α) : α := s.signalD2

end BusSynch

end LimeSdrQpcie
