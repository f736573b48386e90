import LimeSdrQpcie.Hdl.Signal

/-!
# FIFOs

A FIFO between two sides that need not share a clock, seen from the clock of one of them. In a cycle some
of the words that were there at its beginning leave and at most one word comes. A word written to a full
FIFO is ignored.
-/

namespace Hdl

/-- A FIFO of `depth` words, the oldest word first. -/
structure Fifo (α : Type) (depth : Nat) where
  store : List α
  length_le : store.length ≤ depth

namespace Fifo

variable {α : Type} {depth : Nat}

def empty : Fifo α depth := ⟨[], Nat.zero_le _⟩

def usedw (f : Fifo α depth) : Nat := f.store.length

def isFull (f : Fifo α depth) : Bool := decide (f.usedw = depth)

/-- The word that enters when `wr` is on the write port. -/
def accepted (f : Fifo α depth) (wr : Option α) : Option α := if f.isFull then none else wr

/-- A cycle in which `rd` words leave and `wr` is on the write port. -/
def next (f : Fifo α depth) (wr : Option α) (rd : Nat) : Fifo α depth :=
  ⟨f.store.drop rd ++ (f.accepted wr).toList, by
    have hle := f.length_le
    unfold accepted isFull usedw
    cases wr with
    | none => simp; omega
    | some a =>
        by_cases h : f.store.length = depth
        · simp [h]
        · simp [h]; omega⟩

/-- The words that enter when the write port is wider than a word and `wr` is on it: all or none. -/
def acceptedWide (f : Fifo α depth) (wr : List α) : List α := if f.usedw + wr.length ≤ depth then wr else []

/-- A cycle in which `rd` words leave and `wr` is on a write port that is wider than a word. -/
def nextWide (f : Fifo α depth) (wr : List α) (rd : Nat) : Fifo α depth :=
  ⟨f.store.drop rd ++ f.acceptedWide wr, by
    have hle := f.length_le
    unfold acceptedWide usedw
    split
    · simp; omega
    · simp; omega⟩

@[simp] theorem empty_store : (empty : Fifo α depth).store = [] := rfl

@[simp] theorem next_store (f : Fifo α depth) (wr : Option α) (rd : Nat) :
    (f.next wr rd).store = f.store.drop rd ++ (f.accepted wr).toList := rfl

@[simp] theorem nextWide_store (f : Fifo α depth) (wr : List α) (rd : Nat) :
    (f.nextWide wr rd).store = f.store.drop rd ++ f.acceptedWide wr := rfl

theorem usedw_le (f : Fifo α depth) : f.usedw ≤ depth := f.length_le

@[simp] theorem accepted_none (f : Fifo α depth) : f.accepted none = none := by
  simp [accepted]

theorem accepted_of_not_full {f : Fifo α depth} (h : f.isFull = false) (wr : Option α) :
    f.accepted wr = wr := by
  simp [accepted, h]

theorem isFull_eq_true {f : Fifo α depth} : f.isFull = true ↔ f.usedw = depth := by
  simp [isFull]

theorem isFull_eq_false {f : Fifo α depth} : f.isFull = false ↔ f.usedw < depth := by
  have := f.usedw_le
  simp only [isFull, decide_eq_false_iff_not]
  omega

/-- The words that have left before cycle `n`. -/
def taken (f : Nat → Fifo α depth) (rd : Nat → Nat) : Nat → List α
  | 0 => []
  | n + 1 => taken f rd n ++ (f n).store.take (rd n)

/-- What went in is what came out and what is still there, in order. -/
theorem taken_append_store {f : Nat → Fifo α depth} {rd : Nat → Nat} (wr : Nat → Option α)
    (h0 : f 0 = empty) (hs : ∀ n, f (n + 1) = (f n).next (wr n) (rd n)) (n : Nat) :
    taken f rd n ++ (f n).store = words (fun m => (f m).accepted (wr m)) n := by
  induction n with
  | zero => simp [taken, h0]
  | succ n ih =>
      rw [words_succ, ← ih, hs, next_store, taken, List.append_assoc, List.append_assoc,
        ← List.append_assoc (List.take _ _), List.take_append_drop]

/-- A FIFO that is not written while it is full loses nothing. -/
theorem taken_append_store_of_not_full {f : Nat → Fifo α depth} {rd : Nat → Nat} (wr : Nat → Option α)
    (h0 : f 0 = empty) (hs : ∀ n, f (n + 1) = (f n).next (wr n) (rd n))
    (hw : ∀ n, wr n ≠ none → (f n).isFull = false) (n : Nat) :
    taken f rd n ++ (f n).store = words wr n := by
  have hacc : (fun m => (f m).accepted (wr m)) = wr := by
    funext m
    cases h : wr m with
    | none => exact accepted_none _
    | some a => exact accepted_of_not_full (hw m (by simp [h])) _
  rw [taken_append_store wr h0 hs, hacc]

/-- A FIFO that is never written stays empty. -/
theorem store_eq_nil {f : Nat → Fifo α depth} {rd : Nat → Nat} {wr : Nat → Option α} (h0 : f 0 = empty)
    (hs : ∀ n, f (n + 1) = (f n).next (wr n) (rd n)) (hw : ∀ n, wr n = none) (n : Nat) :
    (f n).store = [] := by
  induction n with
  | zero => rw [h0]; rfl
  | succ n ih => simp [hs, hw, ih]

/-- A FIFO that is written in every cycle and never read fills up. -/
theorem usedw_eq_min {f : Nat → Fifo α depth} {wr : Nat → Option α} (h0 : f 0 = empty)
    (hs : ∀ n, f (n + 1) = (f n).next (wr n) 0) (hw : ∀ n, (wr n).isSome = true) (n : Nat) :
    (f n).usedw = min n depth := by
  induction n with
  | zero => rw [h0]; simp [usedw]
  | succ n ih =>
      obtain ⟨a, ha⟩ := Option.isSome_iff_exists.mp (hw n)
      have hacc : (f (n + 1)).usedw = (f n).usedw + if (f n).isFull then 0 else 1 := by
        rw [hs, ha, usedw, next_store, List.drop_zero, List.length_append, accepted, usedw]
        cases (f n).isFull <;> rfl
      rw [hacc, isFull, ih]
      by_cases hd : n < depth
      · rw [if_neg (by simp; omega)]
        omega
      · rw [if_pos (by simp; omega)]
        omega

end Fifo

end Hdl
