import Mathlib.Algebra.Ring.Nat
import Mathlib.Data.List.Induction
import Mathlib.Tactic.Common

/-!
# Serial ports

A serial port has a clock, a data line and an enable line that is active low. The bits of the rising edges while
the enable line is low make frames of a fixed length, one after the other; a frame ends early when the enable line
goes high.
-/

namespace Hdl

/-- What happens on a serial port. The clock edges come with the other inputs `π` of the moment. -/
inductive SerialEvent (π : Type) where
  | rise (sdin : Bool) (pins : π)
  | fall (pins : π)
  | enable (sen : Bool)

/-- Where a session stands: the level of the enable line and the bits of the frame that has begun last. A frame
that is complete stays until the next one begins. -/
structure SerialSession where
  sen : Bool
  bits : List Bool
  deriving DecidableEq, Repr

namespace SerialSession

variable {π : Type} {len : Nat}

/-- The bits of the frame after one more bit. -/
def bitsNext (len : Nat) (s : SerialSession) (sdin : Bool) : List Bool :=
  if s.bits.length = len then [sdin] else s.bits ++ [sdin]

def next (len : Nat) (s : SerialSession) : SerialEvent π → SerialSession
  | .rise sdin _ => if s.sen then s else { s with bits := s.bitsNext len sdin }
  | .fall _ => s
  | .enable sen => { sen := sen, bits := if sen then [] else s.bits }

def run (len : Nat) (s : SerialSession) (es : List (SerialEvent π)) : SerialSession := es.foldl (next len) s

/-- The frame an event completes. -/
def completed (len : Nat) (s : SerialSession) : SerialEvent π → List (List Bool)
  | .rise sdin _ => if s.sen = false ∧ (s.bitsNext len sdin).length = len then [s.bitsNext len sdin] else []
  | .fall _ => []
  | .enable _ => []

/-- The complete frames of a session, in order. -/
def frames (len : Nat) (s : SerialSession) : List (SerialEvent π) → List (List Bool)
  | [] => []
  | e :: es => s.completed len e ++ frames len (s.next len e) es

theorem run_append (s : SerialSession) (es fs : List (SerialEvent π)) :
    run len s (es ++ fs) = run len (run len s es) fs := List.foldl_append

theorem next_fall (s : SerialSession) (p : π) : s.next len (.fall p) = s := rfl

theorem next_rise {s : SerialSession} (h : s.sen = false) (d : Bool) (p : π) :
    s.next len (.rise d p) = { s with bits := s.bitsNext len d } := by
  simp [next, h]

theorem next_rise_high {s : SerialSession} (h : s.sen = true) (d : Bool) (p : π) : s.next len (.rise d p) = s := by
  simp [next, h]

theorem bitsNext_of_lt {s : SerialSession} (h : s.bits.length < len) (d : Bool) :
    s.bitsNext len d = s.bits ++ [d] := if_neg (Nat.ne_of_lt h)

theorem bitsNext_of_eq {s : SerialSession} (h : s.bits.length = len) (d : Bool) : s.bitsNext len d = [d] := if_pos h

/-- What a session can be in: no frame is longer than its length, and none has begun while the enable line is
high. -/
structure Ok (len : Nat) (s : SerialSession) : Prop where
  length_le : s.bits.length ≤ len
  idle : s.sen = true → s.bits = []

theorem Ok.next {s : SerialSession} (h : Ok len s) (hlen : 0 < len) (e : SerialEvent π) : Ok len (s.next len e) := by
  cases e with
  | rise d p =>
      cases hs : s.sen with
      | false =>
          rw [next_rise hs]
          refine ⟨?_, fun h' => absurd (hs.symm.trans h') (by decide)⟩
          rcases Nat.lt_or_eq_of_le h.length_le with hlt | heq
          · simp only [bitsNext_of_lt hlt, List.length_append, List.length_singleton]
            exact hlt
          · simp only [bitsNext_of_eq heq, List.length_singleton]
            exact hlen
      | true =>
          rw [next_rise_high hs]
          exact h
  | fall p => exact h
  | enable sen =>
      cases sen with
      | false => exact ⟨h.length_le, fun h' => nomatch h'⟩
      | true => exact ⟨Nat.zero_le _, fun _ => rfl⟩

end SerialSession

/-! ## Shift registers -/

variable {n : Nat}

/-- The word whose bits come in most significant first. -/
def msbFirst (n : Nat) (bits : List Bool) : BitVec n := bits.foldl BitVec.shiftConcat 0

theorem foldl_shiftConcat_getLsbD (bits : List Bool) (w : BitVec n) (i : Nat) (hi : i < n) :
    (bits.foldl BitVec.shiftConcat w).getLsbD i =
      if i < bits.length then bits.reverse.getD i false else w.getLsbD (i - bits.length) := by
  induction bits using List.reverseRecOn generalizing i with
  | nil => rfl
  | append_singleton bits b ih =>
      rw [List.foldl_append, List.foldl_cons, List.foldl_nil, BitVec.getLsbD_shiftConcat, decide_eq_true hi,
        Bool.true_and, List.reverse_append, List.length_append, List.length_singleton]
      cases i with
      | zero => simp
      | succ i =>
          rw [if_neg (Nat.succ_ne_zero i), Nat.succ_sub_one, ih i (Nat.lt_of_succ_lt hi)]
          simp

/-- A register that has taken in as many bits as it is wide holds these bits, whatever it held before. -/
theorem foldl_shiftConcat {bits : List Bool} (h : bits.length = n) (w : BitVec n) :
    bits.foldl BitVec.shiftConcat w = msbFirst n bits := by
  apply BitVec.eq_of_getLsbD_eq
  intro i hi
  rw [msbFirst, foldl_shiftConcat_getLsbD _ _ _ hi, foldl_shiftConcat_getLsbD _ _ _ hi, if_pos (by omega),
    if_pos (by omega)]

theorem msbFirst_append (pre : List Bool) {bits : List Bool} (h : bits.length = n) :
    msbFirst n (pre ++ bits) = msbFirst n bits := by
  rw [msbFirst, List.foldl_append, foldl_shiftConcat h]

/-- The bits of a word, most significant first. -/
def msbs (w : BitVec n) : List Bool := List.ofFn fun i : Fin n => w.getMsbD i

@[simp] theorem msbs_length (w : BitVec n) : (msbs w).length = n := List.length_ofFn

theorem take_msbs_succ (w : BitVec n) {k : Nat} (hk : k < n) :
    (msbs w).take (k + 1) = (msbs w).take k ++ [w.getMsbD k] := by
  have hlen : k < (msbs w).length := by rw [msbs_length]; exact hk
  rw [List.take_add_one, List.getElem?_eq_getElem hlen]
  simp [msbs]

theorem msbFirst_msbs (w : BitVec n) : msbFirst n (msbs w) = w := by
  apply BitVec.eq_of_getLsbD_eq
  intro i hi
  have hlen : i < (msbs w).reverse.length := by simp [hi]
  have hrev : n - 1 - (n - 1 - i) = i := by omega
  rw [msbFirst, foldl_shiftConcat_getLsbD _ _ _ hi, msbs_length, if_pos hi, List.getD_eq_getElem?_getD,
    List.getElem?_eq_getElem hlen, Option.getD_some, List.getElem_reverse]
  simp [msbs, BitVec.getMsbD, hrev]

end Hdl
