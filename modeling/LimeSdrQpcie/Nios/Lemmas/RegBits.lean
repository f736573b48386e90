import Mathlib.Data.List.Induction
import Mathlib.Logic.Function.Basic
import LimeSdrQpcie.Hdl.Bits
import LimeSdrQpcie.Nios.Lemmas.Analog

/-! Bit fields of the FPGA registers: what a modification writes, and what the registers hold after many of them. -/

namespace LimeSdrQpcie

namespace Nios

open Hdl Prog

/-! ## The registers -/

/-- The value that a transfer writes to register `a` of the FPGA: the top bit of the address asks for a write. -/
def regWrite (a : BitVec 15) : DevOp → Option (BitVec 16)
  | .spi .fpgaSpi0 slave [ahi, alo, hi, lo] _ =>
    if slave = spiNrFpga ∧ (word16 ahi alo).msb = true ∧ (word16 ahi alo).setWidth 15 = a then some (word16 hi lo)
    else none
  | _ => none

/-- What the registers hold after the transfers `ops` when they held `init` before. -/
def deviceRegs (init : BitVec 15 → BitVec 16) (ops : List DevOp) (a : BitVec 15) : BitVec 16 :=
  lastWrite (regWrite a) (init a) ops

/-- The answer of a register that holds `w` to a read. -/
def regResp (w : BitVec 16) : DevResp := ⟨false, 0, fun i => if i = 0 then hiByte w else loByte w⟩

/-- A call of `Modify_BRDSPI16_Reg_bits`. -/
structure RegBits where
  addr : BitVec 16
  msb : Nat
  lsb : Nat
  data : BitVec 16
  lsb_le : lsb ≤ msb
  msb_le : msb ≤ 15

namespace RegBits

/-- The register of a call. -/
def reg (c : RegBits) : BitVec 15 := c.addr.setWidth 15

/-- Bit `i` of register `a` is in the field of the call. -/
def Covers (c : RegBits) (a : BitVec 15) (i : Nat) : Prop := c.reg = a ∧ c.lsb ≤ i ∧ i ≤ c.msb

instance (c : RegBits) (a : BitVec 15) (i : Nat) : Decidable (c.Covers a i) :=
  inferInstanceAs (Decidable (_ ∧ _ ∧ _))

/-- The registers after the call. -/
def apply (c : RegBits) (m : BitVec 15 → BitVec 16) : BitVec 15 → BitVec 16 :=
  Function.update m c.reg (putBits c.msb c.lsb c.data (m c.reg))

end RegBits

/-- Calls one after the other, each of which is answered by the register it reads. -/
def modifyRegs (init : BitVec 15 → BitVec 16) : List RegBits → FwCmd Unit
  | [] => pure ()
  | c :: cs => do
    let s ← get
    modifyBRDSPI16RegBits c.addr c.msb c.lsb c.data (regResp (deviceRegs init s.ops c.reg))
    modifyRegs init cs

/-! ## One call -/

/-- The transfer that reads the register at an address, and the one that writes `w` to it. -/
def readReg (addr : BitVec 16) : DevOp := .spi .fpgaSpi0 spiNrFpga [cbi7 (hiByte addr), loByte addr] 2

def writeReg (addr w : BitVec 16) : DevOp :=
  .spi .fpgaSpi0 spiNrFpga [sbi7 (hiByte addr), loByte addr, hiByte w, loByte w] 0

theorem wp_modifyBRDSPI16RegBits {Q : Unit → Fw → Prop} {E : Fault → Prop} {s : Fw} (addr : BitVec 16)
    (msb lsb : Nat) (data : BitVec 16) (r : DevResp) :
    wp (modifyBRDSPI16RegBits addr msb lsb data r) Q E s ↔
      Q () { s with ops := s.ops ++
        [readReg addr, writeReg addr (putBits msb lsb data (word16 (r.spiRd 0) (r.spiRd 1)))] } := by
  simp only [modifyBRDSPI16RegBits, wp_bind, wp_altAvalonSpiCommand, wp_pure, List.append_assoc,
    List.singleton_append]
  rfl

theorem word16_eq_append (hi lo : Byte) : word16 hi lo = hi ++ lo := by
  apply BitVec.eq_of_toNat_eq
  have hhi := hi.isLt
  have hlo := lo.isLt
  rw [BitVec.toNat_append, ← Nat.shiftLeft_add_eq_or_of_lt hlo]
  simp only [word16, BitVec.toNat_add, BitVec.toNat_shiftLeft, BitVec.toNat_setWidth, Nat.shiftLeft_eq]
  omega

theorem getLsbD_sbi7 (v : Byte) (i : Nat) : (sbi7 v).getLsbD i = (v.getLsbD i || decide (i = 7)) := by
  have h : (0x80 : Byte) = BitVec.twoPow 8 7 := rfl
  rw [sbi7, BitVec.getLsbD_or, h, BitVec.getLsbD_twoPow]
  simp [eq_comm]

/-- The write bit stands over the address. -/
theorem writeAddr_msb (addr : BitVec 16) : (word16 (sbi7 (hiByte addr)) (loByte addr)).msb = true := by
  rw [word16_eq_append, BitVec.msb_eq_getLsbD_last, BitVec.getLsbD_append]
  exact (getLsbD_sbi7 _ 7).trans (Bool.or_true _)

theorem writeAddr_reg (addr : BitVec 16) :
    (word16 (sbi7 (hiByte addr)) (loByte addr)).setWidth 15 = addr.setWidth 15 := by
  rw [word16_eq_append]
  apply BitVec.eq_of_getLsbD_eq
  intro i hi
  rw [BitVec.getLsbD_setWidth, BitVec.getLsbD_setWidth, BitVec.getLsbD_append]
  by_cases h : i < 8
  · simp [h, loByte]
  · have h7 : ¬ i - 8 = 7 := by omega
    have h8 : i - 8 < 8 := by omega
    have hadd : 8 + (i - 8) = i := by omega
    rw [if_neg h, getLsbD_sbi7, decide_eq_false h7, Bool.or_false, hiByte, BitVec.getLsbD_setWidth,
      BitVec.getLsbD_ushiftRight, hadd, decide_eq_true h8, Bool.true_and]

theorem regWrite_readReg (a : BitVec 15) (addr : BitVec 16) : regWrite a (readReg addr) = none := rfl

theorem regWrite_writeReg (a : BitVec 15) (addr w : BitVec 16) :
    regWrite a (writeReg addr w) = if addr.setWidth 15 = a then some w else none := by
  simp only [writeReg, regWrite, writeAddr_msb, writeAddr_reg, word16_bytes, true_and]

/-- A call changes the register it reads, as the register answers. -/
theorem deviceRegs_call (init : BitVec 15 → BitVec 16) (ops : List DevOp) (c : RegBits) :
    deviceRegs init (ops ++ [readReg c.addr, writeReg c.addr
      (putBits c.msb c.lsb c.data (deviceRegs init ops c.reg))]) = c.apply (deviceRegs init ops) := by
  funext a
  have happ : ∀ x y : DevOp, ops ++ [x, y] = (ops ++ [x]) ++ [y] := fun x y => by simp
  rw [deviceRegs, happ]
  by_cases ha : c.reg = a
  · subst ha
    rw [lastWrite_last (a := putBits c.msb c.lsb c.data (deviceRegs init ops c.reg)), RegBits.apply,
      Function.update_self]
    exact (regWrite_writeReg _ _ _).trans (if_pos rfl)
  · rw [RegBits.apply, Function.update_of_ne (Ne.symm ha), lastWrite_frame, lastWrite_frame]
    · rfl
    · intro op hop
      rw [List.mem_singleton.mp hop]
      exact regWrite_readReg a c.addr
    · intro op hop
      rw [List.mem_singleton.mp hop]
      exact (regWrite_writeReg _ _ _).trans (if_neg ha)

/-! ## Many calls -/

/-- The calls end, and they do to the registers what they say, one after the other. -/
theorem wp_modifyRegs {E : Fault → Prop} (init : BitVec 15 → BitVec 16) (cs : List RegBits) (s : Fw) :
    wp (modifyRegs init cs)
      (fun _ t => deviceRegs init t.ops = cs.foldl (fun m c => c.apply m) (deviceRegs init s.ops)) E s := by
  induction cs generalizing s with
  | nil => rfl
  | cons c cs ih =>
      simp only [modifyRegs, wp_bind, wp_get, wp_modifyBRDSPI16RegBits]
      have hw : word16 ((regResp (deviceRegs init s.ops c.reg)).spiRd 0)
          ((regResp (deviceRegs init s.ops c.reg)).spiRd 1) = deviceRegs init s.ops c.reg := word16_bytes _
      rw [hw]
      refine wp_post (ih _) fun _ t ht => ?_
      rw [ht, deviceRegs_call, List.foldl_cons]

namespace RegBits

/-- The bit that the last of the calls that cover it puts there. -/
def lastBit (cs : List RegBits) (a : BitVec 15) (i : Nat) : Option Bool :=
  (cs.reverse.find? fun c => c.Covers a i).map fun c => c.data.getLsbD (i - c.lsb)

theorem apply_getLsbD (c : RegBits) (m : BitVec 15 → BitVec 16) (a : BitVec 15) {i : Nat} (hi : i < 16) :
    (c.apply m a).getLsbD i = if c.Covers a i then c.data.getLsbD (i - c.lsb) else (m a).getLsbD i := by
  by_cases ha : c.reg = a
  · have hc : c.Covers a i ↔ c.lsb ≤ i ∧ i ≤ c.msb := and_iff_right ha
    subst ha
    rw [apply, Function.update_self, getLsbD_putBits _ _ hi c.lsb_le (Nat.lt_succ_of_le c.msb_le)]
    simp only [hc]
  · rw [apply, Function.update_of_ne (Ne.symm ha), if_neg fun h => ha h.1]

theorem foldl_getLsbD (cs : List RegBits) (m : BitVec 15 → BitVec 16) (a : BitVec 15) {i : Nat} (hi : i < 16) :
    (cs.foldl (fun m c => c.apply m) m a).getLsbD i = (lastBit cs a i).getD ((m a).getLsbD i) := by
  induction cs using List.reverseRecOn with
  | nil => rfl
  | append_singleton cs c ih =>
      rw [List.foldl_append, List.foldl_cons, List.foldl_nil, apply_getLsbD _ _ _ hi, ih]
      unfold lastBit
      rw [List.reverse_append, List.reverse_singleton, List.singleton_append, List.find?_cons]
      by_cases hc : c.Covers a i
      · rw [if_pos hc, decide_eq_true hc]
        rfl
      · rw [if_neg hc, decide_eq_false hc]

/-- Two lists of calls of which the last one covering a bit is the same one do the same. -/
theorem foldl_congr {cs ds : List RegBits} (h : ∀ a i, lastBit cs a i = lastBit ds a i)
    (m : BitVec 15 → BitVec 16) :
    cs.foldl (fun m c => c.apply m) m = ds.foldl (fun m c => c.apply m) m := by
  funext a
  apply BitVec.eq_of_getLsbD_eq
  intro i hi
  rw [foldl_getLsbD _ _ _ hi, foldl_getLsbD _ _ _ hi, h]

/-- No bit is in both fields. -/
def Disjoint (c d : RegBits) : Prop := c.reg = d.reg → c.msb < d.lsb ∨ d.msb < c.lsb

def SameField (c d : RegBits) : Prop := c.reg = d.reg ∧ c.msb = d.msb ∧ c.lsb = d.lsb

theorem Disjoint.not_covers {c d : RegBits} (h : c.Disjoint d) {a : BitVec 15} {i : Nat} (hc : c.Covers a i) :
    ¬ d.Covers a i := by
  rintro ⟨hd, hl, hm⟩
  obtain ⟨hr, hcl, hcm⟩ := hc
  rcases h (hr.trans hd.symm) with hlt | hlt <;> omega

theorem lastBit_swap {c d : RegBits} (h : c.Disjoint d) (pre post : List RegBits) (a : BitVec 15) (i : Nat) :
    lastBit (pre ++ c :: d :: post) a i = lastBit (pre ++ d :: c :: post) a i := by
  simp only [lastBit, List.reverse_append, List.reverse_cons, List.append_assoc, List.singleton_append,
    List.find?_append, List.find?_cons]
  by_cases hc : c.Covers a i
  · rw [decide_eq_true hc, decide_eq_false (h.not_covers hc)]
  · rw [decide_eq_false hc]

theorem SameField.covers_iff {c d : RegBits} (h : c.SameField d) (a : BitVec 15) (i : Nat) :
    c.Covers a i ↔ d.Covers a i := by
  unfold Covers
  rw [h.1, h.2.1, h.2.2]

/-- A later call on the same field leaves nothing of an earlier one. -/
theorem lastBit_same {c d : RegBits} (h : c.SameField d) (pre mid post : List RegBits) (a : BitVec 15) (i : Nat) :
    lastBit (pre ++ c :: mid ++ d :: post) a i = lastBit (pre ++ mid ++ d :: post) a i := by
  simp only [lastBit, List.reverse_append, List.reverse_cons, List.append_assoc, List.singleton_append,
    List.find?_append, List.find?_cons]
  by_cases hd : d.Covers a i
  · rw [decide_eq_true hd]
  · simp only [decide_eq_false hd, decide_eq_false fun hc => hd ((h.covers_iff a i).mp hc), List.find?_nil,
      Option.or_none]

end RegBits

end Nios

end LimeSdrQpcie
