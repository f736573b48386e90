import LimeSdrQpcie.Nios.Main

/-! What one access to a packet and one transfer to a peripheral make of the state. -/

namespace LimeSdrQpcie

namespace Nios

open Prog

/-! ## Packets -/

theorem CtrlPacket.field_setField {p : CtrlPacket} {i : Nat} {v : Byte} (h : i < dataFieldSize) (j : Nat) :
    (p.setField i v).field j = if j = i then v else p.field j := by
  unfold CtrlPacket.field CtrlPacket.setField
  by_cases hj : j < dataFieldSize
  · simp only [dif_pos hj]
  · rw [dif_neg hj, dif_neg hj, if_neg]
    rintro rfl
    exact hj h

/-! ## Accesses -/

section Access

variable {s : Fw} {E : Fault → Prop} {i : Nat}

theorem wp_rdRx {Q : Byte → Fw → Prop} (h : i < dataFieldSize) :
    wp (rdRx i) Q E s ↔ Q (s.rx.field i) s := by
  simp only [rdRx, wp_bind, wp_get, if_pos h, wp_pure]

theorem wp_wrRx {Q : Unit → Fw → Prop} {v : Byte} (h : i < dataFieldSize) :
    wp (wrRx i v) Q E s ↔ Q () { s with rx := s.rx.setField i v } := by
  simp only [wrRx, if_pos h, wp_modify]

theorem wp_wrTx {Q : Unit → Fw → Prop} {v : Byte} (h : i < dataFieldSize) :
    wp (wrTx i v) Q E s ↔ Q () { s with tx := s.tx.setField i v } := by
  simp only [wrTx, if_pos h, wp_modify]

theorem wp_rdRx_out {Q : Byte → Fw → Prop} (h : dataFieldSize ≤ i) : wp (rdRx i) Q E s ↔ E (.rx i) := by
  simp only [rdRx, wp_bind, wp_get, if_neg (Nat.not_lt.mpr h), wp_throw]

theorem wp_wrTx_out {Q : Unit → Fw → Prop} {v : Byte} (h : dataFieldSize ≤ i) :
    wp (wrTx i v) Q E s ↔ E (.tx i) := by
  simp only [wrTx, if_neg (Nat.not_lt.mpr h), wp_throw]

theorem CtrlPacket.bytes_succ (p : CtrlPacket) (i n : Nat) :
    p.bytes i (n + 1) = p.bytes i n ++ [p.field (i + n)] := by
  simp only [CtrlPacket.bytes, List.range_succ, List.map_append, List.map_cons, List.map_nil]

theorem wp_rdRxBytes {n : Nat} {Q : List Byte → Fw → Prop} (h : i + n ≤ dataFieldSize) :
    wp (rdRxBytes i n) Q E s ↔ Q (s.rx.bytes i n) s := by
  induction n generalizing Q with
  | zero => rfl
  | succ n ih =>
      have hn : i + n < dataFieldSize := h
      simp only [rdRxBytes, wp_bind, ih (Nat.le_of_succ_le h), wp_rdRx hn, wp_pure, CtrlPacket.bytes_succ]

end Access

/-! ## Steps that stop for nothing -/

section Steps

variable {s : Fw} {E : Fault → Prop}

@[simp] theorem wp_setStatus {Q : Unit → Fw → Prop} (v : Byte) :
    wp (setStatus v) Q E s ↔
      Q () { s with tx := { s.tx with header := { s.tx.header with status := v } } } := Iff.rfl

@[simp] theorem wp_addErrors {Q : Unit → Fw → Prop} (n : Byte) :
    wp (addErrors n) Q E s ↔ Q () { s with cmdErrors := s.cmdErrors + n } := Iff.rfl

@[simp] theorem wp_altAvalonSpiCommand {Q : (Nat → Byte) → Fw → Prop} (base : SpiBase) (slave : Nat)
    (wr : List Byte) (rd : Nat) (r : DevResp) :
    wp (altAvalonSpiCommand base slave wr rd r) Q E s ↔
      Q r.spiRd { s with ops := s.ops ++ [.spi base slave wr rd] } := Iff.rfl

@[simp] theorem wp_i2cStart {Q : Byte → Fw → Prop} (addr : BitVec 7) (read : Bool) (r : DevResp) :
    wp (i2cStart addr read r) Q E s ↔
      Q (i2cResult r) { s with ops := s.ops ++ [.i2cStart addr read r.noack] } := Iff.rfl

@[simp] theorem wp_i2cWrite {Q : Byte → Fw → Prop} (data : Byte) (last : Bool) (r : DevResp) :
    wp (i2cWrite data last r) Q E s ↔
      Q (i2cResult r) { s with ops := s.ops ++ [.i2cWrite data last r.noack] } := Iff.rfl

@[simp] theorem wp_i2cRead {Q : BitVec 32 → Fw → Prop} (last : Bool) (r : DevResp) :
    wp (i2cRead last r) Q E s ↔ Q r.rxr { s with ops := s.ops ++ [.i2cRead last] } := Iff.rfl

end Steps

/-! ## Counts -/

/-- Whether a transfer stayed without an acknowledge. -/
def DevOp.noack : DevOp → Bool
  | .spi .. => false
  | .i2cStart _ _ noack => noack
  | .i2cWrite _ _ noack => noack
  | .i2cRead _ => false

/-- How many transfers have stayed without an acknowledge. -/
def Fw.noacks (s : Fw) : Nat := s.ops.countP DevOp.noack

/-- From `s` to `s'` the headers stay, `e` errors are counted and `f` transfers fail. -/
structure Counts (e f : Nat) (s s' : Fw) : Prop where
  rxHeader : s'.rx.header = s.rx.header
  txHeader : s'.tx.header = s.tx.header
  cmdErrors : s'.cmdErrors = s.cmdErrors + BitVec.ofNat 8 e
  noacks : s'.noacks = s.noacks + f

theorem Counts.refl (s : Fw) : Counts 0 0 s s := ⟨rfl, rfl, (BitVec.add_zero _).symm, rfl⟩

theorem Counts.trans {e e' f f' : Nat} {s s' s'' : Fw} (h : Counts e f s s') (h' : Counts e' f' s' s'') :
    Counts (e + e') (f + f') s s'' where
  rxHeader := h'.rxHeader.trans h.rxHeader
  txHeader := h'.txHeader.trans h.txHeader
  cmdErrors := by rw [h'.cmdErrors, h.cmdErrors, BitVec.ofNat_add, BitVec.add_assoc]
  noacks := by rw [h'.noacks, h.noacks, Nat.add_assoc]

/-- What the turns of a loop add up to. -/
def total (f : Nat → Nat) : Nat → Nat
  | 0 => 0
  | n + 1 => total f n + f n

theorem total_eq_zero {f : Nat → Nat} {n : Nat} : total f n = 0 ↔ ∀ b < n, f b = 0 := by
  induction n with
  | zero => exact ⟨fun _ _ hb => absurd hb (Nat.not_lt_zero _), fun _ => rfl⟩
  | succ n ih =>
      rw [total, Nat.add_eq_zero_iff, ih]
      constructor
      · rintro ⟨h, hn⟩ b hb
        rcases Nat.lt_succ_iff_lt_or_eq.mp hb with hb | rfl
        · exact h b hb
        · exact hn
      · intro h
        exact ⟨fun b hb => h b (Nat.lt_succ_of_lt hb), h n (Nat.lt_succ_self n)⟩

theorem total_le {f : Nat → Nat} {k : Nat} (h : ∀ b, f b ≤ k) (n : Nat) : total f n ≤ n * k := by
  induction n with
  | zero => exact Nat.zero_le _
  | succ n ih =>
      rw [total, Nat.succ_mul]
      exact Nat.add_le_add ih (h n)

/-- A loop whose turns read a packet that they leave alone. -/
theorem each_counts {body : Nat → FwCmd Unit} {n : Nat} {e f : Nat → Nat} {P : Nat → Prop} {s : Fw}
    (hbody : ∀ b < n, ∀ s', s'.rx = s.rx →
      wp (body b) (fun _ t => P b ∧ t.rx = s.rx ∧ Counts (e b) (f b) s' t) (fun _ => ¬ P b) s') :
    wp (each body n) (fun _ t => (∀ b < n, P b) ∧ t.rx = s.rx ∧ Counts (total e n) (total f n) s t)
      (fun _ => ¬ ∀ b < n, P b) s := by
  refine wp_each (fun i t => (∀ b < i, P b) ∧ t.rx = s.rx ∧ Counts (total e i) (total f i) s t)
    ⟨fun _ hb => absurd hb (Nat.not_lt_zero _), rfl, Counts.refl s⟩ ?_
  intro i hi t ⟨hP, hrx, hc⟩
  refine wp_mono (hbody i hi t hrx) ?_ fun _ hn h => hn (h i hi)
  rintro _ t' ⟨hPi, hrx', hc'⟩
  refine ⟨fun b hb => ?_, hrx', hc.trans hc'⟩
  rcases Nat.lt_succ_iff_lt_or_eq.mp hb with hb | rfl
  · exact hP b hb
  · exact hPi

/-- A loop whose turns may set bits in the packet received. -/
theorem each_quiet {body : Nat → FwCmd Unit} {n : Nat} {E : Fault → Prop} {s : Fw}
    (hbody : ∀ b < n, ∀ s', s'.rx.header = s.rx.header → wp (body b) (fun _ => Counts 0 0 s') E s') :
    wp (each body n) (fun _ => Counts 0 0 s) E s := by
  refine wp_each (fun _ => Counts 0 0 s) (Counts.refl s) ?_
  intro i hi t hc
  exact wp_post (hbody i hi t hc.rxHeader) fun _ t' hc' => hc.trans hc'

end Nios

end LimeSdrQpcie
