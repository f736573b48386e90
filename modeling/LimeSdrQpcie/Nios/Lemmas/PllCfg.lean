import LimeSdrQpcie.Nios.PllCfg

/-! # What a turn of the main loop does for the PLLs -/

namespace LimeSdrQpcie

namespace Nios

open Prog

/-! ## Accesses -/

/-- The state after more accesses. -/
def PllFw.log (s : PllFw) (ops : List PllOp) : PllFw := { s with ops := s.ops ++ ops }

theorem PllFw.log_log (s : PllFw) (xs ys : List PllOp) : (s.log xs).log ys = s.log (xs ++ ys) := by
  simp only [log, List.append_assoc]

section Access

variable {s : PllFw} {E : Empty → Prop} {e : PllEnv} {pllBase : Fin 5} {status : Nat → BitVec 32}

@[simp] theorem wp_pllOp {Q : Unit → PllFw → Prop} (op : PllOp) : wp (pllOp op) Q E s ↔ Q () (s.log [op]) := Iff.rfl

theorem wp_pllcfgRead {Q : Byte × Byte → PllFw → Prop} (a : Byte) :
    wp (pllcfgRead e a) Q E s ↔ Q (e.regs a) (s.log [.pllcfgSpi a]) := Iff.rfl

theorem wp_setCxCnt {Q : Byte → PllFw → Prop} (v : BitVec 32) :
    wp (setCxCnt pllBase v) Q E s ↔ Q pllcfgNoerr (s.log [.coreWr pllBase pllCCounter v]) := Iff.rfl

/-! ## The waiting loop -/

/-- How many turns read zero from `STATUS` before one reads something else, of those that look at it. -/
def zeroReads (status : Nat → BitVec 32) : Nat :=
  (List.range (pllcfgTimeout + 1)).findIdx fun k => status k != 0

def waitRez (status : Nat → BitVec 32) : Byte :=
  if zeroReads status ≤ pllcfgTimeout then pllcfgNoerr else pllcfgCxTimeout

theorem wp_waitReconfig_from {Q : Byte → PllFw → Prop} {n t : Nat} (h : t + n = pllcfgTimeout + 1) :
    wp (waitReconfig pllBase status t) Q E s ↔
      Q (if (List.range' t n).findIdx (fun k => status k != 0) < n then pllcfgNoerr else pllcfgCxTimeout)
        (s.log (List.replicate ((List.range' t n).findIdx (fun k => status k != 0) + 1)
          (.coreRd pllBase pllStatus))) := by
  induction n generalizing t s with
  | zero =>
      -- The last turn reads `STATUS` and returns before it looks at it.
      rw [waitReconfig, wp_bind, wp_pllOp, dif_pos (by omega), wp_pure]
      rfl
  | succ n ih =>
      rw [waitReconfig, wp_bind, wp_pllOp, dif_neg (by omega), List.range'_succ, List.findIdx_cons]
      by_cases h0 : status t = 0
      · rw [if_pos h0, ih (by omega), PllFw.log_log]
        simp only [h0, bne_self_eq_false, cond_false, Nat.add_lt_add_iff_right]
        rfl
      · have hb : (status t != 0) = true := bne_iff_ne.mpr h0
        rw [if_neg h0, wp_pure]
        simp only [hb, cond_true, if_pos (Nat.succ_pos n)]
        rfl

theorem wp_startReconfig {Q : Byte → PllFw → Prop} :
    wp (startReconfig pllBase status) Q E s ↔ Q (waitRez status)
      (s.log (.coreWr pllBase pllStart 0x01 ::
        List.replicate (zeroReads status + 1) (.coreRd pllBase pllStatus))) := by
  rw [startReconfig, wp_bind, wp_pllOp, wp_waitReconfig_from (Nat.zero_add _), PllFw.log_log, ← List.range_eq_range']
  simp only [waitRez, zeroReads, Nat.lt_succ_iff]
  rfl

end Access

/-! ## A configuration -/

namespace PllEnv

variable (e : PllEnv)

def lsb (address : Byte) : Byte := (e.regs address).2

def word (address : Byte) : BitVec 16 := (e.regs address).1 ++ e.lsb address

/-- The PLL that register `0x23` names. -/
def ind : Nat := ((e.lsb 0x23).extractLsb 7 3).toNat

/-- Its core: that of PLL 0 for an index that no core has. -/
def core : Fin 5 := ⟨if e.ind < 5 then e.ind else 0, by split <;> omega⟩

/-- The word for C counter `i`: its index, its two bits for odd division and bypass, its high and its low count. -/
def cWord (i : Nat) : BitVec 32 :=
  (BitVec.ofNat 5 i ++ ((e.word 0x27).extractLsb' (2 * i) 2 ++ e.word (0x2E + BitVec.ofNat 8 i))).setWidth 32

/-- What a configuration writes to the core before it starts it. -/
def setup : List (Nat × BitVec 32) :=
  [(pllMode, 1), (pllMCounter, ((e.lsb 0x26).extractLsb 3 2 ++ e.word 0x2B).setWidth 32),
    (pllFracCounter, e.word 0x2D ++ e.word 0x2C),
    (pllNCounter, ((e.lsb 0x26).extractLsb 1 0 ++ e.word 0x2A).setWidth 32),
    (pllVcoDiv, ((e.lsb 0x25).extractLsb 7 7).setWidth 32)] ++
    (List.range 8).map fun i => (pllCCounter, e.cWord i)

end PllEnv

/-- Fields beside each other. -/
theorem shiftLeft_or {m n : Nat} (w : Nat) (a : BitVec m) (b : BitVec n) :
    (a.setWidth w <<< n) ||| b.setWidth w = (a ++ b).setWidth w := by
  apply BitVec.eq_of_getLsbD_eq
  intro i hi
  simp only [BitVec.getLsbD_or, BitVec.getLsbD_shiftLeft, BitVec.getLsbD_setWidth, BitVec.getLsbD_append, hi,
    decide_true, Bool.true_and]
  by_cases hn : i < n
  · simp [hn]
  · have hb : b.getLsbD i = false := BitVec.getLsbD_of_ge _ _ (Nat.le_of_not_lt hn)
    have ha : i - n < w := by omega
    simp [hn, hb, ha]

section Words

variable (e : PllEnv) (a : Byte)

theorem cntOf_eq : cntOf (e.regs a).1 (e.regs a).2 = (e.word a).setWidth 32 := shiftLeft_or 32 _ _

theorem nCntDivbyp_eq : ∀ lsb : Byte, nCntDivbyp lsb = (lsb.extractLsb 1 0).setWidth 32 <<< 16 := by decide +kernel

theorem mCntDivbyp_eq : ∀ lsb : Byte, mCntDivbyp lsb = (lsb.extractLsb 3 2).setWidth 32 <<< 16 := by decide +kernel

theorem vcoDivsel_eq : ∀ lsb : Byte, vcoDivsel lsb = (lsb.extractLsb 7 7).setWidth 32 := by decide +kernel

theorem pllInd_toNat : ∀ lsb : Byte, (pllInd lsb).toNat = (lsb.extractLsb 7 3).toNat := by decide +kernel

theorem getPLLCFGBase_eq : getPLLCFGBase (pllInd (e.regs 0x23).2) = e.core := by
  have h : ∀ lsb : Byte, (getPLLCFGBase (pllInd lsb)).val =
      if (lsb.extractLsb 7 3).toNat < 5 then (lsb.extractLsb 7 3).toNat else 0 := by decide +kernel
  exact Fin.ext (h _)

theorem nCnt_eq : nCntDivbyp (e.regs 0x26).2 ||| cntOf (e.regs a).1 (e.regs a).2 =
    ((e.lsb 0x26).extractLsb 1 0 ++ e.word a).setWidth 32 := by
  rw [cntOf_eq, nCntDivbyp_eq]
  exact shiftLeft_or 32 _ _

theorem mCnt_eq : mCntDivbyp (e.regs 0x26).2 ||| cntOf (e.regs a).1 (e.regs a).2 =
    ((e.lsb 0x26).extractLsb 3 2 ++ e.word a).setWidth 32 := by
  rw [cntOf_eq, mCntDivbyp_eq]
  exact shiftLeft_or 32 _ _

theorem mfracCnt_eq (b : Byte) : cntOf (e.regs a).1 (e.regs a).2 ||| mfracCntMsb (e.regs b).1 (e.regs b).2 =
    e.word b ++ e.word a := by
  rw [mfracCntMsb, cntOf_eq, cntOf_eq, BitVec.or_comm, shiftLeft_or, BitVec.setWidth_eq]

/-- Two bits of a register. -/
theorem shiftRight_and_three (w : BitVec 16) (k : Nat) :
    (w.setWidth 32 >>> k) &&& 0x03 = (w.extractLsb' k 2).setWidth 32 := by
  apply BitVec.eq_of_getLsbD_eq
  intro i hi
  have h3 : ∀ i < 32, (0x03 : BitVec 32).getLsbD i = decide (i < 2) := by decide
  simp only [BitVec.getLsbD_and, BitVec.getLsbD_ushiftRight, BitVec.getLsbD_setWidth, BitVec.getLsbD_extractLsb',
    h3 i hi, hi]
  by_cases hk : k + i < 32
  · simp [hk, Bool.and_comm]
  · have hw : w.getLsbD (k + i) = false := BitVec.getLsbD_of_ge _ _ (by omega)
    simp [hw]

theorem cCnt_eq {i : Nat} (hi : i < 8) :
    (BitVec.ofNat 32 i <<< 18) ||| (((cntOf (e.regs 0x27).1 (e.regs 0x27).2 >>> (2 * i)) &&& 0x03) <<< 16) |||
      cntOf (e.regs (0x2E + BitVec.ofNat 8 i)).1 (e.regs (0x2E + BitVec.ofNat 8 i)).2 = e.cWord i := by
  have h5 : ∀ i < 8, BitVec.ofNat 32 i = (BitVec.ofNat 5 i).setWidth 32 := by decide
  rw [cntOf_eq, cntOf_eq, shiftRight_and_three, BitVec.or_assoc, shiftLeft_or, h5 i hi]
  exact shiftLeft_or 32 _ _

end Words

/-! ## Accesses of a configuration -/

namespace PllEnv

variable (e : PllEnv)

/-- What the reset lines of the PLLs carry. -/
def pulse : List (BitVec 32) := [1#32 <<< e.ind, 0]

def resetOps : List PllOp := .pllcfgSpi 0x23 :: e.pulse.map .pllRst

/-- The last `left` turns of the loop for the C counters. -/
def cxOps (left : Nat) : List PllOp :=
  (List.range' (8 - left) left).flatMap fun i =>
    [.pllcfgSpi (0x2E + BitVec.ofNat 8 i), .coreWr e.core pllCCounter (e.cWord i)]

/-- Up to the start of the core. -/
def setupOps : List PllOp :=
  [.pllcfgSpi 0x23] ++ ((e.setup.take 1).map fun w => .coreWr e.core w.1 w.2) ++
    ([0x26, 0x2A, 0x2B, 0x2C, 0x2D, 0x25].map .pllcfgSpi) ++
    (((e.setup.drop 1).take 4).map fun w => .coreWr e.core w.1 w.2) ++ [.pllcfgSpi 0x27] ++ e.cxOps 8 ++
    [.coreWr e.core pllStart 0x01]

/-- The core is set up and started, then polled, then its PLL is reset. -/
def configOps : List PllOp :=
  e.setupOps ++ List.replicate (zeroReads e.status + 1) (.coreRd e.core pllStatus) ++ e.resetOps

end PllEnv

section Config

variable {s : PllFw} {E : Empty → Prop} {e : PllEnv}

theorem wp_resetPLL {Q : Unit → PllFw → Prop} : wp (resetPLL e) Q E s ↔ Q () (s.log e.resetOps) := by
  simp only [resetPLL, wp_bind, wp_pllcfgRead, wp_pllOp, PllFw.log_log, pllInd_toNat]
  rfl

theorem wp_updateCx {Q : Byte → PllFw → Prop} {left : Nat} (h : left ≤ 8) :
    wp (updateCx e e.core (cntOf (e.regs 0x27).1 (e.regs 0x27).2) left) Q E s ↔
      Q pllcfgNoerr (s.log (e.cxOps left)) := by
  induction left generalizing s with
  | zero =>
      rw [updateCx, wp_pure, PllEnv.cxOps]
      simp [PllFw.log]
  | succ left ih =>
      have hi : 8 - (left + 1) = 7 - left := by omega
      have hnext : 7 - left + 1 = 8 - left := by omega
      have hcx : e.cxOps (left + 1) = [.pllcfgSpi (0x2E + BitVec.ofNat 8 (7 - left)),
          .coreWr e.core pllCCounter (e.cWord (7 - left))] ++ e.cxOps left := by
        rw [PllEnv.cxOps, hi, List.range'_succ, hnext, List.flatMap_cons, PllEnv.cxOps]
      simp only [updateCx, wp_bind, wp_pllcfgRead, wp_setCxCnt, PllFw.log_log, cCnt_eq e (i := 7 - left) (by omega)]
      rw [if_neg (by decide), ih (by omega), PllFw.log_log, hcx]
      rfl

theorem wp_updatePLLCFG {Q : Byte → PllFw → Prop} :
    wp (updatePLLCFG e) Q E s ↔ Q (waitRez e.status) (s.log e.configOps) := by
  have hset : ∀ {Q' : Byte → PllFw → Prop} {s' : PllFw} {b : Fin 5} {cfg : TPllCfg},
      wp (setPllConfig b cfg) Q' E s' ↔ Q' pllcfgNoerr (s'.log [.coreWr b pllMCounter cfg.mCnt,
        .coreWr b pllFracCounter cfg.mfracCnt, .coreWr b pllNCounter cfg.nCnt, .coreWr b pllVcoDiv cfg.vcoDiv]) := by
    intro Q' s' b cfg
    simp only [setPllConfig, wp_bind, wp_pllOp, wp_pure, PllFw.log_log]
    rfl
  have hne : ¬ pllcfgNoerr ≠ 0 := by decide
  simp only [updatePLLCFG, wp_bind, wp_pllcfgRead, wp_pllOp, hset, hne, if_false, getPLLCFGBase_eq,
    wp_updateCx (Nat.le_refl 8), wp_startReconfig, wp_resetPLL, wp_pure, PllFw.log_log, nCnt_eq, mCnt_eq, mfracCnt_eq,
    vcoDivsel_eq]
  rw [List.append_cons, PllEnv.configOps]
  rfl

end Config

/-! ## Turns of the main loop -/

/-- A flag as the main loop keeps it. -/
def flag (b : Bool) : Byte := if b then 1 else 0

theorem flag_eq_zero (b : Bool) : flag b = 0 ↔ b = false := by
  cases b <;> decide

/-- What a flag has been a turn before. -/
def before (y : Nat → Bool) : Nat → Bool
  | 0 => false
  | n + 1 => y n

theorem before_succ (y : Nat → Bool) (n : Nat) : before y (n + 1) = y n := rfl

/-- The flag is up in the turn after it has come up. -/
def rises (y : Nat → Bool) (n : Nat) : Bool := before y n && !before (before y) n

theorem starts_iff (y : Nat → Bool) (n : Nat) :
    flag (before (before y) n) = 0 ∧ flag (before y n) ≠ 0 ↔ rises y n = true := by
  rw [flag_eq_zero, ne_eq, flag_eq_zero, rises, Bool.and_eq_true, Bool.not_eq_true', Bool.not_eq_false, and_comm]

section Turns

variable (env : Nat → PllEnv)

def rstAsked (n : Nat) : Bool := (env n).rstCommand.getLsbD 2
def phAsked (n : Nat) : Bool := (env n).phCommand.getLsbD 1
def cfgAsked (n : Nat) : Bool := (env n).cfgCommand.getLsbD 0

/-- The result that the firmware keeps before turn `n`. -/
def rezAt (rez : Byte) : Nat → Byte
  | 0 => rez
  | n + 1 => if rises (cfgAsked env) n then waitRez (env n).status else rezAt rez n

/-- The status that goes with a result. -/
def report (rez : Byte) : BitVec 32 := (rez.setWidth 32 <<< 2) ||| pllcfgDone

/-- The accesses of turn `n`. -/
def turnOps (rez : Byte) (n : Nat) : List PllOp :=
  (if rises (phAsked env) n then [.pllcfgStatus pllcfgBusy, .pllcfgStatus (report (rezAt env rez n))] else []) ++
    (if rises (cfgAsked env) n then
      .pllcfgStatus pllcfgBusy :: ((env n).configOps ++ [.pllcfgStatus (report (waitRez (env n).status))]) else []) ++
    (if rises (rstAsked env) n then
      .pllcfgStatus pllcfgBusy :: ((env n).resetOps ++ [.pllcfgStatus pllcfgDone]) else [])

/-- The state before turn `n`. -/
def pllStateAt (rez : Byte) (n : Nat) : PllFw where
  phcfgStartOld := flag (before (before (phAsked env)) n)
  phcfgStart := flag (before (phAsked env) n)
  pllcfgStartOld := flag (before (before (cfgAsked env)) n)
  pllcfgStart := flag (before (cfgAsked env) n)
  pllrstStartOld := flag (before (before (rstAsked env)) n)
  pllrstStart := flag (before (rstAsked env) n)
  pllcfgrez := rezAt env rez n
  ops := .pllcfgStatus pllcfgDone :: (List.range n).flatMap (turnOps env rez)

variable {env}

theorem flag_command (mask : BitVec 32) (k : Nat) (hk : k < 32) (hmask : mask = BitVec.twoPow 32 k)
    (c : BitVec 32) : ((c &&& mask) >>> k).setWidth 8 = flag (c.getLsbD k) := by
  apply BitVec.eq_of_getLsbD_eq
  intro i hi
  have hflag : (flag (c.getLsbD k)).getLsbD i = (c.getLsbD k && decide (i = 0)) := by
    cases c.getLsbD k <;> simp [flag, BitVec.getLsbD_one]
  rw [hflag, hmask, BitVec.getLsbD_setWidth, BitVec.getLsbD_ushiftRight, BitVec.getLsbD_and, BitVec.getLsbD_twoPow]
  by_cases h0 : i = 0
  · subst h0
    simp [hk]
  · simp [h0]

section Serve

variable {s : PllFw} {E : Empty → Prop} {e : PllEnv} {Q : Unit → PllFw → Prop}

theorem wp_servePhcfg : wp servePhcfg Q E s ↔
    Q () (s.log (if s.phcfgStartOld = 0 ∧ s.phcfgStart ≠ 0 then
      [.pllcfgStatus pllcfgBusy, .pllcfgStatus (report s.pllcfgrez)] else [])) := by
  rw [servePhcfg, wp_bind, wp_get]
  split
  · simp only [reportRez, wp_bind, wp_pllOp, wp_get, PllFw.log_log]
    rfl
  · rw [wp_pure, PllFw.log, List.append_nil]

theorem wp_servePllcfg : wp (servePllcfg e) Q E s ↔
    Q () (if s.pllcfgStartOld = 0 ∧ s.pllcfgStart ≠ 0 then
      { s.log (.pllcfgStatus pllcfgBusy :: (e.configOps ++ [.pllcfgStatus (report (waitRez e.status))])) with
        pllcfgrez := waitRez e.status } else s) := by
  rw [servePllcfg, wp_bind, wp_get]
  split
  · simp only [wp_bind, wp_pllOp, wp_updatePLLCFG, wp_modify, reportRez, wp_get, PllFw.log_log]
    simp only [PllFw.log, List.append_assoc]
    rfl
  · exact Iff.rfl

theorem wp_servePllrst : wp (servePllrst e) Q E s ↔
    Q () (s.log (if s.pllrstStartOld = 0 ∧ s.pllrstStart ≠ 0 then
      .pllcfgStatus pllcfgBusy :: (e.resetOps ++ [.pllcfgStatus pllcfgDone]) else [])) := by
  rw [servePllrst, wp_bind, wp_get]
  split
  · simp only [wp_bind, wp_pllOp, wp_resetPLL, PllFw.log_log]
    rfl
  · rw [wp_pure, PllFw.log, List.append_nil]

end Serve

theorem pllTurn_spec {E : Empty → Prop} {rez : Byte} (n : Nat) :
    wp (pllTurn (env n)) (fun _ s => s = pllStateAt env rez (n + 1)) E (pllStateAt env rez n) := by
  rw [pllTurn, wp_bind, wp_servePhcfg, wp_bind, wp_servePllcfg, wp_bind, wp_servePllrst, wp_modify]
  have hph := starts_iff (phAsked env) n
  have hcfg := starts_iff (cfgAsked env) n
  have hrst := starts_iff (rstAsked env) n
  simp only [PllFw.log, pllStateAt, hph, hcfg, List.range_succ, List.flatMap_append]
  have hphNext : (((env n).phCommand &&& 0x02) >>> 1).setWidth 8 = flag (phAsked env n) := by
    rw [phAsked, ← flag_command 0x02 1 (by omega) (by decide)]
  have hcfgNext : ((env n).cfgCommand &&& 0x01).setWidth 8 = flag (cfgAsked env n) := by
    rw [cfgAsked, ← flag_command 0x01 0 (by omega) (by decide), BitVec.ushiftRight_zero]
  have hrstNext : (((env n).rstCommand &&& 0x04) >>> 2).setWidth 8 = flag (rstAsked env n) := by
    rw [rstAsked, ← flag_command 0x04 2 (by omega) (by decide)]
  -- Only a configuration changes the result that is kept.
  cases hc : rises (cfgAsked env) n with
  | false =>
      simp only [Bool.false_eq_true, if_false, hrst, hphNext, hcfgNext, hrstNext, rezAt, turnOps, hc, before_succ,
        List.flatMap_cons, List.flatMap_nil, List.append_nil, List.cons_append, List.append_assoc]
  | true =>
      simp only [if_true, hrst, hphNext, hcfgNext, hrstNext, rezAt, turnOps, hc, before_succ,
        List.flatMap_cons, List.flatMap_nil, List.append_nil, List.nil_append, List.cons_append, List.append_assoc]

/-- The first `n` turns. -/
theorem pllTurns_run (env : Nat → PllEnv) (rez : Byte) (n : Nat) :
    (pllTurns env n).run (pllPowerOn rez) = .ok ((), pllStateAt env rez n) := by
  have h : wp (pllTurns env n) (fun _ s => s = pllStateAt env rez n) (fun _ => False) (pllPowerOn rez) :=
    wp_each (fun k s => s = pllStateAt env rez k) rfl fun k _ s hs => hs ▸ pllTurn_spec k
  exact run_of_wp (wp_post h fun _ _ hs => ⟨rfl, hs⟩)

end Turns

/-! ## Kinds of accesses -/

namespace PllOp

def coreWrite : PllOp → Option (Fin 5 × Nat × BitVec 32)
  | .coreWr pllBase offset data => some (pllBase, offset, data)
  | _ => none

def coreRead : PllOp → Option (Fin 5 × Nat)
  | .coreRd pllBase offset => some (pllBase, offset)
  | _ => none

def reset : PllOp → Option (BitVec 32)
  | .pllRst data => some data
  | _ => none

def status : PllOp → Option (BitVec 32)
  | .pllcfgStatus data => some data
  | _ => none

/-- Not an access to a register of the command interface. -/
def touches : PllOp → Bool
  | .coreWr .. | .coreRd .. | .pllRst _ => true
  | _ => false

end PllOp

/-- Whether the status register says busy after the accesses, `b` being what it says before. -/
def saysBusy (b : Bool) (ops : List PllOp) : Bool :=
  ops.foldl (fun b op => op.status.elim b (· == pllcfgBusy)) b

/-- A core and a reset line are touched only while the status register says busy. -/
def Guarded : Bool → List PllOp → Prop
  | _, [] => True
  | b, op :: ops => (op.touches = true → b = true) ∧ Guarded (saysBusy b [op]) ops

theorem saysBusy_append (b : Bool) (xs ys : List PllOp) : saysBusy b (xs ++ ys) = saysBusy (saysBusy b xs) ys :=
  List.foldl_append

theorem guarded_append {b : Bool} {xs ys : List PllOp} :
    Guarded b (xs ++ ys) ↔ Guarded b xs ∧ Guarded (saysBusy b xs) ys := by
  induction xs generalizing b with
  | nil => simp [Guarded, saysBusy]
  | cons op xs ih =>
      rw [List.cons_append, Guarded, Guarded, ih, and_assoc]
      rfl

theorem Guarded.touches {b : Bool} {pre post : List PllOp} {op : PllOp} (h : Guarded b (pre ++ op :: post))
    (ht : op.touches = true) : saysBusy b pre = true := (guarded_append.mp h).2.1 ht

/-- Accesses that begin and end with the register saying something else than busy. -/
def Bracketed (ops : List PllOp) : Prop := Guarded false ops ∧ saysBusy false ops = false

namespace Bracketed

theorem nil : Bracketed [] := ⟨trivial, rfl⟩

theorem append {xs ys : List PllOp} (hx : Bracketed xs) (hy : Bracketed ys) : Bracketed (xs ++ ys) := by
  refine ⟨guarded_append.mpr ⟨hx.1, ?_⟩, ?_⟩
  · rw [hx.2]
    exact hy.1
  · rw [saysBusy_append, hx.2, hy.2]

theorem flatMap {f : Nat → List PllOp} (h : ∀ k, Bracketed (f k)) (n : Nat) :
    Bracketed ((List.range n).flatMap f) := by
  induction n with
  | zero => exact nil
  | succ n ih =>
      rw [List.range_succ, List.flatMap_append, List.flatMap_cons, List.flatMap_nil, List.append_nil]
      exact ih.append (h n)

theorem ite {p : Prop} [Decidable p] {ops : List PllOp} (h : Bracketed ops) : Bracketed (if p then ops else []) := by
  split
  · exact h
  · exact nil

theorem guarded_true {ops : List PllOp} (h : ops.filterMap PllOp.status = []) :
    Guarded true ops ∧ saysBusy true ops = true := by
  induction ops with
  | nil => exact ⟨trivial, rfl⟩
  | cons op ops ih =>
      cases op with
      | pllcfgStatus w => cases h
      | pllcfgSpi _ | coreWr _ _ _ | coreRd _ _ | pllRst _ => exact ⟨⟨fun _ => rfl, (ih h).1⟩, (ih h).2⟩

/-- Accesses between a busy and a status that is not busy. -/
theorem block {ops : List PllOp} {w : BitVec 32} (h : ops.filterMap PllOp.status = [])
    (hw : (w == pllcfgBusy) = false) : Bracketed (.pllcfgStatus pllcfgBusy :: (ops ++ [.pllcfgStatus w])) := by
  obtain ⟨hg, hb⟩ := guarded_true h
  refine ⟨⟨fun ht => (by cases ht), guarded_append.mpr ⟨hg, fun ht => (by cases ht), trivial⟩⟩, ?_⟩
  change saysBusy true (ops ++ [.pllcfgStatus w]) = false
  rw [saysBusy_append, hb]
  exact hw

end Bracketed

theorem report_ne_busy : ∀ rez : Byte, (report rez == pllcfgBusy) = false := by decide +kernel

section Kinds

variable (e : PllEnv)

theorem configOps_filterMap {β : Type} (f : PllOp → Option β) : e.configOps.filterMap f =
    e.setupOps.filterMap f ++ (List.replicate (zeroReads e.status + 1) (.coreRd e.core pllStatus)).filterMap f ++
      e.resetOps.filterMap f := by
  rw [PllEnv.configOps, List.filterMap_append, List.filterMap_append]

theorem configOps_coreWrite : e.configOps.filterMap PllOp.coreWrite =
    (e.setup ++ [(pllStart, 0x01)]).map fun w => (e.core, w) := by
  rw [configOps_filterMap, List.filterMap_replicate_of_none rfl, List.append_nil]
  rfl

theorem configOps_coreRead : e.configOps.filterMap PllOp.coreRead =
    List.replicate (zeroReads e.status + 1) (e.core, pllStatus) := by
  have hrd : PllOp.coreRead (.coreRd e.core pllStatus) = some (e.core, pllStatus) := rfl
  have hsetup : e.setupOps.filterMap PllOp.coreRead = [] := rfl
  have hreset : e.resetOps.filterMap PllOp.coreRead = [] := rfl
  rw [configOps_filterMap, List.filterMap_replicate_of_some hrd, hsetup, hreset, List.nil_append, List.append_nil]

theorem configOps_reset : e.configOps.filterMap PllOp.reset = e.pulse := by
  rw [configOps_filterMap, List.filterMap_replicate_of_none rfl, List.append_nil]
  rfl

theorem configOps_status : e.configOps.filterMap PllOp.status = [] := by
  rw [configOps_filterMap, List.filterMap_replicate_of_none rfl, List.append_nil]
  rfl

end Kinds

section Turns

variable {env : Nat → PllEnv} {rez : Byte}

/-- Accesses other than reports come from configurations and resets. -/
theorem turnOps_filterMap {β : Type} {f : PllOp → Option β} (hf : ∀ w, f (.pllcfgStatus w) = none) (n : Nat) :
    (turnOps env rez n).filterMap f =
      (if rises (cfgAsked env) n then (env n).configOps.filterMap f else []) ++
        (if rises (rstAsked env) n then (env n).resetOps.filterMap f else []) := by
  rw [turnOps, List.filterMap_append, List.filterMap_append]
  have hph : (if rises (phAsked env) n then
      [PllOp.pllcfgStatus pllcfgBusy, .pllcfgStatus (report (rezAt env rez n))] else []).filterMap f = [] := by
    split
    · rw [List.filterMap_cons_none (hf _), List.filterMap_cons_none (hf _), List.filterMap_nil]
    · rfl
  have hblock : ∀ (ops : List PllOp) (w : BitVec 32),
      (PllOp.pllcfgStatus pllcfgBusy :: (ops ++ [.pllcfgStatus w])).filterMap f = ops.filterMap f := by
    intro ops w
    rw [List.filterMap_cons_none (hf _), List.filterMap_append, List.filterMap_cons_none (hf _), List.filterMap_nil,
      List.append_nil]
  rw [hph, List.nil_append]
  cases rises (cfgAsked env) n <;> cases rises (rstAsked env) n <;> simp [hblock]

theorem turnOps_status (n : Nat) : (turnOps env rez n).filterMap PllOp.status =
    (if rises (phAsked env) n then [pllcfgBusy, report (rezAt env rez n)] else []) ++
      (if rises (cfgAsked env) n then [pllcfgBusy, report (waitRez (env n).status)] else []) ++
      (if rises (rstAsked env) n then [pllcfgBusy, pllcfgDone] else []) := by
  have hblock : ∀ (ops : List PllOp) (w : BitVec 32), ops.filterMap PllOp.status = [] →
      (PllOp.pllcfgStatus pllcfgBusy :: (ops ++ [.pllcfgStatus w])).filterMap PllOp.status = [pllcfgBusy, w] := by
    intro ops w h
    change pllcfgBusy :: (ops ++ [PllOp.pllcfgStatus w]).filterMap PllOp.status = _
    rw [List.filterMap_append, h]
    rfl
  rw [turnOps, List.filterMap_append, List.filterMap_append]
  have hcfg := hblock _ (report (waitRez (env n).status)) (configOps_status (env n))
  have hrst := hblock _ pllcfgDone (show (env n).resetOps.filterMap PllOp.status = [] from rfl)
  cases rises (phAsked env) n <;> cases rises (cfgAsked env) n <;> cases rises (rstAsked env) n <;>
    simp [hcfg, hrst, PllOp.status]

theorem turnOps_bracketed (n : Nat) : Bracketed (turnOps env rez n) :=
  ((Bracketed.ite (@Bracketed.block [] _ rfl (report_ne_busy _))).append
    (Bracketed.ite (Bracketed.block (configOps_status _) (report_ne_busy _)))).append
      (Bracketed.ite (Bracketed.block rfl rfl))

end Turns

theorem waitRez_eq_noerr (status : Nat → BitVec 32) :
    waitRez status = pllcfgNoerr ↔ ∃ k ≤ pllcfgTimeout, status k ≠ 0 := by
  have hlt : zeroReads status ≤ pllcfgTimeout ↔ ∃ k ≤ pllcfgTimeout, status k ≠ 0 := by
    have h := @List.findIdx_lt_length _ (fun k => status k != 0) (List.range (pllcfgTimeout + 1))
    rw [List.length_range] at h
    simpa only [zeroReads, Nat.lt_succ_iff, List.mem_range, bne_iff_ne] using h
  rw [← hlt, waitRez]
  by_cases hz : zeroReads status ≤ pllcfgTimeout
  · rw [if_pos hz]
    exact ⟨fun _ => hz, fun _ => rfl⟩
  · rw [if_neg hz]
    exact ⟨fun h => absurd h (by decide), fun h => absurd h hz⟩

end Nios

end LimeSdrQpcie
