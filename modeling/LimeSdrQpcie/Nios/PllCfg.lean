import LimeSdrQpcie.Nios.Lms64c

/-!
# PLL configuration

What the main loop does for the PLLs. It looks for requests in the command register, sets the reconfiguration core of
a PLL up from the registers of `pllcfg` and tells in the status register how far it is. The registers of `pllcfg` do
not change meanwhile: the host writes them over the same main loop.
-/

namespace LimeSdrQpcie

namespace Nios

open Prog

/-! ## Constants -/

def pllMode : Nat := 0x00
def pllStatus : Nat := 0x04
def pllStart : Nat := 0x08
def pllNCounter : Nat := 0x0C
def pllMCounter : Nat := 0x10
def pllCCounter : Nat := 0x14
def pllFracCounter : Nat := 0x1C
def pllVcoDiv : Nat := 0x70

def pllcfgDone : BitVec 32 := 1
def pllcfgBusy : BitVec 32 := 2

def pllcfgNoerr : Byte := 0x00
def pllcfgTimeout : Nat := 100000
def pllcfgCxTimeout : Byte := 0x0A

/-! ## The fields of the registers -/

def pllInd (lsb : Byte) : Byte := (lsb >>> 3) &&& 0x1F
def nCntDivbyp (lsb : Byte) : BitVec 32 := (lsb.setWidth 32 &&& 0x03) <<< 16
def mCntDivbyp (lsb : Byte) : BitVec 32 := (lsb.setWidth 32 &&& 0x0C) <<< 14

/-- `N_CNT`, `M_CNT`, `MFRAC_CNT_LSB`, `CX_DIVBYP` and `C_CNT`. -/
def cntOf (msb lsb : Byte) : BitVec 32 := (msb.setWidth 32 <<< 8) ||| lsb.setWidth 32

def mfracCntMsb (msb lsb : Byte) : BitVec 32 := cntOf msb lsb <<< 16
def bsCnt (msb : Byte) : BitVec 32 := (msb.setWidth 32 >>> 3) &&& 0x0F
def cpsCnt (msb : Byte) : BitVec 32 := msb.setWidth 32 &&& 0x07
def vcoDivsel (lsb : Byte) : BitVec 32 := (lsb.setWidth 32 >>> 7) &&& 0x01

/-- The fields of `tPLL_CFG` that are in use before the C counters. -/
structure TPllCfg where
  mCnt : BitVec 32
  mfracCnt : BitVec 32
  nCnt : BitVec 32
  bsCnt : BitVec 32
  cpsCnt : BitVec 32
  vcoDiv : BitVec 32

/-! ## State -/

/-- One access: to the registers of `pllcfg`, to the core at a base, to `PLL_RST_BASE`, to `PLLCFG_STATUS_BASE`. -/
inductive PllOp where
  | pllcfgSpi (address : Byte)
  | coreWr (pllBase : Fin 5) (offset : Nat) (data : BitVec 32)
  | coreRd (pllBase : Fin 5) (offset : Nat)
  | pllRst (data : BitVec 32)
  | pllcfgStatus (data : BitVec 32)
  deriving DecidableEq, Repr

/-- What is around the firmware in one turn of the main loop. -/
structure PllEnv where
  /-- `rd_buf[0]` and `rd_buf[1]` for the address in `wr_buf[1]`. -/
  regs : Byte → Byte × Byte
  /-- `STATUS` of the core at each turn of the waiting loop. -/
  status : Nat → BitVec 32
  /-- The command register where `pllrst_start`, `phcfg_start` and `pllcfg_start` are taken from it. -/
  rstCommand : BitVec 32
  phCommand : BitVec 32
  cfgCommand : BitVec 32

structure PllFw where
  phcfgStartOld : Byte
  phcfgStart : Byte
  pllcfgStartOld : Byte
  pllcfgStart : Byte
  pllrstStartOld : Byte
  pllrstStart : Byte
  pllcfgrez : Byte
  ops : List PllOp

abbrev PllCmd := Cmd PllFw Empty

def pllOp (op : PllOp) : PllCmd Unit := modify fun s => { s with ops := s.ops ++ [op] }

/-! ## pll_rcfg.c -/

def setPllConfig (pllBase : Fin 5) (cfg : TPllCfg) : PllCmd Byte := do
  pllOp (.coreWr pllBase pllMCounter cfg.mCnt)
  pllOp (.coreWr pllBase pllFracCounter cfg.mfracCnt)
  pllOp (.coreWr pllBase pllNCounter cfg.nCnt)
  pllOp (.coreWr pllBase pllVcoDiv cfg.vcoDiv)
  pure pllcfgNoerr

def setCxCnt (pllBase : Fin 5) (cxVal : BitVec 32) : PllCmd Byte := do
  pllOp (.coreWr pllBase pllCCounter cxVal)
  pure pllcfgNoerr

/-- The waiting loop of `start_Reconfig` from its turn `timeout` on. -/
def waitReconfig (pllBase : Fin 5) (status : Nat → BitVec 32) (timeout : Nat) : PllCmd Byte := do
  pllOp (.coreRd pllBase pllStatus)
  if _h : timeout > pllcfgTimeout then pure pllcfgCxTimeout
  else if status timeout = 0 then waitReconfig pllBase status (timeout + 1)
  else pure pllcfgNoerr
termination_by pllcfgTimeout + 1 - timeout

def startReconfig (pllBase : Fin 5) (status : Nat → BitVec 32) : PllCmd Byte := do
  pllOp (.coreWr pllBase pllStart 0x01)
  waitReconfig pllBase status 0

/-! ## main.c -/

variable (e : PllEnv)

def getPLLCFGBase (ind : Byte) : Fin 5 :=
  if ind = 1 then 1 else if ind = 2 then 2 else if ind = 3 then 3 else if ind = 4 then 4 else 0

def pllcfgRead (address : Byte) : PllCmd (Byte × Byte) := do
  pllOp (.pllcfgSpi address)
  pure (e.regs address)

def resetPLL : PllCmd Unit := do
  let rd ← pllcfgRead e 0x23
  pllOp (.pllRst (1#32 <<< (pllInd rd.2).toNat))
  pllOp (.pllRst 0)

/-- The last `left` of the eight turns for the C counters. -/
def updateCx (pllBase : Fin 5) (divByp : BitVec 32) : Nat → PllCmd Byte
  | 0 => pure pllcfgNoerr
  | left + 1 => do
    let i := 7 - left
    let rd ← pllcfgRead e (0x2E + BitVec.ofNat 8 i)
    let rez ← setCxCnt pllBase
      ((BitVec.ofNat 32 i <<< 18) ||| (((divByp >>> (2 * i)) &&& 0x03) <<< 16) ||| cntOf rd.1 rd.2)
    if rez ≠ 0 then pure rez else updateCx pllBase divByp left

def updatePLLCFG : PllCmd Byte := do
  let rd ← pllcfgRead e 0x23
  let pllBase := getPLLCFGBase (pllInd rd.2)
  pllOp (.coreWr pllBase pllMode 0x01)
  let rd26 ← pllcfgRead e 0x26
  let rd2A ← pllcfgRead e 0x2A
  let rd2B ← pllcfgRead e 0x2B
  let rd2C ← pllcfgRead e 0x2C
  let rd2D ← pllcfgRead e 0x2D
  let rd25 ← pllcfgRead e 0x25
  let pllcfgrez ← setPllConfig pllBase
    { nCnt := nCntDivbyp rd26.2 ||| cntOf rd2A.1 rd2A.2
      mCnt := mCntDivbyp rd26.2 ||| cntOf rd2B.1 rd2B.2
      mfracCnt := cntOf rd2C.1 rd2C.2 ||| mfracCntMsb rd2D.1 rd2D.2
      bsCnt := bsCnt rd25.1
      cpsCnt := cpsCnt rd25.1
      vcoDiv := vcoDivsel rd25.2 }
  if pllcfgrez ≠ 0 then pure pllcfgrez
  else do
    let rd27 ← pllcfgRead e 0x27
    let pllcfgrez ← updateCx e pllBase (cntOf rd27.1 rd27.2) 8
    if pllcfgrez ≠ 0 then pure pllcfgrez
    else do
      let pllcfgrez ← startReconfig pllBase e.status
      resetPLL e
      pure pllcfgrez

/-- `IOWR(PLLCFG_STATUS_BASE, 0x00, (pllcfgrez << 2) | PLLCFG_DONE)`. -/
def reportRez : PllCmd Unit := do
  let s ← get
  pllOp (.pllcfgStatus ((s.pllcfgrez.setWidth 32 <<< 2) ||| pllcfgDone))

/-- A phase request does nothing in either of its modes. -/
def servePhcfg : PllCmd Unit := do
  let s ← get
  if s.phcfgStartOld = 0 ∧ s.phcfgStart ≠ 0 then do
    pllOp (.pllcfgStatus pllcfgBusy)
    reportRez

def servePllcfg : PllCmd Unit := do
  let s ← get
  if s.pllcfgStartOld = 0 ∧ s.pllcfgStart ≠ 0 then do
    pllOp (.pllcfgStatus pllcfgBusy)
    let rez ← updatePLLCFG e
    modify fun s => { s with pllcfgrez := rez }
    reportRez

def servePllrst : PllCmd Unit := do
  let s ← get
  if s.pllrstStartOld = 0 ∧ s.pllrstStart ≠ 0 then do
    pllOp (.pllcfgStatus pllcfgBusy)
    resetPLL e
    pllOp (.pllcfgStatus pllcfgDone)

/-- One turn of the main loop. -/
def pllTurn : PllCmd Unit := do
  servePhcfg
  servePllcfg e
  servePllrst e
  modify fun s => { s with
    pllrstStartOld := s.pllrstStart
    pllrstStart := ((e.rstCommand &&& 0x04) >>> 2).setWidth 8
    phcfgStartOld := s.phcfgStart
    phcfgStart := ((e.phCommand &&& 0x02) >>> 1).setWidth 8
    pllcfgStartOld := s.pllcfgStart
    pllcfgStart := (e.cfgCommand &&& 0x01).setWidth 8 }

/-- Before the loop; nothing sets `pllcfgrez`. -/
def pllPowerOn (pllcfgrez : Byte) : PllFw :=
  ⟨0, 0, 0, 0, 0, 0, pllcfgrez, [.pllcfgStatus pllcfgDone]⟩

/-- The first `n` turns of the main loop. -/
def pllTurns (env : Nat → PllEnv) (n : Nat) : PllCmd Unit := each (fun k => pllTurn (env k)) n

end Nios

end LimeSdrQpcie
