import LimeSdrQpcie.Hdl.Signal
import LimeSdrQpcie.Hdl.Signed

/-!
# The transmit chain

`tx_chain` corrects the gain, the phase and the DC offset of the samples on their way to the DAC. The NCO is an input
here.
-/

namespace LimeSdrQpcie

open Hdl

/-- The settings of the chain that come from `txtspcfg`. -/
structure TxSettings where
  en : Bool
  insel : Bool
  phByp : Bool
  gcByp : Bool
  dcByp : Bool
  dccorri : BitVec 8
  dccorrq : BitVec 8
  gcorri : BitVec 11
  gcorrq : BitVec 11
  iqcorr : BitVec 12

/-! ## gcorr -/

structure GCorr where
  m : BitVec 30
  r : BitVec 18

namespace GCorr

def reset : GCorr := ⟨0, 0⟩

def next (en byp : Bool) (gc : BitVec 11) (x : BitVec 18) (s : GCorr) : GCorr :=
  { m := smul x (0#1 ++ gc)
    r := if en then (if byp then x else s.m.extractLsb 28 11) else s.r }

end GCorr

/-! ## iqcorr -/

structure IqCorr where
  cosI : BitVec 18
  cosQ : BitVec 18
  rCXi : BitVec 18
  rCXq : BitVec 18
  rRXi : BitVec 18
  rRXq : BitVec 18
  sumi : BitVec 19
  sumq : BitVec 19
  rMux1 : BitVec 18
  rMux2 : BitVec 18

namespace IqCorr

/-- `sumi` and `sumq` are not reset. -/
def reset (sumi sumq : BitVec 19) : IqCorr := ⟨0, 0, 0, 0, 0, 0, sumi, sumq, 0, 0⟩

/-- `x - resize(x(17 downto 6), 18)`. -/
def cos (x : BitVec 18) : BitVec 18 := x - (x.extractLsb 17 6).signExtend 18

/-- `(c(17) & c) + (r(17) & r)`. -/
def sum (c r : BitVec 18) : BitVec 19 := c.signExtend 19 + r.signExtend 19

def next (en byp : Bool) (pcw : BitVec 12) (xi xq : BitVec 18) (s : IqCorr) : IqCorr :=
  { cosI := if en then cos xi else s.cosI
    cosQ := if en then cos xq else s.cosQ
    rCXi := if en then s.cosI else s.rCXi
    rCXq := if en then s.cosQ else s.rCXq
    rRXi := if en then (smul s.cosI pcw).extractLsb 28 11 else s.rRXi
    rRXq := if en then (smul s.cosQ pcw).extractLsb 28 11 else s.rRXq
    sumi := sum s.rCXi s.rRXq
    sumq := sum s.rCXq s.rRXi
    rMux1 := if en then (if byp then xi else s.sumi.extractLsb 17 0) else s.rMux1
    rMux2 := if en then (if byp then xq else s.sumq.extractLsb 17 0) else s.rMux2 }

end IqCorr

/-! ## dccorr -/

structure DcCorr where
  r : BitVec 14

namespace DcCorr

def reset : DcCorr := ⟨0⟩

def next (en byp : Bool) (dc : BitVec 8) (x : BitVec 14) (s : DcCorr) : DcCorr :=
  { r := if en then (if byp then x else x + dc.signExtend 14) else s.r }

end DcCorr

/-! ## tx_chain -/

structure TxChain where
  inMuxI : BitVec 18
  inMuxQ : BitVec 18
  inst2 : GCorr
  inst3 : GCorr
  inst4 : IqCorr
  inst5 : DcCorr
  inst6 : DcCorr

structure TxChainIn where
  settings : TxSettings
  txi : BitVec 18
  txq : BitVec 18
  ncoCos : BitVec 14
  ncoSin : BitVec 14

namespace TxChain

/-- What the registers without a reset hold. -/
structure PowerUp where
  inMuxQ : BitVec 18
  sumi : BitVec 19
  sumq : BitVec 19

def reset (u : PowerUp) : TxChain :=
  ⟨0, u.inMuxQ, GCorr.reset, GCorr.reset, IqCorr.reset u.sumi u.sumq, DcCorr.reset, DcCorr.reset⟩

def next (s : TxChain) (i : TxChainIn) : TxChain :=
  let c := i.settings
  { inMuxI := if c.insel then i.ncoCos ++ 0#4 else i.txi
    inMuxQ := if c.insel then i.ncoSin ++ 0#4 else i.txq
    inst2 := s.inst2.next c.en c.gcByp c.gcorri s.inMuxI
    inst3 := s.inst3.next c.en c.gcByp c.gcorrq s.inMuxQ
    inst4 := s.inst4.next c.en c.phByp c.iqcorr s.inst2.r s.inst3.r
    inst5 := s.inst5.next c.en c.dcByp c.dccorri (s.inst4.rMux1.extractLsb 17 4)
    inst6 := s.inst6.next c.en c.dcByp c.dccorrq (s.inst4.rMux2.extractLsb 17 4) }

def circuit (u : PowerUp) : Circuit TxChain TxChainIn := ⟨reset u, next⟩

end TxChain

end LimeSdrQpcie
