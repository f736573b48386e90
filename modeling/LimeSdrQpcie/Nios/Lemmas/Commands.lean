import LimeSdrQpcie.Nios.Lemmas.Drivers

/-! What each command of the switch leaves behind: the reply status, the errors counted, the transfers failed. -/

namespace LimeSdrQpcie

namespace Nios

open Prog

/-! ## Blocks of the SPI commands -/

section Spi

variable {s : Fw} {E : Fault → Prop}

/-- An SPI transfer, with what the other fields may do beside it. -/
theorem Counts.spi {s t : Fw} {base : SpiBase} {slave rd : Nat} {wr : List Byte}
    (hrx : t.rx.header = s.rx.header) (htx : t.tx.header = s.tx.header) (he : t.cmdErrors = s.cmdErrors)
    (hops : t.ops = s.ops ++ [.spi base slave wr rd]) : Counts 0 0 s t where
  rxHeader := hrx
  txHeader := htx
  cmdErrors := he.trans (BitVec.add_zero _).symm
  noacks := by
    rw [Fw.noacks, hops, List.countP_append]
    rfl

theorem modifyBRDSPI16RegBits_counts (addr : BitVec 16) (msbBit lsbBit : Nat) (v : BitVec 16) (r : DevResp) :
    wp (modifyBRDSPI16RegBits addr msbBit lsbBit v r) (fun _ => Counts 0 0 s) E s := by
  simp only [modifyBRDSPI16RegBits, wp_bind, wp_altAvalonSpiCommand, wp_pure]
  have hread : Counts 0 0 s
      { s with ops := s.ops ++ [.spi .fpgaSpi0 spiNrFpga [cbi7 (hiByte addr), loByte addr] 2] } :=
    Counts.spi rfl rfl rfl rfl
  exact @Counts.trans 0 0 0 0 _ _ _ hread (Counts.spi rfl rfl rfl rfl)

theorem spi16WrBlock_counts {slave b : Nat} (hb : b < 14) :
    wp (spi16WrBlock slave b) (fun _ => Counts 0 0 s) E s := by
  have h0 : 0 + b * 4 < dataFieldSize := by unfold dataFieldSize; omega
  have h4 : 0 + b * 4 + 4 ≤ dataFieldSize := by unfold dataFieldSize; omega
  simp only [spi16WrBlock, wp_bind, wp_rdRx h0, wp_wrRx h0, wp_rdRxBytes h4, wp_altAvalonSpiCommand, wp_pure]
  exact Counts.spi rfl rfl rfl rfl

theorem spi16RdBlock_counts {dev : Dev} {slave b : Nat} (hb : b < 14) :
    wp (spi16RdBlock dev slave b) (fun _ => Counts 0 0 s) E s := by
  have h0 : 0 + b * 2 < dataFieldSize := by unfold dataFieldSize; omega
  have h2 : 0 + b * 2 + 2 ≤ dataFieldSize := by unfold dataFieldSize; omega
  have ht : 2 + b * 4 < dataFieldSize := by unfold dataFieldSize; omega
  have ht' : 2 + b * 4 + 1 < dataFieldSize := by unfold dataFieldSize; omega
  simp only [spi16RdBlock, wp_bind, wp_rdRx h0, wp_wrRx h0, wp_rdRxBytes h2, wp_altAvalonSpiCommand,
    wp_wrTx ht, wp_wrTx ht']
  exact Counts.spi rfl rfl rfl rfl

theorem adf4002Block_counts {b : Nat} (hb : b < 18) :
    wp (do controlTCXOADF (some (← rdRxBytes (0 + b * 3) 3))) (fun _ => Counts 0 0 s) E s := by
  have h3 : 0 + b * 3 + 3 ≤ dataFieldSize := by unfold dataFieldSize; omega
  simp only [wp_bind, wp_rdRxBytes h3, controlTCXOADF, wp_altAvalonSpiCommand, wp_pure]
  exact Counts.spi rfl rfl rfl rfl

theorem controlTCXODAC_counts (data : Option (BitVec 16)) :
    wp (controlTCXODAC data) (fun _ => Counts 0 0 s) E s := by
  cases data with
  | none =>
      simp only [controlTCXODAC, wp_bind, wp_altAvalonSpiCommand, wp_pure]
      exact Counts.spi rfl rfl rfl rfl
  | some data =>
      simp only [controlTCXODAC, wp_bind, wp_modify, wp_altAvalonSpiCommand, wp_pure]
      exact Counts.spi rfl rfl rfl rfl

end Spi

/-! ## Analog values -/

section Analog

variable {s : Fw}

/-- The channels that `CMD_ANALOG_VAL_RD` knows. -/
def rdChannel (ch : Byte) : Prop := ch = chTcxoDac ∨ ch = chTemperature ∨ ch = chWiper0 ∨ ch = chWiper1

instance (ch : Byte) : Decidable (rdChannel ch) := by unfold rdChannel; infer_instance

/-- Block `b` of the request and its four bytes of the reply lie in the data fields. -/
def RdFits (pkt : CtrlPacket) (b : Nat) : Prop :=
  b < dataFieldSize ∧ (rdChannel (pkt.field b) → b < dataFieldSize / 4)

/-- How many of the first three transfers of block `b` stay without an acknowledge. -/
def i2cNoacks (dev : Dev) (b : Nat) : Nat :=
  (dev b 0).noack.toNat + (dev b 1).noack.toNat + (dev b 2).noack.toNat

/-- What block `b` of `CMD_ANALOG_VAL_RD` counts. -/
def rdErrors (pkt : CtrlPacket) (b : Nat) : Nat := if rdChannel (pkt.field b) then 0 else 1

def rdNoacks (dev : Dev) (pkt : CtrlPacket) (b : Nat) : Nat :=
  if pkt.field b = chTemperature then i2cNoacks dev b else 0

/-- The reply to block `b` of `CMD_ANALOG_VAL_RD`. -/
def CtrlPacket.setAnalog (tx : CtrlPacket) (b : Nat) (ch unit : Byte) (v : BitVec 16) : CtrlPacket :=
  (((tx.setField (0 + b * 4) ch).setField (1 + b * 4) unit).setField (2 + b * 4) (hiByte v)).setField (3 + b * 4)
    (loByte v)

theorem wp_wrAnalogVal {b : Nat} {unit : Byte} {v : BitVec 16} {Q : Unit → Fw → Prop} {E : Fault → Prop}
    (hb : b < dataFieldSize / 4) :
    wp (wrAnalogVal b unit v) Q E s ↔ Q () { s with tx := s.tx.setAnalog b (s.rx.field b) unit v } := by
  have hd : dataFieldSize / 4 = 14 := rfl
  have h : b < dataFieldSize := by unfold dataFieldSize; omega
  have h0 : 0 + b * 4 < dataFieldSize := by unfold dataFieldSize; omega
  have h1 : 1 + b * 4 < dataFieldSize := by unfold dataFieldSize; omega
  have h2 : 2 + b * 4 < dataFieldSize := by unfold dataFieldSize; omega
  have h3 : 3 + b * 4 < dataFieldSize := by unfold dataFieldSize; omega
  simp only [wrAnalogVal, wp_bind, wp_rdRx h, wp_wrTx h0, wp_wrTx h1, wp_wrTx h2, wp_wrTx h3]
  rfl

theorem wp_wrAnalogVal_out {b : Nat} {unit : Byte} {v : BitVec 16} {Q : Unit → Fw → Prop} {E : Fault → Prop}
    (h : b < dataFieldSize) (hb : dataFieldSize / 4 ≤ b) :
    wp (wrAnalogVal b unit v) Q E s ↔ E (.tx (0 + b * 4)) := by
  have hd : dataFieldSize / 4 = 14 := rfl
  have h0 : dataFieldSize ≤ 0 + b * 4 := by unfold dataFieldSize; omega
  simp only [wrAnalogVal, wp_bind, wp_rdRx h, wp_wrTx_out h0]

theorem wrAnalogVal_counts {b : Nat} {unit : Byte} {v : BitVec 16} (h : b < dataFieldSize)
    (hch : rdChannel (s.rx.field b)) :
    wp (wrAnalogVal b unit v) (fun _ t => RdFits s.rx b ∧ t.rx = s.rx ∧ Counts 0 0 s t)
      (fun _ => ¬ RdFits s.rx b) s := by
  by_cases hb : b < dataFieldSize / 4
  · rw [wp_wrAnalogVal hb]
    exact ⟨⟨h, fun _ => hb⟩, rfl, rfl, rfl, (BitVec.add_zero _).symm, rfl⟩
  · rw [wp_wrAnalogVal_out h (Nat.not_lt.mp hb)]
    exact fun hf => hb (hf.2 hch)

theorem countP_noack_cons (op : DevOp) (ops : List DevOp) :
    (op :: ops).countP DevOp.noack = ops.countP DevOp.noack + op.noack.toNat := by
  rw [List.countP_cons]
  cases op.noack <;> rfl

/-- The state after the reading of the LM75. -/
def Fw.readLm75 (s : Fw) (dev : Dev) (b : Nat) : Fw :=
  { s with
    convertedVal := lm75Val (dev b 3).rxr (dev b 4).rxr
    ops := s.ops ++ [.i2cStart lm75I2cAddr false (dev b 0).noack, .i2cWrite 0x00 true (dev b 1).noack,
      .i2cStart lm75I2cAddr true (dev b 2).noack, .i2cRead false, .i2cRead true] }

theorem wp_readTemperature {dev : Dev} {b : Nat} {Q : Unit → Fw → Prop} {E : Fault → Prop} :
    wp (readTemperature dev b) Q E s ↔ Q () (s.readLm75 dev b) := by
  simp only [readTemperature, wp_bind, wp_i2cStart, wp_i2cWrite, wp_i2cRead, wp_modify, List.append_assoc,
    List.cons_append, List.nil_append]
  rfl

theorem readLm75_counts (dev : Dev) (b : Nat) : Counts 0 (i2cNoacks dev b) s (s.readLm75 dev b) where
  rxHeader := rfl
  txHeader := rfl
  cmdErrors := (BitVec.add_zero _).symm
  noacks := by
    simp only [Fw.noacks, Fw.readLm75, List.countP_append, countP_noack_cons, List.countP_nil, DevOp.noack,
      i2cNoacks, Bool.toNat_false]
    omega

/-- One block of `CMD_ANALOG_VAL_RD`: it ends when its bytes lie in the data fields, and else in a fault. -/
theorem analogValRdBlock_counts (dev : Dev) (b : Nat) :
    wp (analogValRdBlock dev b)
      (fun _ t => RdFits s.rx b ∧ t.rx = s.rx ∧ Counts (rdErrors s.rx b) (rdNoacks dev s.rx b) s t)
      (fun _ => ¬ RdFits s.rx b) s := by
  have h0 : 0 + b = b := Nat.zero_add b
  by_cases h : b < dataFieldSize
  · have hother : s.rx.field b ≠ chTemperature → rdNoacks dev s.rx b = 0 := fun hne => if_neg hne
    have hknown : rdChannel (s.rx.field b) → rdErrors s.rx b = 0 := fun hc => if_pos hc
    simp only [analogValRdBlock, h0, wp_bind, wp_rdRx h]
    split
    · next hc =>
        rw [hknown (.inl hc), hother (by rw [hc]; decide)]
        simp only [wp_bind, wp_get]
        exact wrAnalogVal_counts h (.inl hc)
    split
    · next hc =>
        rw [hknown (.inr (.inl hc)), rdNoacks, if_pos hc]
        simp only [wp_bind, wp_readTemperature, wp_get]
        refine wp_post (@wrAnalogVal_counts (s.readLm75 dev b) b 0x50 _ h (.inr (.inl hc))) ?_
        rintro _ t ⟨hf, hrx, ht⟩
        exact ⟨hf, hrx, @Counts.trans 0 0 _ 0 _ _ _ (readLm75_counts dev b) ht⟩
    split
    · next hc =>
        rw [hknown (.inr (.inr (.inl hc))), hother (by rw [hc]; decide)]
        simp only [wp_bind, wp_get]
        exact wrAnalogVal_counts h (.inr (.inr (.inl hc)))
    split
    · next hc =>
        rw [hknown (.inr (.inr (.inr hc))), hother (by rw [hc]; decide)]
        simp only [wp_bind, wp_get]
        exact wrAnalogVal_counts h (.inr (.inr (.inr hc)))
    · next hd ht hw0 hw1 =>
        have hc : ¬ rdChannel (s.rx.field b) := by
          rintro (hc | hc | hc | hc)
          · exact hd hc
          · exact ht hc
          · exact hw0 hc
          · exact hw1 hc
        rw [hother ht, rdErrors, if_neg hc, wp_addErrors]
        exact ⟨⟨h, fun hc' => absurd hc' hc⟩, rfl, rfl, rfl, rfl, rfl⟩
  · simp only [analogValRdBlock, h0, wp_bind, wp_rdRx_out (Nat.not_lt.mp h)]
    exact fun hf => h hf.1

/-! ### CMD_ANALOG_VAL_WR -/

/-- The value in block `b` of `CMD_ANALOG_VAL_WR`. -/
def wrVal (pkt : CtrlPacket) (b : Nat) : BitVec 16 := word16 (pkt.field (2 + b * 4)) (pkt.field (3 + b * 4))

/-- The wiper that a channel of `CMD_ANALOG_VAL_WR` names. -/
def wrWiper (ch : Byte) : Option (Fin 2) :=
  if ch = chWiper0 then some ⟨0, Nat.zero_lt_two⟩ else if ch = chWiper1 then some ⟨1, Nat.one_lt_two⟩ else none

/-- Block `b` is carried out: the channel is known, the unit is the raw one, a position is in range. -/
def WrAccepted (pkt : CtrlPacket) (b : Nat) : Prop :=
  pkt.field (1 + b * 4) = 0 ∧ (pkt.field (0 + b * 4) = chTcxoDac ∨
    (wrWiper (pkt.field (0 + b * 4))).isSome ∧ wrVal pkt b ≤ 256)

instance (pkt : CtrlPacket) (b : Nat) : Decidable (WrAccepted pkt b) := by unfold WrAccepted; infer_instance

/-- What block `b` of `CMD_ANALOG_VAL_WR` counts. -/
def wrErrors (pkt : CtrlPacket) (b : Nat) : Nat := if WrAccepted pkt b then 0 else 1

/-- The state after the DAC was set. -/
def Fw.setDac (s : Fw) (v : BitVec 16) : Fw :=
  { s with
    dacVal := v
    vctcxoTrimDacValue := v
    ops := s.ops ++ ((adfData.map fun d => .spi .fpgaSpi0 spiNrTcxoAdf4002 d 0) ++
      [.spi .dacSpi1 spiNrTcxoDac [0x00, hiByte v, loByte v] 0]) }

/-- The state after the position of wiper `k` was stored. -/
def Fw.storeWiper (s : Fw) (k : Fin 2) (v : BitVec 16) : Fw :=
  { s with wiperPos := fun j => if j = k then v else s.wiperPos j }

/-- The state after the position of wiper `k` was stored and sent. -/
def Fw.setWiper (s : Fw) (k : Fin 2) (v : BitVec 16) : Fw :=
  { s.storeWiper k v with ops := s.ops ++ [.spi .fpgaSpi0 spiNrPot (mcpData k v) 0] }

def Fw.countError (s : Fw) : Fw := { s with cmdErrors := s.cmdErrors + 1 }

/-- What block `b` of `CMD_ANALOG_VAL_WR` makes of the state. -/
def Fw.wrBlock (s : Fw) (b : Nat) : Fw :=
  if s.rx.field (1 + b * 4) = 0 then
    if s.rx.field (0 + b * 4) = chTcxoDac then s.setDac (wrVal s.rx b)
    else match wrWiper (s.rx.field (0 + b * 4)) with
      | some k =>
        if wrVal s.rx b ≤ 256 then s.setWiper k (wrVal s.rx b) else (s.storeWiper k (wrVal s.rx b)).countError
      | none => s.countError
  else s.countError

theorem wp_tcxoDacWr {b : Nat} {Q : Unit → Fw → Prop} {E : Fault → Prop} (hb : b < dataFieldSize / 4) :
    wp (tcxoDacWr b) Q E s ↔
      Q () (if s.rx.field (1 + b * 4) = 0 then s.setDac (wrVal s.rx b) else s.countError) := by
  have hd : dataFieldSize / 4 = 14 := rfl
  have h1 : 1 + b * 4 < dataFieldSize := by unfold dataFieldSize; omega
  have h2 : 2 + b * 4 < dataFieldSize := by unfold dataFieldSize; omega
  have h3 : 3 + b * 4 < dataFieldSize := by unfold dataFieldSize; omega
  simp only [tcxoDacWr, wp_bind, wp_rdRx h1]
  split
  · simp only [controlTCXOADF, each, wp_bind, wp_pure, wp_altAvalonSpiCommand, wp_rdRx h2, wp_rdRx h3, wp_modify,
      controlTCXODAC, List.append_assoc, List.cons_append, List.nil_append]
    rfl
  · rfl

theorem wp_wiperWr {k : Fin 2} {b : Nat} {Q : Unit → Fw → Prop} {E : Fault → Prop} (hb : b < dataFieldSize / 4) :
    wp (wiperWr k b) Q E s ↔
      Q () (if s.rx.field (1 + b * 4) = 0 then
          if wrVal s.rx b ≤ 256 then s.setWiper k (wrVal s.rx b) else (s.storeWiper k (wrVal s.rx b)).countError
        else s.countError) := by
  have hd : dataFieldSize / 4 = 14 := rfl
  have h1 : 1 + b * 4 < dataFieldSize := by unfold dataFieldSize; omega
  have h2 : 2 + b * 4 < dataFieldSize := by unfold dataFieldSize; omega
  have h3 : 3 + b * 4 < dataFieldSize := by unfold dataFieldSize; omega
  simp only [wiperWr, wp_bind, wp_rdRx h1]
  split
  · simp only [wp_bind, wp_rdRx h2, wp_rdRx h3, wp_modify]
    change wp (if wrVal s.rx b ≤ 256 then _ else _) Q E _ ↔ _
    split <;> rfl
  · rfl

theorem wp_analogValWrBlock {b : Nat} {Q : Unit → Fw → Prop} {E : Fault → Prop} (hb : b < dataFieldSize / 4) :
    wp (analogValWrBlock b) Q E s ↔ Q () (s.wrBlock b) := by
  have hd : dataFieldSize / 4 = 14 := rfl
  have h0 : 0 + b * 4 < dataFieldSize := by unfold dataFieldSize; omega
  simp only [analogValWrBlock, wp_bind, wp_rdRx h0, Fw.wrBlock, wrWiper]
  split
  · exact wp_tcxoDacWr hb
  split
  · exact wp_wiperWr hb
  split
  · exact wp_wiperWr hb
  · rw [wp_addErrors, ite_self]
    rfl

theorem countError_counts : Counts 1 0 s s.countError := ⟨rfl, rfl, rfl, rfl⟩

theorem setDac_counts (v : BitVec 16) : Counts 0 0 s (s.setDac v) where
  rxHeader := rfl
  txHeader := rfl
  cmdErrors := (BitVec.add_zero _).symm
  noacks := by
    simp only [Fw.noacks, Fw.setDac, List.countP_append]
    rfl

theorem storeWiper_counts (k : Fin 2) (v : BitVec 16) : Counts 1 0 s (s.storeWiper k v).countError :=
  ⟨rfl, rfl, rfl, rfl⟩

/-- Block `b` names a wiper in the right unit and gives a position that is out of range. -/
def WrOutOfRange (pkt : CtrlPacket) (b : Nat) : Prop :=
  pkt.field (1 + b * 4) = 0 ∧ (wrWiper (pkt.field (0 + b * 4))).isSome ∧ ¬ wrVal pkt b ≤ 256

instance (pkt : CtrlPacket) (b : Nat) : Decidable (WrOutOfRange pkt b) := by
  unfold WrOutOfRange
  infer_instance

/-- The four ways of a block of `CMD_ANALOG_VAL_WR`. -/
theorem wrBlock_cases (s : Fw) (b : Nat) :
    (WrAccepted s.rx b ∧ s.wrBlock b = s.setDac (wrVal s.rx b)) ∨
    (∃ k, WrAccepted s.rx b ∧ wrVal s.rx b ≤ 256 ∧ s.wrBlock b = s.setWiper k (wrVal s.rx b)) ∨
    (∃ k, ¬ WrAccepted s.rx b ∧ WrOutOfRange s.rx b ∧
      s.wrBlock b = (s.storeWiper k (wrVal s.rx b)).countError) ∨
    (¬ WrAccepted s.rx b ∧ ¬ WrOutOfRange s.rx b ∧ s.wrBlock b = s.countError) := by
  unfold Fw.wrBlock
  by_cases hu : s.rx.field (1 + b * 4) = 0
  · rw [if_pos hu]
    by_cases hd : s.rx.field (0 + b * 4) = chTcxoDac
    · rw [if_pos hd]
      exact .inl ⟨⟨hu, .inl hd⟩, rfl⟩
    · rw [if_neg hd]
      split
      · next k hk =>
          have hs : (wrWiper (s.rx.field (0 + b * 4))).isSome := by rw [hk]; rfl
          by_cases hv : wrVal s.rx b ≤ 256
          · rw [if_pos hv]
            exact .inr (.inl ⟨k, ⟨hu, .inr ⟨hs, hv⟩⟩, hv, rfl⟩)
          · rw [if_neg hv]
            refine .inr (.inr (.inl ⟨k, ?_, ⟨hu, hs, hv⟩, rfl⟩))
            rintro ⟨_, hd' | ⟨_, hv'⟩⟩
            · exact hd hd'
            · exact hv hv'
      · next hk =>
          have hs : ¬ (wrWiper (s.rx.field (0 + b * 4))).isSome := by rw [hk]; exact Bool.false_ne_true
          refine .inr (.inr (.inr ⟨?_, fun h => hs h.2.1, rfl⟩))
          rintro ⟨_, hd' | ⟨hs', _⟩⟩
          · exact hd hd'
          · exact hs hs'
  · rw [if_neg hu]
    exact .inr (.inr (.inr ⟨fun h => hu h.1, fun h => hu h.1, rfl⟩))

theorem wrBlock_counts (b : Nat) : (s.wrBlock b).rx = s.rx ∧ Counts (wrErrors s.rx b) 0 s (s.wrBlock b) := by
  rcases wrBlock_cases s b with ⟨ha, he⟩ | ⟨k, ha, _, he⟩ | ⟨k, ha, _, he⟩ | ⟨ha, _, he⟩
  · rw [he, wrErrors, if_pos ha]
    exact ⟨rfl, setDac_counts _⟩
  · rw [he, wrErrors, if_pos ha]
    exact ⟨rfl, Counts.spi rfl rfl rfl rfl⟩
  · rw [he, wrErrors, if_neg ha]
    exact ⟨rfl, storeWiper_counts k _⟩
  · rw [he, wrErrors, if_neg ha]
    exact ⟨rfl, countError_counts⟩

end Analog

/-! ## Blocks of the Si5351 commands -/

section Si5351

variable {s : Fw} {E : Fault → Prop}

theorem i2cResult_eq (r : DevResp) : i2cResult r = BitVec.ofNat 8 r.noack.toNat := by
  unfold i2cResult
  cases r.noack <;> rfl

/-- Three transfers whose results are added to the errors. -/
theorem Counts.i2c {t : Fw} {r r' r'' : DevResp} {op op' op'' : DevOp} {ops : List DevOp}
    (hrx : t.rx.header = s.rx.header) (htx : t.tx.header = s.tx.header)
    (he : t.cmdErrors = s.cmdErrors + i2cResult r + i2cResult r' + i2cResult r'')
    (hops : t.ops = s.ops ++ op :: op' :: op'' :: ops) (h : op.noack = r.noack) (h' : op'.noack = r'.noack)
    (h'' : op''.noack = r''.noack) (hrd : ops.countP DevOp.noack = 0) :
    Counts (r.noack.toNat + r'.noack.toNat + r''.noack.toNat) (r.noack.toNat + r'.noack.toNat + r''.noack.toNat)
      s t where
  rxHeader := hrx
  txHeader := htx
  cmdErrors := by
    rw [he, i2cResult_eq, i2cResult_eq, i2cResult_eq, BitVec.ofNat_add, BitVec.ofNat_add]
    simp only [BitVec.add_assoc]
  noacks := by
    simp only [Fw.noacks, hops, List.countP_append, countP_noack_cons, hrd, h, h', h'']
    omega

theorem si5351WrBlock_counts {dev : Dev} {b : Nat} (hb : b < dataFieldSize / 2) :
    wp (si5351WrBlock dev b) (fun _ t => t.rx = s.rx ∧ Counts (i2cNoacks dev b) (i2cNoacks dev b) s t) E s := by
  have hd : dataFieldSize / 2 = 28 := rfl
  have h0 : b * 2 < dataFieldSize := by unfold dataFieldSize; omega
  have h1 : b * 2 + 1 < dataFieldSize := by unfold dataFieldSize; omega
  simp only [si5351WrBlock, wp_bind, wp_i2cStart, wp_i2cWrite, wp_addErrors, wp_rdRx h0, wp_rdRx h1,
    List.append_assoc, List.cons_append, List.nil_append]
  exact ⟨trivial, Counts.i2c rfl rfl rfl rfl rfl rfl rfl rfl⟩

theorem si5351RdBlock_counts {dev : Dev} {b : Nat} (hb : b < dataFieldSize / 2) :
    wp (si5351RdBlock dev b) (fun _ t => t.rx = s.rx ∧ Counts (i2cNoacks dev b) (i2cNoacks dev b) s t) E s := by
  have hd : dataFieldSize / 2 = 28 := rfl
  have h : b < dataFieldSize := by unfold dataFieldSize; omega
  have h0 : b * 2 < dataFieldSize := by unfold dataFieldSize; omega
  have h1 : b * 2 + 1 < dataFieldSize := by unfold dataFieldSize; omega
  simp only [si5351RdBlock, wp_bind, wp_i2cStart, wp_i2cWrite, wp_i2cRead, wp_addErrors, wp_rdRx h, wp_wrTx h0,
    wp_wrTx h1, List.append_assoc, List.cons_append, List.nil_append]
  exact ⟨trivial, Counts.i2c rfl rfl rfl rfl rfl rfl rfl rfl⟩

end Si5351

/-! ## Checks -/

/-- Whether the branch of a command calls `Check_Periph_ID`. -/
def Command.checksPeriph : Command → Bool
  | lmsRst | lms7002Wr => true
  | _ => false

/-- The block size with which the branch of a command calls `Check_many_blocks`. -/
def Command.blockSize : Command → Option Nat
  | getInfo | lmsRst | analogValRd => none
  | adf4002Wr => some 3
  | si5351Wr | si5351Rd => some 2
  | _ => some 4

/-- The peripheral is one the command accepts. -/
def PeriphOk (pkt : CtrlPacket) (c : Command) : Prop := c.checksPeriph = true → ¬ pkt.header.periphID > maxIdLms7

/-- The blocks fit as far as the command checks it. -/
def BlocksOk (pkt : CtrlPacket) (c : Command) : Prop :=
  ∀ n, c.blockSize = some n → ¬ pkt.blocks > dataFieldSize / n

/-- The operations of `CMD_LMS_RST`. -/
def rstKnown (op : Byte) : Prop := op = lmsRstDeactivate ∨ op = lmsRstActivate ∨ op = lmsRstPulse

instance (op : Byte) : Decidable (rstKnown op) := by unfold rstKnown; infer_instance

/-- The errors that the blocks of a command count. -/
def errors (dev : Dev) (pkt : CtrlPacket) : Command → Nat
  | .lmsRst => if rstKnown (pkt.field 0) then 0 else 1
  | .analogValRd => total (rdErrors pkt) pkt.blocks
  | .analogValWr => total (wrErrors pkt) pkt.blocks
  | .si5351Wr | .si5351Rd => total (i2cNoacks dev) pkt.blocks
  | _ => 0

/-- The transfers that fail while the blocks of a command are carried out. -/
def noacks (dev : Dev) (pkt : CtrlPacket) : Command → Nat
  | .analogValRd => total (rdNoacks dev pkt) pkt.blocks
  | .si5351Wr | .si5351Rd => total (i2cNoacks dev) pkt.blocks
  | _ => 0

/-- The status of the reply when the checks are passed. -/
def doneStatus (e : Byte) : Command → Byte
  | .adf4002Wr => if e ≠ 0 then statusInvalidPeriphIdCmd else statusCompletedCmd
  | .analogValWr | .si5351Wr | .si5351Rd => if e ≠ 0 then statusErrorCmd else statusCompletedCmd
  | _ => statusCompletedCmd

/-- Every index that the command uses lies in the data fields. -/
def Fits (pkt : CtrlPacket) : Command → Prop
  | .analogValRd => ∀ b < pkt.blocks, RdFits pkt b
  | _ => True

/-- The command has ended with the status `st`, `e` errors and `f` failed transfers. -/
structure Done (st : Byte) (e f : Nat) (s t : Fw) : Prop where
  txHeader : t.tx.header = { s.tx.header with status := st }
  cmdErrors : t.cmdErrors = BitVec.ofNat 8 e
  noacks : t.noacks = s.noacks + f

section Checks

variable {s : Fw} {E : Fault → Prop} {P : Prop}

theorem wp_checkManyBlocks {n : Nat} {Q : Bool → Fw → Prop} (h : ¬ s.rx.blocks > dataFieldSize / n) :
    wp (checkManyBlocks n) Q E s ↔ Q false s := by
  simp only [checkManyBlocks, wp_bind, wp_get, if_neg h, wp_pure]

theorem wp_checkManyBlocks_refused {n : Nat} {Q : Bool → Fw → Prop} (h : s.rx.blocks > dataFieldSize / n) :
    wp (checkManyBlocks n) Q E s ↔
      Q true { s with tx := { s.tx with header := { s.tx.header with status := statusBlocksErrorCmd } } } := by
  simp only [checkManyBlocks, wp_bind, wp_get, if_pos h, wp_setStatus, wp_pure]

theorem wp_checkPeriphID {Q : Bool → Fw → Prop} (h : ¬ s.rx.header.periphID > maxIdLms7) :
    wp (checkPeriphID maxIdLms7) Q E s ↔ Q true s := by
  simp only [checkPeriphID, wp_bind, wp_get, if_neg h, wp_pure]

theorem wp_checkPeriphID_refused {Q : Bool → Fw → Prop} (h : s.rx.header.periphID > maxIdLms7) :
    wp (checkPeriphID maxIdLms7) Q E s ↔
      Q false { s with tx := { s.tx with header := { s.tx.header with status := statusInvalidPeriphIdCmd } } } := by
  simp only [checkPeriphID, wp_bind, wp_get, if_pos h, wp_setStatus, wp_pure]

theorem Counts.cmdErrors_eq {e f : Nat} {t : Fw} (h : Counts e f s t) (he : s.cmdErrors = 0) :
    t.cmdErrors = BitVec.ofNat 8 e := by
  rw [h.cmdErrors, he]
  exact BitVec.zero_add _

theorem Done.of_counts {st : Byte} {e f : Nat} {t : Fw} (h : Counts e f s t) (he : s.cmdErrors = 0) :
    Done st e f s { t with tx := { t.tx with header := { t.tx.header with status := st } } } where
  txHeader := by rw [h.txHeader]
  cmdErrors := h.cmdErrors_eq he
  noacks := h.noacks

/-- The end of a branch that does not look at the errors. -/
theorem done_completed {m : FwCmd Unit} {e f : Nat} (he : s.cmdErrors = 0)
    (h : wp m (fun _ t => P ∧ Counts e f s t) E s) :
    wp m (fun _ => wp (setStatus statusCompletedCmd) (fun _ t => P ∧ Done statusCompletedCmd e f s t) E) E s :=
  wp_post h fun _ _ ht => ⟨ht.1, Done.of_counts ht.2 he⟩

theorem wp_statusOfErrors {e f : Nat} {err : Byte} {t : Fw} (he : s.cmdErrors = 0) (hc : Counts e f s t) :
    wp (statusOfErrors err)
      (fun _ t => Done (if BitVec.ofNat 8 e ≠ 0 then err else statusCompletedCmd) e f s t) E t := by
  simp only [statusOfErrors, wp_bind, wp_get, hc.cmdErrors_eq he]
  split
  · exact Done.of_counts hc he
  · exact Done.of_counts hc he

end Checks

/-! ## Branches -/

section Branches

variable {s : Fw} {dev : Dev}

/-- A branch has ended as `errors`, `noacks` and `doneStatus` say, or stopped because its indices do not fit. -/
def Ends (dev : Dev) (c : Command) (s : Fw) : Prop :=
  wp (runCommand dev c)
    (fun _ t => Fits s.rx c ∧
      Done (doneStatus (BitVec.ofNat 8 (errors dev s.rx c)) c) (errors dev s.rx c) (noacks dev s.rx c) s t)
    (fun _ => ¬ Fits s.rx c) s

theorem eachBlock_eq {body : Nat → FwCmd Unit} {Q : Unit → Fw → Prop} {E : Fault → Prop} :
    wp (eachBlock body) Q E s ↔ wp (each body s.rx.blocks) Q E s := Iff.rfl

/-- The blocks of an SPI command. -/
theorem eachBlock_spi {body : Nat → FwCmd Unit} {n : Nat} {E : Fault → Prop} (hn : s.rx.blocks ≤ n)
    (hbody : ∀ b < n, ∀ s', wp (body b) (fun _ => Counts 0 0 s') E s') :
    wp (eachBlock body) (fun _ t => True ∧ Counts 0 0 s t) E s := by
  rw [eachBlock_eq]
  exact wp_post (each_quiet fun b hb s' _ => hbody b (Nat.lt_of_lt_of_le hb hn) s') fun _ _ ht => ⟨trivial, ht⟩

theorem getInfo_ends (he : s.cmdErrors = 0) : Ends dev .getInfo s := by
  unfold Ends
  simp only [runCommand, getInfo, wp_bind, wp_wrTx (show 0 < dataFieldSize by decide),
    wp_wrTx (show 1 < dataFieldSize by decide), wp_wrTx (show 2 < dataFieldSize by decide),
    wp_wrTx (show 3 < dataFieldSize by decide), wp_wrTx (show 4 < dataFieldSize by decide), wp_setStatus]
  exact ⟨trivial, rfl, he, rfl⟩

theorem modifyBRDSPI16RegBits_done (he : s.cmdErrors = 0) (addr : BitVec 16) (msbBit lsbBit : Nat)
    (v : BitVec 16) (r : DevResp) {E : Fault → Prop} :
    wp (modifyBRDSPI16RegBits addr msbBit lsbBit v r)
      (fun _ => wp (setStatus statusCompletedCmd) (fun _ t => True ∧ Done statusCompletedCmd 0 0 s t) E) E s :=
  done_completed he (wp_post (modifyBRDSPI16RegBits_counts _ _ _ _ _) fun _ _ ht => ⟨trivial, ht⟩)

theorem lmsRst_ends (he : s.cmdErrors = 0) (hp : PeriphOk s.rx .lmsRst) : Ends dev .lmsRst s := by
  have h0 : 0 < dataFieldSize := by decide
  have hknown : rstKnown (s.rx.field 0) → errors dev s.rx .lmsRst = 0 := fun h => if_pos h
  unfold Ends
  simp only [runCommand, lmsRst, wp_bind, wp_checkPeriphID (hp rfl), if_true, wp_rdRx h0, wp_get]
  split
  · next hop =>
      rw [hknown (.inl hop)]
      rw [wp_bind]
      exact modifyBRDSPI16RegBits_done he _ _ _ _ _
  split
  · next hop =>
      rw [hknown (.inr (.inl hop))]
      rw [wp_bind]
      exact modifyBRDSPI16RegBits_done he _ _ _ _ _
  split
  · next hop =>
      rw [hknown (.inr (.inr hop)), wp_bind]
      refine wp_post (modifyBRDSPI16RegBits_counts _ _ _ _ _) fun _ t ht => ?_
      rw [wp_bind]
      refine wp_post (modifyBRDSPI16RegBits_counts _ _ _ _ _) fun _ t' ht' => ?_
      exact ⟨trivial, Done.of_counts (@Counts.trans 0 0 0 0 _ _ _ ht ht') he⟩
  · next h0 h1 h2 =>
      have hc : ¬ rstKnown (s.rx.field 0) := by
        rintro (h | h | h)
        · exact h0 h
        · exact h1 h
        · exact h2 h
      rw [errors, if_neg hc]
      exact ⟨trivial, Done.of_counts (countError_counts (s := s)) he⟩

theorem lms7002Wr_ends (he : s.cmdErrors = 0) (hp : PeriphOk s.rx .lms7002Wr) (hb : BlocksOk s.rx .lms7002Wr) :
    Ends dev .lms7002Wr s := by
  have hn := hb 4 rfl
  unfold Ends
  simp only [runCommand, lms7002Wr, wp_bind, wp_checkPeriphID (hp rfl), wp_checkManyBlocks hn, if_true,
    Bool.false_eq_true, if_false]
  refine done_completed he (eachBlock_spi (Nat.le_of_not_gt hn) fun b hb' s' => ?_)
  simp only [wp_bind, wp_get]
  exact spi16WrBlock_counts hb'

theorem lms7002Rd_ends (he : s.cmdErrors = 0) (hb : BlocksOk s.rx .lms7002Rd) : Ends dev .lms7002Rd s := by
  have hn := hb 4 rfl
  unfold Ends
  simp only [runCommand, lms7002Rd, wp_bind, wp_checkManyBlocks hn, Bool.false_eq_true, if_false]
  refine done_completed he (eachBlock_spi (Nat.le_of_not_gt hn) fun b hb' s' => ?_)
  simp only [wp_bind, wp_get]
  exact spi16RdBlock_counts hb'

theorem brdspi16Wr_ends (he : s.cmdErrors = 0) (hb : BlocksOk s.rx .brdspi16Wr) : Ends dev .brdspi16Wr s := by
  have hn := hb 4 rfl
  unfold Ends
  simp only [runCommand, brdspi16Wr, wp_bind, wp_checkManyBlocks hn, Bool.false_eq_true, if_false]
  exact done_completed he (eachBlock_spi (Nat.le_of_not_gt hn) fun b hb' s' => spi16WrBlock_counts hb')

theorem brdspi16Rd_ends (he : s.cmdErrors = 0) (hb : BlocksOk s.rx .brdspi16Rd) : Ends dev .brdspi16Rd s := by
  have hn := hb 4 rfl
  unfold Ends
  simp only [runCommand, brdspi16Rd, wp_bind, wp_checkManyBlocks hn, Bool.false_eq_true, if_false]
  exact done_completed he (eachBlock_spi (Nat.le_of_not_gt hn) fun b hb' s' => spi16RdBlock_counts hb')

theorem adf4002Wr_ends (he : s.cmdErrors = 0) (hb : BlocksOk s.rx .adf4002Wr) : Ends dev .adf4002Wr s := by
  have hn := hb 3 rfl
  unfold Ends
  simp only [runCommand, adf4002Wr, wp_bind, wp_checkManyBlocks hn, Bool.false_eq_true, if_false]
  refine wp_post (controlTCXODAC_counts none) fun _ t ht => ?_
  have hn' : t.rx.blocks ≤ dataFieldSize / 3 := by
    rw [CtrlPacket.blocks, ht.rxHeader]
    exact Nat.le_of_not_gt hn
  rw [wp_bind]
  refine wp_post (eachBlock_spi hn' fun b hb' s' => adf4002Block_counts hb') fun _ t' ht' => ?_
  exact wp_post (wp_statusOfErrors he (@Counts.trans 0 0 0 0 _ _ _ ht ht'.2)) fun _ _ hd => ⟨trivial, hd⟩

theorem analogValRd_ends (he : s.cmdErrors = 0) : Ends dev .analogValRd s := by
  unfold Ends
  simp only [runCommand, analogValRd, wp_bind]
  refine done_completed he ?_
  rw [eachBlock_eq]
  refine wp_post (each_counts (fun b _ s' hrx => ?_)) fun _ t ht => ⟨ht.1, ht.2.2⟩
  rw [← hrx]
  exact analogValRdBlock_counts dev b

/-- The blocks of a command that only reads the packet and counts errors. -/
theorem eachBlock_counts {body : Nat → FwCmd Unit} {n : Nat} {e f : Nat → Nat} {E : Fault → Prop}
    (hn : s.rx.blocks ≤ n)
    (hbody : ∀ b < n, ∀ s', s'.rx = s.rx →
      wp (body b) (fun _ t => t.rx = s.rx ∧ Counts (e b) (f b) s' t) (fun _ => False) s') :
    wp (eachBlock body) (fun _ t => Counts (total e s.rx.blocks) (total f s.rx.blocks) s t) E s := by
  rw [eachBlock_eq]
  refine wp_mono (each_counts (P := fun _ => True) fun b hb s' hrx => ?_) (fun _ t ht => ht.2.2)
    fun _ h => absurd (fun _ _ => trivial) h
  exact wp_mono (hbody b (Nat.lt_of_lt_of_le hb hn) s' hrx) (fun _ t ht => ⟨trivial, ht⟩) fun _ h => h.elim

theorem analogValWr_ends (he : s.cmdErrors = 0) (hb : BlocksOk s.rx .analogValWr) : Ends dev .analogValWr s := by
  have hn := hb 4 rfl
  unfold Ends
  simp only [runCommand, analogValWr, wp_bind, wp_checkManyBlocks hn, Bool.false_eq_true, if_false]
  refine wp_post (eachBlock_counts (e := wrErrors s.rx) (f := fun _ => 0) (Nat.le_of_not_gt hn) ?_) ?_
  · intro b hb' s' hrx
    rw [wp_analogValWrBlock hb', ← hrx]
    exact wrBlock_counts b
  · intro _ t ht
    rw [total_eq_zero.mpr fun _ _ => rfl] at ht
    exact wp_post (wp_statusOfErrors he ht) fun _ _ hd => ⟨trivial, hd⟩

theorem si5351Wr_ends (he : s.cmdErrors = 0) (hb : BlocksOk s.rx .si5351Wr) : Ends dev .si5351Wr s := by
  have hn := hb 2 rfl
  unfold Ends
  simp only [runCommand, si5351Wr, wp_bind, wp_checkManyBlocks hn, Bool.false_eq_true, if_false]
  refine wp_post (eachBlock_counts (e := i2cNoacks dev) (f := i2cNoacks dev) (Nat.le_of_not_gt hn) ?_) ?_
  · intro b hb' s' hrx
    rw [← hrx]
    exact si5351WrBlock_counts hb'
  · exact fun _ t ht => wp_post (wp_statusOfErrors he ht) fun _ _ hd => ⟨trivial, hd⟩

theorem si5351Rd_ends (he : s.cmdErrors = 0) (hb : BlocksOk s.rx .si5351Rd) : Ends dev .si5351Rd s := by
  have hn := hb 2 rfl
  unfold Ends
  simp only [runCommand, si5351Rd, wp_bind, wp_checkManyBlocks hn, Bool.false_eq_true, if_false]
  refine wp_post (eachBlock_counts (e := i2cNoacks dev) (f := i2cNoacks dev) (Nat.le_of_not_gt hn) ?_) ?_
  · intro b hb' s' hrx
    rw [← hrx]
    exact si5351RdBlock_counts hb'
  · exact fun _ t ht => wp_post (wp_statusOfErrors he ht) fun _ _ hd => ⟨trivial, hd⟩

/-- Every branch whose checks are passed. -/
theorem runCommand_ends (c : Command) (he : s.cmdErrors = 0) (hp : PeriphOk s.rx c) (hb : BlocksOk s.rx c) :
    Ends dev c s := by
  cases c with
  | getInfo => exact getInfo_ends he
  | lmsRst => exact lmsRst_ends he hp
  | lms7002Wr => exact lms7002Wr_ends he hp hb
  | lms7002Rd => exact lms7002Rd_ends he hb
  | brdspi16Wr => exact brdspi16Wr_ends he hb
  | brdspi16Rd => exact brdspi16Rd_ends he hb
  | adf4002Wr => exact adf4002Wr_ends he hb
  | analogValRd => exact analogValRd_ends he
  | analogValWr => exact analogValWr_ends he hb
  | si5351Wr => exact si5351Wr_ends he hb
  | si5351Rd => exact si5351Rd_ends he hb

/-- The state with another status in the reply. -/
def Fw.withStatus (s : Fw) (st : Byte) : Fw :=
  { s with tx := { s.tx with header := { s.tx.header with status := st } } }

theorem Done.withStatus {st : Byte} (he : s.cmdErrors = 0) : Done st 0 0 s (s.withStatus st) := ⟨rfl, he, rfl⟩

/-- A branch whose peripheral check fails sets the status and nothing else. -/
theorem runCommand_periph {c : Command} {E : Fault → Prop} (hp : ¬ PeriphOk s.rx c) :
    wp (runCommand dev c) (fun _ t => t = s.withStatus statusInvalidPeriphIdCmd) E s := by
  have hc : c.checksPeriph = true := by
    by_contra hc
    exact hp fun h => absurd h hc
  have hid : s.rx.header.periphID > maxIdLms7 := by
    by_contra hid
    exact hp fun _ => hid
  cases c with
  | lmsRst =>
      simp only [runCommand, lmsRst, wp_bind, wp_checkPeriphID_refused hid, Bool.false_eq_true, if_false, wp_pure]
      rfl
  | lms7002Wr =>
      simp only [runCommand, lms7002Wr, wp_bind, wp_checkPeriphID_refused hid, Bool.false_eq_true, if_false, wp_pure]
      rfl
  | getInfo | lms7002Rd | brdspi16Wr | brdspi16Rd | adf4002Wr | analogValRd | analogValWr | si5351Wr | si5351Rd =>
      cases hc

theorem unless_checkManyBlocks {n : Nat} {m : FwCmd Unit} {E : Fault → Prop}
    (h : s.rx.blocks > dataFieldSize / n) :
    wp (do unless ← checkManyBlocks n do m) (fun _ t => t = s.withStatus statusBlocksErrorCmd) E s := by
  rw [wp_bind, wp_checkManyBlocks_refused h]
  rfl

/-- A branch whose check of the number of blocks fails sets the status and nothing else. -/
theorem runCommand_blocks {c : Command} {E : Fault → Prop} (hp : PeriphOk s.rx c) (hb : ¬ BlocksOk s.rx c) :
    wp (runCommand dev c) (fun _ t => t = s.withStatus statusBlocksErrorCmd) E s := by
  unfold BlocksOk at hb
  push Not at hb
  obtain ⟨n, hn, hgt⟩ := hb
  cases c with
  | getInfo | lmsRst | analogValRd => cases hn
  | lms7002Wr =>
      cases hn
      simp only [runCommand, lms7002Wr]
      rw [wp_bind, wp_checkPeriphID (hp rfl)]
      exact unless_checkManyBlocks hgt
  | lms7002Rd | brdspi16Wr | brdspi16Rd | adf4002Wr | analogValWr | si5351Wr | si5351Rd =>
      cases hn
      exact unless_checkManyBlocks hgt

end Branches

end Nios

end LimeSdrQpcie
