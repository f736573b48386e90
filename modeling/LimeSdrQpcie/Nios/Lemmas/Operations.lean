import LimeSdrQpcie.Nios.Lemmas.Commands

/-! Which transfers each command makes and what it stores, block by block. -/

namespace LimeSdrQpcie

namespace Nios

open Prog

/-! ## Operations -/

/-- The transfers of one operation and the analog values that it stores. -/
structure Operation where
  transfers : List DevOp
  dac : Option (BitVec 16)
  wiper : Fin 2 → Option (BitVec 16)

/-- An operation that stores nothing. -/
def Operation.of (transfers : List DevOp) : Operation := ⟨transfers, none, fun _ => none⟩

/-- A bit of the register `0x13` is read, set to `v` and written back. -/
def resetTransfers (bit : Nat) (v : BitVec 16) (r : DevResp) : List DevOp :=
  let data := (word16 (r.spiRd 0) (r.spiRd 1) &&& ~~~(1#16 <<< bit)) ||| (v <<< bit)
  [.spi .fpgaSpi0 spiNrFpga [0x00, 0x13] 2, .spi .fpgaSpi0 spiNrFpga [0x80, 0x13, hiByte data, loByte data] 0]

/-- The reset line of the selected chip is raised, lowered, or lowered and raised. -/
def rstOperation (dev : Dev) (pkt : CtrlPacket) : Operation :=
  let bit := lmsResetBit pkt.header.periphID
  if pkt.field 0 = lmsRstDeactivate then .of (resetTransfers bit 1 (dev 0 0))
  else if pkt.field 0 = lmsRstActivate then .of (resetTransfers bit 0 (dev 0 0))
  else if pkt.field 0 = lmsRstPulse then .of (resetTransfers bit 0 (dev 0 0) ++ resetTransfers bit 1 (dev 0 1))
  else .of []

/-- A register of a slave is written: its address with the write bit set, and its value. -/
def spi16WrOperation (slave : Nat) (pkt : CtrlPacket) (b : Nat) : Operation :=
  .of [.spi .fpgaSpi0 slave (sbi7 (pkt.field (b * 4)) :: pkt.bytes (b * 4 + 1) 3) 0]

/-- A register of a slave is read: its address with the write bit cleared, and two bytes back. -/
def spi16RdOperation (slave : Nat) (pkt : CtrlPacket) (b : Nat) : Operation :=
  .of [.spi .fpgaSpi0 slave (cbi7 (pkt.field (b * 2)) :: pkt.bytes (b * 2 + 1) 1) 2]

def adf4002Operation (pkt : CtrlPacket) (b : Nat) : Operation :=
  .of [.spi .fpgaSpi0 spiNrTcxoAdf4002 (pkt.bytes (b * 3) 3) 0]

/-- Only the temperature is read from a device. -/
def analogRdOperation (dev : Dev) (pkt : CtrlPacket) (b : Nat) : Operation :=
  if pkt.field b = chTemperature then
    .of [.i2cStart lm75I2cAddr false (dev b 0).noack, .i2cWrite 0x00 true (dev b 1).noack,
      .i2cStart lm75I2cAddr true (dev b 2).noack, .i2cRead false, .i2cRead true]
  else .of []

/-- The oscillator is left to the DAC, and the DAC is set. -/
def setDacOperation (v : BitVec 16) : Operation where
  transfers := (adfData.map fun d => .spi .fpgaSpi0 spiNrTcxoAdf4002 d 0) ++
    [.spi .dacSpi1 spiNrTcxoDac [0x00, hiByte v, loByte v] 0]
  dac := some v
  wiper _ := none

/-- A wiper is set; a position out of range is stored and not sent. -/
def setWiperOperation (k : Fin 2) (v : BitVec 16) : Operation where
  transfers := if v ≤ 256 then [.spi .fpgaSpi0 spiNrPot (mcpData k v) 0] else []
  dac := none
  wiper j := if j = k then some v else none

def analogWrOperation (pkt : CtrlPacket) (b : Nat) : Operation :=
  if pkt.field (1 + b * 4) = 0 then
    if pkt.field (0 + b * 4) = chTcxoDac then setDacOperation (wrVal pkt b)
    else match wrWiper (pkt.field (0 + b * 4)) with
      | some k => setWiperOperation k (wrVal pkt b)
      | none => .of []
  else .of []

def si5351WrOperation (dev : Dev) (pkt : CtrlPacket) (b : Nat) : Operation :=
  .of [.i2cStart si5351I2cAddr false (dev b 0).noack, .i2cWrite (pkt.field (b * 2)) false (dev b 1).noack,
    .i2cWrite (pkt.field (b * 2 + 1)) true (dev b 2).noack]

def si5351RdOperation (dev : Dev) (pkt : CtrlPacket) (b : Nat) : Operation :=
  .of [.i2cStart si5351I2cAddr false (dev b 0).noack, .i2cWrite (pkt.field b) true (dev b 1).noack,
    .i2cStart si5351I2cAddr true (dev b 2).noack, .i2cRead true]

/-- One operation for each block of the packet, in order. -/
def CtrlPacket.eachBlock (pkt : CtrlPacket) (f : Nat → Operation) : List Operation :=
  (List.range pkt.blocks).map f

/-- The operations of a command: those of its blocks, before which `CMD_ADF4002_WR` takes the DAC off the
oscillator. -/
def operations (dev : Dev) (pkt : CtrlPacket) : Command → List Operation
  | .getInfo => []
  | .lmsRst => [rstOperation dev pkt]
  | .lms7002Wr => pkt.eachBlock (spi16WrOperation (lms7002Slave pkt.header.periphID) pkt)
  | .lms7002Rd => pkt.eachBlock (spi16RdOperation (lms7002Slave pkt.header.periphID) pkt)
  | .brdspi16Wr => pkt.eachBlock (spi16WrOperation spiNrFpga pkt)
  | .brdspi16Rd => pkt.eachBlock (spi16RdOperation spiNrFpga pkt)
  | .adf4002Wr => .of [.spi .dacSpi1 spiNrTcxoDac [0x03, 0x00, 0x00] 0] :: pkt.eachBlock (adf4002Operation pkt)
  | .analogValRd => pkt.eachBlock (analogRdOperation dev pkt)
  | .analogValWr => pkt.eachBlock (analogWrOperation pkt)
  | .si5351Wr => pkt.eachBlock (si5351WrOperation dev pkt)
  | .si5351Rd => pkt.eachBlock (si5351RdOperation dev pkt)

/-- The operations `os` and no others lead from `s` to `t`. -/
structure Performed (os : List Operation) (s t : Fw) : Prop where
  ops : t.ops = s.ops ++ os.flatMap Operation.transfers
  dacVal : t.dacVal = os.foldl (fun v o => o.dac.getD v) s.dacVal
  wiperPos : ∀ k, t.wiperPos k = os.foldl (fun v o => (o.wiper k).getD v) (s.wiperPos k)

section Performed

variable {s t u : Fw} {os os' : List Operation} {o : Operation}

theorem Performed.refl (s : Fw) : Performed [] s s := ⟨(List.append_nil _).symm, rfl, fun _ => rfl⟩

theorem Performed.trans (h : Performed os s t) (h' : Performed os' t u) : Performed (os ++ os') s u where
  ops := by rw [h'.ops, h.ops, List.append_assoc, List.flatMap_append]
  dacVal := by rw [h'.dacVal, h.dacVal, List.foldl_append]
  wiperPos k := by rw [h'.wiperPos, h.wiperPos, List.foldl_append]

theorem Performed.one (hops : t.ops = s.ops ++ o.transfers) (hdac : t.dacVal = o.dac.getD s.dacVal)
    (hwiper : ∀ k, t.wiperPos k = (o.wiper k).getD (s.wiperPos k)) : Performed [o] s t where
  ops := by rw [hops, List.flatMap_cons, List.flatMap_nil, List.append_nil]
  dacVal := hdac
  wiperPos := hwiper

/-- An operation that stores nothing. -/
theorem Performed.of {ds : List DevOp} (hops : t.ops = s.ops ++ ds) (hdac : t.dacVal = s.dacVal)
    (hwiper : t.wiperPos = s.wiperPos) : Performed [.of ds] s t :=
  .one hops hdac fun k => congrFun hwiper k

theorem Performed.status (h : Performed os s t) (st : Byte) :
    Performed os s { t with tx := { t.tx with header := { t.tx.header with status := st } } } :=
  ⟨h.ops, h.dacVal, h.wiperPos⟩

end Performed

/-! ## Blocks -/

/-- From index `i` on the packet received is still `pkt`. -/
structure Intact (pkt : CtrlPacket) (i : Nat) (s : Fw) : Prop where
  header : s.rx.header = pkt.header
  field : ∀ j, i ≤ j → s.rx.field j = pkt.field j

theorem Intact.of_rx {pkt : CtrlPacket} {s : Fw} (h : s.rx = pkt) (i : Nat) : Intact pkt i s := by
  cases h
  exact ⟨rfl, fun _ _ => rfl⟩

theorem Intact.bytes {pkt : CtrlPacket} {i j : Nat} {s : Fw} (h : Intact pkt i s) (hij : i ≤ j) (n : Nat) :
    s.rx.bytes j n = pkt.bytes j n :=
  List.map_congr_left fun k _ => h.field (j + k) (Nat.le_trans hij (Nat.le_add_right j k))

/-- A loop whose turn `b` performs the operation `f b` and keeps the invariant `I`, which says what the next turns
find. -/
theorem each_performed {body : Nat → FwCmd Unit} {f : Nat → Operation} {n : Nat} {E : Fault → Prop} {s : Fw}
    (I : Nat → Fw → Prop) (hs : I 0 s)
    (hbody : ∀ b < n, ∀ s', I b s' → wp (body b) (fun _ t => I (b + 1) t ∧ Performed [f b] s' t) E s') :
    wp (each body n) (fun _ t => Performed ((List.range n).map f) s t) E s := by
  refine wp_post (wp_each (fun i t => I i t ∧ Performed ((List.range i).map f) s t) ⟨hs, Performed.refl s⟩ ?_)
    fun _ t ht => ht.2
  intro i hi t ⟨hin, hp⟩
  refine wp_post (hbody i hi t hin) fun _ u hu => ⟨hu.1, ?_⟩
  rw [List.range_succ, List.map_append]
  exact hp.trans hu.2

/-- The turns may leave their own block of the packet changed. -/
theorem each_intact {body : Nat → FwCmd Unit} {f : Nat → Operation} {pkt : CtrlPacket} {n : Nat} {E : Fault → Prop}
    {s : Fw} (size : Nat) (hs : s.rx = pkt)
    (hbody : ∀ b < n, ∀ s', Intact pkt (b * size) s' →
      wp (body b) (fun _ t => Intact pkt ((b + 1) * size) t ∧ Performed [f b] s' t) E s') :
    wp (each body n) (fun _ t => Performed ((List.range n).map f) s t) E s :=
  each_performed (fun i t => Intact pkt (i * size) t) (Intact.of_rx hs _) hbody

section Blocks

variable {s : Fw} {pkt : CtrlPacket} {E : Fault → Prop} {b : Nat}

/-- The packet is intact behind a byte that was changed. -/
theorem Intact.setField {t : Fw} {i j : Nat} {v : Byte} (h : Intact pkt i s) (hi : i < dataFieldSize) (hij : i < j)
    (ht : t.rx = s.rx.setField i v) : Intact pkt j t where
  header := by rw [ht]; exact h.header
  field k hk := by
    have hne : k ≠ i := fun he => by omega
    rw [ht, CtrlPacket.field_setField hi, if_neg hne]
    exact h.field k (Nat.le_trans (Nat.le_of_lt hij) hk)

theorem CtrlPacket.bytes_cons (p : CtrlPacket) (i n : Nat) : p.bytes i (n + 1) = p.field i :: p.bytes (i + 1) n := by
  simp only [CtrlPacket.bytes, List.range_succ_eq_map, List.map_cons, List.map_map, Nat.add_zero]
  congr 2
  funext k
  simp only [Function.comp_apply, Nat.succ_eq_add_one, Nat.add_assoc, Nat.add_comm 1 k]

/-- The bytes that start with the one that was changed. -/
theorem Intact.bytes_setField {i n : Nat} {v : Byte} (h : Intact pkt i s) (hi : i < dataFieldSize) :
    (s.rx.setField i v).bytes i (n + 1) = v :: pkt.bytes (i + 1) n := by
  rw [CtrlPacket.bytes_cons, CtrlPacket.field_setField hi, if_pos rfl]
  have ht : Intact pkt (i + 1) { s with rx := s.rx.setField i v } := h.setField hi (Nat.lt_succ_self i) rfl
  exact congrArg _ (ht.bytes (Nat.le_refl _) n)

theorem spi16WrBlock_performed {slave : Nat} (hb : b < 14) (h : Intact pkt (b * 4) s) :
    wp (spi16WrBlock slave b)
      (fun _ t => Intact pkt ((b + 1) * 4) t ∧ Performed [spi16WrOperation slave pkt b] s t) E s := by
  have h0 : b * 4 < dataFieldSize := by unfold dataFieldSize; omega
  have h4 : b * 4 + 4 ≤ dataFieldSize := by unfold dataFieldSize; omega
  simp only [spi16WrBlock, Nat.zero_add, wp_bind, wp_rdRx h0, wp_wrRx h0, wp_rdRxBytes h4, wp_altAvalonSpiCommand,
    wp_pure, h.field _ (Nat.le_refl _), h.bytes_setField h0]
  exact ⟨h.setField h0 (by omega) rfl, .of rfl rfl rfl⟩

theorem spi16RdBlock_performed {dev : Dev} {slave : Nat} (hb : b < 14) (h : Intact pkt (b * 2) s) :
    wp (spi16RdBlock dev slave b)
      (fun _ t => Intact pkt ((b + 1) * 2) t ∧ Performed [spi16RdOperation slave pkt b] s t) E s := by
  have h0 : b * 2 < dataFieldSize := by unfold dataFieldSize; omega
  have h2 : b * 2 + 2 ≤ dataFieldSize := by unfold dataFieldSize; omega
  have ht : 2 + b * 4 < dataFieldSize := by unfold dataFieldSize; omega
  have ht' : 2 + b * 4 + 1 < dataFieldSize := by unfold dataFieldSize; omega
  simp only [spi16RdBlock, Nat.zero_add, wp_bind, wp_rdRx h0, wp_wrRx h0, wp_rdRxBytes h2, wp_altAvalonSpiCommand,
    wp_wrTx ht, wp_wrTx ht', h.field _ (Nat.le_refl _), h.bytes_setField h0]
  exact ⟨h.setField h0 (by omega) rfl, .of rfl rfl rfl⟩

theorem adf4002Block_performed (hb : b < 18) (h : Intact pkt (b * 3) s) :
    wp (do controlTCXOADF (some (← rdRxBytes (0 + b * 3) 3)))
      (fun _ t => Intact pkt ((b + 1) * 3) t ∧ Performed [adf4002Operation pkt b] s t) E s := by
  have h3 : b * 3 + 3 ≤ dataFieldSize := by unfold dataFieldSize; omega
  simp only [Nat.zero_add, wp_bind, wp_rdRxBytes h3, controlTCXOADF, wp_altAvalonSpiCommand, wp_pure,
    h.bytes (Nat.le_refl _)]
  exact ⟨⟨h.header, fun j hj => h.field j (by omega)⟩, .of rfl rfl rfl⟩

theorem analogValRdBlock_performed {dev : Dev} (hb : b < dataFieldSize / 4) (h : s.rx = pkt) :
    wp (analogValRdBlock dev b) (fun _ t => t.rx = pkt ∧ Performed [analogRdOperation dev pkt b] s t) E s := by
  cases h
  have hd : dataFieldSize / 4 = 14 := rfl
  have hlt : b < dataFieldSize := by unfold dataFieldSize; omega
  have hother : s.rx.field b ≠ chTemperature → analogRdOperation dev s.rx b = .of [] := fun hne => if_neg hne
  have hquiet : ∀ {t : Fw}, t.ops = s.ops → t.dacVal = s.dacVal → t.wiperPos = s.wiperPos →
      Performed [.of []] s t :=
    fun hops hdac hw => .of (hops.trans (List.append_nil _).symm) hdac hw
  simp only [analogValRdBlock, Nat.zero_add, wp_bind, wp_rdRx hlt]
  split
  · next hc =>
      rw [hother (by rw [hc]; decide)]
      simp only [wp_bind, wp_get, wp_wrAnalogVal hb]
      exact ⟨trivial, hquiet rfl rfl rfl⟩
  split
  · next hc =>
      have htemp : analogRdOperation dev s.rx b = _ := if_pos hc
      rw [htemp]
      simp only [wp_bind, wp_readTemperature, wp_get, wp_wrAnalogVal hb]
      exact ⟨rfl, .of rfl rfl rfl⟩
  split
  · next hc =>
      rw [hother (by rw [hc]; decide)]
      simp only [wp_bind, wp_get, wp_wrAnalogVal hb]
      exact ⟨trivial, hquiet rfl rfl rfl⟩
  split
  · next hc =>
      rw [hother (by rw [hc]; decide)]
      simp only [wp_bind, wp_get, wp_wrAnalogVal hb]
      exact ⟨trivial, hquiet rfl rfl rfl⟩
  · next ht _ _ =>
      rw [hother ht, wp_addErrors]
      exact ⟨rfl, hquiet rfl rfl rfl⟩

theorem storeWiper_getD (k j : Fin 2) (v : BitVec 16) :
    (s.storeWiper k v).wiperPos j = ((setWiperOperation k v).wiper j).getD (s.wiperPos j) := by
  change (if j = k then v else s.wiperPos j) = (if j = k then some v else none).getD _
  split <;> rfl

theorem setWiper_performed (k : Fin 2) (v : BitVec 16) :
    Performed [setWiperOperation k v] s
      (if v ≤ 256 then s.setWiper k v else (s.storeWiper k v).countError) := by
  by_cases hv : v ≤ 256
  · rw [if_pos hv]
    refine .one ?_ rfl fun j => storeWiper_getD k j v
    rw [setWiperOperation, if_pos hv]
    rfl
  · rw [if_neg hv]
    refine .one ?_ rfl fun j => storeWiper_getD k j v
    rw [setWiperOperation, if_neg hv, List.append_nil]
    rfl

theorem wrBlock_performed (s : Fw) (b : Nat) : Performed [analogWrOperation s.rx b] s (s.wrBlock b) := by
  have hnone : Performed [.of []] s s.countError := .of (List.append_nil _).symm rfl rfl
  unfold analogWrOperation Fw.wrBlock
  split
  · split
    · exact .one rfl rfl fun _ => rfl
    · cases wrWiper (s.rx.field (0 + b * 4)) with
      | some k => exact setWiper_performed k _
      | none => exact hnone
  · exact hnone

theorem analogValWrBlock_performed (hb : b < dataFieldSize / 4) (h : s.rx = pkt) :
    wp (analogValWrBlock b) (fun _ t => t.rx = pkt ∧ Performed [analogWrOperation pkt b] s t) E s := by
  cases h
  rw [wp_analogValWrBlock hb]
  exact ⟨(wrBlock_counts b).1, wrBlock_performed s b⟩

theorem si5351WrBlock_performed {dev : Dev} (hb : b < dataFieldSize / 2) (h : s.rx = pkt) :
    wp (si5351WrBlock dev b) (fun _ t => t.rx = pkt ∧ Performed [si5351WrOperation dev pkt b] s t) E s := by
  cases h
  have hd : dataFieldSize / 2 = 28 := rfl
  have h0 : b * 2 < dataFieldSize := by unfold dataFieldSize; omega
  have h1 : b * 2 + 1 < dataFieldSize := by unfold dataFieldSize; omega
  simp only [si5351WrBlock, wp_bind, wp_i2cStart, wp_i2cWrite, wp_addErrors, wp_rdRx h0, wp_rdRx h1,
    List.append_assoc, List.cons_append, List.nil_append]
  exact ⟨trivial, .of rfl rfl rfl⟩

theorem si5351RdBlock_performed {dev : Dev} (hb : b < dataFieldSize / 2) (h : s.rx = pkt) :
    wp (si5351RdBlock dev b) (fun _ t => t.rx = pkt ∧ Performed [si5351RdOperation dev pkt b] s t) E s := by
  cases h
  have hd : dataFieldSize / 2 = 28 := rfl
  have hlt : b < dataFieldSize := by unfold dataFieldSize; omega
  have h0 : b * 2 < dataFieldSize := by unfold dataFieldSize; omega
  have h1 : b * 2 + 1 < dataFieldSize := by unfold dataFieldSize; omega
  simp only [si5351RdBlock, wp_bind, wp_i2cStart, wp_i2cWrite, wp_i2cRead, wp_addErrors, wp_rdRx hlt, wp_wrTx h0,
    wp_wrTx h1, List.append_assoc, List.cons_append, List.nil_append]
  exact ⟨trivial, .of rfl rfl rfl⟩

end Blocks

/-! ## Commands -/

section Commands

variable {s : Fw} {dev : Dev} {E : Fault → Prop}

/-- The command performs its operations and ends with a status of its own. -/
def Performs (dev : Dev) (c : Command) (E : Fault → Prop) (s : Fw) : Prop :=
  wp (runCommand dev c) (fun _ t => Performed (operations dev s.rx c) s t) E s

/-- The end of a branch that does not look at the errors. -/
theorem performed_completed {m : FwCmd Unit} {os : List Operation}
    (h : wp m (fun _ t => Performed os s t) E s) :
    wp m (fun _ => wp (setStatus statusCompletedCmd) (fun _ t => Performed os s t) E) E s :=
  wp_post h fun _ _ ht => ht.status _

theorem performed_statusOfErrors {os : List Operation} {err : Byte} {t : Fw} (h : Performed os s t) :
    wp (statusOfErrors err) (fun _ t => Performed os s t) E t := by
  simp only [statusOfErrors, wp_bind, wp_get]
  split
  · exact h.status _
  · exact h.status _

theorem modifyBRDSPI16RegBits_performed {bit : Nat} {v : BitVec 16} {r : DevResp} (hv : v = 0 ∨ v = 1) :
    wp (modifyBRDSPI16RegBits brdSpiRegLms1Lms2Ctrl bit bit v r)
      (fun _ t => t.rx = s.rx ∧ Performed [.of (resetTransfers bit v r)] s t) E s := by
  have hmask : (0xFFFF#16 <<< (16 - (0 + 1))) >>> (16 - (0 + 1)) = 1#16 := by decide
  have hand : v &&& 1#16 = v := by rcases hv with rfl | rfl <;> decide
  simp only [modifyBRDSPI16RegBits, Nat.sub_self, hmask, hand, wp_bind, wp_altAvalonSpiCommand, wp_pure]
  exact ⟨trivial, .of (List.append_assoc _ _ _) rfl rfl⟩

theorem lmsRst_performs (hp : ¬ s.rx.header.periphID > maxIdLms7) : Performs dev .lmsRst E s := by
  have h0 : 0 < dataFieldSize := by decide
  unfold Performs
  simp only [runCommand, lmsRst, wp_bind, wp_checkPeriphID hp, if_true, wp_rdRx h0, wp_get, operations, rstOperation]
  split
  · rw [wp_bind]
    exact performed_completed (wp_post (modifyBRDSPI16RegBits_performed (.inr rfl)) fun _ _ ht => ht.2)
  split
  · rw [wp_bind]
    exact performed_completed (wp_post (modifyBRDSPI16RegBits_performed (.inl rfl)) fun _ _ ht => ht.2)
  split
  · rw [wp_bind]
    refine wp_post (modifyBRDSPI16RegBits_performed (.inl rfl)) fun _ t ht => ?_
    rw [wp_bind]
    refine wp_post (modifyBRDSPI16RegBits_performed (.inr rfl)) fun _ u hu => ?_
    refine Performed.status (.of ?_ (hu.2.dacVal.trans ht.2.dacVal) ?_) _
    · rw [hu.2.ops, ht.2.ops, List.append_assoc]
      rfl
    · exact funext fun k => (hu.2.wiperPos k).trans (ht.2.wiperPos k)
  · rw [wp_bind, wp_addErrors, wp_setStatus]
    exact Performed.of (List.append_nil _).symm rfl rfl

theorem lms7002Wr_performs (hp : ¬ s.rx.header.periphID > maxIdLms7) (hn : ¬ s.rx.blocks > dataFieldSize / 4) :
    Performs dev .lms7002Wr E s := by
  unfold Performs
  simp only [runCommand, lms7002Wr, wp_bind, wp_checkPeriphID hp, wp_checkManyBlocks hn, if_true,
    Bool.false_eq_true, if_false]
  refine performed_completed (each_intact 4 rfl fun b hb t ht => ?_)
  simp only [wp_bind, wp_get, ht.header]
  exact spi16WrBlock_performed (Nat.lt_of_lt_of_le hb (Nat.le_of_not_gt hn)) ht

theorem lms7002Rd_performs (hn : ¬ s.rx.blocks > dataFieldSize / 4) : Performs dev .lms7002Rd E s := by
  unfold Performs
  simp only [runCommand, lms7002Rd, wp_bind, wp_checkManyBlocks hn, Bool.false_eq_true, if_false]
  refine performed_completed (each_intact 2 rfl fun b hb t ht => ?_)
  simp only [wp_bind, wp_get, ht.header]
  exact spi16RdBlock_performed (Nat.lt_of_lt_of_le hb (Nat.le_of_not_gt hn)) ht

theorem brdspi16Wr_performs (hn : ¬ s.rx.blocks > dataFieldSize / 4) : Performs dev .brdspi16Wr E s := by
  unfold Performs
  simp only [runCommand, brdspi16Wr, wp_bind, wp_checkManyBlocks hn, Bool.false_eq_true, if_false]
  refine performed_completed (each_intact 4 rfl fun b hb t ht => ?_)
  exact spi16WrBlock_performed (Nat.lt_of_lt_of_le hb (Nat.le_of_not_gt hn)) ht

theorem brdspi16Rd_performs (hn : ¬ s.rx.blocks > dataFieldSize / 4) : Performs dev .brdspi16Rd E s := by
  unfold Performs
  simp only [runCommand, brdspi16Rd, wp_bind, wp_checkManyBlocks hn, Bool.false_eq_true, if_false]
  refine performed_completed (each_intact 2 rfl fun b hb t ht => ?_)
  exact spi16RdBlock_performed (Nat.lt_of_lt_of_le hb (Nat.le_of_not_gt hn)) ht

theorem adf4002Wr_performs (hn : ¬ s.rx.blocks > dataFieldSize / 3) : Performs dev .adf4002Wr E s := by
  unfold Performs
  simp only [runCommand, adf4002Wr, wp_bind, wp_checkManyBlocks hn, Bool.false_eq_true, if_false, controlTCXODAC,
    wp_altAvalonSpiCommand, wp_pure]
  have hdac : Performed [.of [.spi .dacSpi1 spiNrTcxoDac [0x03, 0x00, 0x00] 0]] s
      { s with ops := s.ops ++ [.spi .dacSpi1 spiNrTcxoDac [0x03, 0x00, 0x00] 0] } := .of rfl rfl rfl
  refine wp_post (each_intact (f := adf4002Operation s.rx) 3 rfl fun b hb t ht => ?_) fun _ t ht => ?_
  · exact adf4002Block_performed (Nat.lt_of_lt_of_le hb (Nat.le_of_not_gt hn)) ht
  · exact performed_statusOfErrors (hdac.trans ht)

theorem analogValRd_performs (hn : ¬ s.rx.blocks > dataFieldSize / 4) : Performs dev .analogValRd E s := by
  unfold Performs
  simp only [runCommand, analogValRd, wp_bind]
  refine performed_completed (each_performed (fun _ t => t.rx = s.rx) rfl fun b hb t ht => ?_)
  exact analogValRdBlock_performed (Nat.lt_of_lt_of_le hb (Nat.le_of_not_gt hn)) ht

theorem analogValWr_performs (hn : ¬ s.rx.blocks > dataFieldSize / 4) : Performs dev .analogValWr E s := by
  unfold Performs
  simp only [runCommand, analogValWr, wp_bind, wp_checkManyBlocks hn, Bool.false_eq_true, if_false]
  refine wp_post (each_performed (fun _ t => t.rx = s.rx) rfl fun b hb t ht => ?_) fun _ t ht =>
    performed_statusOfErrors ht
  exact analogValWrBlock_performed (Nat.lt_of_lt_of_le hb (Nat.le_of_not_gt hn)) ht

theorem si5351Wr_performs (hn : ¬ s.rx.blocks > dataFieldSize / 2) : Performs dev .si5351Wr E s := by
  unfold Performs
  simp only [runCommand, si5351Wr, wp_bind, wp_checkManyBlocks hn, Bool.false_eq_true, if_false]
  refine wp_post (each_performed (fun _ t => t.rx = s.rx) rfl fun b hb t ht => ?_) fun _ t ht =>
    performed_statusOfErrors ht
  exact si5351WrBlock_performed (Nat.lt_of_lt_of_le hb (Nat.le_of_not_gt hn)) ht

theorem si5351Rd_performs (hn : ¬ s.rx.blocks > dataFieldSize / 2) : Performs dev .si5351Rd E s := by
  unfold Performs
  simp only [runCommand, si5351Rd, wp_bind, wp_checkManyBlocks hn, Bool.false_eq_true, if_false]
  refine wp_post (each_performed (fun _ t => t.rx = s.rx) rfl fun b hb t ht => ?_) fun _ t ht =>
    performed_statusOfErrors ht
  exact si5351RdBlock_performed (Nat.lt_of_lt_of_le hb (Nat.le_of_not_gt hn)) ht

theorem getInfo_performs : Performs dev .getInfo E s := by
  unfold Performs
  simp only [runCommand, getInfo, wp_bind, wp_wrTx (show 0 < dataFieldSize by decide),
    wp_wrTx (show 1 < dataFieldSize by decide), wp_wrTx (show 2 < dataFieldSize by decide),
    wp_wrTx (show 3 < dataFieldSize by decide), wp_wrTx (show 4 < dataFieldSize by decide), wp_setStatus]
  exact ⟨(List.append_nil _).symm, rfl, fun _ => rfl⟩

end Commands

/-! ## What is to be refused -/

/-- The commands for an LMS7002. -/
def Command.isLms7002 : Command → Bool
  | lmsRst | lms7002Wr | lms7002Rd => true
  | _ => false

/-- The bytes of one block in the request. -/
def Command.requestBlock : Command → Option Nat
  | getInfo | lmsRst => none
  | lms7002Wr | brdspi16Wr | analogValWr => some 4
  | adf4002Wr => some 3
  | lms7002Rd | brdspi16Rd | si5351Wr => some 2
  | analogValRd | si5351Rd => some 1

/-- The bytes of one block in the reply. -/
def Command.replyBlock : Command → Option Nat
  | lms7002Rd | brdspi16Rd | analogValRd => some 4
  | si5351Rd => some 2
  | _ => none

/-- The packet is for a chip that there is not. -/
def NoSuchChip (pkt : CtrlPacket) (c : Command) : Prop := c.isLms7002 = true ∧ pkt.header.periphID > maxIdLms7

/-- The packet has more blocks than fit into the data field of the request or of the reply. -/
def TooManyBlocks (pkt : CtrlPacket) (c : Command) : Prop :=
  ∃ n, (c.requestBlock = some n ∨ c.replyBlock = some n) ∧ pkt.blocks > dataFieldSize / n

/-- The size of a block is the larger one of the two. -/
theorem tooManyBlocks_iff {pkt : CtrlPacket} {c : Command} {n : Nat}
    (h : c.requestBlock = some n ∨ c.replyBlock = some n) (hreq : ∀ m, c.requestBlock = some m → 0 < m ∧ m ≤ n)
    (hreply : ∀ m, c.replyBlock = some m → 0 < m ∧ m ≤ n) :
    TooManyBlocks pkt c ↔ pkt.blocks > dataFieldSize / n := by
  constructor
  · rintro ⟨m, hm, hgt⟩
    have hle : 0 < m ∧ m ≤ n := hm.elim (hreq m) (hreply m)
    exact Nat.lt_of_le_of_lt (Nat.div_le_div_left hle.2 hle.1) hgt
  · exact fun hgt => ⟨n, h, hgt⟩

/-- All commands but one check the blocks against the larger size. -/
theorem tooManyBlocks_blockSize {pkt : CtrlPacket} {c : Command} {n : Nat} (h : c.blockSize = some n) :
    TooManyBlocks pkt c ↔ pkt.blocks > dataFieldSize / n := by
  cases c with
  | getInfo | lmsRst | analogValRd => cases h
  | lms7002Wr | brdspi16Wr | adf4002Wr | analogValWr | si5351Wr =>
      cases h
      exact tooManyBlocks_iff (.inl rfl) (fun m hm => by cases hm; decide) fun m hm => by cases hm
  | lms7002Rd | brdspi16Rd | si5351Rd =>
      cases h
      exact tooManyBlocks_iff (.inr rfl) (fun m hm => by cases hm; decide) fun m hm => by cases hm; decide

theorem tooManyBlocks_analogValRd {pkt : CtrlPacket} :
    TooManyBlocks pkt .analogValRd ↔ pkt.blocks > dataFieldSize / 4 :=
  tooManyBlocks_iff (.inr rfl) (fun m hm => by cases hm; decide) fun m hm => by cases hm; decide

theorem tooManyBlocks_iff_blocksOk {pkt : CtrlPacket} {c : Command} (hc : c ≠ .analogValRd) :
    TooManyBlocks pkt c ↔ ¬ BlocksOk pkt c := by
  have hsome : ∀ n, c.blockSize = some n → (TooManyBlocks pkt c ↔ ¬ BlocksOk pkt c) := by
    intro n hn
    rw [tooManyBlocks_blockSize hn]
    constructor
    · exact fun hgt hb => hb n hn hgt
    · intro hb
      by_contra hle
      exact hb fun m hm => by cases hn.symm.trans hm; exact hle
  cases c with
  | getInfo | lmsRst =>
      refine iff_of_false ?_ fun hb => hb fun n hn => by cases hn
      rintro ⟨n, hn | hn, _⟩ <;> cases hn
  | analogValRd => exact absurd rfl hc
  | lms7002Wr | lms7002Rd | brdspi16Wr | brdspi16Rd | adf4002Wr | analogValWr | si5351Wr | si5351Rd =>
      exact hsome _ rfl

/-- All commands for an LMS7002 but one check the chip. -/
theorem noSuchChip_iff_periphOk {pkt : CtrlPacket} {c : Command} (hc : c ≠ .lms7002Rd) :
    NoSuchChip pkt c ↔ ¬ PeriphOk pkt c := by
  have heq : c.isLms7002 = c.checksPeriph := by
    cases c with
    | lms7002Rd => exact absurd rfl hc
    | getInfo | lmsRst | lms7002Wr | brdspi16Wr | brdspi16Rd | adf4002Wr | analogValRd | analogValWr | si5351Wr
      | si5351Rd => rfl
  unfold NoSuchChip PeriphOk
  rw [heq, Classical.not_imp, not_not]

/-- A packet that is not to be refused is carried out. -/
theorem runCommand_performs {s : Fw} {dev : Dev} {E : Fault → Prop} {c : Command} (hp : ¬ NoSuchChip s.rx c)
    (hb : ¬ TooManyBlocks s.rx c) : Performs dev c E s := by
  have hid : c.isLms7002 = true → ¬ s.rx.header.periphID > maxIdLms7 := fun hc hgt => hp ⟨hc, hgt⟩
  have hn : ∀ n, c.blockSize = some n → ¬ s.rx.blocks > dataFieldSize / n :=
    fun n h => fun hgt => hb ((tooManyBlocks_blockSize h).mpr hgt)
  cases c with
  | getInfo => exact getInfo_performs
  | lmsRst => exact lmsRst_performs (hid rfl)
  | lms7002Wr => exact lms7002Wr_performs (hid rfl) (hn 4 rfl)
  | lms7002Rd => exact lms7002Rd_performs (hn 4 rfl)
  | brdspi16Wr => exact brdspi16Wr_performs (hn 4 rfl)
  | brdspi16Rd => exact brdspi16Rd_performs (hn 4 rfl)
  | adf4002Wr => exact adf4002Wr_performs (hn 3 rfl)
  | analogValRd => exact analogValRd_performs fun hgt => hb (tooManyBlocks_analogValRd.mpr hgt)
  | analogValWr => exact analogValWr_performs (hn 4 rfl)
  | si5351Wr => exact si5351Wr_performs (hn 2 rfl)
  | si5351Rd => exact si5351Rd_performs (hn 2 rfl)

end Nios

end LimeSdrQpcie
