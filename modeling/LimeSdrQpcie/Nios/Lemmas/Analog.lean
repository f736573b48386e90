import LimeSdrQpcie.Nios.Lemmas.Commands

/-! The analog values that the firmware stores, and what the devices were last told. -/

namespace LimeSdrQpcie

namespace Nios

open Prog

/-! ## What the devices hold -/

/-- The value of the last transfer that `f` reads a value off, `v` before there was one. -/
def lastWrite {α : Type} (f : DevOp → Option α) (v : α) (ops : List DevOp) : α :=
  ops.foldl (fun v op => (f op).getD v) v

/-- The value that a transfer writes to the DAC. -/
def dacWrite : DevOp → Option (BitVec 16)
  | .spi .dacSpi1 _ [_, hi, lo] _ => some (word16 hi lo)
  | _ => none

/-- The position that a transfer writes to wiper `k`: four bits of address, two of command, ten of data. -/
def potWrite (k : Fin 2) : DevOp → Option (BitVec 16)
  | .spi .fpgaSpi0 slave [b0, b1] _ =>
    if slave = spiNrPot ∧ b0 >>> 4 = BitVec.ofNat 8 k.val then some (word16 (b0 &&& 0x03) b1) else none
  | _ => none

/-- The value in the DAC. -/
def deviceDac (ops : List DevOp) : BitVec 16 := lastWrite dacWrite 0 ops

/-- The position of wiper `k`, which is in the middle after power on. -/
def deviceWiper (k : Fin 2) (ops : List DevOp) : BitVec 16 := lastWrite (potWrite k) 0x80 ops

/-- What is stored is what the devices hold. -/
structure Fw.Synced (s : Fw) : Prop where
  dac : s.dacVal = deviceDac s.ops
  wiper : ∀ k, s.wiperPos k = deviceWiper k s.ops

section LastWrite

variable {α : Type} {f : DevOp → Option α} {v : α} {ops ops' : List DevOp}

theorem lastWrite_append : lastWrite f v (ops ++ ops') = lastWrite f (lastWrite f v ops) ops' :=
  List.foldl_append

theorem lastWrite_of_none (h : ∀ op ∈ ops, f op = none) : lastWrite f v ops = v := by
  induction ops with
  | nil => rfl
  | cons op ops ih =>
      have hop : lastWrite f v (op :: ops) = lastWrite f ((f op).getD v) ops := rfl
      rw [hop, h op List.mem_cons_self]
      exact ih fun op' hop' => h op' (List.mem_cons_of_mem _ hop')

theorem lastWrite_frame (h : ∀ op ∈ ops', f op = none) : lastWrite f v (ops ++ ops') = lastWrite f v ops := by
  rw [lastWrite_append, lastWrite_of_none h]

theorem lastWrite_last {op : DevOp} {a : α} (h : f op = some a) : lastWrite f v (ops ++ [op]) = a := by
  rw [lastWrite_append]
  change (f op).getD _ = a
  rw [h]
  rfl

end LastWrite

/-! ## One block of CMD_ANALOG_VAL_WR -/

theorem word16_bytes (v : BitVec 16) : word16 (hiByte v) (loByte v) = v := by
  apply BitVec.eq_of_toNat_eq
  have hv := v.isLt
  simp only [word16, hiByte, loByte, BitVec.toNat_add, BitVec.toNat_shiftLeft, BitVec.toNat_setWidth,
    BitVec.toNat_ushiftRight, Nat.shiftLeft_eq, Nat.shiftRight_eq_div_pow]
  omega

theorem word16_loByte {v : BitVec 16} (h : v ≤ 255) : word16 0#8 (loByte v) = v := by
  apply BitVec.eq_of_toNat_eq
  have hv : v.toNat ≤ 255 := h
  simp only [word16, loByte, BitVec.toNat_add, BitVec.toNat_shiftLeft, BitVec.toNat_setWidth, Nat.shiftLeft_eq,
    BitVec.toNat_ofNat]
  omega

theorem dacWrite_setDac (v : BitVec 16) :
    dacWrite (.spi .dacSpi1 spiNrTcxoDac [0x00, hiByte v, loByte v] 0) = some v :=
  congrArg some (word16_bytes v)

theorem potAddr (j k : Fin 2) (full : Bool) :
    (((BitVec.ofNat 8 k.val <<< 4) ||| (if full then 0x01 else 0x00)) >>> 4 = BitVec.ofNat 8 j.val ↔ j = k) ∧
      ((BitVec.ofNat 8 k.val <<< 4) ||| (if full then 0x01 else 0x00)) &&& 0x03 = (if full then 0x01 else 0x00 : Byte) := by
  revert j k full
  decide

/-- A transfer to the potentiometer sets the wiper it names to the position it was given, and no other. -/
theorem potWrite_mcpData {j k : Fin 2} {v : BitVec 16} (h : v ≤ 256) :
    potWrite j (.spi .fpgaSpi0 spiNrPot (mcpData k v) 0) = if j = k then some v else none := by
  have haddr := potAddr j k (decide (v > 255))
  simp only [decide_eq_true_eq] at haddr
  unfold mcpData
  simp only [potWrite, haddr.1, haddr.2, true_and]
  split
  · congr 1
    split
    · next hgt =>
        have heq : v = 256 := BitVec.le_antisymm h hgt
        rw [heq]
        rfl
    · next hle => exact word16_loByte (BitVec.not_lt.mp hle)
  · rfl

theorem potWrite_adf {d : List Byte} (k : Fin 2) (hd : d ∈ adfData) :
    potWrite k (.spi .fpgaSpi0 spiNrTcxoAdf4002 d 0) = none := by
  simp only [adfData, List.mem_cons, List.not_mem_nil, or_false] at hd
  rcases hd with rfl | rfl | rfl | rfl <;> rfl

theorem Synced_wrBlock {s : Fw} {b : Nat} (h : s.Synced) (hr : ¬ WrOutOfRange s.rx b) : (s.wrBlock b).Synced := by
  rcases wrBlock_cases s b with ⟨_, he⟩ | ⟨k, _, hv, he⟩ | ⟨k, _, ho, _⟩ | ⟨_, _, he⟩
  · rw [he]
    constructor
    · change wrVal s.rx b = lastWrite dacWrite 0 (s.ops ++ (_ ++ [_]))
      rw [← List.append_assoc]
      exact (lastWrite_last (dacWrite_setDac _)).symm
    · intro k
      refine (h.wiper k).trans (lastWrite_frame fun op hop => ?_).symm
      rcases List.mem_append.mp hop with hop | hop
      · obtain ⟨d, hd, rfl⟩ := List.mem_map.mp hop
        exact potWrite_adf k hd
      · rw [List.mem_singleton.mp hop]
        rfl
  · rw [he]
    constructor
    · exact h.dac.trans (lastWrite_frame fun op hop => by rw [List.mem_singleton.mp hop]; rfl).symm
    · intro j
      change (if j = k then wrVal s.rx b else s.wiperPos j) = lastWrite (potWrite j) 0x80 (s.ops ++ [_])
      have hw := potWrite_mcpData (j := j) (k := k) hv
      by_cases hj : j = k
      · rw [if_pos hj]
        rw [if_pos hj] at hw
        exact (lastWrite_last hw).symm
      · rw [if_neg hj]
        rw [if_neg hj] at hw
        refine (h.wiper j).trans (lastWrite_frame fun op hop => ?_).symm
        rw [List.mem_singleton.mp hop]
        exact hw
  · exact absurd ho hr
  · rw [he]
    exact ⟨h.dac, h.wiper⟩

/-! ## Replies of CMD_ANALOG_VAL_RD -/

/-- The value in block `b` of a reply. -/
def reported (tx : CtrlPacket) (b : Nat) : BitVec 16 := word16 (tx.field (2 + b * 4)) (tx.field (3 + b * 4))

/-- The value stored for a channel that can be written. -/
def Fw.analogVal (s : Fw) (ch : Byte) : Option (BitVec 16) :=
  if ch = chTcxoDac then some s.dacVal else (wrWiper ch).map s.wiperPos

/-- The value in the device of a channel that can be written. -/
def deviceVal (ops : List DevOp) (ch : Byte) : Option (BitVec 16) :=
  if ch = chTcxoDac then some (deviceDac ops) else (wrWiper ch).map fun k => deviceWiper k ops

theorem Fw.Synced.analogVal {s : Fw} (h : s.Synced) (ch : Byte) : s.analogVal ch = deviceVal s.ops ch := by
  unfold Fw.analogVal deviceVal
  rw [h.dac, funext h.wiper]

/-- The stored values and the devices are in `t` what they are in `s`. -/
structure SameValues (s t : Fw) : Prop where
  dacVal : t.dacVal = s.dacVal
  wiperPos : t.wiperPos = s.wiperPos
  dac : deviceDac t.ops = deviceDac s.ops
  wiper : ∀ k, deviceWiper k t.ops = deviceWiper k s.ops

theorem SameValues.refl (s : Fw) : SameValues s s := ⟨rfl, rfl, rfl, fun _ => rfl⟩

theorem SameValues.trans {s t u : Fw} (h : SameValues s t) (h' : SameValues t u) : SameValues s u :=
  ⟨h'.dacVal.trans h.dacVal, h'.wiperPos.trans h.wiperPos, h'.dac.trans h.dac,
    fun k => (h'.wiper k).trans (h.wiper k)⟩

theorem SameValues.synced {s t : Fw} (h : SameValues s t) (hs : s.Synced) : t.Synced :=
  ⟨h.dacVal.trans (hs.dac.trans h.dac.symm),
    fun k => (congrFun h.wiperPos k).trans ((hs.wiper k).trans (h.wiper k).symm)⟩

theorem SameValues.analogVal {s t : Fw} (h : SameValues s t) (ch : Byte) : t.analogVal ch = s.analogVal ch := by
  unfold Fw.analogVal
  rw [h.dacVal, h.wiperPos]

theorem readLm75_sameValues (s : Fw) (dev : Dev) (b : Nat) : SameValues s (s.readLm75 dev b) :=
  ⟨rfl, rfl, lastWrite_append, fun _ => lastWrite_append⟩

section Reply

variable {s : Fw} {b : Nat}

theorem reported_setAnalog (tx : CtrlPacket) (hb : b < dataFieldSize / 4) (ch unit : Byte) (v : BitVec 16) :
    reported (tx.setAnalog b ch unit v) b = v := by
  have hd : dataFieldSize / 4 = 14 := rfl
  have h2 : 2 + b * 4 < dataFieldSize := by unfold dataFieldSize; omega
  have h3 : 3 + b * 4 < dataFieldSize := by unfold dataFieldSize; omega
  have hne : 2 + b * 4 ≠ 3 + b * 4 := by omega
  simp only [reported, CtrlPacket.setAnalog, CtrlPacket.field_setField h3, CtrlPacket.field_setField h2,
    if_neg hne, if_true]
  exact word16_bytes v

theorem reported_setAnalog_ne (tx : CtrlPacket) (hb : b < dataFieldSize / 4) {j : Nat} (hj : j ≠ b)
    (ch unit : Byte) (v : BitVec 16) : reported (tx.setAnalog b ch unit v) j = reported tx j := by
  have hd : dataFieldSize / 4 = 14 := rfl
  have hfield : ∀ i < 4, (tx.setAnalog b ch unit v).field (i + j * 4) = tx.field (i + j * 4) := by
    intro i hi
    have hne : ∀ k < 4, i + j * 4 ≠ k + b * 4 := fun k hk => by omega
    have hlt : ∀ k < 4, k + b * 4 < dataFieldSize := fun k hk => by unfold dataFieldSize; omega
    simp only [CtrlPacket.setAnalog, CtrlPacket.field_setField (hlt 0 (by decide)),
      CtrlPacket.field_setField (hlt 1 (by decide)), CtrlPacket.field_setField (hlt 2 (by decide)),
      CtrlPacket.field_setField (hlt 3 (by decide)), if_neg (hne 0 (by decide)), if_neg (hne 1 (by decide)),
      if_neg (hne 2 (by decide)), if_neg (hne 3 (by decide))]
  unfold reported
  rw [hfield 2 (by decide), hfield 3 (by decide)]

/-- What block `b` of `CMD_ANALOG_VAL_RD` puts into the reply: its value, and nothing into the other blocks. -/
structure Reports (b : Nat) (s t : Fw) : Prop where
  rx : t.rx = s.rx
  values : SameValues s t
  own : ∀ v, s.analogVal (s.rx.field b) = some v → reported t.tx b = v
  others : ∀ j, j ≠ b → reported t.tx j = reported s.tx j

theorem wrAnalogVal_reports {u : Fw} {unit : Byte} {v : BitVec 16} {E : Fault → Prop} (hb : b < dataFieldSize / 4)
    (hu : u.rx = s.rx) (htx : u.tx = s.tx) (hvals : SameValues s u)
    (hv : ∀ w, s.analogVal (s.rx.field b) = some w → v = w) :
    wp (wrAnalogVal b unit v) (fun _ t => Reports b s t) E u := by
  rw [wp_wrAnalogVal hb]
  refine ⟨hu, ⟨hvals.dacVal, hvals.wiperPos, hvals.dac, hvals.wiper⟩, fun w hw => ?_, fun j hj => ?_⟩
  · rw [← hv w hw]
    exact reported_setAnalog u.tx hb _ _ _
  · rw [← htx]
    exact reported_setAnalog_ne u.tx hb hj _ _ _

theorem analogValRdBlock_reports {dev : Dev} (hf : RdFits s.rx b) :
    wp (analogValRdBlock dev b) (fun _ t => Reports b s t) (fun _ => False) s := by
  have h0 : 0 + b = b := Nat.zero_add b
  simp only [analogValRdBlock, h0, wp_bind, wp_rdRx hf.1]
  split
  · next hc =>
      simp only [wp_bind, wp_get]
      refine wrAnalogVal_reports (hf.2 (.inl hc)) rfl rfl (SameValues.refl s) fun w hw => ?_
      rw [hc] at hw
      exact Option.some.inj hw
  split
  · next hc =>
      simp only [wp_bind, wp_readTemperature, wp_get]
      refine wrAnalogVal_reports (hf.2 (.inr (.inl hc))) rfl rfl (readLm75_sameValues s dev b) fun w hw => ?_
      rw [hc] at hw
      cases hw
  split
  · next hc =>
      simp only [wp_bind, wp_get]
      refine wrAnalogVal_reports (hf.2 (.inr (.inr (.inl hc)))) rfl rfl (SameValues.refl s) fun w hw => ?_
      rw [hc] at hw
      exact Option.some.inj hw
  split
  · next hc =>
      simp only [wp_bind, wp_get]
      refine wrAnalogVal_reports (hf.2 (.inr (.inr (.inr hc)))) rfl rfl (SameValues.refl s) fun w hw => ?_
      rw [hc] at hw
      exact Option.some.inj hw
  · next hd _ hw0 hw1 =>
      refine ⟨rfl, ⟨rfl, rfl, rfl, fun _ => rfl⟩, fun w hw => ?_, fun j _ => rfl⟩
      rw [Fw.analogVal, if_neg hd, wrWiper, if_neg hw0, if_neg hw1] at hw
      cases hw

/-- The reply to a whole `CMD_ANALOG_VAL_RD`. -/
theorem analogValRd_reports {dev : Dev} (hf : ∀ b < s.rx.blocks, RdFits s.rx b) :
    wp (analogValRd dev)
      (fun _ t => SameValues s t ∧
        ∀ b < s.rx.blocks, ∀ v, s.analogVal (s.rx.field b) = some v → reported t.tx b = v)
      (fun _ => False) s := by
  simp only [analogValRd, wp_bind, eachBlock_eq]
  refine wp_post (wp_each (fun i t => t.rx = s.rx ∧ SameValues s t ∧
    ∀ b < i, ∀ v, s.analogVal (s.rx.field b) = some v → reported t.tx b = v) ?_ ?_) ?_
  · exact ⟨rfl, SameValues.refl s, fun _ hb => absurd hb (Nat.not_lt_zero _)⟩
  · intro i hi t ⟨hrx, hvals, hrep⟩
    refine wp_post (analogValRdBlock_reports (by rw [hrx]; exact hf i hi)) fun _ u hu => ?_
    refine ⟨hu.rx.trans hrx, hvals.trans hu.values, fun b hb v hv => ?_⟩
    rcases Nat.lt_succ_iff_lt_or_eq.mp hb with hb | rfl
    · rw [hu.others b (Nat.ne_of_lt hb)]
      exact hrep b hb v hv
    · refine hu.own v ?_
      rw [hvals.analogVal, hrx]
      exact hv
  · intro _ t ht
    exact ⟨⟨ht.2.1.dacVal, ht.2.1.wiperPos, ht.2.1.dac, ht.2.1.wiper⟩, ht.2.2⟩

end Reply

/-! ## Packets -/

section Packets

variable {s : Fw} {dev : Dev} {pkt : CtrlPacket}

theorem wp_processPacket {c : Command} {Q : Unit → Fw → Prop} {E : Fault → Prop} (h : pkt.cmd = some c) :
    wp (processPacket dev pkt) Q E s ↔ wp (runCommand dev c) Q E (s.received pkt) := by
  have hc : (s.received pkt).rx.cmd = some c := h
  simp only [processPacket, commandSwitch, wp_bind, wp_modify, wp_get, hc]

theorem wp_processPacket_unknown {Q : Unit → Fw → Prop} {E : Fault → Prop} (h : pkt.cmd = none) :
    wp (processPacket dev pkt) Q E s ↔ wp (setStatus statusUnknownCmd) Q E (s.received pkt) := by
  have hc : (s.received pkt).rx.cmd = none := h
  simp only [processPacket, commandSwitch, wp_bind, wp_modify, wp_get, hc]

/-- After any number of blocks of `CMD_ANALOG_VAL_WR` what is stored is what the devices hold. -/
theorem each_analogValWr_synced {n : Nat} (hs : s.Synced) (hn : n ≤ dataFieldSize / 4)
    (hr : ∀ b < n, ¬ WrOutOfRange s.rx b) :
    wp (each analogValWrBlock n) (fun _ t => t.rx = s.rx ∧ t.Synced) (fun _ => False) s := by
  refine wp_each (fun _ (t : Fw) => t.rx = s.rx ∧ t.Synced) ⟨rfl, hs⟩ ?_
  intro i hi t ⟨hrx, ht⟩
  rw [wp_analogValWrBlock (Nat.lt_of_lt_of_le hi hn)]
  refine ⟨(wrBlock_counts i).1.trans hrx, Synced_wrBlock ht ?_⟩
  rw [hrx]
  exact hr i hi

/-- The values of a packet of `CMD_ANALOG_VAL_WR` are in range as far as they are looked at. -/
def WrInRange (pkt : CtrlPacket) : Prop :=
  pkt.blocks ≤ dataFieldSize / 4 → ∀ b < pkt.blocks, ¬ WrOutOfRange pkt b

theorem analogValWr_synced (hs : s.Synced) (hr : WrInRange s.rx) :
    wp analogValWr (fun _ t => t.Synced) (fun _ => False) s := by
  by_cases hn : s.rx.blocks > dataFieldSize / 4
  · simp only [analogValWr]
    rw [wp_bind, wp_checkManyBlocks_refused hn]
    exact ⟨hs.dac, hs.wiper⟩
  · have hle := Nat.le_of_not_gt hn
    simp only [analogValWr, wp_bind, wp_checkManyBlocks hn, Bool.false_eq_true, if_false, eachBlock_eq]
    refine wp_post (each_analogValWr_synced hs hle (hr hle)) fun _ t ht => ?_
    simp only [statusOfErrors, wp_bind, wp_get]
    split
    · exact ⟨ht.2.dac, ht.2.wiper⟩
    · exact ⟨ht.2.dac, ht.2.wiper⟩

/-- A packet of `CMD_ANALOG_VAL_WR` with too many blocks changes no value. -/
theorem analogValWr_refused {E : Fault → Prop} (hn : s.rx.blocks > dataFieldSize / 4) :
    wp analogValWr (fun _ t => t.dacVal = s.dacVal ∧ t.wiperPos = s.wiperPos ∧ t.ops = s.ops) E s := by
  simp only [analogValWr]
  rw [wp_bind, wp_checkManyBlocks_refused hn]
  exact ⟨rfl, rfl, rfl⟩

theorem startup_synced : wp startup (fun _ t => t.Synced) (fun _ => False) powerOn := by
  simp only [startup, wp_bind, controlTCXOADF, each, wp_pure, wp_altAvalonSpiCommand, wp_modify, controlTCXODAC]
  refine ⟨by decide, fun k => ?_⟩
  revert k
  decide

end Packets

/-! ## Sessions -/

/-- A command packet and what the peripherals do while it is processed. -/
structure Request where
  pkt : CtrlPacket
  dev : Dev

/-- The main loop with one packet after the other. -/
def serve : List Request → FwCmd Unit
  | [] => pure ()
  | r :: rs => do
    processPacket r.dev r.pkt
    serve rs

/-- A run of the firmware from power on. -/
def session (rs : List Request) : FwCmd Unit := do
  startup
  serve rs

/-- The packet reads or writes analog values. -/
def Request.Analog (r : Request) : Prop := r.pkt.cmd = some .analogValWr ∨ r.pkt.cmd = some .analogValRd

/-- A write gives no wiper position out of range, a read has no block outside the data fields. -/
structure Request.InRange (r : Request) : Prop where
  write : r.pkt.cmd = some .analogValWr → WrInRange r.pkt
  read : r.pkt.cmd = some .analogValRd → ∀ b < r.pkt.blocks, RdFits r.pkt b

theorem received_synced {s : Fw} (hs : s.Synced) (pkt : CtrlPacket) : (s.received pkt).Synced :=
  ⟨hs.dac, hs.wiper⟩

theorem processPacket_synced {r : Request} {s : Fw} (hs : s.Synced) (ha : r.Analog) (hr : r.InRange) :
    wp (processPacket r.dev r.pkt) (fun _ t => t.Synced) (fun _ => False) s := by
  rcases ha with hc | hc
  · rw [wp_processPacket hc]
    exact analogValWr_synced (received_synced hs r.pkt) (hr.write hc)
  · rw [wp_processPacket hc]
    refine wp_post (analogValRd_reports (hr.read hc)) fun _ t ht => ?_
    exact ht.1.synced (received_synced hs r.pkt)

theorem serve_synced {rs : List Request} {s : Fw} (hs : s.Synced) (h : ∀ r ∈ rs, r.Analog ∧ r.InRange) :
    wp (serve rs) (fun _ t => t.Synced) (fun _ => False) s := by
  induction rs generalizing s with
  | nil => exact hs
  | cons r rs ih =>
      have hr := h r List.mem_cons_self
      rw [serve, wp_bind]
      refine wp_post (processPacket_synced hs hr.1 hr.2) fun _ t ht => ?_
      exact ih ht fun r' hr' => h r' (List.mem_cons_of_mem _ hr')

theorem session_synced {rs : List Request} (h : ∀ r ∈ rs, r.Analog ∧ r.InRange) :
    wp (session rs) (fun _ t => t.Synced) (fun _ => False) powerOn := by
  rw [session, wp_bind]
  exact wp_post startup_synced fun _ t ht => serve_synced ht h

end Nios

end LimeSdrQpcie
