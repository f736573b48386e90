import LimeSdrQpcie.Spi.Mcfg32wm

/-!
# A register module follows its session

The state counts the bits of the frame; the instruction register holds its first 16 bits and, in a write frame,
the data register those after them.
-/

namespace LimeSdrQpcie

open Hdl

variable {π : Type}

/-! ## Frames -/

namespace SpiModule

variable (M : SpiModule π)

/-- The instruction word of a frame that has 16 bits or more. -/
def instOf (bits : List Bool) : BitVec 16 := msbFirst 16 (bits.take 16)

/-- The data word of a complete frame. -/
def dataOf (bits : List Bool) : BitVec 16 := msbFirst 16 (bits.drop 16)

/-- The register an instruction word addresses. -/
def regOf (inst : BitVec 16) : BitVec 5 := inst.extractLsb' 0 5

/-- Whether an instruction word is addressed to the module. -/
def Addressed (inst : BitVec 16) : Prop := inst.extractLsb' 5 10 = M.maddress ∧ M.mimoEn = true

instance (inst : BitVec 16) : Decidable (M.Addressed inst) := inferInstanceAs (Decidable (_ ∧ _))

def Writes (inst : BitVec 16) : Prop := M.Addressed inst ∧ inst.getLsbD 15 = true

instance (inst : BitVec 16) : Decidable (M.Writes inst) := inferInstanceAs (Decidable (_ ∧ _))

def Reads (inst : BitVec 16) : Prop := M.Addressed inst ∧ inst.getLsbD 15 = false

instance (inst : BitVec 16) : Decidable (M.Reads inst) := inferInstanceAs (Decidable (_ ∧ _))

/-- What a complete frame does to the memory. -/
def apply (mem : Mem32x16) (frame : List Bool) : Mem32x16 :=
  if M.Writes (instOf frame) then M.store mem (regOf (instOf frame)) (dataOf frame) else mem

/-- A register that the memory has: a write to it changes it and no other. -/
def Stores (a : BitVec 5) : Prop := ∀ mem v, M.store mem a v = mem.write a v

/-- The read data phase: from the last bit of an instruction word that reads the module to the end of the frame. In its
first half clock period, before the falling edge that loads `dout_reg`, `sdout` may still show the last bit that was
read before. -/
def ReadPhase (ses : SerialSession) : Prop := 16 ≤ ses.bits.length ∧ M.Reads (instOf ses.bits)

/-- A register that captures nothing. -/
def Plain (a : BitVec 5) : Prop := ∀ pins mem, M.capture pins mem a = mem a

theorem isWrite_eq (inst : BitVec 16) (sen : Bool) :
    McfgFsm.isWrite ⟨M.maddress, M.mimoEn, inst, sen⟩ = decide (M.Writes inst) := by
  rw [Bool.eq_iff_iff]
  simp [McfgFsm.isWrite, Writes, Addressed, and_assoc, and_comm]

theorem isRead_eq (inst : BitVec 16) (sen : Bool) :
    McfgFsm.isRead ⟨M.maddress, M.mimoEn, inst, sen⟩ = decide (M.Reads inst) := by
  rw [Bool.eq_iff_iff]
  simp [McfgFsm.isRead, Reads, Addressed, and_assoc, and_comm]

/-- A frame looks at a register only to write it. -/
theorem apply_congr {mem mem' : Mem32x16} {a : BitVec 5} {frame : List Bool} (h : mem a = mem' a)
    (hs : M.Writes (instOf frame) → M.Stores (regOf (instOf frame))) : M.apply mem frame a = M.apply mem' frame a := by
  rw [apply, apply]
  by_cases hw : M.Writes (instOf frame)
  · rw [if_pos hw, if_pos hw, hs hw, hs hw, Mem32x16.write, Mem32x16.write]
    by_cases ha : a = regOf (instOf frame)
    · rw [if_pos ha, if_pos ha]
    · rw [if_neg ha, if_neg ha, h]
  · rw [if_neg hw, if_neg hw, h]

theorem foldl_apply_congr {a : BitVec 5} {frames : List (List Bool)} {mem mem' : Mem32x16} (h : mem a = mem' a)
    (hs : ∀ b, M.Stores b) : frames.foldl M.apply mem a = frames.foldl M.apply mem' a := by
  induction frames generalizing mem mem' with
  | nil => exact h
  | cons f fs ih => exact ih (M.apply_congr h fun _ => hs _)

end SpiModule

/-! ## The module and its session -/

namespace SpiSlave

open SpiModule

variable {M : SpiModule π} {ses : SerialSession} {s : SpiSlave}

/-- The registers follow the session. -/
structure Tracks (M : SpiModule π) (ses : SerialSession) (s : SpiSlave) : Prop where
  ok : SerialSession.Ok 32 ses
  sen : s.sen = ses.sen
  state : s.state = ses.bits.length
  inst : ∃ r, s.instReg = (ses.bits.take 16).foldl BitVec.shiftConcat r
  din : 16 ≤ ses.bits.length → M.Writes (instOf ses.bits) →
    ∃ r, s.dinReg = (ses.bits.drop 16).foldl BitVec.shiftConcat r

/-- A module that waits for the first bit of a frame. -/
theorem tracks_of_s0 (M : SpiModule π) (h : s.state = 0) : Tracks M ⟨s.sen, []⟩ s :=
  ⟨⟨Nat.zero_le _, fun _ => rfl⟩, rfl, h, ⟨s.instReg, rfl⟩, fun h16 => absurd h16 (Nat.not_succ_le_zero 15)⟩

theorem Tracks.instReg_eq (h : Tracks M ses s) (h16 : 16 ≤ ses.bits.length) : s.instReg = instOf ses.bits := by
  obtain ⟨r, hr⟩ := h.inst
  rw [hr, instOf]
  exact foldl_shiftConcat (by rw [List.length_take]; exact Nat.min_eq_left h16) r

theorem Tracks.isWrite (h : Tracks M ses s) (h16 : 16 ≤ ses.bits.length) :
    McfgFsm.isWrite (s.fsmIn M) = decide (M.Writes (instOf ses.bits)) := by
  rw [fsmIn, isWrite_eq, h.instReg_eq h16]

theorem Tracks.isRead (h : Tracks M ses s) (h16 : 16 ≤ ses.bits.length) :
    McfgFsm.isRead (s.fsmIn M) = decide (M.Reads (instOf ses.bits)) := by
  rw [fsmIn, isRead_eq, h.instReg_eq h16]

/-- The output is enabled in the read data phase only. -/
theorem Tracks.oe (h : Tracks M ses s) : McfgFsm.oe s.state (s.fsmIn M) = true ↔ M.ReadPhase ses := by
  rw [McfgFsm.oe, ReadPhase, Bool.and_eq_true, decide_eq_true_iff, h.state]
  constructor
  · rintro ⟨⟨h16, _⟩, hr⟩
    rw [h.isRead h16, decide_eq_true_iff] at hr
    exact ⟨h16, hr⟩
  · rintro ⟨h16, hr⟩
    rw [h.isRead h16, decide_eq_true_iff]
    exact ⟨⟨h16, h.ok.length_le⟩, hr⟩

theorem Tracks.sdout_readPhase (h : Tracks M ses s) (hs : s.sdout M = true) : M.ReadPhase ses := by
  rw [sdout, Bool.and_eq_true] at hs
  exact h.oe.mp hs.2

/-! ### Steps -/

theorem Tracks.fall (h : Tracks M ses s) (pins : π) : Tracks M ses (s.fall M pins) :=
  ⟨h.ok, h.sen, h.state, h.inst, h.din⟩

theorem Tracks.enable (h : Tracks M ses s) (b : Bool) :
    Tracks M (ses.next 32 (.enable b : SerialEvent π)) (s.enable b) := by
  cases b with
  | false => exact ⟨h.ok.next (by decide) (.enable false : SerialEvent π), rfl, h.state, h.inst, h.din⟩
  | true =>
      exact ⟨h.ok.next (by decide) (.enable true : SerialEvent π), rfl, rfl, ⟨s.instReg, rfl⟩,
        fun h16 => absurd h16 (Nat.not_succ_le_zero 15)⟩

theorem instOf_append {bits : List Bool} (h : 16 ≤ bits.length) (d : Bool) : instOf (bits ++ [d]) = instOf bits := by
  rw [instOf, instOf, List.take_append_of_le_length h]

theorem instRegEn_eq (h : Tracks M ses s) (hs : ses.sen = false) :
    McfgFsm.instRegEn s.state (s.fsmIn M) = decide (ses.bits.length < 16 ∨ ses.bits.length = 32) := by
  have hle := h.ok.length_le
  rw [McfgFsm.instRegEn, h.state, fsmIn, h.sen, hs]
  by_cases h0 : ses.bits.length = 0 ∨ ses.bits.length = 32
  · rw [if_pos h0, decide_eq_true (by omega)]
    rfl
  · rw [if_neg h0]
    exact decide_eq_decide.mpr (by omega)

/-- With the enable line high a rising edge only lets the memory capture. -/
theorem Tracks.rise_high (h : Tracks M ses s) (hs : ses.sen = true) (d : Bool) (pins : π) :
    s.rise M d pins = { s with mem := M.capture pins s.mem } := by
  have h0 : s.state = 0 := by rw [h.state, h.ok.idle hs]; rfl
  have hsen : s.sen = true := h.sen.trans hs
  rw [rise]
  simp [McfgFsm.instRegEn, McfgFsm.dinRegEn, McfgFsm.memWe, McfgFsm.doutRegLen, fsmIn, h0, hsen]

theorem rise_state (M : SpiModule π) (s : SpiSlave) (d : Bool) (pins : π) :
    (s.rise M d pins).state = if s.sen then 0 else McfgFsm.nextState s.state := rfl

theorem rise_dinReg (M : SpiModule π) (s : SpiSlave) (d : Bool) (pins : π) :
    (s.rise M d pins).dinReg =
      if McfgFsm.dinRegEn s.state (s.fsmIn M) then s.dinReg.shiftConcat d else s.dinReg := rfl

theorem Tracks.rise_instReg (h : Tracks M ses s) (hs : ses.sen = false) (d : Bool) (pins : π) :
    (s.rise M d pins).instReg =
      if ses.bits.length < 16 ∨ ses.bits.length = 32 then s.instReg.shiftConcat d else s.instReg := by
  have hreg : (s.rise M d pins).instReg =
      if McfgFsm.instRegEn s.state (s.fsmIn M) then s.instReg.shiftConcat d else s.instReg := rfl
  rw [hreg, instRegEn_eq h hs]
  simp only [decide_eq_true_eq]

/-- A bit of a frame that has begun. -/
theorem Tracks.rise_of_lt (h : Tracks M ses s) (hs : ses.sen = false) (hlt : ses.bits.length < 32) (d : Bool)
    (pins : π) : Tracks M { ses with bits := ses.bits ++ [d] } (s.rise M d pins) := by
  have hsen : s.sen = false := h.sen.trans hs
  have hok := h.ok.next (by decide) (.rise d pins)
  rw [SerialSession.next_rise hs, SerialSession.bitsNext_of_lt hlt] at hok
  refine ⟨hok, h.sen, ?_, ?_, fun h16 hw => ?_⟩
  · rw [rise_state, hsen, h.state, McfgFsm.nextState, if_pos hlt, List.length_append]
    rfl
  · obtain ⟨r, hr⟩ := h.inst
    refine ⟨r, ?_⟩
    rw [h.rise_instReg hs, hr]
    by_cases hk : ses.bits.length < 16
    · rw [if_pos (Or.inl hk), List.take_of_length_le (Nat.le_of_lt hk),
        List.take_of_length_le (by rw [List.length_append]; exact hk), List.foldl_append]
      rfl
    · rw [if_neg (by omega), List.take_append_of_le_length (Nat.le_of_not_lt hk)]
  · rw [List.length_append, List.length_singleton] at h16
    rcases Nat.lt_or_ge ses.bits.length 16 with hk | hk
    · refine ⟨(s.rise M d pins).dinReg, ?_⟩
      rw [List.drop_of_length_le (by rw [List.length_append]; exact hk)]
      rfl
    · rw [instOf_append hk] at hw
      obtain ⟨r, hr⟩ := h.din hk hw
      have hen : McfgFsm.dinRegEn s.state (s.fsmIn M) = true := by
        rw [McfgFsm.dinRegEn, h.isWrite hk, decide_eq_true hw, h.state, decide_eq_true (by omega)]
        rfl
      refine ⟨r, ?_⟩
      rw [rise_dinReg, if_pos hen, hr, List.drop_append_of_le_length hk, List.foldl_append]
      rfl

/-- The first bit of the frame behind a complete one. -/
theorem Tracks.rise_of_eq (h : Tracks M ses s) (hs : ses.sen = false) (heq : ses.bits.length = 32) (d : Bool)
    (pins : π) : Tracks M { ses with bits := [d] } (s.rise M d pins) := by
  have hsen : s.sen = false := h.sen.trans hs
  have hok := h.ok.next (by decide) (.rise d pins)
  rw [SerialSession.next_rise hs, SerialSession.bitsNext_of_eq heq] at hok
  refine ⟨hok, h.sen, ?_, ⟨s.instReg, ?_⟩, fun h16 => absurd h16 (by simp)⟩
  · rw [rise_state, hsen, h.state, heq]
    rfl
  · rw [h.rise_instReg hs, if_pos (Or.inr heq)]
    rfl

theorem Tracks.rise (h : Tracks M ses s) (d : Bool) (pins : π) :
    Tracks M (ses.next 32 (.rise d pins)) (s.rise M d pins) := by
  cases hs : ses.sen with
  | true =>
      rw [h.rise_high hs, SerialSession.next_rise_high hs]
      exact ⟨h.ok, h.sen, h.state, h.inst, h.din⟩
  | false =>
      rw [SerialSession.next_rise hs]
      rcases Nat.lt_or_eq_of_le h.ok.length_le with hlt | heq
      · rw [SerialSession.bitsNext_of_lt hlt]
        exact h.rise_of_lt hs hlt d pins
      · rw [SerialSession.bitsNext_of_eq heq]
        exact h.rise_of_eq hs heq d pins

/-- A rising edge writes the memory when it completes a frame that writes the module. -/
theorem Tracks.rise_mem (h : Tracks M ses s) (d : Bool) (pins : π) {a : BitVec 5} (ha : M.Plain a) :
    (s.rise M d pins).mem a = (ses.completed 32 (.rise d pins)).foldl M.apply s.mem a := by
  cases hs : ses.sen with
  | true =>
      rw [h.rise_high hs, SerialSession.completed, if_neg (fun h' => absurd (hs.symm.trans h'.1) (by decide))]
      exact ha pins s.mem
  | false =>
      let written :=
        if McfgFsm.memWe s.state (s.fsmIn M) then M.store s.mem s.regAddr (s.dinReg.shiftConcat d) else s.mem
      have hmem : (s.rise M d pins).mem a = written a := by
        show (if McfgFsm.doutRegLen s.state (s.fsmIn M) = true then written else M.capture pins written) a = _
        by_cases hl : McfgFsm.doutRegLen s.state (s.fsmIn M) = true
        · rw [if_pos hl]
        · rw [if_neg hl]
          exact ha pins written
      rw [hmem]
      show (if McfgFsm.memWe s.state (s.fsmIn M) = true then _ else _ : Mem32x16) a = _
      rcases Nat.lt_or_eq_of_le h.ok.length_le with hlt | heq
      · rw [SerialSession.completed, SerialSession.bitsNext_of_lt hlt, List.length_append, List.length_singleton,
          McfgFsm.memWe, h.state]
        by_cases hk : ses.bits.length = 31
        · have h16 : 16 ≤ ses.bits.length := by omega
          rw [if_pos (show ses.sen = false ∧ ses.bits.length + 1 = 32 from ⟨hs, by omega⟩), decide_eq_true hk,
            Bool.true_and, h.isWrite h16, List.foldl_cons, List.foldl_nil, SpiModule.apply, instOf_append h16]
          by_cases hw : M.Writes (instOf ses.bits)
          · obtain ⟨r, hr⟩ := h.din h16 hw
            have hdata : s.dinReg.shiftConcat d = dataOf (ses.bits ++ [d]) := by
              rw [hr, dataOf, List.drop_append_of_le_length h16, ← foldl_shiftConcat (by simp; omega) r,
                List.foldl_append]
              rfl
            rw [if_pos (decide_eq_true hw), if_pos hw, hdata, regAddr, h.instReg_eq h16]
            rfl
          · rw [if_neg (by simpa using hw), if_neg hw]
        · rw [if_neg (show ¬ (ses.sen = false ∧ ses.bits.length + 1 = 32) from fun h' => by omega),
            decide_eq_false hk]
          rfl
      · rw [SerialSession.completed, SerialSession.bitsNext_of_eq heq, McfgFsm.memWe, h.state, heq]
        simp

/-! ### Runs -/

theorem Tracks.next (h : Tracks M ses s) (e : SerialEvent π) : Tracks M (ses.next 32 e) (s.next M e) := by
  cases e with
  | rise d pins => exact h.rise d pins
  | fall pins => exact h.fall pins
  | enable b => exact h.enable b

theorem Tracks.run (h : Tracks M ses s) (es : List (SerialEvent π)) : Tracks M (ses.run 32 es) (s.run M es) := by
  induction es generalizing ses s with
  | nil => exact h
  | cons e es ih => exact ih (h.next e)

theorem run_append (M : SpiModule π) (s : SpiSlave) (es fs : List (SerialEvent π)) :
    s.run M (es ++ fs) = (s.run M es).run M fs := List.foldl_append

/-- The memory after a session is the memory before it with the frames of the session applied in order. -/
theorem Tracks.run_mem (h : Tracks M ses s) (hstore : ∀ b, M.Stores b) (es : List (SerialEvent π)) {a : BitVec 5}
    (ha : M.Plain a) : (s.run M es).mem a = (ses.frames 32 es).foldl M.apply s.mem a := by
  induction es generalizing ses s with
  | nil => rfl
  | cons e es ih =>
      have hstep : (s.next M e).mem a = (ses.completed 32 e).foldl M.apply s.mem a := by
        cases e with
        | rise d pins => exact h.rise_mem d pins ha
        | fall pins => rfl
        | enable b => rfl
      rw [SerialSession.frames, List.foldl_append]
      exact (ih (h.next e)).trans (M.foldl_apply_congr hstep hstore)

/-! ### Reads -/

/-- The clock pulses of a data phase, each with the inputs of its two edges. -/
def pulses (ds : List (Bool × π × π)) : List (SerialEvent π) := ds.flatMap fun d => [.rise d.1 d.2.1, .fall d.2.2]

/-- After `k` bits of the read data phase the output register has moved `k` bits of `v` out. -/
structure Sends (M : SpiModule π) (v : BitVec 16) (k : Nat) (ses : SerialSession) (s : SpiSlave) : Prop where
  tracks : Tracks M ses s
  sen : ses.sen = false
  length : ses.bits.length = 16 + k
  reads : M.Reads (instOf ses.bits)
  dout : ∀ i, k ≤ i → i < 16 → s.doutReg.getLsbD i = v.getLsbD (i - k)

theorem Sends.sdout {v : BitVec 16} {k : Nat} (h : Sends M v k ses s) (hk : k < 16) :
    s.sdout M = v.getLsbD (15 - k) := by
  have hoe : McfgFsm.oe s.state (s.fsmIn M) = true := h.tracks.oe.mpr ⟨by rw [h.length]; omega, h.reads⟩
  rw [SpiSlave.sdout, hoe, Bool.and_true, h.dout 15 (Nat.le_of_lt_succ hk) (by decide)]

theorem Sends.pulse {v : BitVec 16} {k : Nat} (h : Sends M v k ses s) (hk : k < 15) (d : Bool) (p q : π) :
    Sends M v (k + 1) ((ses.next 32 (.rise d p)).next 32 (.fall q)) ((s.rise M d p).fall M q) := by
  have hlt : ses.bits.length < 32 := by rw [h.length]; omega
  have h16 : 16 ≤ ses.bits.length := by rw [h.length]; omega
  have ht := h.tracks.rise d p
  rw [SerialSession.next_fall, SerialSession.next_rise h.sen, SerialSession.bitsNext_of_lt hlt] at *
  have hinst := instOf_append h16 d
  have hlen : (ses.bits ++ [d]).length = 16 + (k + 1) := by
    rw [List.length_append, h.length]
    rfl
  have hreads : M.Reads (instOf (ses.bits ++ [d])) := by
    rw [hinst]
    exact h.reads
  refine ⟨ht.fall q, h.sen, hlen, hreads, fun i hki hi => ?_⟩
  have hsen : McfgFsm.doutRegSen (s.rise M d p).state ((s.rise M d p).fsmIn M) = true := by
    rw [McfgFsm.doutRegSen, ht.isRead (by rw [hlen]; omega), decide_eq_true hreads, ht.state, hlen,
      decide_eq_true (by omega)]
    rfl
  show (if McfgFsm.doutRegSen (s.rise M d p).state ((s.rise M d p).fsmIn M) = true then _
    else _ : BitVec 16).getLsbD i = _
  rw [if_pos hsen, BitVec.getLsbD_shiftConcat, decide_eq_true hi, Bool.true_and, if_neg (by omega)]
  show s.doutReg.getLsbD (i - 1) = _
  rw [h.dout (i - 1) (by omega) (by omega), show i - 1 - k = i - (k + 1) by omega]

theorem Sends.pulses {v : BitVec 16} {k : Nat} (h : Sends M v k ses s) (ds : List (Bool × π × π))
    (hk : k + ds.length ≤ 15) :
    Sends M v (k + ds.length) (ses.run 32 (SpiSlave.pulses ds)) (s.run M (SpiSlave.pulses ds)) := by
  induction ds generalizing k ses s with
  | nil => exact h
  | cons d ds ih =>
      rw [List.length_cons] at hk ⊢
      have hp := ih (h.pulse (by omega) d.1 d.2.1 d.2.2) (by omega)
      rw [show k + (ds.length + 1) = k + 1 + ds.length by omega]
      exact hp

/-- The falling edge after the instruction word loads the output register. -/
theorem Tracks.load (h : Tracks M ses s) (hs : ses.sen = false) (hlen : ses.bits.length = 16)
    (hr : M.Reads (instOf ses.bits)) (q : π) :
    Sends M (M.doutMux q s.mem (regOf (instOf ses.bits))) 0 ses (s.fall M q) := by
  have h16 : 16 ≤ ses.bits.length := Nat.le_of_eq hlen.symm
  have hsen : ¬ McfgFsm.doutRegSen s.state (s.fsmIn M) = true := by
    rw [McfgFsm.doutRegSen, h.state, hlen]
    simp
  have hlen' : McfgFsm.doutRegLen s.state (s.fsmIn M) = true := by
    rw [McfgFsm.doutRegLen, h.isRead h16, decide_eq_true hr, h.state, decide_eq_true hlen]
    rfl
  refine ⟨h.fall q, hs, hlen, hr, fun i _ _ => ?_⟩
  show (if McfgFsm.doutRegSen s.state (s.fsmIn M) = true then _
    else if McfgFsm.doutRegLen s.state (s.fsmIn M) = true then _ else _ : BitVec 16).getLsbD i = _
  rw [if_neg hsen, if_pos hlen', regAddr, h.instReg_eq h16]
  rfl

end SpiSlave

end LimeSdrQpcie
