import LimeSdrQpcie.Spi.Lemmas.CfgTop

/-!
# The registers on the serial port

Every complete write frame that is addressed to a module is stored, every complete read frame shows the register on
`sdout`, and nothing else happens, whatever the session is.
-/

namespace LimeSdrQpcie

open Hdl SpiModule

variable {π ρ : Type}

/-! ## Register modules -/

/-- What a register module does in every session that begins with `mcfg32wm_fsm` in `s0`. The registers in `Captures`
follow the pins; `value p q mem a` is what register `a` shows when the instruction word ends on a clock pulse
with the pins `p` on its rising and `q` on its falling edge. -/
structure RegisterLaw (M : SpiModule π) (Captures : BitVec 5 → Prop)
    (value : π → π → Mem32x16 → BitVec 5 → BitVec 16) : Prop where
  /-- The memory is the memory before with the complete frames applied in order. -/
  mem : ∀ s : SpiSlave, s.state = 0 → ∀ (es : List (SerialEvent π)) (a : BitVec 5), ¬ Captures a →
    (s.run M es).mem a = ((SerialSession.mk s.sen []).frames 32 es).foldl M.apply s.mem a
  /-- The bits of the read data phase come most significant first. -/
  read : ∀ s : SpiSlave, s.state = 0 → ∀ (es : List (SerialEvent π)) (d : Bool) (p q : π)
    (ds : List (Bool × π × π)), ds.length < 16 →
    let bits := ((SerialSession.mk s.sen []).run 32 (es ++ [.rise d p])).bits
    bits.length = 16 → M.Reads (instOf bits) →
      (s.run M (es ++ [.rise d p] ++ [.fall q] ++ SpiSlave.pulses ds)).sdout M =
        (value p q (s.run M es).mem (regOf (instOf bits))).getLsbD (15 - ds.length)
  /-- Outside the read data phase the output is zero. -/
  quiet : ∀ s : SpiSlave, s.state = 0 → ∀ es : List (SerialEvent π),
    ¬ M.ReadPhase ((SerialSession.mk s.sen []).run 32 es) → (s.run M es).sdout M = false

/-- The last bit of an instruction word lets the memory capture and writes nothing. -/
theorem SpiSlave.Tracks.rise_mem_inst {M : SpiModule π} {ses : SerialSession} {s : SpiSlave} (h : Tracks M ses s)
    (d : Bool) (p : π) (h16 : (ses.next 32 (.rise d p)).bits.length = 16) :
    (s.rise M d p).mem = M.capture p s.mem := by
  cases hs : ses.sen with
  | true => rw [h.rise_high hs]
  | false =>
      have h15 : ses.bits.length = 15 := by
        rw [SerialSession.next_rise hs] at h16
        rcases Nat.lt_or_eq_of_le h.ok.length_le with hlt | heq
        · rw [SerialSession.bitsNext_of_lt hlt, List.length_append] at h16
          exact Nat.succ.inj h16
        · rw [SerialSession.bitsNext_of_eq heq] at h16
          cases h16
      have hst : s.state = 15 := h.state.trans h15
      rw [SpiSlave.rise]
      simp [McfgFsm.memWe, McfgFsm.doutRegLen, hst]

theorem registerLaw_of {M : SpiModule π} {Captures : BitVec 5 → Prop}
    {value : π → π → Mem32x16 → BitVec 5 → BitVec 16} (hplain : ∀ a, ¬ Captures a → M.Plain a)
    (hstore : ∀ a, M.Stores a) (hvalue : ∀ p q mem a, M.doutMux q (M.capture p mem) a = value p q mem a) :
    RegisterLaw M Captures value := by
  constructor
  case mem =>
    intro s h0 es a ha
    exact (SpiSlave.tracks_of_s0 M h0).run_mem hstore es (hplain a ha)
  case read =>
    intro s h0 es d p q ds hds bits h16 hr
    have ht := (SpiSlave.tracks_of_s0 M h0).run es
    have ht' := (SpiSlave.tracks_of_s0 M h0).run (es ++ [.rise d p])
    have hlow : ((SerialSession.mk s.sen []).run 32 (es ++ [.rise d p])).sen = false := by
      cases hs : ((SerialSession.mk s.sen []).run 32 (es ++ [.rise d p])).sen with
      | false => rfl
      | true => exact absurd ((congrArg List.length (ht'.ok.idle hs)).symm.trans h16) (by decide)
    have hout := ((ht'.load hlow h16 hr q).pulses ds (by omega)).sdout (by omega)
    have hmem : (s.run M (es ++ [.rise d p])).mem = M.capture p (s.run M es).mem := by
      rw [SpiSlave.run_append]
      refine ht.rise_mem_inst d p ?_
      rw [← h16]
      show _ = ((SerialSession.mk s.sen []).run 32 (es ++ [.rise d p])).bits.length
      rw [SerialSession.run_append]
      rfl
    rw [hmem, hvalue, Nat.zero_add] at hout
    rw [SpiSlave.run_append, SpiSlave.run_append]
    exact hout
  case quiet =>
    intro s h0 es hq
    cases hs : (s.run M es).sdout M with
    | false => rfl
    | true => exact absurd (((SpiSlave.tracks_of_s0 M h0).run es).sdout_readPhase hs) hq

theorem registerLaw_fpgacfg (maddress : BitVec 10) (mimoEn : Bool) :
    RegisterLaw (fpgacfg maddress mimoEn) (fun _ => False)
      (fun _ q mem a => (fpgacfg maddress mimoEn).doutMux q mem a) :=
  registerLaw_of (fun _ _ _ _ => rfl) (fun _ _ _ => rfl) fun _ _ _ _ => rfl

theorem registerLaw_pllcfg (maddress : BitVec 10) (mimoEn : Bool) :
    RegisterLaw (pllcfg maddress mimoEn) (fun a => a = 1 ∨ a = 2)
      (fun p _ mem a => if a = 1 then p.status else if a = 2 then p.lock else mem a) := by
  refine registerLaw_of (fun a ha p mem => ?_) (fun _ _ _ => rfl) fun p q mem a => ?_
  · show ((mem.write 1 p.status).write 2 p.lock) a = mem a
    rw [Mem32x16.write_of_ne _ (fun h => ha (Or.inr h)), Mem32x16.write_of_ne _ (fun h => ha (Or.inl h))]
  · show ((mem.write 1 p.status).write 2 p.lock) a = _
    by_cases h1 : a = 1
    · rw [h1, Mem32x16.write_of_ne _ (by decide), Mem32x16.write_same, if_pos rfl]
    · rw [if_neg h1]
      by_cases h2 : a = 2
      · rw [h2, Mem32x16.write_same, if_pos rfl]
      · rw [if_neg h2, Mem32x16.write_of_ne _ h2, Mem32x16.write_of_ne _ h1]

/-! ## cfg_top -/

namespace CfgTop

/-- A state in which no frame has begun and every instance gets the `sen` that `mac` gives it. -/
def Starts (s : CfgInst → SpiSlave) : Prop := ∀ i, (s i).state = 0 ∧ (s i).sen = i.senOf (mac s) (sen s)

/-- What `cfg_top` does in every session: a frame is taken by the instances it addresses and `mac` lets through,
and only these drive `sdout`. What is said of an instance holds as long as it is not accessed at an index that its
memory does not have. -/
structure Law (other : OtherCfg ρ) : Prop where
  mem : ∀ s, Starts s → ∀ (es : List (SerialEvent (CfgPins ρ))) (i : CfgInst),
    let frames := (SerialSession.mk (sen s) []).frames 32 es
    WritesInside other frames i → ∀ a : BitVec 5, a.toNat < i.words → (module other i).Plain a →
      (run other s es i).mem a = frames.foldl (applyAll other) (fun j => (s j).mem) i a
  read : ∀ s, Starts s → ∀ (es : List (SerialEvent (CfgPins ρ))) (d : Bool) (p q : CfgPins ρ)
    (ds : List (Bool × CfgPins ρ × CfgPins ρ)), ds.length < 16 →
    let bits := ((SerialSession.mk (sen s) []).run 32 (es ++ [.rise d p])).bits
    let t := run other s (es ++ [.rise d p])
    bits.length = 16 → (∀ i, ReadBy other t bits i → (regOf (instOf bits)).toNat < i.words) →
      (sdout other (run other s (es ++ [.rise d p] ++ [.fall q] ++ SpiSlave.pulses ds)) = true ↔
        ∃ i, ReadBy other t bits i ∧
          ((module other i).doutMux q (t i).mem (regOf (instOf bits))).getLsbD (15 - ds.length) = true)
  quiet : ∀ s, Starts s → ∀ es : List (SerialEvent (CfgPins ρ)),
    let bits := ((SerialSession.mk (sen s) []).run 32 es).bits
    (∀ i, ¬ (16 ≤ bits.length ∧ ReadBy other (run other s es) bits i)) → sdout other (run other s es) = false

theorem follows_of_starts (other : OtherCfg ρ) {s : CfgInst → SpiSlave} (h : Starts s) :
    Follows other ⟨sen s, []⟩ s :=
  ⟨⟨Nat.zero_le _, fun _ => rfl⟩, fun i =>
    ⟨⟨(s i).sen, []⟩, SpiSlave.tracks_of_s0 _ (h i).1, (h i).2, fun _ => Or.inl rfl⟩⟩

theorem law (other : OtherCfg ρ) : Law other := by
  constructor
  case mem =>
    intro s h0 es i frames hw a _ ha
    exact (follows_of_starts other h0).run_mem es hw ha
  case read =>
    intro s h0 es d p q ds hds bits t h16 _
    have hf := (follows_of_starts other h0).run (es ++ [.rise d p])
    have hout := ((hf.load h16 q).pulses ds (by omega)).sdout (by omega)
    rw [Nat.zero_add] at hout
    rw [run_append, run_append]
    exact hout
  case quiet =>
    intro s h0 es bits hq
    cases hs : sdout other (run other s es) with
    | false => rfl
    | true =>
        obtain ⟨i, _, hi⟩ := List.any_eq_true.mp hs
        exact absurd (((follows_of_starts other h0).run es).sdout_inst i hi) (hq i)

end CfgTop

/-- The law of `fpgacfg`, of `pllcfg` on its port A, and of the port they share. -/
theorem spi_registers :
    (∀ (maddress : BitVec 10) (mimoEn : Bool),
      RegisterLaw (fpgacfg maddress mimoEn) (fun _ => False)
        (fun _ q mem a => (fpgacfg maddress mimoEn).doutMux q mem a)) ∧
    (∀ (maddress : BitVec 10) (mimoEn : Bool),
      RegisterLaw (pllcfg maddress mimoEn) (fun a => a = 1 ∨ a = 2)
        (fun p _ mem a => if a = 1 then p.status else if a = 2 then p.lock else mem a)) ∧
    ∀ (ρ : Type) (other : OtherCfg ρ), CfgTop.Law other :=
  ⟨registerLaw_fpgacfg, registerLaw_pllcfg, fun _ other => CfgTop.law other⟩

end LimeSdrQpcie
