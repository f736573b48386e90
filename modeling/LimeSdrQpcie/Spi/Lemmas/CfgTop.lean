import LimeSdrQpcie.Spi.CfgTop
import LimeSdrQpcie.Spi.Lemmas.Mcfg32wm

/-!
# The instances of `cfg_top` follow one session

An instance that gets `sen` sees the frames of the session; one that gets it only from the end of a frame on
joins with the next frame, since `mac` changes only when a frame is complete.
-/

namespace LimeSdrQpcie

open Hdl

variable {ρ : Type} {other : OtherCfg ρ}

namespace CfgTop

open SpiModule

/-! ## Frames -/

/-- What a complete frame does to the memories: it reaches the instances that get `sen`. -/
def applyAll (other : OtherCfg ρ) (mems : CfgInst → Mem32x16) (frame : List Bool) : CfgInst → Mem32x16 := fun i =>
  if i.enabled (mems .inst255 31) then (module other i).apply (mems i) frame else mems i

theorem plain_memcfg (other : OtherCfg ρ) (a : BitVec 5) : (module other .inst255).Plain a := fun _ _ => rfl

/-- A register that the memory of the instance has. -/
theorem stores_of_lt (other : OtherCfg ρ) {i : CfgInst} {a : BitVec 5} (h : a.toNat < i.words) :
    (module other i).Stores a := by
  cases i with
  | inst0_0 | inst0_1 | inst0_2 | inst1 | inst255 => exact fun _ _ => rfl
  | inst3 | inst4_0 | inst4_1 | inst5 | inst6 | inst7 | inst8 => exact fun _ _ => if_pos h

/-- No frame writes the instance at an index that its memory does not have. -/
def WritesInside (other : OtherCfg ρ) (frames : List (List Bool)) (i : CfgInst) : Prop :=
  ∀ f ∈ frames, (module other i).Writes (instOf f) → (regOf (instOf f)).toNat < i.words

theorem writesInside_memcfg (other : OtherCfg ρ) (frames : List (List Bool)) : WritesInside other frames .inst255 :=
  fun f _ _ => (regOf (instOf f)).isLt

/-- Two families of memories that agree in `mac` and, where nothing is captured, in the memory of the instance. -/
structure Agree (other : OtherCfg ρ) (mems mems' : CfgInst → Mem32x16) (i : CfgInst) : Prop where
  mac : mems .inst255 31 = mems' .inst255 31
  mem : ∀ a, (module other i).Plain a → mems i a = mems' i a

theorem applyAll_congr {mems mems' : CfgInst → Mem32x16} {i : CfgInst} {a : BitVec 5} {frame : List Bool}
    (hmac : mems .inst255 31 = mems' .inst255 31) (h : mems i a = mems' i a) (hw : WritesInside other [frame] i) :
    applyAll other mems frame i a = applyAll other mems' frame i a := by
  rw [applyAll, applyAll, hmac]
  by_cases he : i.enabled (mems' .inst255 31) = true
  · rw [if_pos he, if_pos he]
    exact (module other i).apply_congr h fun hwr => stores_of_lt other (hw frame List.mem_cons_self hwr)
  · rw [if_neg he, if_neg he]
    exact h

theorem Agree.foldl {mems mems' : CfgInst → Mem32x16} {i : CfgInst} (h : Agree other mems mems' i)
    {frames : List (List Bool)} (hw : WritesInside other frames i) :
    Agree other (frames.foldl (applyAll other) mems) (frames.foldl (applyAll other) mems') i := by
  induction frames generalizing mems mems' with
  | nil => exact h
  | cons f fs ih =>
      refine ih ⟨applyAll_congr h.mac h.mac (writesInside_memcfg other [f]), fun a ha => ?_⟩ fun g hg =>
        hw g (List.mem_cons_of_mem f hg)
      refine applyAll_congr h.mac (h.mem a ha) fun g hg => hw g ?_
      rw [List.mem_singleton.mp hg]
      exact List.mem_cons_self

/-! ## Sessions -/

/-- An instance whose enable line is low gets that of the port. -/
theorem enabled_of_senOf {i : CfgInst} {mac : BitVec 16} {sen : Bool} (h : i.senOf mac sen = false) :
    i.enabled mac = true ∧ sen = false := by
  rw [CfgInst.senOf] at h
  split at h
  next he => exact ⟨he, h⟩
  next => cases h

/-- The session of an instance beside the session of the port. -/
structure Aligned (ses : SerialSession) (en : Bool) (own : SerialSession) : Prop where
  sen : own.sen = if en then ses.sen else true
  bits : own.sen = false → own.bits = ses.bits ∨ (own.bits = [] ∧ ses.bits.length = 32)

/-- Every instance tracks a session of its own that is aligned with the session of the port. -/
structure Follows (other : OtherCfg ρ) (ses : SerialSession) (s : CfgInst → SpiSlave) : Prop where
  ok : SerialSession.Ok 32 ses
  inst : ∀ i, ∃ own, SpiSlave.Tracks (module other i) own (s i) ∧ Aligned ses (i.enabled (mac s)) own

variable {ses own : SerialSession} {s : CfgInst → SpiSlave}

theorem Aligned.enabled {en : Bool} (h : Aligned ses en own) (hs : own.sen = false) :
    en = true ∧ ses.sen = false := by
  have h' := h.sen
  cases en with
  | true => exact ⟨rfl, h'.symm.trans hs⟩
  | false =>
      have htrue : own.sen = true := h'
      exact absurd (hs.symm.trans htrue) (by decide)

theorem Follows.sen_eq (h : Follows other ses s) : sen s = ses.sen := by
  obtain ⟨own, ht, ha⟩ := h.inst .inst255
  exact ht.sen.trans ha.sen

/-- The bits of the frame are the same in both sessions after a rising edge, and it completes the same frame. -/
theorem Aligned.rise {en : Bool} (h : Aligned ses en own) (hs : own.sen = false) (d : Bool) :
    own.bitsNext 32 d = ses.bitsNext 32 d := by
  rcases h.bits hs with hb | ⟨hb, hl⟩
  · rw [SerialSession.bitsNext, SerialSession.bitsNext, hb]
  · rw [SerialSession.bitsNext_of_eq hl, SerialSession.bitsNext_of_lt (by rw [hb]; decide), hb]
    rfl

theorem Aligned.completed {en : Bool} (h : Aligned ses en own) (d : Bool) (pins : CfgPins ρ) :
    own.completed 32 (.rise d pins) = if en then ses.completed 32 (.rise d pins) else [] := by
  cases hs : own.sen with
  | false =>
      obtain ⟨he, hses⟩ := h.enabled hs
      rw [he, if_pos rfl, SerialSession.completed, SerialSession.completed, hs, hses, h.rise hs]
  | true =>
      have h' := h.sen
      rw [hs] at h'
      rw [SerialSession.completed, if_neg (fun hc => absurd (hs.symm.trans hc.1) (by decide))]
      cases en with
      | false => rfl
      | true =>
          have hses : ses.sen = true := h'.symm
          rw [if_pos rfl, SerialSession.completed, if_neg (fun hc => absurd (hses.symm.trans hc.1) (by decide))]

/-- The memories after a rising edge. -/
theorem Follows.rise_mem (h : Follows other ses s) (d : Bool) (pins : CfgPins ρ) (i : CfgInst) (a : BitVec 5) :
    (module other i).Plain a → (next other s (.rise d pins) i).mem a =
      (ses.completed 32 (.rise d pins)).foldl (applyAll other) (fun j => (s j).mem) i a := by
  intro ha
  obtain ⟨own, ht, hal⟩ := h.inst i
  have hmem := ht.rise_mem d pins ha
  rw [hal.completed] at hmem
  refine Eq.trans hmem ?_
  rw [SerialSession.completed]
  by_cases hc : ses.sen = false ∧ (ses.bitsNext 32 d).length = 32
  · rw [if_pos hc, List.foldl_cons, List.foldl_nil, applyAll]
    by_cases he : i.enabled (mac s) = true
    · rw [if_pos he, if_pos (show i.enabled ((s .inst255).mem 31) = true from he)]
      rfl
    · rw [if_neg he, if_neg (show ¬ i.enabled ((s .inst255).mem 31) = true from he)]
      rfl
  · rw [if_neg hc]
    split <;> rfl

/-- `mac` changes only when a frame is complete. -/
theorem Follows.mac_rise (h : Follows other ses s) (d : Bool) (pins : CfgPins ρ)
    (hc : ses.completed 32 (.rise d pins) = []) : mac (next other s (.rise d pins)) = mac s := by
  have hm := h.rise_mem d pins .inst255 31 (plain_memcfg other 31)
  rw [hc] at hm
  exact hm

/-! ### Steps -/

theorem Follows.rise (h : Follows other ses s) (d : Bool) (pins : CfgPins ρ) :
    Follows other (ses.next 32 (.rise d pins)) (next other s (.rise d pins)) := by
  refine ⟨h.ok.next (by decide) _, fun i => ?_⟩
  obtain ⟨own, ht, hal⟩ := h.inst i
  let mac' := mac (next other s (.rise d pins))
  have hrise := ht.rise d pins
  have hstep : (next other s (.rise d pins) i) =
      ((s i).rise (module other i) d pins).enable (i.senOf mac' ses.sen) := by
    rw [← h.sen_eq]
    rfl
  refine ⟨(own.next 32 (.rise d pins)).next 32 (.enable (i.senOf mac' ses.sen) : SerialEvent (CfgPins ρ)), ?_, ?_, ?_⟩
  · rw [hstep]
    exact hrise.enable _
  · show i.senOf mac' ses.sen = _
    cases hs : ses.sen with
    | false => rw [SerialSession.next_rise hs, CfgInst.senOf, hs]
    | true => rw [SerialSession.next_rise_high hs, CfgInst.senOf, hs]
  · intro hlow
    have hlow' : i.senOf mac' ses.sen = false := hlow
    have hbits : ((own.next 32 (.rise d pins)).next 32
        (.enable (i.senOf mac' ses.sen) : SerialEvent (CfgPins ρ))).bits = (own.next 32 (.rise d pins)).bits := by
      rw [hlow']
      rfl
    obtain ⟨hen, hses⟩ := enabled_of_senOf hlow'
    rw [hbits, SerialSession.next_rise hses]
    cases hown : own.sen with
    | false =>
        rw [SerialSession.next_rise hown]
        exact Or.inl (hal.rise hown d)
    | true =>
        -- the instance has joined, so `mac` has changed and a frame is complete
        rw [SerialSession.next_rise_high hown]
        refine Or.inr ⟨ht.ok.idle hown, ?_⟩
        by_contra hne
        have hc : ses.completed 32 (.rise d pins) = [] := if_neg fun hc => hne hc.2
        have hmac : mac' = mac s := h.mac_rise d pins hc
        have hsen := hal.sen
        rw [← hmac, hen, if_pos rfl, hses, hown] at hsen
        cases hsen

theorem Follows.fall (h : Follows other ses s) (pins : CfgPins ρ) :
    Follows other ses (next other s (.fall pins)) :=
  ⟨h.ok, fun i => by
    obtain ⟨own, ht, hal⟩ := h.inst i
    exact ⟨own, ht.fall pins, hal⟩⟩

theorem Follows.enable (h : Follows other ses s) (b : Bool) :
    Follows other (ses.next 32 (.enable b : SerialEvent (CfgPins ρ))) (next other s (.enable b)) := by
  refine ⟨h.ok.next (by decide) _, fun i => ?_⟩
  obtain ⟨own, ht, hal⟩ := h.inst i
  refine ⟨own.next 32 (.enable (i.senOf (mac s) b) : SerialEvent (CfgPins ρ)), ht.enable _, rfl, fun hlow => ?_⟩
  have hlow' : i.senOf (mac s) b = false := hlow
  obtain ⟨hen, rfl⟩ := enabled_of_senOf hlow'
  have hsen : own.sen = ses.sen := by
    have := hal.sen
    rw [hen, if_pos rfl] at this
    exact this
  show (if i.senOf (mac s) false = true then _ else own.bits) = ses.bits ∨ _ ∧ _
  rw [hlow']
  cases hown : own.sen with
  | false => exact hal.bits hown
  | true => exact Or.inl ((ht.ok.idle hown).trans (h.ok.idle (hsen.symm.trans hown)).symm)

theorem Follows.next (h : Follows other ses s) (e : SerialEvent (CfgPins ρ)) :
    Follows other (ses.next 32 e) (next other s e) := by
  cases e with
  | rise d pins => exact h.rise d pins
  | fall pins => exact h.fall pins
  | enable b => exact h.enable b

/-! ### Runs -/

theorem run_append (s : CfgInst → SpiSlave) (es fs : List (SerialEvent (CfgPins ρ))) :
    run other s (es ++ fs) = run other (run other s es) fs := List.foldl_append

theorem Follows.run (h : Follows other ses s) (es : List (SerialEvent (CfgPins ρ))) :
    Follows other (ses.run 32 es) (run other s es) := by
  induction es generalizing ses s with
  | nil => exact h
  | cons e es ih => exact ih (h.next e)

/-- The memory of an instance after a session is the one before it with the frames of the session applied in order. -/
theorem Follows.run_mem (h : Follows other ses s) (es : List (SerialEvent (CfgPins ρ))) {i : CfgInst}
    (hw : WritesInside other (ses.frames 32 es) i) {a : BitVec 5} (ha : (module other i).Plain a) :
    (CfgTop.run other s es i).mem a = (ses.frames 32 es).foldl (applyAll other) (fun j => (s j).mem) i a := by
  induction es generalizing ses s with
  | nil => rfl
  | cons e es ih =>
      have hstep : ∀ j b, (module other j).Plain b → (CfgTop.next other s e j).mem b =
          (ses.completed 32 e).foldl (applyAll other) (fun j => (s j).mem) j b := by
        intro j b hb
        cases e with
        | rise d pins => exact h.rise_mem d pins j b hb
        | fall pins => rfl
        | enable b => rfl
      have hagree : Agree other (fun j => (CfgTop.next other s e j).mem)
          ((ses.completed 32 e).foldl (applyAll other) fun j => (s j).mem) i :=
        ⟨hstep .inst255 31 (plain_memcfg other 31), fun b hb => hstep i b hb⟩
      have hrest : WritesInside other ((ses.next 32 e).frames 32 es) i :=
        fun f hf => hw f (List.mem_append_right _ hf)
      rw [SerialSession.frames, List.foldl_append]
      exact (ih (h.next e) hrest).trans ((hagree.foldl hrest).mem a ha)

/-! ### Reads -/

/-- The instances that a frame reads. -/
def ReadBy (other : OtherCfg ρ) (s : CfgInst → SpiSlave) (bits : List Bool) (i : CfgInst) : Prop :=
  i.enabled (mac s) = true ∧ (module other i).Reads (instOf bits)

/-- Only an instance that the frame reads drives the output. -/
theorem Follows.sdout_inst (h : Follows other ses s) (i : CfgInst) (hs : (s i).sdout (module other i) = true) :
    16 ≤ ses.bits.length ∧ ReadBy other s ses.bits i := by
  obtain ⟨own, ht, hal⟩ := h.inst i
  obtain ⟨h16, hr⟩ := ht.sdout_readPhase hs
  have hne : own.bits ≠ [] := by
    intro hnil
    rw [hnil] at h16
    exact absurd h16 (Nat.not_succ_le_zero 15)
  have hown : own.sen = false := by
    cases hown : own.sen with
    | false => rfl
    | true => exact absurd (ht.ok.idle hown) hne
  rcases hal.bits hown with hb | ⟨hb, _⟩
  · rw [hb] at h16 hr
    exact ⟨h16, (hal.enabled hown).1, hr⟩
  · exact absurd hb hne

/-- After `k` bits of a read data phase every instance in `R`, those that are read, has moved `k` bits of its
value out. -/
structure Sends (other : OtherCfg ρ) (R : CfgInst → Prop) (v : CfgInst → BitVec 16) (k : Nat) (ses : SerialSession)
    (s : CfgInst → SpiSlave) : Prop where
  follows : Follows other ses s
  sen : ses.sen = false
  length : ses.bits.length = 16 + k
  readBy : ∀ i, ReadBy other s ses.bits i ↔ R i
  inst : ∀ i, R i → SpiSlave.Sends (module other i) (v i) k ses (s i)

variable {R : CfgInst → Prop} {v : CfgInst → BitVec 16} {k : Nat}

theorem Sends.sdout (h : Sends other R v k ses s) (hk : k < 16) :
    CfgTop.sdout other s = true ↔ ∃ i, R i ∧ (v i).getLsbD (15 - k) = true := by
  rw [CfgTop.sdout, List.any_eq_true]
  constructor
  · rintro ⟨i, _, hi⟩
    have hr := (h.readBy i).mp (h.follows.sdout_inst i hi).2
    exact ⟨i, hr, ((h.inst i hr).sdout hk).symm.trans hi⟩
  · rintro ⟨i, hr, hv⟩
    exact ⟨i, i.mem_all, ((h.inst i hr).sdout hk).trans hv⟩

theorem enable_false {t : SpiSlave} (h : t.sen = false) : t.enable false = t := by
  cases t with
  | mk sen state instReg dinReg doutReg mem =>
      cases h
      rfl

theorem Sends.pulse (h : Sends other R v k ses s) (hk : k < 15) (d : Bool) (p q : CfgPins ρ) :
    Sends other R v (k + 1) ((ses.next 32 (.rise d p)).next 32 (.fall q))
      (next other (next other s (.rise d p)) (.fall q)) := by
  have hlt : ses.bits.length < 32 := by rw [h.length]; omega
  have h16 : 16 ≤ ses.bits.length := by rw [h.length]; omega
  have hses : ses.next 32 (.rise d p) = { ses with bits := ses.bits ++ [d] } := by
    rw [SerialSession.next_rise h.sen, SerialSession.bitsNext_of_lt hlt]
  have hc : ses.completed 32 (.rise d p) = [] := by
    refine if_neg fun hc => ?_
    rw [SerialSession.bitsNext_of_lt hlt, List.length_append, h.length, List.length_singleton] at hc
    omega
  have hmac : mac (next other s (.rise d p)) = mac s := h.follows.mac_rise d p hc
  refine ⟨(h.follows.rise d p).fall q, ?_, ?_, fun i => ?_, fun i hi => ?_⟩
  · rw [SerialSession.next_fall, hses]
    exact h.sen
  · rw [SerialSession.next_fall, hses, List.length_append, h.length]
    rfl
  · rw [SerialSession.next_fall, hses, ← h.readBy i, ReadBy, ReadBy, SpiSlave.instOf_append h16]
    show i.enabled (mac (next other s (.rise d p))) = true ∧ _ ↔ _
    rw [hmac]
  · have hen := ((h.readBy i).mpr hi).1
    have hsen : ((s i).rise (module other i) d p).sen = false := (h.inst i hi).tracks.sen.trans h.sen
    have hstep : next other s (.rise d p) i = (s i).rise (module other i) d p := by
      have hgate : i.senOf (mac (next other s (.rise d p))) (CfgTop.sen s) = false := by
        rw [hmac, h.follows.sen_eq, h.sen, CfgInst.senOf, if_pos hen]
      show ((s i).rise (module other i) d p).enable (i.senOf (mac (next other s (.rise d p))) (CfgTop.sen s)) = _
      rw [hgate, enable_false hsen]
    show SpiSlave.Sends _ _ _ _ ((next other s (.rise d p) i).fall (module other i) q)
    rw [hstep]
    exact (h.inst i hi).pulse hk d p q

theorem Sends.pulses (h : Sends other R v k ses s) (ds : List (Bool × CfgPins ρ × CfgPins ρ))
    (hk : k + ds.length ≤ 15) :
    Sends other R v (k + ds.length) (ses.run 32 (SpiSlave.pulses ds)) (CfgTop.run other s (SpiSlave.pulses ds)) := by
  induction ds generalizing k ses s with
  | nil => exact h
  | cons d ds ih =>
      rw [List.length_cons] at hk ⊢
      have hp := ih (h.pulse (by omega) d.1 d.2.1 d.2.2) (by omega)
      rw [show k + (ds.length + 1) = k + 1 + ds.length by omega]
      exact hp

/-- The falling edge after an instruction word loads the output register of every instance that is read. -/
theorem Follows.load (h : Follows other ses s) (hlen : ses.bits.length = 16) (q : CfgPins ρ) :
    Sends other (ReadBy other s ses.bits) (fun i => (module other i).doutMux q (s i).mem (regOf (instOf ses.bits))) 0
      ses (CfgTop.next other s (.fall q)) := by
  have hses : ses.sen = false := by
    cases hs : ses.sen with
    | false => rfl
    | true =>
        rw [h.ok.idle hs] at hlen
        cases hlen
  refine ⟨h.fall q, hses, hlen, fun _ => Iff.rfl, fun i hi => ?_⟩
  obtain ⟨own, ht, hal⟩ := h.inst i
  have hen : i.enabled (mac s) = true := hi.1
  have hown : own.sen = false := by rw [hal.sen, hen, if_pos rfl, hses]
  have hbits : own.bits = ses.bits := by
    rcases hal.bits hown with hb | ⟨_, hl⟩
    · exact hb
    · rw [hlen] at hl
      cases hl
  have heq : own = ses := by
    cases own with
    | mk sen bits =>
        cases ses with
        | mk sen' bits' =>
            cases hbits
            cases hown
            cases hses
            rfl
  rw [heq] at ht
  exact ht.load hses hlen hi.2 q

end CfgTop

end LimeSdrQpcie
