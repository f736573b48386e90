import Mathlib.Tactic.Common

/-!
# Handshakes over clock domains

A request goes through a row of stages to the other side and back, and is changed only when its last value has come
back. Each stage keeps its value or takes the one before it, in any order and at any time. The value on its way has
always reached the first stages and no others.
-/

namespace Hdl

/-- Stages after a line with value `a`. Each keeps its value or takes the one that stood before it. -/
inductive Moves : Bool → List Bool → List Bool → Prop
  | nil (a : Bool) : Moves a [] []
  | keep (a : Bool) {b : Bool} {l l' : List Bool} (h : Moves b l l') : Moves a (b :: l) (b :: l')
  | take (a : Bool) {b : Bool} {l l' : List Bool} (h : Moves b l l') : Moves a (b :: l) (a :: l')

namespace Moves

variable {a b c : Bool} {l l' : List Bool}

theorem refl (a : Bool) (l : List Bool) : Moves a l l := by
  induction l generalizing a with
  | nil => exact .nil a
  | cons b l ih => exact .keep a (ih b)

theorem mem (h : Moves a l l') (hc : c ∈ l') : c = a ∨ c ∈ l := by
  induction h with
  | nil a => exact Or.inr hc
  | keep a h ih =>
      rcases List.mem_cons.mp hc with rfl | hc
      · exact Or.inr (List.mem_cons_self ..)
      · rcases ih hc with rfl | hc
        · exact Or.inr (List.mem_cons_self ..)
        · exact Or.inr (List.mem_cons_of_mem _ hc)
  | take a h ih =>
      rcases List.mem_cons.mp hc with rfl | hc
      · exact Or.inl rfl
      · rcases ih hc with rfl | hc
        · exact Or.inr (List.mem_cons_self ..)
        · exact Or.inr (List.mem_cons_of_mem _ hc)

/-- Stages that all hold the value of the line go on doing so. -/
theorem all (h : Moves a l l') (hl : ∀ c ∈ l, c = a) : ∀ c ∈ l', c = a := fun c hc => by
  rcases h.mem hc with rfl | hc
  · rfl
  · exact hl c hc

end Moves

/-- A stage holds `a` only when all stages before it do. -/
def Wave (a : Bool) (l : List Bool) : Prop := l.Pairwise fun b c => c = a → b = a

namespace Wave

variable {a b : Bool} {l l' : List Bool}

theorem of_all_ne (h : ∀ c ∈ l, c ≠ a) : Wave a l :=
  List.Pairwise.imp_of_mem (fun _ hc _ hca => absurd hca (h _ hc)) (List.pairwise_of_forall (R := fun _ _ => True)
    fun _ _ => trivial)

/-- The line holds `a` too, or no stage does. -/
theorem moves_of (h : Wave a l) (hm : Moves b l l') (hb : b = a ∨ ∀ c ∈ l, c ≠ a) : Wave a l' := by
  induction hm with
  | nil b => exact List.Pairwise.nil
  | @keep b d l l' hm ih =>
      obtain ⟨hd, hl⟩ := List.pairwise_cons.mp h
      refine List.pairwise_cons.mpr ⟨fun c hc hca => ?_, ih hl ?_⟩
      · rcases hm.mem hc with rfl | hc
        · exact hca
        · exact hd c hc hca
      · by_cases hda : d = a
        · exact Or.inl hda
        · exact Or.inr fun c hc hca => hda (hd c hc hca)
  | @take b d l l' hm ih =>
      obtain ⟨hd, hl⟩ := List.pairwise_cons.mp h
      refine List.pairwise_cons.mpr ⟨fun c hc hca => ?_, ih hl ?_⟩
      · have hda : d = a := by
          rcases hm.mem hc with rfl | hc
          · exact hca
          · exact hd c hc hca
        exact hb.resolve_right fun hne => hne d (List.mem_cons_self ..) hda
      · by_cases hda : d = a
        · exact Or.inl hda
        · exact Or.inr fun c hc hca => hda (hd c hc hca)

theorem moves (h : Wave a l) (hm : Moves a l l') : Wave a l' := h.moves_of hm (Or.inl rfl)

/-- What has reached the last stage has reached them all. -/
theorem all (h : Wave a l) (hlast : l.getLast? = some a) : ∀ c ∈ l, c = a := by
  induction l with
  | nil => cases hlast
  | cons b l ih =>
      obtain ⟨hb, hl⟩ := List.pairwise_cons.mp h
      cases l with
      | nil =>
          intro c hc
          rw [List.mem_singleton.mp hc]
          exact Option.some.inj hlast
      | cons d l =>
          have hall := ih hl (by rw [← hlast, List.getLast?_cons_cons])
          intro c hc
          rcases List.mem_cons.mp hc with rfl | hc
          · exact hb d (List.mem_cons_self ..) (hall d (List.mem_cons_self ..))
          · exact hall c hc

end Wave

/-- Stages on which `a` goes on, or nothing changes. -/
structure Advances (a : Bool) (l l' : List Bool) : Prop where
  wave : Wave a l'
  le : l'.count (!a) ≤ l.count (!a)
  lt : l' ≠ l → l'.count (!a) < l.count (!a)

namespace Advances

variable {a b : Bool} {l l' l'' : List Bool}

theorem refl (h : Wave a l) : Advances a l l := ⟨h, Nat.le_refl _, fun hne => absurd rfl hne⟩

theorem trans (h : Advances a l l') (h' : Advances a l' l'') : Advances a l l'' := by
  refine ⟨h'.wave, Nat.le_trans h'.le h.le, fun hne => ?_⟩
  by_cases he : l' = l
  · subst he
    exact h'.lt hne
  · exact Nat.lt_of_le_of_lt h'.le (h.lt he)

/-- What is the same in the end was never anything else. -/
theorem eq_of_eq (h : Advances a l l') (h' : Advances a l' l'') (he : l'' = l) : l' = l := by
  by_contra hne
  have hlt := Nat.lt_of_le_of_lt h'.le (h.lt hne)
  rw [he] at hlt
  exact Nat.lt_irrefl _ hlt

theorem count_of_moves (h : Wave a l) (hm : Moves b l l') (hb : b = a ∨ ∀ c ∈ l, c ≠ a) :
    l'.count (!a) ≤ l.count (!a) ∧ (l' ≠ l → l'.count (!a) < l.count (!a)) := by
  induction hm with
  | nil b => exact ⟨Nat.le_refl _, fun hne => absurd rfl hne⟩
  | @keep b d l l' hm ih =>
      obtain ⟨hd, hl⟩ := List.pairwise_cons.mp h
      have hda : d = a ∨ ∀ c ∈ l, c ≠ a := by
        by_cases hda : d = a
        · exact Or.inl hda
        · exact Or.inr fun c hc hca => hda (hd c hc hca)
      obtain ⟨hle, hlt⟩ := ih hl hda
      rw [List.count_cons, List.count_cons]
      exact ⟨Nat.add_le_add_right hle _, fun hne => Nat.add_lt_add_right (hlt fun he => hne (by rw [he])) _⟩
  | @take b d l l' hm ih =>
      obtain ⟨hd, hl⟩ := List.pairwise_cons.mp h
      have hda : d = a ∨ ∀ c ∈ l, c ≠ a := by
        by_cases hda : d = a
        · exact Or.inl hda
        · exact Or.inr fun c hc hca => hda (hd c hc hca)
      obtain ⟨hle, hlt⟩ := ih hl hda
      rw [List.count_cons, List.count_cons]
      by_cases hbd : b = d
      · subst hbd
        exact ⟨Nat.add_le_add_right hle _, fun hne => Nat.add_lt_add_right (hlt fun he => hne (by rw [he])) _⟩
      · -- The stage takes `a` for the value before it.
        have hba : b = a := hb.elim id fun hne => by
          rw [Bool.eq_not.mpr hbd, Bool.eq_not.mpr (hne d (List.mem_cons_self ..)), Bool.not_not]
        have hdn : d = !a := Bool.eq_not.mpr fun hda => hbd (hba.trans hda.symm)
        have hb0 : (b == !a) = false := by
          rw [hba]
          cases a <;> rfl
        have hd1 : (d == !a) = true := by
          rw [hdn]
          exact beq_self_eq_true _
        rw [hb0, hd1]
        exact ⟨Nat.le_succ_of_le hle, fun _ => Nat.lt_succ_of_le hle⟩

theorem of_moves (h : Wave a l) (hm : Moves a l l') : Advances a l l' :=
  have hcount := count_of_moves h hm (Or.inl rfl)
  ⟨h.moves hm, hcount.1, hcount.2⟩

end Advances

/-- A request `req`, the value `want` that it takes at the next edge, and the stages to the other side and back. -/
structure Handshake (want req : Bool) (l : List Bool) : Prop where
  wave : want = req → Wave req l
  changing : want ≠ req → ∀ c ∈ l, c = req

namespace Handshake

variable {want want' req : Bool} {l l' : List Bool}

theorem rest (h : ∀ c ∈ l, c = req) : Handshake req req l :=
  ⟨fun _ => List.Pairwise.imp_of_mem (fun hb _ _ _ => h _ hb) (List.pairwise_of_forall (R := fun _ _ => True)
    fun _ _ => trivial), fun hne => absurd rfl hne⟩

theorem wave_cons (h : Handshake want req l) : Wave want (req :: l) := by
  by_cases he : want = req
  · subst he
    exact List.pairwise_cons.mpr ⟨fun _ _ _ => rfl, h.wave rfl⟩
  · refine Wave.of_all_ne fun b hb hbw => he ?_
    rcases List.mem_cons.mp hb with rfl | hb
    · exact hbw.symm
    · exact hbw.symm.trans (h.changing he b hb)

theorem moves (h : Handshake want req l) (hm : Moves req l l') : Handshake want req l' :=
  ⟨fun he => (h.wave he).moves hm, fun hne => hm.all (h.changing hne)⟩

/-- An edge at which the other side may move too. The requester changes its mind only when its value has come back. -/
theorem next (h : Handshake want req l) (hm : Moves req l l') (hw : want' ≠ want → l.getLast? = some want) :
    Handshake want' want l' := by
  by_cases he : want = req
  · subst he
    refine ⟨fun _ => (h.wave rfl).moves hm, fun hne => ?_⟩
    exact hm.all ((h.wave rfl).all (hw hne))
  · have hall := h.changing he
    have hne : ∀ c ∈ l', c ≠ want := fun c hc hcw => he (hcw.symm.trans (hm.all hall c hc))
    refine ⟨fun _ => Wave.of_all_ne hne, fun hne' => ?_⟩
    have hlast := hw hne'
    exact absurd (hall want (List.mem_of_getLast? hlast)) he

end Handshake

end Hdl
