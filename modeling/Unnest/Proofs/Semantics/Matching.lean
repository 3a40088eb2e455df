import Unnest.Proofs.Semantics.Layout

/-!
# Steps that keep stores matched

Writing a variable in the original run and its slot in the converted one keeps the stores matched,
since slots of different variables do not touch; so does making a callable value and recording an
event in both. A layout only ever grows, and what it says about an instance stays.

## Main statements

* `Layout.Matches.put` : writing a variable.
* `Layout.Matches.make` : making a callable value.
-/

namespace Unnest

variable {L : Lowering} {m : MethodBody} {r : LoweredBody} {Γ Γ' Γ'' : Layout} {σ τ σ' τ' : Store}
  {i j : Nat} {s t : ScopeId} {c : ClosureId} {e : EnvId} {v w : Variable} {x : Value}

namespace Layout

/-! ## Instances around an instance -/

namespace Nested

variable (hn : Γ.Nested L.graph) (hi : i < Γ.size)

include hn hi

theorem exists_around (ht : t ∈ L.graph.ancestors (Γ.scope i)) : ∃ j, Γ.around i t = some j := by
  obtain ⟨j, hj, -⟩ := hn.outer i hi t ht
  exact ⟨j, hj⟩

theorem lt_size (hj : Γ.around i t = some j) : j < Γ.size :=
  Nat.lt_of_le_of_lt (hn.le i hi t j hj) hi

theorem scope_eq (ht : t ∈ L.graph.ancestors (Γ.scope i)) (hj : Γ.around i t = some j) :
    Γ.scope j = t := by
  obtain ⟨k, hk, hscope, -⟩ := hn.outer i hi t ht
  rwa [Option.some.inj (hj.symm.trans hk)]

/-- What is around an instance is around those inside it. -/
theorem around_eq (ht : t ∈ L.graph.ancestors (Γ.scope i)) (hj : Γ.around i t = some j)
    (hs : s ∈ L.graph.ancestors t) : Γ.around j s = Γ.around i s := by
  obtain ⟨k, hk, -, heq⟩ := hn.outer i hi t ht
  rw [Option.some.inj (hj.symm.trans hk)]
  exact heq s hs

/-- An instance of another scope around an instance was entered earlier. -/
theorem lt_of_ne (ht : t ∈ L.graph.ancestors (Γ.scope i)) (hj : Γ.around i t = some j)
    (hne : t ≠ Γ.scope i) : j < i := by
  refine Nat.lt_of_le_of_ne (hn.le i hi t j hj) ?_
  rintro rfl
  exact hne (hn.scope_eq hi ht hj).symm

end Nested

/-! ## Layouts grow -/

/-- Layout `Γ'` has more instances than `Γ`. -/
structure Extends (Γ Γ' : Layout) : Prop where
  size : Γ.size ≤ Γ'.size
  scope : ∀ i < Γ.size, Γ'.scope i = Γ.scope i
  around : ∀ i < Γ.size, Γ'.around i = Γ.around i
  object : ∀ i < Γ.size, Γ'.object i = Γ.object i

namespace Extends

theorem refl (Γ : Layout) : Γ.Extends Γ :=
  ⟨Nat.le_refl _, fun _ _ => rfl, fun _ _ => rfl, fun _ _ => rfl⟩

theorem trans (h : Γ.Extends Γ') (h' : Γ'.Extends Γ'') : Γ.Extends Γ'' where
  size := Nat.le_trans h.size h'.size
  scope i hi := (h'.scope i (Nat.lt_of_lt_of_le hi h.size)).trans (h.scope i hi)
  around i hi := (h'.around i (Nat.lt_of_lt_of_le hi h.size)).trans (h.around i hi)
  object i hi := (h'.object i (Nat.lt_of_lt_of_le hi h.size)).trans (h.object i hi)

variable (h : Γ.Extends Γ') (hi : i < Γ.size)

include h hi

theorem slot_eq (L : Lowering) (v : Variable) : Γ'.slot L i v = Γ.slot L i v := by
  simp only [slot, envSlot, h.scope i hi, h.object i hi]

variable (hn : Γ.Nested L.graph)

include hn

theorem objectAt_eq (s : ScopeId) : Γ'.objectAt i s = Γ.objectAt i s := by
  rw [objectAt, objectAt, h.around i hi]
  cases hj : Γ.around i s with
  | none => rfl
  | some j => simp [h.object j (hn.lt_size hi hj)]

theorem receiverOf_eq (c : ClosureId) : Γ'.receiverOf L i c = Γ.receiverOf L i c := by
  simp only [receiverOf, h.objectAt_eq hi hn]

theorem selfOf_eq (fr : Option ClosureId) : Γ'.selfOf L i fr = Γ.selfOf L i fr := by
  cases fr with
  | none => rfl
  | some c => exact h.receiverOf_eq hi hn c

theorem parentOf_eq (e : EnvId) : Γ'.parentOf L i e = Γ.parentOf L i e := by
  simp only [parentOf, h.objectAt_eq hi hn]

end Extends

/-! ## Writing a variable -/

theorem slot_hoisted (Γ : Layout) (i : Nat) (he : L.graph.envOf? v = some e) :
    Γ.slot L i v = Γ.envSlot L i e (.hoisted e v.id) := by rw [slot, he]

theorem slot_plain (Γ : Layout) (i : Nat) (he : L.graph.envOf? v = none) :
    Γ.slot L i v = .cell ⟨i, L.standIn (Γ.scope i) v⟩ := by rw [slot, he]

theorem envSlot_value (Γ : Layout) (i : Nat) (hk : (L.graph.env e).isValue = true) (f : FieldId) :
    Γ.envSlot L i e f = .part ⟨i, L.holder e⟩ f := by rw [envSlot, if_pos hk]

theorem envSlot_reference (Γ : Layout) (i : Nat) (hk : (L.graph.env e).isValue = false)
    (f : FieldId) : Γ.envSlot L i e f = .field (Γ.object i) f := by
  rw [envSlot, if_neg (by rw [hk]; exact Bool.false_ne_true)]

theorem HeldAt.holder_inj (h : Γ.HeldAt L τ i e) {e' : EnvId} (h' : Γ.HeldAt L τ j e')
    (heq : L.holder e = L.holder e') : e = e' := by
  obtain ⟨k, hk⟩ := h.named
  obtain ⟨l, hl⟩ := h'.named
  rw [heq, hl] at hk
  injection hk with _ hk
  exact hk.symm

namespace Matches

variable (h : L.Of m r) (hm : Γ.Matches L σ τ)

include h hm

omit h in
/-- Different fields of environments are apart. -/
theorem apart_envSlot {e' : EnvId} (hi : i < Γ.size) (hj : j < Γ.size)
    (he : (L.graph.scope (Γ.scope i)).env = some e)
    (he' : (L.graph.scope (Γ.scope j)).env = some e') {f g : FieldId} (hne : i = j → f ≠ g) :
    (Γ.envSlot L i e f).Apart (Γ.envSlot L j e' g) := by
  have henv := hm.env i hi hi e he
  have henv' := hm.env j hj hj e' he'
  cases hk : (L.graph.env e).isValue <;> cases hk' : (L.graph.env e').isValue
  · rw [envSlot_reference Γ i hk, envSlot_reference Γ j hk']
    by_cases heq : Γ.object i = Γ.object j
    · exact .inr (hne (hm.object_inj i hi j hj ⟨e, he, hk⟩ ⟨e', he', hk'⟩ heq))
    · exact .inl heq
  · rw [envSlot_reference Γ i hk, envSlot_value Γ j hk']
    trivial
  · rw [envSlot_value Γ i hk, envSlot_reference Γ j hk']
    trivial
  · rw [envSlot_value Γ i hk, envSlot_value Γ j hk']
    by_cases heq : i = j
    · exact .inr (hne heq)
    · exact .inl fun hc => heq (congrArg Cell.inst hc)

omit hm in
theorem apart_cell_envSlot (henv : Γ.HeldAt L τ j e) (hv : v ∈ (L.graph.scope s).vars)
    (hw : w.StandsFor v) (f : FieldId) : (Slot.cell ⟨i, w⟩).Apart (Γ.envSlot L j e f) ∧
      (Γ.envSlot L j e f).Apart (.cell ⟨i, w⟩) := by
  have hne : (⟨i, w⟩ : Cell) ≠ ⟨j, L.holder e⟩ := fun heq =>
    h.ne_of_holder hv hw henv.named (congrArg Cell.var heq)
  rw [envSlot]
  split
  · exact ⟨hne, hne.symm⟩
  · exact ⟨trivial, trivial⟩

/-- Slots of different variables are apart. -/
theorem apart_slot (hi : i < Γ.size) (hj : j < Γ.size)
    (hv : v ∈ (L.graph.scope (Γ.scope i)).vars) (hw : w ∈ (L.graph.scope (Γ.scope j)).vars)
    (hne : i = j → v ≠ w) : (Γ.slot L i v).Apart (Γ.slot L j w) := by
  cases he : L.graph.envOf? v with
  | none =>
    rw [slot_plain Γ i he]
    cases he' : L.graph.envOf? w with
    | none =>
      rw [slot_plain Γ j he']
      intro hc
      injection hc with hij hvw
      subst hij
      have hvw : (L.standIn (Γ.scope i) v).StandsFor w := hvw ▸ h.standsFor (Γ.scope i) w
      exact hne rfl (h.eq_of_standsFor hv hw (h.standsFor (Γ.scope i) v) hvw)
    | some e =>
      rw [slot_hoisted Γ j he']
      have hheld := (hm.env j hj hj e (h.env_of_envOf hw he')).toHeldAt
      exact (apart_cell_envSlot h hheld hv (h.standsFor _ v) _).1
  | some e =>
    rw [slot_hoisted Γ i he]
    have hev := h.env_of_envOf hv he
    cases he' : L.graph.envOf? w with
    | none =>
      rw [slot_plain Γ j he']
      exact (apart_cell_envSlot h (hm.env i hi hi e hev).toHeldAt hw (h.standsFor _ w) _).2
    | some e' =>
      rw [slot_hoisted Γ j he']
      refine hm.apart_envSlot hi hj hev (h.env_of_envOf hw he') fun hij hf => hne hij ?_
      injection hf with _ hid
      exact h.given.distinct v (h.mem_declared hv) w (h.mem_declared hw) hid

/-- Writing a variable leaves environments as they are. -/
theorem env_put (hi : i < Γ.size) (hv : v ∈ (L.graph.scope (Γ.scope i)).vars)
    (hrole : v.role ≠ .receiver) (hp : τ.Puts (Γ.slot L i v) x τ') (hj : j < Γ.size)
    (he : (L.graph.scope (Γ.scope j)).env = some e) : Γ.EnvAt L τ' j e := by
  have henv := hm.env j hj hj e he
  -- the holder is not what is written, and neither is a field for something else
  have hholder : Slot.cell ⟨j, L.holder e⟩ ≠ Γ.slot L i v ∧
      ((L.graph.env e).isValue = false → (Slot.cell ⟨j, L.holder e⟩).Apart (Γ.slot L i v)) := by
    cases he' : L.graph.envOf? v with
    | none =>
      rw [slot_plain Γ i he']
      have hne : (⟨j, L.holder e⟩ : Cell) ≠ ⟨i, L.standIn (Γ.scope i) v⟩ := fun heq =>
        h.ne_of_holder hv (h.standsFor _ v) henv.named (congrArg Cell.var heq).symm
      exact ⟨fun heq => hne (Slot.cell.inj heq), fun _ => hne⟩
    | some e' =>
      have hev := h.env_of_envOf hv he'
      rw [slot_hoisted Γ i he', envSlot]
      split
      · rename_i hk'
        refine ⟨fun heq => (by cases heq), fun hk heq => ?_⟩
        injection heq with _ heq
        rw [henv.holder_inj (hm.env i hi hi e' hev).toHeldAt heq, hk'] at hk
        cases hk
      · exact ⟨fun heq => (by cases heq), fun _ => trivial⟩
  have hfield (f : FieldId) (hf : i = j → f ≠ .hoisted e v.id) :
      (Γ.envSlot L j e f).Apart (Γ.slot L i v) := by
    cases he' : L.graph.envOf? v with
    | none =>
      rw [slot_plain Γ i he']
      exact (apart_cell_envSlot h henv.toHeldAt hv (h.standsFor _ v) f).2
    | some e' =>
      have hev := h.env_of_envOf hv he'
      rw [slot_hoisted Γ i he']
      refine hm.apart_envSlot hj hi he hev fun hji => ?_
      subst hji
      obtain rfl := Option.some.inj (hev.symm.trans he)
      exact hf rfl
  constructor
  case toHeldAt =>
    refine ⟨henv.named, fun hk => ?_, fun hk => ?_⟩
    · obtain ⟨F, hF⟩ := henv.record hk
      exact hp.record _ F hF hholder.1.symm
    · obtain ⟨hcell, hlt⟩ := henv.object hk
      have hload := hp.apart _ (hholder.2 hk)
      rw [Store.load, Store.load, hcell] at hload
      exact ⟨Option.some.inj hload, hp.allocated ▸ hlt⟩
  case parent =>
    intro hk hneeds
    have hload := hp.apart _ (hfield (.parent e) fun _ hf => by cases hf)
    rw [envSlot_reference Γ j hk, Store.load, Store.load] at hload
    rw [← henv.parent hk hneeds]
    injection hload with hload
    injection hload with hload
    rw [hload]
  case receiver =>
    intro hk u hu hrole'
    rw [← henv.receiver hk u hu hrole', ← envSlot_value Γ j hk]
    refine hp.apart _ (hfield _ fun hij hf => hrole ?_)
    injection hf with _ hid
    have hu' := h.mem_scope_vars (h.live_of_env he).1 hu
    rw [← h.given.distinct u (h.mem_declared hu') v (h.mem_declared hv) hid]
    exact hrole'

/-- Writing a variable keeps stores matched. -/
theorem put (hi : i < Γ.size) (hv : v ∈ (L.graph.scope (Γ.scope i)).vars)
    (hrole : v.role ≠ .receiver) (x : Value) :
    ∃ σ' τ', σ.put (.cell ⟨i, v⟩) (.value x) = some σ' ∧
      τ.put (Γ.slot L i v) (.value x) = some τ' ∧ Γ.Matches L σ' τ' := by
  obtain ⟨y, -, hload⟩ := hm.cells i hi v hv hrole (.inl hi)
  obtain ⟨τ', hτ, hp⟩ := Store.put_eq hload x
  refine ⟨_, τ', rfl, hτ, ?_⟩
  constructor
  case nested => exact hm.nested
  case entered_left => exact hm.entered_left
  case entered_right => exact hp.entered.trans hm.entered_right
  case made => exact hp.made.trans hm.made
  case history => exact hp.history.trans hm.history
  case source => exact hm.source
  case target => exact fun j hj => hp.instances ▸ hm.target j hj
  case env => exact fun j hj _ e he => hm.env_put h hi hv hrole hp hj he
  case object_inj => exact hm.object_inj
  case cells =>
    intro j hj w hw hrole' _
    by_cases heq : i = j ∧ v = w
    · obtain ⟨rfl, rfl⟩ := heq
      exact ⟨x, by simp, hp.load⟩
    · obtain ⟨y, hy, hload⟩ := hm.cells j hj w hw hrole' (.inl hj)
      have hne : (⟨j, w⟩ : Cell) ≠ ⟨i, v⟩ := by
        intro hc
        injection hc with hij hvw
        exact heq ⟨hij.symm, hvw.symm⟩
      refine ⟨y, by simp [Function.update_of_ne hne, hy], ?_⟩
      rw [hp.apart _ (hm.apart_slot h hj hi hw hv fun hij hwv => heq ⟨hij.symm, hwv.symm⟩), hload]
  case callables =>
    intro k hk
    rw [hp.callables]
    exact hm.callables k hk

omit h

/-- Making a callable value in both runs keeps stores matched. -/
theorem make {a b : Callable} (hab : Γ.CallableAt L a b) :
    Γ.Matches L (σ.make a) (τ.make b) where
  nested := hm.nested
  entered_left := hm.entered_left
  entered_right := hm.entered_right
  made := congrArg (· + 1) hm.made
  history := hm.history
  source := hm.source
  target := hm.target
  env i hi _ e he := by
    obtain ⟨⟨named, record, object⟩, parent, receiver⟩ := hm.env i hi hi e he
    exact ⟨⟨named, record, object⟩, parent, receiver⟩
  object_inj := hm.object_inj
  cells := hm.cells
  callables k hk := by
    by_cases heq : k = σ.made
    · subst heq
      simpa [Store.make, ← hm.made] using hab
    · have hlt : k < σ.made := Nat.lt_of_le_of_ne (Nat.le_of_lt_succ hk) heq
      simpa [Store.make, hm.made, Function.update_of_ne heq] using hm.callables k hlt

/-- So does recording an event. -/
theorem record (ev : Event) : Γ.Matches L (σ.record ev) (τ.record ev) where
  nested := hm.nested
  entered_left := hm.entered_left
  entered_right := hm.entered_right
  made := hm.made
  history := congrArg (ev :: ·) hm.history
  source := hm.source
  target := hm.target
  env i hi _ e he := by
    obtain ⟨⟨named, record, object⟩, parent, receiver⟩ := hm.env i hi hi e he
    exact ⟨⟨named, record, object⟩, parent, receiver⟩
  object_inj := hm.object_inj
  cells := hm.cells
  callables := hm.callables

end Matches

end Layout

end Unnest
