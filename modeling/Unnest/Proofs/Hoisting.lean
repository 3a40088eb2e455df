import Mathlib.Data.List.Nodup
import Unnest.Proofs.Lowered.Blocks

/-!
# Hoisting a variable once

A captured variable lives in one place only: a field of the environment of the scope that declares
it. Nothing declares the variable any more, and nothing refers to it, except that a parameter is
referred to once, where its field is given the value that was passed.

## Main definitions

* `MethodBody.GivenVariables` : the variables of the body come with it and differ in their
  identities.
* `LoweredBody.HoistsOnce` : no variable is hoisted twice, and none is accessed past its field.

## Main statements

* `MethodBody.run_hoists` : whatever is converted, variables are hoisted once.
-/

namespace Unnest

/-! ## Variables and their copies -/

/-- The variable of which another one is a copy. -/
def VariableId.copied? : VariableId → Option VariableId
  | .copy _ id => some id
  | .given _ | .holder .. => none

theorem Variable.standsFor_iff {w v : Variable} :
    w.StandsFor v ↔ w.id = v.id ∨ w.id.copied? = some v.id := by
  rw [StandsFor]
  refine or_congr Iff.rfl ?_
  cases w.id <;> simp [VariableId.copied?]

instance : DecidableRel Variable.StandsFor := fun _ _ =>
  decidable_of_iff _ Variable.standsFor_iff.symm

/-- The variables of the body come with it and differ in their identities. -/
structure MethodBody.GivenVariables (m : MethodBody) : Prop where
  ids : ∀ v ∈ m.declared, v.isMade = false
  distinct : ∀ v ∈ m.declared, ∀ w ∈ m.declared, v.id = w.id → v = w

instance (m : MethodBody) : Decidable m.GivenVariables :=
  decidable_of_iff ((∀ v ∈ m.declared, v.isMade = false) ∧
      ∀ v ∈ m.declared, ∀ w ∈ m.declared, v.id = w.id → v = w)
    ⟨fun ⟨ids, distinct⟩ => ⟨ids, distinct⟩, fun ⟨ids, distinct⟩ => ⟨ids, distinct⟩⟩

namespace MethodBody.GivenVariables

variable {m : MethodBody} (h : m.GivenVariables) {u v w : Variable}

include h

theorem exists_given (hv : v ∈ m.declared) : ∃ k, v.id = .given k := by
  have hmade := h.ids v hv
  rw [Variable.isMade] at hmade
  split at hmade
  · exact ⟨_, ‹_›⟩
  · exact nomatch hmade

/-- No name stands for two variables. -/
theorem eq_of_standsFor (hu : u ∈ m.declared) (hv : v ∈ m.declared) (hwu : w.StandsFor u)
    (hwv : w.StandsFor v) : u = v := by
  obtain ⟨i, hi⟩ := h.exists_given hu
  obtain ⟨j, hj⟩ := h.exists_given hv
  apply h.distinct u hu v hv
  unfold Variable.StandsFor at hwu hwv
  grind

theorem not_standsFor_holder (hv : v ∈ m.declared) {k : Nat} {e : EnvId}
    (hw : w.id = .holder k e) : ¬ w.StandsFor v := by
  obtain ⟨i, hi⟩ := h.exists_given hv
  unfold Variable.StandsFor
  grind

end MethodBody.GivenVariables

/-- The mention refers to the variable or to a copy of it. -/
def Mention.refersTo (v : Variable) : Mention → Bool
  | .reference w => decide (w.StandsFor v)
  | .declaration _ => false

/-- The mention declares the variable or a copy of it. -/
def Mention.declares (v : Variable) : Mention → Bool
  | .reference _ => false
  | .declaration w => decide (w.StandsFor v)

/-! ## How often a hoisted variable comes up -/

theorem countP_eq_ite {α : Type} [DecidableEq α] {l : List α} {a : α} {p : α → Bool} {c : Prop}
    [Decidable c] (hl : l.Nodup) (hp : ∀ b ∈ l, p b = true ↔ b = a ∧ c) :
    l.countP p = if a ∈ l ∧ c then 1 else 0 := by
  by_cases h : a ∈ l ∧ c
  · rw [if_pos h, ← List.count_eq_one_of_mem hl h.1]
    apply List.countP_congr
    intro b hb
    simp [hp b hb, h.2]
  · rw [if_neg h, List.countP_eq_zero]
    grind

theorem sum_map_ite {α : Type} [DecidableEq α] {l : List α} {a : α} {p : α → Prop}
    [DecidablePred p] {c : Prop} [Decidable c] (hl : l.Nodup) (ha : a ∈ l)
    (hp : ∀ b ∈ l, p b ↔ b = a ∧ c) :
    (l.map fun b => if p b then 1 else 0).sum = if c then 1 else 0 := by
  have hcount : (l.map fun b => if p b then 1 else 0).sum = l.countP fun b => decide (p b) := by
    clear hl ha hp
    induction l with
    | nil => rfl
    | cons b l ih =>
      rw [List.map_cons, List.sum_cons, ih, List.countP_cons]
      grind
  rw [hcount, countP_eq_ite hl (by simpa using hp)]
  simp [ha]

namespace MethodBody.GivenVariables

variable {m : MethodBody} (hids : m.GivenVariables) {g : Graph} {v : Variable} {e : EnvId}
  (hv : v ∈ m.declared) (he : g.envOf? v = some e)

include hids hv he

theorem not_standsFor {u w : Variable} (hu : u ∈ m.declared) (hplain : g.envOf? u = none)
    (hw : w.StandsFor u) : ¬ w.StandsFor v := by
  intro hwv
  obtain rfl := hids.eq_of_standsFor hu hv hw hwv
  exact nomatch he.symm.trans hplain

theorem weighs_refersTo : g.Weighs m (Mention.refersTo v) fun _ => 0 where
  hoisted _ _ _ := ⟨rfl, rfl⟩
  reference u hu hplain w hw := by
    simp [Mention.refersTo, hids.not_standsFor hv he hu hplain hw]
  declaration _ _ _ _ _ := rfl

theorem weighs_declares : g.Weighs m (Mention.declares v) fun _ => 0 where
  hoisted _ _ _ := ⟨rfl, rfl⟩
  reference _ _ _ _ _ := rfl
  declaration u hu hplain w hw := by
    simp [Mention.declares, hids.not_standsFor hv he hu hplain hw]

omit he in
theorem charges_declares (ctx : LoweringContext) :
    ctx.Charges (Mention.declares v) fun _ => 0 where
  holder _ _ := rfl
  create _ hid _ := by
    obtain ⟨k, hk⟩ := hid
    simp [Mention.declares, hids.not_standsFor_holder hv hk]

end MethodBody.GivenVariables

namespace LoweringContext.Suits

variable {ctx : LoweringContext} {m : MethodBody} {v : Variable} {e : EnvId} {t : EnvType}
  (h : ctx.Suits m)

include h

theorem mem_declared_of_env (he : e < ctx.graph.envs.size) (hv : v ∈ (ctx.graph.env e).vars) :
    v ∈ m.declared := by
  obtain ⟨p, hp, -⟩ := h.seated.exact.holds.declares_of_mem_vars
    ((h.seated.placed.mem_vars_iff he).mp hv).1
  exact MethodBody.mem_declared.mpr ⟨p, hp⟩

/-- A parameter is referred to where its environment is created. -/
theorem charges_refersTo (hids : m.GivenVariables) (hv : v ∈ m.declared) :
    ctx.Charges (Mention.refersTo v) fun e =>
      if v ∈ (ctx.graph.env e).vars.toList ∧ v.role = .parameter then 1 else 0 where
  holder w hw := by
    obtain ⟨k, e, hk⟩ := hw
    simp [Mention.refersTo, hids.not_standsFor_holder hv hk]
  create {e t w names} ht _ hm := by
    obtain ⟨hmem, rfl, htyped⟩ := h.declared.typed.of_typeOf ht
    have hlt := (Graph.mem_liveEnvs.mp (h.declared.typed.env_mem hmem)).1
    have hcount := countP_eq_ite (a := v) (c := v.role = .parameter)
      (p := fun u => decide (u.role = .parameter) && (t.field? u).isSome &&
        Mention.refersTo v (.reference (names.standIn u)))
      (ctx.graph.env t.env).vars.nodup fun u hu => by
        have hfield : u.role = .parameter → (t.field? u).isSome = true := by
          intro hr
          rw [htyped.field_eq hu, Graph.hoistedField?.eq_def,
            if_neg (by simp [Variable.isReceiver, hr])]
          rfl
        have heq : (names.standIn u).StandsFor v ↔ u = v := by
          refine ⟨hids.eq_of_standsFor (h.mem_declared_of_env hlt hu) hv (hm.standsFor u), ?_⟩
          rintro rfl
          exact hm.standsFor u
        simp only [Mention.refersTo, Bool.and_eq_true, decide_eq_true_eq, heq]
        grind
    rw [hcount]
    simp [Mention.refersTo]

end LoweringContext.Suits

/-! ## Fields -/

/-- The variables that have a field in the type. -/
def EnvType.hoisted (t : EnvType) : List Variable := t.fieldOf.map (·.1)

/-- The fields of a type: first those of the hoisted variables in the order of their declarations,
then the link to the environment around, or to the receiver of the method. -/
structure EnvType.LaidOut (t : EnvType) (g : Graph) (types : List EnvType) (method : Method) :
    Prop where
  order : t.hoisted.Sublist (g.scope (g.env t.env).scope).vars.toList
  mem : ∀ v, v ∈ t.hoisted ↔ v ∈ (g.scope (g.env t.env).scope).vars ∧
    (∃ c, v ∈ (g.closure c).captured) ∧ (v.isReceiver = true → t.isValue = true)
  fields : ∃ fs : List Field, t.fieldOf.map (·.2) = fs.map some ∧ t.fields = fs ++ t.link.toList
  distinct : (t.fields.map (·.id)).Nodup
  link : t.link.isSome = (g.env t.env).needsParent
  linkType : ∀ f, t.link = some f →
    (∀ p, g.runtimeParent? t.env = some p → ∃ u ∈ types, u.env = p ∧ u.isValue = false ∧
      f.type = u.reference t.typeParams) ∧
    (g.runtimeParent? t.env = none → f.type = method.owner)

namespace LoweringContext.Suits

variable {ctx : LoweringContext} {m : MethodBody} {v : Variable} {e : EnvId} {t : EnvType}
  (h : ctx.Suits m)

include h

theorem mem_hoisted (ht : t ∈ ctx.declarations.types) : v ∈ t.hoisted ↔
    v ∈ (ctx.graph.env t.env).vars ∧ (v.isReceiver = true → t.isValue = true) := by
  have htyped := h.declared.typed.typedAs t ht
  have hfield : (∃ f, Graph.hoistedField? ctx.method t.name t.env t.kind v = some f) ↔
      (v.isReceiver = true → t.isValue = true) := by
    rw [Graph.hoistedField?.eq_def, EnvType.isValue]
    cases t.kind <;> by_cases hr : v.isReceiver = true <;> simp [hr]
  constructor
  · intro hv
    obtain ⟨⟨w, o⟩, hmem, rfl⟩ := List.mem_map.mp hv
    obtain ⟨hw, f, -, hf⟩ := htyped.fieldOf w o hmem
    exact ⟨hw, hfield.mp ⟨f, hf⟩⟩
  · rintro ⟨hv, hvalue⟩
    obtain ⟨f, hf⟩ := hfield.mpr hvalue
    exact List.mem_map_of_mem (htyped.hoisted v hv f hf)

/-- The type of the link to the environment around. -/
theorem exists_linkType {p : EnvId} (hp : ctx.graph.runtimeParent? e = some p) :
    ∃ u ∈ ctx.declarations.types, u.env = p ∧ u.isValue = false ∧
      ctx.declarations.typeName p = u.name := by
  have hlive := (h.seated.surroundingEnv_spec hp).1
  obtain ⟨u, hu, hmem, rfl⟩ := h.declared.typed.typeOf (Graph.lt_of_isLiveReference hlive)
    (Graph.removed_of_isLiveReference hlive)
  refine ⟨u, hmem, rfl, ?_, by rw [Declarations.typeName, hu]; rfl⟩
  have hkind := Graph.isValue_of_isLiveReference hlive
  rwa [Environment.isValue, ← (h.declared.typed.typedAs u hmem).kind] at hkind

theorem linkType (ht : t ∈ ctx.declarations.types) {f : Field} (hf : t.link = some f) :
    (∀ p, ctx.graph.runtimeParent? t.env = some p → ∃ u ∈ ctx.declarations.types, u.env = p ∧
      u.isValue = false ∧ f.type = u.reference t.typeParams) ∧
    (ctx.graph.runtimeParent? t.env = none → f.type = ctx.method.owner) := by
  have hlink := (h.declared.typed.laid t ht).link
  rw [hf] at hlink
  split at hlink
  · obtain rfl := Option.some.inj hlink
    refine ⟨fun p hp => ?_, fun hnone => by simp only [Graph.linkField, hnone]⟩
    obtain ⟨u, hu, henv, hvalue, hname⟩ := h.exists_linkType hp
    refine ⟨u, hu, henv, hvalue, ?_⟩
    simp only [Graph.linkField, hp, EnvType.reference, hname,
      (h.declared.typed.typedAs t ht).typeParams]
  · cases hlink

theorem laidOut (hids : m.GivenVariables) (ht : t ∈ ctx.declarations.types) :
    t.LaidOut ctx.graph ctx.declarations.types ctx.method := by
  have hlaid := h.declared.typed.laid t ht
  have htyped := h.declared.typed.typedAs t ht
  have hlt := (Graph.mem_liveEnvs.mp (h.declared.typed.env_mem ht)).1
  let field := Graph.hoistedField? ctx.method t.name t.env t.kind
  let fs := (ctx.graph.env t.env).vars.toList.filterMap field
  have hsnd : t.fieldOf.map (·.2) = fs.map some := by
    rw [hlaid.fieldOf, List.map_filterMap, List.map_filterMap]
    simp [Function.comp_def, field]
  have hfields : t.fields = fs ++ t.link.toList := by
    have := congrArg (List.filterMap id) hsnd
    rw [List.filterMap_map, List.filterMap_map] at this
    rw [hlaid.fields, show t.fieldOf.filterMap (·.2) = _ from this]
    simp
  constructor
  case order =>
    have hfst : t.hoisted = (ctx.graph.env t.env).vars.toList.filter fun v => (field v).isSome := by
      rw [EnvType.hoisted, hlaid.fieldOf]
      generalize (ctx.graph.env t.env).vars.toList = l
      induction l with
      | nil => rfl
      | cons v l ih =>
        rw [List.filterMap_cons, List.filter_cons]
        cases hf : field v <;> simp_all [field]
    rw [hfst, h.seated.placed.vars t.env hlt]
    exact List.filter_sublist.trans List.filter_sublist
  case mem =>
    intro v
    rw [h.mem_hoisted ht, h.seated.placed.mem_vars_iff hlt, and_assoc]
  case fields => exact ⟨fs, hsnd, hfields⟩
  case distinct =>
    rw [hfields, List.map_append, List.nodup_append]
    refine ⟨?_, by cases t.link <;> simp, ?_⟩
    · refine List.pairwise_map.mpr (List.pairwise_filterMap.mpr ?_)
      refine (ctx.graph.env t.env).vars.nodup.imp_of_mem ?_
      intro u v hu hv hne f hf f' hf' hid
      rw [Graph.id_hoistedField hf, Graph.id_hoistedField hf'] at hid
      exact hne (hids.distinct u (h.mem_declared_of_env hlt hu) v (h.mem_declared_of_env hlt hv)
        (FieldId.hoisted.inj hid).2)
    · intro i hi j hj hij
      obtain ⟨f, hf, rfl⟩ := List.mem_map.mp hi
      obtain ⟨f', hf', rfl⟩ := List.mem_map.mp hj
      obtain ⟨v, -, hv⟩ := List.mem_filterMap.mp hf
      rw [Graph.id_hoistedField hv, htyped.link_id f' (Option.mem_toList.mp hf')] at hij
      exact nomatch hij
  case link => exact htyped.link
  case linkType => exact fun f hf => h.linkType ht hf

/-- A variable with a field is hoisted into the environment of the scope that declares it. -/
theorem envOf_of_hoisted (ht : t ∈ ctx.declarations.types) (hv : v ∈ t.hoisted) :
    ctx.graph.envOf? v = some t.env ∧ ctx.graph.declaringScope? v =
      some (ctx.graph.env t.env).scope ∧
      (ctx.graph.scope (ctx.graph.env t.env).scope).env = some t.env := by
  obtain ⟨hlt, hlive⟩ := Graph.mem_liveEnvs.mp (h.declared.typed.env_mem ht)
  have hvars := ((h.mem_hoisted ht).mp hv).1
  have hholds := h.seated.exact.holds
  refine ⟨(h.seated.placed.envOf_eq_some hholds).mpr ⟨hlt, hlive, hvars⟩, ?_, ?_⟩
  · exact hholds.declaringScope_eq_some.mpr ((h.seated.placed.mem_vars_iff hlt).mp hvars).1
  · exact (h.seated.placed.scope_env _ _).mpr ⟨hlt, rfl, hlive⟩

/-- What closures capture, the receiver aside, has a field. -/
theorem exists_hoisted (hunique : m.ReceiverUnique) (hne : m.receiver ≠ some v) {c : ClosureId}
    (hv : v ∈ (ctx.graph.closure c).captured) : ∃ t ∈ ctx.declarations.types, v ∈ t.hoisted := by
  obtain ⟨s, hs⟩ := h.seated.exact.exists_scope_of_captured hv
  obtain ⟨p, hp, -⟩ := h.seated.exact.holds.declares_of_mem_vars hs
  have hrole : v.isReceiver ≠ true := fun hr => hne (hunique p v hp hr)
  obtain ⟨e, hlt, -, hvars⟩ := h.seated.placed.exists_env hs hv
  have hlive : (ctx.graph.env e).removed = false := by
    rw [← Bool.not_eq_true]
    intro hrem
    exact hrole (h.seated.removed e hrem v hvars)
  obtain ⟨t, -, hmem, rfl⟩ := h.declared.typed.typeOf hlt hlive
  exact ⟨t, hmem, (h.mem_hoisted hmem).mpr ⟨hvars, fun hr => absurd hr hrole⟩⟩

end LoweringContext.Suits

/-! ## Main statement -/

/-- The formal parameters of the method and of the nested functions. -/
def MethodBody.formals (m : MethodBody) : List Variable :=
  (m.method.elim [] (·.params)).reduceOption ++ m.numbered.sites.flatMap fun s => s.2.params

/-- Some block of the converted body begins by creating the environment of type `t` in a local, and
among the stores that follow, the field of `v` is given what `v` or its copy holds. -/
def LoweredBody.Stores (r : LoweredBody) (g : Graph) (t : EnvType) (v : Variable) : Prop :=
  ∃ b ∈ r.blocks, ∃ k holder init before f w after, Node.block k ∈ b.nodes ∧
    k.id = (g.env t.env).scope ∧ t.field? v = some f ∧ w.StandsFor v ∧
    (∀ s ∈ before, ∃ f x, s = LoweringContext.store holder f x) ∧
    k.stmts = .declare {} (some holder) (some init) ::
      (before ++ LoweringContext.store holder f (.ref {} (some w)) :: after)

/-- A hoisted variable is declared nowhere, and referred to only where its field is given the value
of a parameter. -/
structure LoweredBody.AccessesOnce (r : LoweredBody) (g : Graph) (m : MethodBody) (t : EnvType)
    (v : Variable) : Prop where
  declarations : ∀ b ∈ r.blocks, ∀ n ∈ b.nodes, ∀ w : Variable, w.StandsFor v →
    n.mention? ≠ some (.declaration w)
  references : (r.blocks.map fun b => tally (Mention.refersTo v) b.nodes).sum =
    if v.role = .parameter then 1 else 0
  stored : v.role = .parameter → v ∈ m.formals ∧ r.Stores g t v

/-- No variable is hoisted twice, and none is accessed past its field. -/
structure LoweredBody.HoistsOnce (r : LoweredBody) (g : Graph) (m : MethodBody) (method : Method) :
    Prop where
  captured : ∀ v, m.receiver ≠ some v →
    ((∃ c, v ∈ (g.closure c).captured) ↔ ∃ t ∈ r.declarations.types, v ∈ t.hoisted)
  home : ∀ t ∈ r.declarations.types, ∀ v ∈ t.hoisted, ∃ s, g.declaringScope? v = some s ∧
    (g.scope s).env = some t.env
  unique : ∀ t ∈ r.declarations.types, ∀ u ∈ r.declarations.types, ∀ v ∈ t.hoisted,
    v ∈ u.hoisted → t = u
  types : (r.declarations.types.map (·.env)).Nodup
  laidOut : ∀ t ∈ r.declarations.types, t.LaidOut g r.declarations.types method
  accessed : ∀ t ∈ r.declarations.types, ∀ v ∈ t.hoisted, r.AccessesOnce g m t v

namespace LoweredBody.Written

variable {r : LoweredBody} {ctx : LoweringContext} {m : MethodBody} {t : EnvType} {v : Variable}
  (h : r.Written ctx m) (hids : m.GivenVariables) (ht : t ∈ ctx.declarations.types)
  (hv : v ∈ t.hoisted)

include h ht hv

theorem mem_declared_of_hoisted : v ∈ m.declared := by
  have hlt := (Graph.mem_liveEnvs.mp (h.suits.declared.typed.env_mem ht)).1
  exact h.suits.mem_declared_of_env hlt ((h.suits.mem_hoisted ht).mp hv).1

/-- The field of a parameter is given its value. -/
theorem stores (hr : v.role = .parameter) : r.Stores ctx.graph t v := by
  have hlive := h.suits.declared.typed.env_mem ht
  obtain ⟨k, hk, hid, -, view, u, holder, parent, stores, rest, -, -, hu, -, hstmts, hfounds, -⟩ :=
    h.exists_createsIn hlive
  obtain rfl : u = t := by
    rw [h.typeOf_eq, h.suits.declared.typed.typeOf_env ht] at hu
    exact (Option.some.inj hu).symm
  have hinitial : v ∈ ctx.graph.initial u.env := by
    rw [h.suits.initial_eq (Graph.mem_liveEnvs.mp hlive).1, List.mem_filter]
    exact ⟨((h.suits.mem_hoisted ht).mp hv).1, by simp [hr]⟩
  obtain ⟨s, hs, f, x, hf, rfl, hstored⟩ := (exists_mem_of_forall₂ hfounds.stores).1 v hinitial
  obtain ⟨before, after, hstores⟩ := List.append_of_mem hs
  obtain ⟨b, hb, hk⟩ := List.mem_flatMap.mp hk
  cases hstored with
  | receiver hr' => cases hr.symm.trans hr'
  | @parameter w _ hw =>
    refine ⟨b, hb, k, holder, ctx.graph.newborn u.env holder.type, parent ++ before, f, w,
      after ++ rest, mem_blocksIn.mp hk, hid, hf, hw, fun s hs => ?_, by simp [hstmts, hstores]⟩
    rcases List.mem_append.mp hs with hs | hs
    · cases hl : u.link with
      | none =>
        rw [hfounds.unlinked hl] at hs
        cases hs
      | some link =>
        obtain ⟨y, rfl, -⟩ := hfounds.linked link hl
        exact ⟨link, y, List.mem_singleton.mp hs⟩
    · obtain ⟨_, -, f', y, -, rfl, -⟩ :=
        (exists_mem_of_forall₂ hfounds.stores).2 s (hstores ▸ List.mem_append_left _ hs)
      exact ⟨f', y, rfl⟩

include hids

theorem accessesOnce (hformal : ∀ v ∈ m.declared, v.role = .parameter → v ∈ m.formals) :
    r.AccessesOnce ctx.graph m t v := by
  have hdecl := h.mem_declared_of_hoisted ht hv
  obtain ⟨henv, -⟩ := h.suits.envOf_of_hoisted ht hv
  constructor
  case declarations =>
    have htotal := h.tally_blocks (hids.weighs_declares hdecl henv)
      (hids.charges_declares hdecl ctx)
    intro b hb n hn w hw hmention
    have hzero : tally (Mention.declares v) b.nodes = 0 := by
      have hsum : (r.blocks.map fun b => tally (Mention.declares v) b.nodes).sum = 0 := by
        simpa using htotal
      exact List.sum_eq_zero_iff_forall_eq_nat.mp hsum _ (List.mem_map_of_mem hb)
    have := tally_eq_zero.mp hzero n hn _ hmention
    simp [Mention.declares, hw] at this
  case references =>
    rw [h.tally_blocks (hids.weighs_refersTo hdecl henv) (h.suits.charges_refersTo hids hdecl)]
    refine sum_map_ite (List.nodup_range.filter _) (h.suits.declared.typed.env_mem ht) ?_
    intro e he
    obtain ⟨hlt, hlive⟩ := Graph.mem_liveEnvs.mp he
    have hunique : v ∈ (ctx.graph.env e).vars.toList ↔ e = t.env := by
      constructor
      · intro hvars
        have := (h.suits.seated.placed.envOf_eq_some h.suits.seated.exact.holds).mpr
          ⟨hlt, hlive, hvars⟩
        exact Option.some.inj (this.symm.trans henv)
      · rintro rfl
        exact ((h.suits.mem_hoisted ht).mp hv).1
    rw [hunique]
  case stored => exact fun hr => ⟨hformal v hdecl hr, h.stores ht hv hr⟩

end LoweredBody.Written

/-- Whatever is converted, if the receiver alone has its role and parameters are formal ones, then
variables are hoisted once. -/
theorem MethodBody.run_hoists {o : ConversionSettings} {m : MethodBody} {r : LoweredBody}
    (h : (Conversion.run o m).outcome = .ok r) (hids : m.GivenVariables)
    (hreceiver : m.ReceiverUnique)
    (hformal : ∀ v ∈ m.declared, v.role = .parameter → v ∈ m.formals) :
    ∃ method, m.method = some method ∧ r.HoistsOnce (Conversion.run o m).graph m method := by
  obtain ⟨ctx, hgraph, hwritten, -⟩ := LoweredBody.written_of_run h
  rw [← hgraph]
  have hs := hwritten.suits
  have htypes := hwritten.types
  refine ⟨ctx.method, hs.method, ?_⟩
  constructor
  case captured =>
    intro v hne
    rw [htypes]
    refine ⟨fun ⟨c, hv⟩ => hs.exists_hoisted hreceiver hne hv, fun ⟨t, ht, hv⟩ => ?_⟩
    exact (((hs.laidOut hids ht).mem v).mp hv).2.1
  case home =>
    intro t ht v hv
    rw [htypes] at ht
    exact ⟨_, (hs.envOf_of_hoisted ht hv).2⟩
  case unique =>
    intro t ht u hu v hvt hvu
    rw [htypes] at ht hu
    have henv := (hs.envOf_of_hoisted ht hvt).1.symm.trans (hs.envOf_of_hoisted hu hvu).1
    exact List.inj_on_of_nodup_map hs.declared.typed.nodup_envs ht hu (Option.some.inj henv)
  case types => exact htypes ▸ hs.declared.typed.nodup_envs
  case laidOut => exact htypes ▸ fun t ht => hs.laidOut hids ht
  case accessed => exact htypes ▸ fun t ht v hv => hwritten.accessesOnce hids ht hv hformal

open Counter in
/-- In `Count` the lambda captures the parameter of the local function around it, which is referred
to once. -/
theorem MethodBody.hoists_count : ∃ r, (Conversion.run {} count).outcome = .ok r ∧
    count.GivenVariables ∧ count.ReceiverUnique ∧
    (∀ v ∈ count.declared, v.role = .parameter → v ∈ count.formals) ∧
    (∃ method, count.method = some method ∧
      r.HoistsOnce (Conversion.run {} count).graph count method) ∧
    (r.blocks.map fun b => tally (Mention.refersTo offset) b.nodes).sum = 1 := by
  have hids : count.GivenVariables := by decide +kernel
  have hreceiver : count.ReceiverUnique := by
    have hall : ∀ v ∈ count.declared, v.isReceiver = true → count.receiver = some v := by
      decide +kernel
    exact fun p v hv => hall v (mem_declared.mpr ⟨p, hv⟩)
  have hformal : ∀ v ∈ count.declared, v.role = .parameter → v ∈ count.formals := by decide +kernel
  obtain ⟨r, hr⟩ := exists_of_isOk (x := (Conversion.run {} count).outcome) (by decide +kernel)
  obtain ⟨method, hmethod, honce⟩ := run_hoists hr hids hreceiver hformal
  have hcaptured : offset ∈ ((Conversion.run {} count).graph.closure 1).captured := by
    decide +kernel
  obtain ⟨t, ht, hv⟩ := (honce.captured offset (by decide)).mp ⟨1, hcaptured⟩
  exact ⟨r, hr, hids, hreceiver, hformal, ⟨method, hmethod, honce⟩,
    (honce.accessed t ht offset hv).references⟩

end Unnest
