import Unnest.Proofs.Lowered.Settled
import Unnest.Proofs.Semantics.Evaluate

/-!
# Where values are kept

A run of a body and a run of its conversion enter the same blocks in the same order, so instances
have the same numbers in both. A `Layout` says of each instance which scope it is one of, which
instances are around it, and which object is its environment. From that and the names of the frames
it is known where the converted run keeps what the original run has in a cell: `Layout.slot`.

`Layout.Matches` relates the stores of the two runs: instances give access to the right cells,
environments are linked to the right ones, and each variable has the same value in both.

## Main definitions

* `MethodBody.Given` : a body as it comes from its binder.
* `Layout` : the instances of a run.
* `Layout.Matches` : two stores agree.
-/

namespace Unnest

/-! ## Bodies from the binder -/

/-- A node that is not made by lowering. The receiver is not assigned to. -/
def Node.Given : Node → Prop
  | .expr (.assign _ (.self ..) _) => False
  | .expr (.call _ method _ _) => ∃ k, method.id = .given k
  | .expr (.field ..) | .expr (.newEnv ..) | .expr (.zero ..) | .expr (.delegate ..) => False
  | _ => True

/-- Nothing in the body is made by lowering, and variables differ in their identities. -/
structure MethodBody.Given (m : MethodBody) : Prop where
  nodes : ∀ s ∈ m.numbered.sites, s.2.Given
  ids : ∀ v ∈ m.declared, ∃ k, v.id = .given k
  distinct : ∀ v ∈ m.declared, ∀ w ∈ m.declared, v.id = w.id → v = w

instance (id : VariableId) : Decidable (∃ k, id = .given k) :=
  match id with
  | .given k => .isTrue ⟨k, rfl⟩
  | .copy .. | .holder .. => .isFalse fun ⟨_, h⟩ => nomatch h

instance (id : MethodId) : Decidable (∃ k, id = .given k) :=
  match id with
  | .given k => .isTrue ⟨k, rfl⟩
  | .lowered _ => .isFalse fun ⟨_, h⟩ => nomatch h

instance : DecidablePred Node.Given := fun n => by
  unfold Node.Given
  split <;> infer_instance

instance (m : MethodBody) : Decidable m.Given :=
  decidable_of_iff ((∀ s ∈ m.numbered.sites, s.2.Given) ∧ (∀ v ∈ m.declared, ∃ k, v.id = .given k) ∧
      ∀ v ∈ m.declared, ∀ w ∈ m.declared, v.id = w.id → v = w)
    ⟨fun ⟨nodes, ids, distinct⟩ => ⟨nodes, ids, distinct⟩,
      fun ⟨nodes, ids, distinct⟩ => ⟨nodes, ids, distinct⟩⟩

/-! ## The names of a lowering -/

/-- A lowering together with the names of its frames and the receiver of a run. -/
structure Lowering where
  ctx : LoweringContext
  names : Option ClosureId → Names
  this : Option Value

namespace Lowering

variable (L : Lowering)

abbrev graph : Graph := L.ctx.graph

/-- The variable that stands for `v` in the frame of scope `s`. -/
def standIn (s : ScopeId) (v : Variable) : Variable := (L.names (L.graph.frame? s)).standIn v

/-- The local that holds an environment where it is created. -/
def holder (e : EnvId) : Variable :=
  ((L.names (L.graph.frame? (L.graph.env e).scope)).holders.lookup e).getD default

/-- Environment `e` is created whenever its scope is entered. -/
def Live (e : EnvId) : Prop := (L.graph.scope (L.graph.env e).scope).env = some e

end Lowering

/-! ## Layouts -/

/-- The instances of blocks in a run, by their numbers. -/
structure Layout where
  size : Nat
  /-- The scope that an instance is one of. -/
  scope : Nat → ScopeId
  /-- The instance of a scope that is around an instance. -/
  around : Nat → ScopeId → Option Nat
  /-- The object that is the environment of an instance. -/
  object : Nat → Nat

namespace Layout

variable (Γ : Layout) (L : Lowering)

/-- Instances are nested as their scopes are. -/
structure Nested (g : Graph) : Prop where
  self : ∀ i < Γ.size, Γ.around i (Γ.scope i) = some i
  le : ∀ i < Γ.size, ∀ t j, Γ.around i t = some j → j ≤ i
  outer : ∀ i < Γ.size, ∀ t ∈ g.ancestors (Γ.scope i), ∃ j, Γ.around i t = some j ∧
    Γ.scope j = t ∧ ∀ u ∈ g.ancestors t, Γ.around j u = Γ.around i u

/-- Where field `f` of the environment `e` of instance `i` is. -/
def envSlot (i : Nat) (e : EnvId) (f : FieldId) : Slot :=
  if (L.graph.env e).isValue then .part ⟨i, L.holder e⟩ f else .field (Γ.object i) f

/-- Where the variable `v` of instance `i` is. -/
def slot (i : Nat) (v : Variable) : Slot :=
  match L.graph.envOf? v with
  | some e => Γ.envSlot L i e (.hoisted e v.id)
  | none => .cell ⟨i, L.standIn (Γ.scope i) v⟩

/-- The environment of scope `s` around instance `i`, as a value. -/
def objectAt (i : Nat) (s : ScopeId) : Option Value :=
  (Γ.around i s).map fun j => .object (Γ.object j)

/-- The receiver of the method of closure `c`, seen from instance `i`. -/
def receiverOf (i : Nat) (c : ClosureId) : Option Value :=
  match (L.graph.closure c).host with
  | some e => Γ.objectAt i (L.graph.env e).scope
  | none =>
    if (L.graph.closure c).capturesReceiver && L.graph.receiverEnv?.isNone then L.this else none

/-- The receiver in the frame of closure `fr`, seen from instance `i`. -/
def selfOf (i : Nat) : Option ClosureId → Option Value
  | none => L.this
  | some c => Γ.receiverOf L i c

/-- What the parent link of environment `e` of instance `i` holds. -/
def parentOf (i : Nat) (e : EnvId) : Option Value :=
  match L.graph.runtimeParent? e with
  | some p => Γ.objectAt i (L.graph.env p).scope
  | none => L.this

/-! ## Stores that match -/

/-- What an instance of the original run knows. -/
structure SourceAt (i : Nat) (I : Instance) : Prop where
  self : I.self = L.this
  around : ∀ t ∈ L.graph.ancestors (Γ.scope i), I.around t = Γ.around i t
  cells : ∀ t ∈ L.graph.ancestors (Γ.scope i), ∀ j, Γ.around i t = some j →
    ∀ v ∈ (L.graph.scope t).vars, v.role ≠ .receiver → I.cells v = some ⟨j, v⟩

/-- What an instance of the converted run knows: cells of its frame only. -/
structure TargetAt (i : Nat) (I : Instance) : Prop where
  self : I.self = Γ.selfOf L i (L.graph.frame? (Γ.scope i))
  standIns : ∀ t ∈ L.graph.ancestors (Γ.scope i), L.graph.frame? t = L.graph.frame? (Γ.scope i) →
    ∀ j, Γ.around i t = some j → ∀ v ∈ (L.graph.scope t).vars,
      (v.role = .parameter ∨ v.role = .declared ∧ L.graph.envOf? v = none) →
      I.cells (L.standIn t v) = some ⟨j, L.standIn t v⟩
  holders : ∀ e, L.Live e → (L.graph.env e).scope ∈ L.graph.ancestors (Γ.scope i) →
    L.graph.frame? (L.graph.env e).scope = L.graph.frame? (Γ.scope i) →
    ∀ j, Γ.around i (L.graph.env e).scope = some j → I.cells (L.holder e) = some ⟨j, L.holder e⟩
  envParams : ∀ c, L.graph.frame? (Γ.scope i) = some c → ∀ lm,
    L.ctx.declarations.methodOf? c = some lm → ∀ p ∈ lm.envParams,
      ∀ j, Γ.around i (L.graph.env p.1).scope = some j → I.cells p.2 = some ⟨j, L.holder p.1⟩

/-- The environment `e` of instance `i` is there. -/
structure HeldAt (τ : Store) (i : Nat) (e : EnvId) : Prop where
  named : ∃ k, (L.holder e).id = .holder k e
  record : (L.graph.env e).isValue = true → ∃ F, τ.cells ⟨i, L.holder e⟩ = .record F
  object : (L.graph.env e).isValue = false →
    τ.cells ⟨i, L.holder e⟩ = .value (.object (Γ.object i)) ∧ Γ.object i < τ.allocated

/-- The environment `e` of instance `i` is there and leads on. -/
structure EnvAt (τ : Store) (i : Nat) (e : EnvId) : Prop extends Γ.HeldAt L τ i e where
  parent : (L.graph.env e).isValue = false → (L.graph.env e).needsParent = true →
    some (τ.objects (Γ.object i) (.parent e)) = Γ.parentOf L i e
  receiver : (L.graph.env e).isValue = true → ∀ v ∈ (L.graph.env e).vars, v.role = .receiver →
    τ.load (.part ⟨i, L.holder e⟩ (.hoisted e v.id)) = L.this.map .value

/-- A callable value of the original run and the one in its place: a nested function that takes no
environments, and its method. -/
def CallableAt (a b : Callable) : Prop :=
  ∃ c lm j, c < L.graph.closures.size ∧ L.ctx.declarations.methodOf? c = some lm ∧
    lm.envParams = [] ∧ j < Γ.size ∧ Γ.scope j = (L.graph.closure c).home ∧
    a = .closure (L.graph.closure c).function j ∧ b = .bound lm.symbol (Γ.receiverOf L j c)

/-- The instance has an environment on the heap. -/
def HasObject (i : Nat) : Prop :=
  ∃ e, (L.graph.scope (Γ.scope i)).env = some e ∧ (L.graph.env e).isValue = false

/-- The stores of the original run and of the converted one agree, where the environments of the
instances before `k` are created. -/
structure MatchesTo (k : Nat) (σ τ : Store) : Prop where
  nested : Γ.Nested L.graph
  entered_left : σ.entered = Γ.size
  entered_right : τ.entered = Γ.size
  made : τ.made = σ.made
  history : τ.history = σ.history
  source : ∀ i < Γ.size, Γ.SourceAt L i (σ.instances i)
  target : ∀ i < Γ.size, Γ.TargetAt L i (τ.instances i)
  env : ∀ i < Γ.size, i < k → ∀ e, (L.graph.scope (Γ.scope i)).env = some e → Γ.EnvAt L τ i e
  object_inj : ∀ i < Γ.size, ∀ j < Γ.size, Γ.HasObject L i → Γ.HasObject L j →
    Γ.object i = Γ.object j → i = j
  cells : ∀ i < Γ.size, ∀ v ∈ (L.graph.scope (Γ.scope i)).vars, v.role ≠ .receiver →
    i < k ∨ L.graph.envOf? v = none →
    ∃ x, σ.cells ⟨i, v⟩ = .value x ∧ τ.load (Γ.slot L i v) = some (.value x)
  callables : ∀ k < σ.made, Γ.CallableAt L (σ.callables k) (τ.callables k)

/-- The stores of the original run and of the converted one agree. -/
abbrev Matches (σ τ : Store) : Prop := Γ.MatchesTo L Γ.size σ τ

end Layout

/-! ## Telling names apart -/

/-- A lowering of body `m` with its result, run with a receiver where there is one. -/
structure Lowering.Of (L : Lowering) (m : MethodBody) (r : LoweredBody) : Prop where
  lowers : r.LowersIn L.ctx m L.names
  given : m.Given
  this : m.receiver.isSome = true → L.this.isSome = true

namespace Lowering.Of

variable {L : Lowering} {m : MethodBody} {r : LoweredBody} {s t : ScopeId} {e : EnvId}
  {v w x : Variable} (h : L.Of m r)

include h

theorem fits : L.ctx.Fits m := h.lowers.fits

theorem holds : L.graph.Holds m := h.fits.holds

theorem placed : L.graph.Placed := h.fits.chained.placed

theorem live_iff : L.Live e ↔ e < L.graph.envs.size ∧ (L.graph.env e).removed = false := by
  rw [Lowering.Live, h.placed.scope_env]
  constructor
  · rintro ⟨hlt, -, hrem⟩
    exact ⟨hlt, hrem⟩
  · rintro ⟨hlt, hrem⟩
    exact ⟨hlt, rfl, hrem⟩

/-- The environment of a scope is live and belongs to it. -/
theorem live_of_env (hs : (L.graph.scope s).env = some e) :
    L.Live e ∧ (L.graph.env e).scope = s := by
  obtain ⟨hlt, hscope, hrem⟩ := (h.placed.scope_env s e).mp hs
  exact ⟨h.live_iff.mpr ⟨hlt, hrem⟩, hscope⟩

theorem mem_declared (hv : v ∈ (L.graph.scope s).vars) : v ∈ m.declared := by
  obtain ⟨p, hp, -⟩ := h.holds.declares_of_mem_vars hv
  exact MethodBody.mem_declared.mpr ⟨p, hp⟩

theorem standsFor (s : ScopeId) (v : Variable) : (L.standIn s v).StandsFor v :=
  (h.lowers.made _).standsFor v

/-- A name stands for one variable only. -/
theorem eq_of_standsFor (hv : v ∈ (L.graph.scope s).vars) (hw : w ∈ (L.graph.scope t).vars)
    (hxv : x.StandsFor v) (hxw : x.StandsFor w) : v = w := by
  have hv := h.mem_declared hv
  have hw := h.mem_declared hw
  obtain ⟨k, hk⟩ := h.given.ids v hv
  obtain ⟨l, hl⟩ := h.given.ids w hw
  refine h.given.distinct v hv w hw ?_
  rcases hxv with hxv | ⟨a, hxv⟩ <;> rcases hxw with hxw | ⟨b, hxw⟩
  · exact hxv.symm.trans hxw
  · rw [hxv, hk] at hxw
    exact nomatch hxw
  · rw [hxw, hl] at hxv
    exact nomatch hxv
  · rw [hxv] at hxw
    injection hxw

/-- A name that stands for a variable holds no environment. -/
theorem ne_of_holder (hv : v ∈ (L.graph.scope s).vars) (hx : x.StandsFor v)
    (hw : ∃ k, w.id = .holder k e) : x ≠ w := by
  rintro rfl
  obtain ⟨n, hn⟩ := h.given.ids v (h.mem_declared hv)
  obtain ⟨k, hk⟩ := hw
  rcases hx with hx | ⟨l, hx⟩
  · rw [hk, hn] at hx
    exact nomatch hx
  · rw [hk] at hx
    exact nomatch hx

/-- The variables of an environment are those of its scope. -/
theorem mem_scope_vars (he : L.Live e) (hv : v ∈ (L.graph.env e).vars) :
    v ∈ (L.graph.scope (L.graph.env e).scope).vars :=
  ((h.placed.mem_vars_iff (h.live_iff.mp he).1).mp hv).1

theorem envOf_eq_some : L.graph.envOf? v = some e ↔ L.Live e ∧ v ∈ (L.graph.env e).vars := by
  rw [h.placed.envOf_eq_some h.holds, h.live_iff, and_assoc]

/-- A variable is hoisted into the environment of its own scope. -/
theorem env_of_envOf (hv : v ∈ (L.graph.scope s).vars) (he : L.graph.envOf? v = some e) :
    (L.graph.scope s).env = some e := by
  obtain ⟨hlive, hve⟩ := h.envOf_eq_some.mp he
  rw [h.holds.tidy.vars_unique _ _ v hv (h.mem_scope_vars hlive hve)]
  exact hlive

/-- What is around a function is around all that is inside. -/
theorem mem_of_home {c : ClosureId} (hc : L.graph.frame? s = some c)
    (ht : t ∈ L.graph.ancestors (L.graph.closure c).home) :
    t ∈ L.graph.ancestors s ∧ t ≠ s := by
  obtain ⟨hclt, hbody⟩ := Graph.lt_of_frame h.holds hc
  constructor
  · refine Graph.mem_ancestors_trans ?_ hbody
    rw [h.holds.ancestors_body hclt]
    exact List.mem_cons_of_mem _ ht
  · rintro rfl
    have hin := Graph.mem_ancestors_trans hbody ht
    exact absurd (Graph.le_of_mem_ancestors hin) (Nat.not_le_of_lt (h.holds.home_lt_body hclt))

/-- The environments that a method is handed are those of scopes around its function. -/
theorem envParam_spec {c : ClosureId} {lm : LoweredMethod} {p : EnvId × Variable}
    (hlm : L.ctx.declarations.methodOf? c = some lm) (hp : p ∈ lm.envParams) :
    L.Live p.1 ∧ (L.graph.env p.1).isValue = true ∧
      (L.graph.env p.1).scope ∈ L.graph.ancestors (L.graph.closure c).home ∧
      ∃ k, p.2.id = .holder k p.1 := by
  have hd := h.fits.declared.declared c lm hlm
  have hmem : p.1 ∈ lm.envParams.map (·.1) := List.mem_map_of_mem hp
  rw [hd.envParams] at hmem
  obtain ⟨hread, hk⟩ := Graph.mem_valueEnvsOf.mp hmem
  obtain ⟨hlt, hrem, -⟩ := h.placed.mem_envs_iff.mp hread
  exact ⟨h.live_iff.mpr ⟨hlt, hrem⟩, hk,
    h.placed.scope_mem_ancestors_home h.fits.chained.exact h.fits.calls hread, (hd.holder p hp).2⟩

/-- The field of a variable that is not the receiver. -/
theorem field_id {f : Field} (hv : v.role ≠ .receiver) (hve : v ∈ (L.graph.env e).vars)
    (hf : (L.ctx.declarations.typeOf? e).bind (·.field? v) = some f) : f.id = .hoisted e v.id := by
  obtain ⟨t, ht, hfield⟩ := Option.bind_eq_some_iff.mp hf
  obtain ⟨-, rfl, htyped⟩ := h.fits.declared.typed.of_typeOf ht
  rw [htyped.field_eq hve, Graph.hoistedField?.eq_def,
    if_neg (by simpa [Variable.isReceiver])] at hfield
  rw [← Option.some.inj hfield]

end Lowering.Of

end Unnest
