import Mathlib.Data.List.Forall2
import Unnest.Proofs.Lowered.Reach
import Unnest.Proofs.Lowered.Rules

/-!
# What expressions for environments stand for

In a lowered method an environment is a local, a parameter, the receiver of the method, or what the
parent link of another environment leads to. `Expr.Denotes` says which environment such an
expression stands for, or that it stands for the receiver of the converted method. Links and fields
are read by what they are declared for; the functions that write the expressions are not mentioned.

## Main statements

* `LoweringContext.envRef_denotes`, `LoweringContext.Suits.receiverRef_denotes` : what is written
  for an environment or for the receiver denotes it.
* `MethodBody.run_denotes` : hoisted variables, receivers and parent links lead where they should.
* `LoweredBody.Written.receivedBy`, `LoweredBody.Written.takes_of_methodOf` : what lowered methods
  are called on, and the values that they take.
-/

namespace Unnest

/-- What an expression for an environment can stand for. -/
inductive Referent where
  | env (e : EnvId)
  /-- The receiver of the converted method. -/
  | receiver
  deriving DecidableEq, Repr

/-- Where the parent link of an environment leads. -/
def Graph.parentReferent (g : Graph) (e : EnvId) : Referent :=
  match g.runtimeParent? e with
  | some p => .env p
  | none => .receiver

/-- What an expression for an environment or for the receiver stands for at a place. -/
inductive Expr.Denotes (g : Graph) (d : Declarations) (view : View) : Expr → Referent → Prop where
  | created {loc e v} (h : (e, v) ∈ view.locals) : Denotes g d view (.ref loc (some v)) (.env e)
  | param {loc e v} (h : (e, v) ∈ view.frame.envParams) :
      Denotes g d view (.ref loc (some v)) (.env e)
  | host {loc type t} (h : view.frame.host = some t) :
      Denotes g d view (.self loc type) (.env t.env)
  | parent {loc x e t link} (hx : Denotes g d view x (.env e)) (ht : d.typeOf? e = some t)
      (hl : t.link = some link) : Denotes g d view (.field loc x link) (g.parentReferent e)
  | held {loc x e t v f} (hx : Denotes g d view x (.env e)) (ht : d.typeOf? e = some t)
      (hk : t.isValue = true) (hv : g.receiver = some v) (hf : t.field? v = some f) :
      Denotes g d view (.field loc x f) .receiver
  | self {loc type} (h : view.frame.closure = none ∨
      view.frame.host = none ∧ view.frame.isStatic = false) :
      Denotes g d view (.self loc type) .receiver

variable {ctx : LoweringContext} {m : MethodBody} {d : Declarations} {site : Site} {e : EnvId}
  {x : Expr} {rf : Referent}

namespace LoweringContext

/-! ## Ways -/

theorem denotes_link {a : EnvId} {way : Expr} {l : Field} {view : View}
    (hd : way.Denotes ctx.graph ctx.declarations view (.env a))
    (hl : (ctx.declarations.typeOf? a).bind (·.link) = some l) :
    (Expr.field {} way l).Denotes ctx.graph ctx.declarations view (ctx.graph.parentReferent a) := by
  obtain ⟨t, ht, hl⟩ := Option.bind_eq_some_iff.mp hl
  exact .parent hd ht hl

theorem linkPath_denotes {host : EnvType} {a b : EnvId} {fuel : Nat} {way : Expr} {view : View}
    (hd : way.Denotes ctx.graph ctx.declarations view (.env a))
    (hp : ctx.linkPath host b fuel a way = .ok x) :
    x.Denotes ctx.graph ctx.declarations view (.env b) := by
  refine linkPath_induction (P := fun a way => way.Denotes _ _ view (.env a)) ?_ hd hp
  intro a way l p hd hl hparent
  have hlink := denotes_link hd hl
  rwa [Graph.parentReferent, hparent] at hlink

theorem receiverPath_denotes {host : EnvType} {a : EnvId} {fuel : Nat} {way : Expr} {view : View}
    (hd : way.Denotes ctx.graph ctx.declarations view (.env a))
    (hp : ctx.receiverPath host fuel a way = .ok x) :
    x.Denotes ctx.graph ctx.declarations view .receiver := by
  refine receiverPath_induction (P := fun a way => way.Denotes _ _ view (.env a))
    (Q := fun way => way.Denotes _ _ view .receiver) ?_ ?_ hd hp
  · intro a way l p hd hl hparent
    have hlink := denotes_link hd hl
    rwa [Graph.parentReferent, hparent] at hlink
  · intro a way l hd hl hnone
    have hlink := denotes_link hd hl
    rwa [Graph.parentReferent, hnone] at hlink

/-- What is written for an environment denotes it. -/
theorem envRef_denotes (h : ctx.envRef site e = .ok x) :
    x.Denotes ctx.graph ctx.declarations site.view (.env e) := by
  rw [envRef] at h
  split at h
  · rename_i holder hlocal
    obtain rfl := Except.ok.inj h
    exact .created (mem_of_lookup hlocal)
  · split at h
    · split at h
      · rename_i holder hparam
        obtain rfl := Except.ok.inj h
        exact .param (mem_of_lookup hparam)
      · cases h
    · split at h
      · rename_i t ht
        exact linkPath_denotes (.host ht) h
      · cases h

end LoweringContext

/-- The environment of the receiver is the outermost one. -/
theorem Graph.Seated.parentReferent_of_receiver {g : Graph} (hs : g.Seated m)
    (he : g.receiverEnv? = some e) : g.parentReferent e = .receiver := by
  have hholds := hs.exact.holds
  obtain ⟨v, hv, -⟩ := Option.bind_eq_some_iff.mp he
  rw [hholds.receiver_eq] at hv
  obtain ⟨hlt, -, hmem⟩ := (hs.placed.receiverEnv_eq_some hholds hv).mp he
  have hparent : g.runtimeParent? e = none := by
    rw [runtimeParent?, hs.placed.scope_of_receiver hholds hv hlt hmem, hholds.ancestors_root,
      surroundingEnv?.eq_def]
    simp only [hholds.root_owner]
  rw [parentReferent, hparent]

namespace LoweringContext.Suits

variable (hs : ctx.Suits m)

include hs

/-- What is written for the receiver denotes it. -/
theorem receiverRef_denotes (h : ctx.receiverRef site = .ok x) :
    x.Denotes ctx.graph ctx.declarations site.view .receiver := by
  rw [receiverRef] at h
  split at h
  · cases h
  · rename_i v hv
    dsimp only at h
    split at h
    · rename_i hself
      obtain rfl := Except.ok.inj h
      refine .self ?_
      simpa [Site.view] using hself
    · split at h
      · rename_i e he
        split at h
        · cases h
        · rename_i t ht
          split at h
          · rename_i f hf
            obtain ⟨y, hy, rfl⟩ := exists_of_map_ok h
            have hd := envRef_denotes hy
            split at hf
            · exact .held hd ht ‹_› hv hf
            · rw [← hs.seated.parentReferent_of_receiver he]
              exact .parent hd ht hf
          · cases h
      · rename_i t _ ht
        exact receiverPath_denotes (.host ht) h
      · cases h

omit hs in
/-- What is written for a hoisted variable is its field in its environment. -/
theorem variableRef_denotes {v : Variable} {aliases : List (Variable × Variable)}
    (he : ctx.graph.envOf? v = some e) (h : ctx.variableRef site aliases v = .ok x) :
    ∃ t f y, ctx.declarations.typeOf? e = some t ∧ t.field? v = some f ∧ x = .field {} y f ∧
      y.Denotes ctx.graph ctx.declarations site.view (.env e) := by
  simp only [variableRef, he] at h
  split at h
  · rename_i f hf
    obtain ⟨t, ht, hf⟩ := Option.bind_eq_some_iff.mp hf
    obtain ⟨y, hy, rfl⟩ := exists_of_map_ok h
    exact ⟨t, f, y, ht, hf, rfl, envRef_denotes hy⟩
  · cases h

end LoweringContext.Suits

/-! ## Creating environments -/

/-- What a new environment is given for variable `v`: the receiver, or what a parameter holds. -/
inductive Graph.Stored (g : Graph) (d : Declarations) (view : View) (v : Variable) :
    Expr → Prop where
  | receiver {x : Expr} (hr : v.role = .receiver) (hx : x.Denotes g d view .receiver) :
      Stored g d view v x
  | parameter {w : Variable} (hr : v.role = .parameter) (hw : w.StandsFor v) :
      Stored g d view v (.ref {} (some w))

/-- The statements with which environment `e` of type `t` begins once it is in `holder`: its parent
link is set, and it is given what its variables already hold. -/
structure Graph.Creates (g : Graph) (d : Declarations) (view : View) (e : EnvId) (t : EnvType)
    (holder : Variable) (parent stores : List Stmt) : Prop where
  unlinked : t.link = none → parent = []
  linked : ∀ link, t.link = some link → ∃ x, parent = [LoweringContext.store holder link x] ∧
    x.Denotes g d view (g.parentReferent e)
  only : ∀ s ∈ stores, ∃ v ∈ (g.env e).vars, ∃ f x, t.field? v = some f ∧
    s = LoweringContext.store holder f x ∧ g.Stored d view v x
  stored : ∀ v ∈ (g.env e).vars, v.role ≠ .declared → ∀ f, t.field? v = some f →
    ∃ x, LoweringContext.store holder f x ∈ stores ∧ g.Stored d view v x

/-- The variables of environment `e` that hold something as soon as its scope is entered, in the
order of their declarations: the parameters, and the receiver if the environment is a value. -/
def Graph.initial (g : Graph) (e : EnvId) : List Variable :=
  (g.scope (g.env e).scope).vars.toList.filter fun v =>
    v ∈ (g.env e).vars ∧ (v.role = .parameter ∨ v.role = .receiver ∧ (g.env e).isValue = true)

/-- What environment `e` is before its fields are set. -/
def Graph.newborn (g : Graph) (e : EnvId) (type : String) : Expr :=
  if (g.env e).isValue then .zero {} type else .newEnv {} type

/-- The statements with which environment `e` of type `t` begins once it is in `holder`: its parent
link is set, and then it is given what its variables already hold, one after the other. -/
structure Graph.Founds (g : Graph) (d : Declarations) (view : View) (e : EnvId) (t : EnvType)
    (holder : Variable) (parent stores : List Stmt) : Prop where
  unlinked : t.link = none → parent = []
  linked : ∀ link, t.link = some link → ∃ x, parent = [LoweringContext.store holder link x] ∧
    x.Denotes g d view (g.parentReferent e)
  stores : List.Forall₂ (fun v s => ∃ f x, t.field? v = some f ∧
    s = LoweringContext.store holder f x ∧ g.Stored d view v x) (g.initial e) stores

/-- Dropping the elements for which there is nothing. -/
theorem forall₂_flatten {α β : Type} {R : α → β → Prop} {p : α → Bool} {l : List α}
    {bss : List (List β)}
    (h : List.Forall₂ (fun a bs => p a = false ∧ bs = [] ∨ p a = true ∧ ∃ b, bs = [b] ∧ R a b)
      l bss) :
    List.Forall₂ R (l.filter p) bss.flatten := by
  induction h with
  | nil => exact .nil
  | cons hab _ ih =>
    obtain ⟨hp, rfl⟩ | ⟨hp, b, rfl, hb⟩ := hab
    · rwa [List.filter_cons_of_neg (by simp [hp])]
    · rw [List.filter_cons_of_pos hp]
      exact .cons hb ih

/-- The receiver has a field in a value only, any other variable everywhere. -/
theorem Graph.TypedAs.field_isSome {g : Graph} {method : Method} {t : EnvType}
    (ht : g.TypedAs method t) {v : Variable} (hv : v ∈ (g.env t.env).vars) :
    (t.field? v).isSome = true ↔ (v.role = .receiver → (g.env t.env).isValue = true) := by
  rw [ht.field_eq hv, hoistedField?.eq_def, Environment.isValue, ← ht.kind]
  by_cases hr : v.role = .receiver
  · rw [if_pos (by simp [Variable.isReceiver, hr])]
    cases t.kind <;> simp [hr]
  · rw [if_neg (by simp [Variable.isReceiver, hr])]
    simp [hr]

namespace LoweringContext.Suits

variable (hs : ctx.Suits m) {t : EnvType} {holder : Variable} {names : Names}

include hs

theorem storeParent_denotes {parent : List Stmt}
    (h : ctx.storeParent site e t holder = .ok parent) : (t.link = none → parent = []) ∧
      ∀ link, t.link = some link → ∃ x, parent = [store holder link x] ∧
        x.Denotes ctx.graph ctx.declarations site.view (ctx.graph.parentReferent e) := by
  obtain ⟨hnone, rfl⟩ | ⟨link, x, hl, rfl, hx⟩ := storeParent_inv h
  · exact ⟨fun _ => rfl, fun link hl => (nomatch hnone.symm.trans hl)⟩
  · refine ⟨fun hnone => (nomatch hl.symm.trans hnone), fun link' hl' => ?_⟩
    obtain rfl : link = link' := Option.some.inj (hl.symm.trans hl')
    refine ⟨x, rfl, ?_⟩
    obtain ⟨p, hp, hx⟩ | ⟨hp, hx⟩ := hx
    · rw [Graph.parentReferent, hp]
      exact envRef_denotes hx
    · rw [Graph.parentReferent, hp]
      exact hs.receiverRef_denotes hx

/-- The order of the hoisted variables is that of their declarations. -/
theorem initial_eq (he : e < ctx.graph.envs.size) : ctx.graph.initial e =
    (ctx.graph.env e).vars.toList.filter fun v =>
      v.role = .parameter ∨ v.role = .receiver ∧ (ctx.graph.env e).isValue = true := by
  have hvars := hs.seated.placed.vars e he
  have hmem (v : Variable) : v ∈ (ctx.graph.env e).vars ↔
      v ∈ ctx.graph.hoistedVariables (ctx.graph.env e).scope := by
    rw [OrderedSet.mem_def, hvars]
  rw [hvars, Graph.hoistedVariables, List.filter_filter, Graph.initial]
  refine List.filter_congr fun v hv => ?_
  have hhoisted : v ∈ ctx.graph.hoistedVariables (ctx.graph.env e).scope ↔
      ctx.graph.closures.any (v ∈ ·.captured) = true := by
    rw [Graph.hoistedVariables, List.mem_filter, and_iff_right hv]
  simp only [hmem, hhoisted]
  grind

/-- What is written for the beginning of an environment founds it. -/
theorem createEnv_founds {created : List Stmt} {site' : Site} (hm : names.Made)
    (ht : ctx.declarations.typeOf? e = some t)
    (hcreate : ctx.createEnv site names.aliases e t holder = .ok (created, site')) :
    ∃ parent stores,
      created = .declare {} (some holder) (some (ctx.graph.newborn e holder.type)) ::
        (parent ++ stores) ∧
      ctx.graph.Founds ctx.declarations site.view e t holder parent stores := by
  obtain ⟨-, init, parent, stores, rfl, rfl, hparent, hstores⟩ := ctx.createEnv_inv hcreate
  obtain ⟨hunlinked, hlinked⟩ := hs.storeParent_denotes hparent
  refine ⟨parent, stores.flatten, rfl, hunlinked, hlinked, ?_⟩
  obtain ⟨hmem, rfl, htyped⟩ := hs.declared.typed.of_typeOf ht
  have hlt := (Graph.mem_liveEnvs.mp (hs.declared.typed.env_mem hmem)).1
  rw [hs.initial_eq hlt]
  have hall := (List.forall₂_and_left _ _).mpr ⟨fun v hv => hv, forall₂_of_mapM_ok hstores⟩
  refine forall₂_flatten (hall.imp ?_)
  rintro v ss ⟨hv, hstore⟩
  have hfield := htyped.field_isSome hv
  simp only [decide_eq_true_eq, decide_eq_false_iff_not]
  obtain ⟨rfl, hrole | hnone⟩ | ⟨f, x, hf, rfl, ⟨hr, hx⟩ | ⟨hr, rfl⟩⟩ := storeVariable_inv hstore
  · exact .inl ⟨by simp [hrole], rfl⟩
  · refine .inl ⟨?_, rfl⟩
    rw [hnone] at hfield
    grind
  · have hvalue := hfield.mp (by simp [hf]) hr
    exact .inr ⟨.inr ⟨hr, hvalue⟩, _, rfl, f, x, hf, rfl,
      .receiver hr (hs.receiverRef_denotes hx)⟩
  · exact .inr ⟨.inl hr, _, rfl, f, _, hf, rfl, .parameter hr (hm.standsFor v)⟩

/-- So begun, an environment is given all that its variables hold. -/
theorem creates {d : Declarations} {view : View} {parent stores : List Stmt}
    (ht : ctx.declarations.typeOf? e = some t)
    (h : ctx.graph.Founds d view e t holder parent stores) :
    ctx.graph.Creates d view e t holder parent stores := by
  obtain ⟨hmem, rfl, htyped⟩ := hs.declared.typed.of_typeOf ht
  have hlt := (Graph.mem_liveEnvs.mp (hs.declared.typed.env_mem hmem)).1
  refine ⟨h.unlinked, h.linked, fun s hmem => ?_, fun v hv hrole f hf => ?_⟩
  · obtain ⟨v, hv, hstore⟩ := (exists_mem_of_forall₂ h.stores).2 s hmem
    exact ⟨v, (of_decide_eq_true (List.mem_filter.mp hv).2).1, hstore⟩
  · have hinitial : v ∈ ctx.graph.initial t.env := by
      rw [hs.initial_eq hlt, List.mem_filter]
      have hvalue := (htyped.field_isSome hv).mp (by simp [hf])
      cases hr : v.role <;> simp_all [OrderedSet.mem_def]
    obtain ⟨s, hmem, f', x, hf', rfl, hx⟩ := (exists_mem_of_forall₂ h.stores).1 v hinitial
    obtain rfl := Option.some.inj (hf'.symm.trans hf)
    exact ⟨x, hmem, hx⟩

end LoweringContext.Suits

/-! ## References -/

/-- References, receivers and new environments, by what they denote. -/
def LoweringRules.referring (g : Graph) (d : Declarations) : LoweringRules where
  hoisted view e v x := ∃ t f y, d.typeOf? e = some t ∧ t.field? v = some f ∧ x = .field {} y f ∧
    y.Denotes g d view (.env e)
  receiver view x := x.Denotes g d view .receiver
  delegate _ _ _ := True
  call _ _ _ _ _ _ := True
  create view e holder stmts := ∃ t init parent stores, d.typeOf? e = some t ∧
    stmts = .declare {} (some holder) (some init) :: parent ++ stores ∧
    g.Creates d view e t holder parent stores

/-- The fields of a type belong to it, and are made for what they are found by. -/
structure EnvType.Fielded (t : EnvType) : Prop where
  owner : ∀ f ∈ t.fields, f.owner = t.name
  field : ∀ v f, t.field? v = some f → f ∈ t.fields ∧ f.id = .hoisted t.env v.id
  receiver : ∀ v f, v.role = .receiver → t.field? v = some f → f.name = "__this"
  link : ∀ f, t.link = some f → f ∈ t.fields ∧ f.id = .parent t.env

theorem Graph.TypedAs.fielded {g : Graph} {method : Method} {t : EnvType}
    (h : g.TypedAs method t) : t.Fielded where
  owner := h.owner
  field v f hf := ⟨h.mem_fields hf, (h.field_id hf).2⟩
  receiver v f hr hf := by
    have hfield := h.field_eq (h.field_id hf).1
    rw [hf, hoistedField?.eq_def, if_pos (by simpa [Variable.isReceiver] using hr)] at hfield
    split at hfield
    · rw [Option.some.inj hfield]
    · cases hfield
  link f hf := ⟨h.link_mem f hf, h.link_id f hf⟩

theorem Expr.Denotes.of_types {d' : Declarations} {g : Graph} {view : View}
    (hd : d'.types = d.types) (h : x.Denotes g d view rf) : x.Denotes g d' view rf := by
  have htype (e : EnvId) : d'.typeOf? e = d.typeOf? e := by
    rw [Declarations.typeOf?, Declarations.typeOf?, hd]
  induction h with
  | created h => exact .created h
  | param h => exact .param h
  | host h => exact .host h
  | parent _ ht hl ih => exact .parent ih ((htype _).trans ht) hl
  | held _ ht hk hv hf ih => exact .held ih ((htype _).trans ht) hk hv hf
  | self h => exact .self h

theorem Graph.Stored.of_types {d' : Declarations} {g : Graph} {view : View} {v : Variable}
    (hd : d'.types = d.types) (h : g.Stored d view v x) : g.Stored d' view v x := by
  cases h with
  | receiver hr hx => exact .receiver hr (hx.of_types hd)
  | parameter hr hw => exact .parameter hr hw

theorem Graph.Founds.of_types {g : Graph} {d d' : Declarations} {view : View} {e : EnvId}
    {t : EnvType} {holder : Variable} {parent stores : List Stmt} (hd : d'.types = d.types)
    (h : g.Founds d view e t holder parent stores) : g.Founds d' view e t holder parent stores := by
  refine ⟨h.unlinked, fun link hl => ?_, h.stores.imp ?_⟩
  · obtain ⟨x, hx, hdenotes⟩ := h.linked link hl
    exact ⟨x, hx, hdenotes.of_types hd⟩
  · rintro v s ⟨f, x, hf, rfl, hx⟩
    exact ⟨f, x, hf, rfl, hx.of_types hd⟩

namespace LoweredBody.Written

variable {r : LoweredBody} (h : r.Written ctx m)

include h

theorem typeOf_eq (e : EnvId) : r.declarations.typeOf? e = ctx.declarations.typeOf? e := by
  rw [Declarations.typeOf?, Declarations.typeOf?, h.types]

theorem keeps_referring :
    ctx.Keeps m r.declarations (.referring ctx.graph r.declarations) where
  methods := h.methodOf_eq
  hoisted _ he hx := by
    obtain ⟨t, f, y, ht, hf, rfl, hy⟩ := LoweringContext.Suits.variableRef_denotes he hx
    exact ⟨t, f, y, (h.typeOf_eq _).trans ht, hf, rfl, hy.of_types h.types⟩
  receiver _ hx := (h.suits.receiverRef_denotes hx).of_types h.types
  lambda _ _ _ _ _ := trivial
  functionRef _ _ _ _ _ := trivial
  call _ _ _ _ _ := trivial
  create _ hm _ ht _ hc := by
    obtain ⟨parent, stores, rfl, hfounds⟩ := h.suits.createEnv_founds hm ht hc
    exact ⟨_, _, parent, stores, (h.typeOf_eq _).trans ht, rfl,
      h.suits.creates ht (hfounds.of_types h.types)⟩

end LoweredBody.Written

/-- Whatever body is converted, hoisted variables become the fields of their environments, read from
expressions that denote these, receivers become expressions that denote the receiver, and the parent
link of a new environment is set to what it has to lead to. -/
theorem MethodBody.run_denotes {o : ConversionSettings} {r : LoweredBody}
    (h : (Conversion.run o m).outcome = .ok r) : ∃ method, m.method = some method ∧
      r.LowersBy ⟨(Conversion.run o m).graph, r.declarations, method⟩ m
        (.referring (Conversion.run o m).graph r.declarations) ∧
      ∀ t ∈ r.declarations.types, t.Fielded := by
  obtain ⟨ctx, hgraph, hwritten, -⟩ := LoweredBody.written_of_run h
  rw [← hgraph]
  refine ⟨ctx.method, hwritten.suits.method, hwritten.lowersBy hwritten.keeps_referring, ?_⟩
  intro t ht
  rw [hwritten.types] at ht
  exact (hwritten.suits.declared.typed.typedAs t ht).fielded

namespace Tally

/-- The receiver of `Total`. -/
def account : Variable := ⟨.given 0, .receiver, "this", "Account", false⟩

def first : Variable := ⟨.given 1, .parameter, "first", "int", false⟩

def sum : Variable := ⟨.given 2, .declared, "sum", "int", false⟩

def amount : Variable := ⟨.given 3, .parameter, "amount", "int", false⟩

def add : NestedFunction :=
  { id := 0, form := .localFunction, name := "add", returnType := "int", params := [some amount] }

/-- `Total` adds to a sum in a local function that is only called, so that the sum stays on the
stack. -/
def total : MethodBody where
  method := some
    { id := .given 0, name := "Total", owner := "Account", params := [some first]
      returnType := "int" }
  receiver := some account
  block := some (.mk 0 {}
    [.declare {} (some sum) (some (.ref {} (some first))),
      .localFunction {} (some add) (.mk 0 {}
        [.expr {} (.assign {} (.ref {} (some sum)) (.binary {} "+" (.self {} "Account")
          (.binary {} "+" (.ref {} (some sum)) (.ref {} (some amount)))))]),
      .expr {} (.localCall {} add [.literal {} "1" "int"]),
      .ret {} (some (.ref {} (some sum)))])

/-- `Total` is converted. -/
theorem run_total : ∃ r, (Conversion.run {} total).outcome = .ok r :=
  exists_of_isOk (by decide +kernel)

end Tally

open Tally in
/-- `Total` reaches the sum and the receiver through a value. -/
theorem MethodBody.denotes_total : ∃ r, (Conversion.run {} total).outcome = .ok r ∧
    ∃ method, total.method = some method ∧
      r.LowersBy ⟨(Conversion.run {} total).graph, r.declarations, method⟩ total
        (.referring (Conversion.run {} total).graph r.declarations) ∧
      ∀ t ∈ r.declarations.types, t.Fielded := by
  obtain ⟨r, hr⟩ := run_total
  exact ⟨r, hr, run_denotes hr⟩

/-! ## Calls -/

/-- The receiver of the method of a closure: a static method has none, a method on an environment
type has that environment, and any other one has the receiver of the converted method. -/
structure LoweredMethod.ReceivedBy (lm : LoweredMethod) (g : Graph) (d : Declarations) (view : View)
    (r : Option Expr) : Prop where
  isStatic : r = none ↔ lm.symbol.isStatic = true
  host : ∀ e, (g.closure lm.closure).host = some e →
    ∃ x, r = some x ∧ x.Denotes g d view (.env e)
  receiver : (g.closure lm.closure).host = none →
    ∀ x, r = some x → x.Denotes g d view .receiver

theorem LoweredMethod.ReceivedBy.exists_denotes {lm : LoweredMethod} {g : Graph} {view : View}
    (h : lm.ReceivedBy g d view (some x)) : ∃ rf, x.Denotes g d view rf := by
  cases hhost : (g.closure lm.closure).host with
  | none => exact ⟨_, h.receiver hhost x rfl⟩
  | some e =>
    obtain ⟨y, hy, hdenotes⟩ := h.host e hhost
    obtain rfl := Option.some.inj hy
    exact ⟨_, hdenotes⟩

/-- The scope of environment `a` is deeper than that of `b`, or they are equally deep and `a` has
the smaller number. -/
def Graph.Precedes (g : Graph) (a b : EnvId) : Prop :=
  (g.scope (g.env b).scope).depth < (g.scope (g.env a).scope).depth ∨
    (g.scope (g.env a).scope).depth = (g.scope (g.env b).scope).depth ∧ a < b

/-- The method of a closure takes, after the parameters of its function, the live values that the
closure captures from. -/
structure LoweredMethod.Takes (lm : LoweredMethod) (g : Graph) : Prop where
  envs : ∀ e, e ∈ lm.envParams.map (·.1) ↔ e < g.envs.size ∧ (g.env e).removed = false ∧
    (g.env e).isValue = true ∧ ∃ v ∈ (g.env e).vars, v ∈ (g.closure lm.closure).captured
  sorted : (lm.envParams.map (·.1)).Pairwise g.Precedes
  params : ∃ own, own.length = (g.closure lm.closure).function.params.length ∧
    lm.symbol.params = own ++ lm.envParams.map (some ·.2)

/-- Values are taken from the deepest scopes first. -/
theorem Graph.pairwise_valueEnvsOf (g : Graph) (cl : Closure) :
    (g.valueEnvsOf cl).Pairwise g.Precedes := by
  have hsorted : (g.valueEnvsOf cl).Pairwise fun a b =>
      (decide ((g.scope (g.env b).scope).depth < (g.scope (g.env a).scope).depth) ||
        decide ((g.scope (g.env a).scope).depth = (g.scope (g.env b).scope).depth) &&
          decide (a ≤ b)) = true :=
    List.pairwise_mergeSort (by grind) (by grind) _
  refine (hsorted.and (g.nodup_valueEnvsOf cl)).imp fun {a b} hab => ?_
  simp only [Bool.or_eq_true, Bool.and_eq_true, decide_eq_true_eq] at hab
  rcases hab with ⟨hdepth | ⟨heq, hle⟩, hne⟩
  · exact .inl hdepth
  · exact .inr ⟨heq, lt_of_le_of_ne hle hne⟩

namespace LoweringContext.Suits

variable (hs : ctx.Suits m) {c : ClosureId} {lm : LoweredMethod}

include hs

theorem takes (hc : c < ctx.graph.closures.size) (hd : ctx.graph.DeclaredAs c lm) :
    lm.Takes ctx.graph := by
  obtain rfl := hd.closure
  constructor
  case envs =>
    intro e
    rw [hd.envParams, Graph.mem_valueEnvsOf, hs.seated.placed.closure_envs, Closure.readsAny_iff]
    simp only [OrderedSet.mem_def]
    grind
  case sorted =>
    rw [hd.envParams]
    exact ctx.graph.pairwise_valueEnvsOf _
  case params =>
    obtain ⟨p, n, b, -, -, hlays⟩ := hs.seated.exact.holds.site_of_closure hc
    refine ⟨(lm.copies.reverse.map (·.2)).map some, ?_, ?_⟩
    · have hlen := congrArg List.length hd.copies
      have hparams := congrArg List.length hlays.params
      simp only [List.length_map] at hlen hparams ⊢
      omega
    · simp [hd.params]

/-- The receiver that is written for the method of a closure is the one it has. -/
theorem callReceiver_receivedBy {r : Option Expr} (hd : ctx.graph.DeclaredAs c lm)
    (h : ctx.callReceiver site lm = .ok r) :
    lm.ReceivedBy ctx.graph ctx.declarations site.view r := by
  have hhost := hd.host
  have hstatic := hd.isStatic
  rw [← hd.closure] at hhost hstatic
  rw [callReceiver] at h
  split at h
  · rename_i e he
    obtain ⟨x, hx, rfl⟩ := exists_of_map_ok h
    rw [he] at hhost
    refine ⟨?_, fun e' he' => ?_, fun hnone => ?_⟩
    · rw [hstatic, ← hhost]
      simp
    · obtain rfl : e = e' := Option.some.inj (hhost.trans he')
      exact ⟨x, rfl, envRef_denotes hx⟩
    · cases hhost.trans hnone
  · rename_i he
    rw [he] at hhost
    split at h
    · rename_i hs
      obtain rfl := Except.ok.inj h
      exact ⟨by simp [hs], fun e he => (by cases hhost.trans he), fun _ _ hy => by cases hy⟩
    · rename_i hs
      obtain ⟨x, hx, rfl⟩ := exists_of_map_ok h
      refine ⟨by simp [hs], fun e he => (by cases hhost.trans he), fun _ y hy => ?_⟩
      obtain rfl := Option.some.inj hy
      exact Suits.receiverRef_denotes ‹_› hx

end LoweringContext.Suits

theorem LoweredMethod.ReceivedBy.of_types {d' : Declarations} {g : Graph} {view : View}
    {lm : LoweredMethod} {r : Option Expr} (hd : d'.types = d.types)
    (h : lm.ReceivedBy g d view r) : lm.ReceivedBy g d' view r := by
  refine ⟨h.isStatic, fun e he => ?_, fun hnone x hx => (h.receiver hnone x hx).of_types hd⟩
  obtain ⟨x, hx, hdenotes⟩ := h.host e he
  exact ⟨x, hx, hdenotes.of_types hd⟩

namespace LoweredBody.Written

variable {r : LoweredBody} (h : r.Written ctx m) {c : ClosureId} {lm : LoweredMethod}

include h

/-- A method of the result is as it was declared, with its body. -/
theorem declaredAs (hlm : r.declarations.methodOf? c = some lm) : c < ctx.graph.closures.size ∧
    ∃ lm₀ b, ctx.graph.DeclaredAs c lm₀ ∧ lm = { lm₀ with body := some b } := by
  have hc : c < ctx.graph.closures.size := by
    rw [← h.length]
    exact (List.getElem?_eq_some_iff.mp hlm).1
  obtain ⟨lm₀, b, hlm₀, -, hmethod⟩ := h.methods c hc
  exact ⟨hc, lm₀, b, h.suits.declared.declared c lm₀ hlm₀, Option.some.inj (hlm.symm.trans hmethod)⟩

theorem takes_of_methodOf (hlm : r.declarations.methodOf? c = some lm) :
    lm.closure = c ∧ lm.Takes ctx.graph := by
  obtain ⟨hc, lm₀, b, hd, rfl⟩ := h.declaredAs hlm
  have htakes := h.suits.takes hc hd
  exact ⟨hd.closure, htakes.envs, htakes.sorted, htakes.params⟩

/-- The method of a function that is used as a value takes no environments. -/
theorem envParams_eq_nil (hlm : r.declarations.methodOf? c = some lm)
    (htakes : (ctx.graph.closure c).takesReferences = false) : lm.envParams = [] := by
  obtain ⟨-, lm₀, b, hd, rfl⟩ := h.declaredAs hlm
  by_contra hne
  rw [hd.takesReferences hne] at htakes
  exact nomatch htakes

theorem receivedBy {receiver : Option Expr} (hlm : r.declarations.methodOf? c = some lm)
    (hr : ctx.callReceiver site lm = .ok receiver) :
    lm.ReceivedBy ctx.graph r.declarations site.view receiver := by
  obtain ⟨-, lm₀, b, hd, rfl⟩ := h.declaredAs hlm
  have hreceived := (h.suits.callReceiver_receivedBy hd hr).of_types h.types
  exact ⟨hreceived.isStatic, hreceived.host, hreceived.receiver⟩

end LoweredBody.Written

end Unnest
