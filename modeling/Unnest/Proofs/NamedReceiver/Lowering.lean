import Unnest.Proofs.Lowered.Rules
import Unnest.Proofs.Lowered.Sound
import Unnest.Proofs.NamedReceiver.Analysis

/-!
# Lowering a body that calls the receiver by name

Declarations are made from the graph alone, and so are the ways from a frame to its environments.
Where a body and one that names the receiver are lowered side by side, they differ at the names
only: there the one walk looks for the receiver and the other for a variable. As long as the
variable can be reached wherever the receiver can, the second walk succeeds if the first one does.

## Main definitions

* `LoweringContext.refill` : a context with other statements in its graph.
* `LoweringContext.Admits` : the receiver can be named wherever it can be reached.
* `Lower.Leads` : if the first of two computations succeeds, the second one keeps in step.

## Main statements

* `DeclarationDraft.declareAll_refill`, `Declarations.defect_refill` : declarations do not depend on
  statements.
* `Expr.NamesSelf.lower`, `Stmt.NamesSelf.lower`, `Block.NamesSelf.lower` : the walk over a body
  leads the walk over one that names the receiver.
* `LoweringContext.Admits.lowerMethod` : so it does for a whole body.
* `Conversion.graph_namesSelf`, `Conversion.ok_of_namesSelf` : whole conversions in step.
-/

namespace Unnest

open LoweringContext Lower

variable {b : Option Block} {f : ScopeId → List Stmt}

/-! ## Declarations -/

namespace DeclarationDraft

/-- The draft for a graph with other statements. -/
def refill (s : DeclarationDraft) (b : Option Block) (f : ScopeId → List Stmt) :
    DeclarationDraft :=
  { s with graph := s.graph.refill b f }

variable {s : DeclarationDraft}

theorem declareOn_refill (m : Method) (c : ClosureId) (host : Option EnvType) :
    (s.refill b f).declareOn m c host =
      ((s.declareOn m c host).1.refill b f, (s.declareOn m c host).2) := by
  have henvs (cl : Closure) : (s.graph.refill b f).valueEnvsOf cl = s.graph.valueEnvsOf cl := by
    simp only [Graph.valueEnvsOf, Graph.env_refill, Graph.scope_refill, Scope.refill_depth]
  simp only [declareOn, refill, henvs, Graph.closure_refill, Graph.modifyClosure_refill,
    Graph.bodyLoc_refill, Graph.receiverEnv_refill]
  split_ifs <;> rfl

theorem declareMethods_refill (m : Method) (cs : List ClosureId) :
    declareMethods m cs (s.refill b f) =
      ((declareMethods m cs s).1.refill b f, (declareMethods m cs s).2) := by
  have hone (s : DeclarationDraft) (c : ClosureId) : (s.refill b f).declareMethod m c =
      ((s.declareMethod m c).1.refill b f, (s.declareMethod m c).2) := by
    simp only [declareMethod, declareOn_refill]
    simp only [refill, Graph.closure_refill]
    split
    · rfl
    · split <;> rfl
  induction cs generalizing s with
  | nil => rfl
  | cons c cs ih =>
    rw [declareMethods, declareMethods, hone]
    rcases s.declareMethod m c with ⟨s₁, _ | failure⟩
    · exact ih
    · rfl

theorem declareAll_refill : (s.refill b f).declareAll =
    (s.declareAll.1.refill b f, s.declareAll.2) := by
  have htypes (m : Method) : (s.graph.refill b f).envTypes m = s.graph.envTypes m := by
    have hlink : (s.graph.refill b f).withLink m = s.graph.withLink m := by
      funext d t
      simp only [Graph.withLink, Graph.linkField, Graph.env_refill, Graph.runtimeParent_refill]
    rw [Graph.envTypes, hlink]
    rfl
  have hmethods (m : Method) := declareMethods_refill (b := b) (f := f)
    (s := { s with declarations := { types := s.graph.envTypes m } }) m
    (List.range s.graph.closures.size)
  simp only [declareAll, refill, Graph.method_refill, htypes] at hmethods ⊢
  split_ifs with hempty
  · cases s.graph.body.method with
    | none => rfl
    | some m =>
      simp only [Graph.closures_refill, hmethods]
      rcases declareMethods m (List.range s.graph.closures.size)
        { s with declarations := { types := s.graph.envTypes m } } with ⟨s₁, _ | failure⟩ <;> rfl
  · rfl

end DeclarationDraft

theorem Declarations.defect_refill (d : Declarations) (g : Graph) :
    d.defect? (g.refill b f) = d.defect? g := by
  have henv : d.envDefect? (g.refill b f) = d.envDefect? g := by
    funext e
    simp only [envDefect?, Graph.env_refill, Graph.declaringScope_refill]
  simp only [defect?, henv]
  rfl

/-! ## Ways -/

namespace LoweringContext

/-- The context with other statements in its graph. -/
def refill (ctx : LoweringContext) (b : Option Block) (f : ScopeId → List Stmt) :
    LoweringContext :=
  { ctx with graph := ctx.graph.refill b f }

variable {ctx : LoweringContext}

@[simp] theorem graph_refill : (ctx.refill b f).graph = ctx.graph.refill b f := rfl

@[simp] theorem declarations_refill : (ctx.refill b f).declarations = ctx.declarations := rfl

@[simp] theorem spell_refill : (ctx.refill b f).spell = ctx.spell := rfl

@[simp] theorem typeArgs_refill : (ctx.refill b f).typeArgs = ctx.typeArgs := rfl

@[simp] theorem methodSite_refill : (ctx.refill b f).methodSite = ctx.methodSite := rfl

theorem linkPath_refill (host : EnvType) (target : EnvId) (fuel : Nat) (e : EnvId) (way : Expr) :
    (ctx.refill b f).linkPath host target fuel e way = ctx.linkPath host target fuel e way := by
  induction fuel generalizing e way with
  | zero => rfl
  | succ fuel ih =>
    rw [linkPath.eq_def, linkPath.eq_def ctx]
    simp only [declarations_refill, graph_refill, Graph.runtimeParent_refill]
    split
    · rfl
    · cases (ctx.declarations.typeOf? e).bind (·.link) with
      | none => rfl
      | some link =>
        cases ctx.graph.runtimeParent? e with
        | none => rfl
        | some parent => exact ih parent _

theorem receiverPath_refill (host : EnvType) (fuel : Nat) (e : EnvId) (way : Expr) :
    (ctx.refill b f).receiverPath host fuel e way = ctx.receiverPath host fuel e way := by
  induction fuel generalizing e way with
  | zero => rfl
  | succ fuel ih =>
    simp only [receiverPath, declarations_refill, graph_refill, Graph.runtimeParent_refill, ih]

@[simp] theorem envRef_refill : (ctx.refill b f).envRef = ctx.envRef := by
  funext site e
  simp only [envRef, graph_refill, Graph.env_refill, Graph.envs_refill, linkPath_refill]

@[simp] theorem receiverRef_refill : (ctx.refill b f).receiverRef = ctx.receiverRef := by
  funext site
  simp only [receiverRef, graph_refill, declarations_refill, Graph.receiver_refill,
    Graph.receiverEnv_refill, Graph.envs_refill, envRef_refill, receiverPath_refill]
  rfl

@[simp] theorem variableRef_refill : (ctx.refill b f).variableRef = ctx.variableRef := by
  funext site aliases v
  simp only [variableRef, graph_refill, declarations_refill, Graph.envOf_refill, envRef_refill]

@[simp] theorem callReceiver_refill : (ctx.refill b f).callReceiver = ctx.callReceiver := by
  funext site m
  simp only [callReceiver, envRef_refill, receiverRef_refill]

@[simp] theorem openScope_refill : (ctx.refill b f).openScope = ctx.openScope := by
  have hparent : (ctx.refill b f).storeParent = ctx.storeParent := by
    funext site e t holder
    simp only [storeParent, graph_refill, Graph.runtimeParent_refill, envRef_refill,
      receiverRef_refill]
  have hvariable : (ctx.refill b f).storeVariable = ctx.storeVariable := by
    funext site aliases t holder v
    simp only [storeVariable, receiverRef_refill]
  funext site s
  simp only [openScope, createEnv, graph_refill, declarations_refill, Graph.scope_refill,
    Scope.refill_env, Graph.env_refill, typeArgs_refill, hparent, hvariable]
  rfl

@[simp] theorem lowerRef_refill : (ctx.refill b f).lowerRef = ctx.lowerRef := by
  funext site v
  simp only [lowerRef, variableRef_refill]

@[simp] theorem lowerDelegate_refill : (ctx.refill b f).lowerDelegate = ctx.lowerDelegate := by
  funext site fn
  simp only [lowerDelegate, declarations_refill, callReceiver_refill]
  rfl

@[simp] theorem lowerDeclaration_refill :
    (ctx.refill b f).lowerDeclaration = ctx.lowerDeclaration := by
  funext site loc v init
  simp only [lowerDeclaration, graph_refill, Graph.envOf_refill, variableRef_refill, spell_refill]
  rfl

end LoweringContext

/-! ## Computations in step -/

/-- Two states of which one has a body wherever the other has one. -/
structure LoweringState.InStep (st st' : LoweringState) : Prop where
  supply : st'.supply = st.supply
  bodies : st'.bodies.map Option.isSome = st.bodies.map Option.isSome
  aliases : st'.aliases = st.aliases
  failure : st'.failure = st.failure

theorem LoweringState.InStep.isSome_body {st st' : LoweringState} (h : st.InStep st')
    (c : ClosureId) : (st'.bodies.getD c none).isSome = (st.bodies.getD c none).isSome := by
  have hget (bodies : Array (Option Block)) :
      (bodies.getD c none).isSome = (bodies.map Option.isSome).getD c false := by
    rw [Array.getD_eq_getD_getElem?, Array.getD_eq_getD_getElem?, Array.getElem?_map]
    cases bodies[c]? <;> rfl
  rw [hget, h.bodies, hget]

/-- Two results of which one is there if the other is. -/
abbrev Alike {α : Type} (o o' : Option α) : Prop := o'.isSome = o.isSome

section Alike

variable {α β γ δ : Type} {o o' : Option α} {p p' : Option β} {q q' : Option γ}

theorem Alike.map (h : Alike o o') (k k' : α → β) : Alike (o.map k) (o'.map k') := by
  rw [Alike, Option.isSome_map, Option.isSome_map, h]

theorem Alike.seq {k k' : Option (α → β)} (hk : Alike k k') (h : Alike o o') :
    Alike (k <*> o) (k' <*> o') := by
  have hseq (k : Option (α → β)) (o : Option α) : (k <*> o).isSome = (k.isSome && o.isSome) := by
    cases k <;> cases o <;> rfl
  rw [Alike, hseq, hseq, hk, h]

theorem Alike.bind₃ (h : Alike o o') (hp : Alike p p') (hq : Alike q q') (k k' : α → β → γ → δ) :
    Alike (do return k (← o) (← p) (← q)) (do return k' (← o') (← p') (← q')) := by
  have hbind (o : Option α) (p : Option β) (q : Option γ) (k : α → β → γ → δ) :
      (do return k (← o) (← p) (← q) : Option δ).isSome =
        (o.isSome && p.isSome && q.isSome) := by
    cases o <;> cases p <;> cases q <;> rfl
  rw [Alike, hbind, hbind, h, hp, hq]

end Alike

namespace Lower

variable {α β : Type} {P Q : Prop} {R : α → α → Prop} {S : β → β → Prop}

/-- If `P` holds and `x` does not fail, then `x'` does not fail either, and the two keep in step. A
failure that is there before `x` is there after it. -/
structure Leads (P : Prop) (R : α → α → Prop) (x x' : Lower α) : Prop where
  sticky : ∀ st, (x st).2.failure = none → st.failure = none
  follows : P → ∀ st st', st.InStep st' → (x st).2.failure = none →
    R (x st).1 (x' st').1 ∧ (x st).2.InStep (x' st').2

namespace Leads

theorem mono {x x' : Lower α} (h : Leads P R x x') (hQ : Q → P) : Leads Q R x x' :=
  ⟨h.sticky, fun hq => h.follows (hQ hq)⟩

theorem pure {a a' : α} (h : P → R a a') : Leads P R (Pure.pure a) (Pure.pure a') :=
  ⟨fun _ => id, fun hp _ _ hst _ => ⟨h hp, hst⟩⟩

theorem bind {x x' : Lower α} (hx : Leads P R x x') {k k' : α → Lower β}
    (hk : ∀ a a', Leads (P ∧ R a a') S (k a) (k' a')) : Leads P S (x >>= k) (x' >>= k') where
  sticky st hst := hx.sticky st ((hk _ (x st).1).sticky _ hst)
  follows hp st st' h hst := by
    obtain ⟨hR, hstep⟩ := hx.follows hp st st' h ((hk _ (x st).1).sticky _ hst)
    exact (hk _ _).follows ⟨hp, hR⟩ _ _ hstep hst

/-- After a step with one result for both, both go on with it. -/
theorem bind_eq {x x' : Lower α} {Q : α → Prop} (hx : Leads P (fun a a' => a' = a ∧ Q a) x x')
    {k k' : α → Lower β} (hk : ∀ a, Leads (P ∧ Q a) S (k a) (k' a)) :
    Leads P S (x >>= k) (x' >>= k') where
  sticky st hst := hx.sticky st ((hk _).sticky _ hst)
  follows hp st st' h hst := by
    obtain ⟨⟨heq, hQ⟩, hstep⟩ := hx.follows hp st st' h ((hk _).sticky _ hst)
    have hnext := (hk _).follows ⟨hp, hQ⟩ _ _ hstep hst
    change S (k (x st).1 (x st).2).1 (k' (x' st').1 (x' st').2).1 ∧
      (k (x st).1 (x st).2).2.InStep (k' (x' st').1 (x' st').2).2
    rwa [heq]

/-- Both computations go on with a result, or neither does. -/
theorem bind_alike {x x' : Lower (Option α)} (hx : Leads P Alike x x')
    {k k' : Option α → Lower β} (hnone : Leads P S (k none) (k' none))
    (hsome : ∀ a a', Leads P S (k (some a)) (k' (some a'))) :
    Leads P S (x >>= k) (x' >>= k') := by
  refine hx.bind fun o o' => ?_
  cases o <;> cases o'
  · exact hnone.mono And.left
  · exact ⟨hnone.sticky, fun hp => absurd hp.2 (by simp [Alike])⟩
  · rename_i a
    exact ⟨(hsome a a).sticky, fun hp => absurd hp.2 (by simp [Alike])⟩
  · exact (hsome _ _).mono And.left

theorem get : Leads P LoweringState.InStep MonadState.get MonadState.get :=
  ⟨fun _ => id, fun _ _ _ hst _ => ⟨hst, hst⟩⟩

theorem update {k k' : LoweringState → LoweringState} (hf : ∀ st, (k st).failure = st.failure)
    (h : P → ∀ st st', st.InStep st' → (k st).InStep (k' st')) :
    Leads P (fun _ _ => True) (modify k : Lower Unit) (modify k') :=
  ⟨fun st hst => (hf st).symm.trans hst, fun hp st st' hst _ => ⟨trivial, h hp st st' hst⟩⟩

/-- A computation that always fails leads any other. -/
theorem of_fails {x x' : Lower α} (h : ∀ st, (x st).2.failure ≠ none) : Leads P R x x' :=
  ⟨fun st hst => absurd hst (h st), fun _ st _ _ hst => absurd hst (h st)⟩

theorem record (site : Site) (cause : Cause) {R : Unit → Unit → Prop} {x' : Lower Unit} :
    Leads P R (record site cause) x' :=
  of_fails fun _ => record_inv rfl

theorem fail (site : Site) (cause : Cause) {R : Option α → Option α → Prop}
    {x' : Lower (Option α)} : Leads P R (fail site cause) x' :=
  of_fails fun _ => fail_inv (α := α) rfl

theorem attempt (site : Site) {x x' : Except Cause α}
    (h : P → ∀ a, x = .ok a → ∃ a', x' = .ok a') :
    Leads P Alike (attempt site x) (attempt site x') := by
  cases x with
  | error cause => exact fail site cause
  | ok a =>
    refine ⟨fun _ => id, fun hp st st' hst _ => ?_⟩
    obtain ⟨a', rfl⟩ := h hp a rfl
    exact ⟨rfl, hst⟩

theorem attempt_eq (site : Site) {x x' : Except Cause α} {Q : Option α → Prop} (hx : P → x' = x)
    (h : P → ∀ a, x = .ok a → Q (some a)) :
    Leads P (fun a a' => a' = a ∧ Q a) (Lower.attempt site x) (Lower.attempt site x') := by
  cases x with
  | error cause => exact fail site cause
  | ok a =>
    refine ⟨fun _ => id, fun hp st st' hst _ => ?_⟩
    obtain rfl := hx hp
    exact ⟨⟨rfl, h hp a rfl⟩, hst⟩

/-- Both computations are skipped after a failure, or neither is. -/
theorem unlessFailed {R : Option α → Option α → Prop} {x x' : Lower (Option α)}
    (h : Leads P R x x') :
    Leads P R (do if ← failed then return none else x)
      (do if ← failed then return none else x') := by
  have hrun (x : Lower (Option α)) (st : LoweringState) :
      (do if ← failed then return none else x : Lower (Option α)) st =
        if st.failure.isSome then (none, st) else x st := by
    change (if st.failure.isSome then Pure.pure none else x : Lower (Option α)) st = _
    split <;> rfl
  refine ⟨fun st hst => ?_, fun hp st st' hst hnone => ?_⟩
  · rw [hrun] at hst
    split at hst
    · exact hst
    · exact h.sticky st hst
  · rw [hrun] at hnone ⊢
    rw [hrun, hst.failure]
    split at hnone
    · rename_i hfailed
      simp [show st.failure = none from hnone] at hfailed
    · rename_i hok
      rw [if_neg hok, if_neg hok]
      exact h.follows hp st st' hst hnone

theorem freshHolder (e : EnvId) (type : String) :
    Leads P (fun a a' => a' = a ∧ True) (freshHolder e type) (freshHolder e type) := by
  refine ⟨fun _ => id, fun _ st st' hst _ => ?_⟩
  change ((st'.supply.holder e type).1 = (st.supply.holder e type).1 ∧ True) ∧
    LoweringState.InStep { st with supply := (st.supply.holder e type).2 }
      { st' with supply := (st'.supply.holder e type).2 }
  rw [hst.supply]
  exact ⟨⟨rfl, trivial⟩, { hst with supply := rfl }⟩

theorem freshCopy (v : Variable) (type : String) :
    Leads P (fun _ _ => True) (freshCopy v type) (freshCopy v type) := by
  refine ⟨fun _ => id, fun _ st st' hst _ => ⟨trivial, ?_⟩⟩
  change LoweringState.InStep
    { st with
      supply := (st.supply.copy v .declared type).2
      aliases := (v, (st.supply.copy v .declared type).1) :: st.aliases }
    { st' with
      supply := (st'.supply.copy v .declared type).2
      aliases := (v, (st'.supply.copy v .declared type).1) :: st'.aliases }
  rw [hst.supply, hst.aliases]
  exact { hst with supply := rfl, aliases := rfl }

end Leads

end Lower

/-! ## Reaching the receiver by name -/

/-- Environment `e` is held here, or the receiver of the method is not at hand. -/
def View.Keeps (view : View) (e : EnvId) : Prop :=
  (view.locals.lookup e).isSome ∨
    view.frame.closure.isSome ∧ (view.frame.host.isSome ∨ view.frame.isStatic)

theorem View.Keeps.hold {view : View} {e : EnvId} (h : view.Keeps e) (e' : EnvId)
    (holder : Variable) : (view.hold e' holder).Keeps e := by
  refine h.imp_left fun hlocal => ?_
  rw [View.hold, List.lookup_cons]
  split
  · rfl
  · exact hlocal

theorem View.keeps_hold (view : View) (e : EnvId) (holder : Variable) :
    (view.hold e holder).Keeps e := by
  simp [View.Keeps, View.hold]

namespace LoweringContext

/-- The receiver is not at hand, or the environment that has it is. -/
def Nameable (ctx : LoweringContext) (site : Site) : Prop :=
  ∀ e, ctx.graph.receiverEnv? = some e → site.view.Keeps e

/-- Wherever the receiver can be reached, it can be reached as the variable `r`. -/
structure Admits (ctx : LoweringContext) (r : Variable) : Prop where
  receiver : ctx.graph.receiver = some r
  /-- The receiver is in no environment, or in a field of its own. -/
  field : ∀ e, ctx.graph.envOf? r = some e →
    ∃ t x, ctx.declarations.typeOf? e = some t ∧ t.field? r = some x
  root : ∀ e, ctx.graph.envOf? r = some e → (ctx.graph.scope Graph.root).env = some e
  methods : ∀ c lm loc, ctx.declarations.methodOf? c = some lm →
    ctx.Nameable (ctx.methodSite lm loc)

variable {ctx : LoweringContext} {site : Site} {r : Variable}

theorem Nameable.locate (h : ctx.Nameable site) (loc : Loc) : ctx.Nameable (site.locate loc) := by
  rwa [Nameable, Site.view_locate]

theorem Admits.variableRef_ok (h : ctx.Admits r) (hs : ctx.Nameable site) {x : Expr}
    (hx : ctx.receiverRef site = .ok x) (aliases : List (Variable × Variable)) :
    ∃ y, ctx.variableRef site aliases r = .ok y := by
  rw [variableRef]
  cases he : ctx.graph.envOf? r with
  | none => exact ⟨_, rfl⟩
  | some e =>
    obtain ⟨t, fld, ht, hfield⟩ := h.field e he
    have hreceiver : ctx.graph.receiverEnv? = some e := by
      rw [Graph.receiverEnv?, h.receiver, Option.bind_some, he]
    suffices henv : ∃ y, ctx.envRef site e = .ok y by
      obtain ⟨y, hy⟩ := henv
      exact ⟨_, by simp only [ht, Option.bind_some, hfield, hy]; rfl⟩
    rcases hs e hreceiver with hlocal | ⟨hclosure, hhost⟩
    · obtain ⟨holder, hholder⟩ := Option.isSome_iff_exists.mp hlocal
      exact ⟨_, by rw [envRef, show site.locals.lookup e = some holder from hholder]⟩
    · -- The receiver is read from its environment, so that one is reached.
      have hhand : (site.frame.closure.isNone ||
          site.frame.host.isNone && !site.frame.isStatic) = false := by
        rw [← Option.not_isSome, ← Option.not_isSome, show site.frame.closure.isSome from hclosure]
        rcases hhost with hhost | hhost
        · simp [show site.frame.host.isSome from hhost]
        · simp [show site.frame.isStatic from hhost]
      cases henv : ctx.envRef site e with
      | ok y => exact ⟨y, rfl⟩
      | error cause =>
        simp only [receiverRef, h.receiver, hhand, hreceiver, ht, henv] at hx
        cases hlink : (if t.isValue then t.field? r else t.link) with
        | none =>
          simp only [hlink] at hx
          cases hx
        | some link =>
          simp only [hlink] at hx
          cases hx

/-! ## Steps -/

variable {P : Prop}

theorem openScope_leads (s : ScopeId) (hs : P → ∀ e, ctx.graph.receiverEnv? = some e →
    (ctx.graph.scope s).env = some e ∨ site.view.Keeps e) :
    Leads P (fun a a' => a' = a ∧ ∀ created site', a = some (created, site') → ctx.Nameable site')
      (ctx.openScope site s) (ctx.openScope site s) := by
  cases henv : (ctx.graph.scope s).env with
  | none =>
    simp only [openScope, henv]
    refine .pure fun hp => ⟨rfl, fun created site' heq e he => ?_⟩
    obtain ⟨-, rfl⟩ := Prod.mk.inj (Option.some.inj heq)
    exact (hs hp e he).resolve_left (by simp [henv])
  | some e =>
    cases ht : ctx.declarations.typeOf? e with
    | none =>
      simp only [openScope, henv, ht]
      exact .fail site _
    | some t =>
      simp only [openScope, henv, ht]
      refine (Leads.freshHolder e _).bind_eq fun holder => Leads.get.bind fun st st' => ?_
      refine .attempt_eq site (fun hp => by rw [hp.2.aliases]) fun hp x hx created site' heq => ?_
      intro i hi
      obtain rfl := Option.some.inj heq
      rw [(createEnv_inv hx).1]
      rcases hs hp.1.1 i hi with hscope | hkeeps
      · obtain rfl := Option.some.inj (henv.symm.trans hscope)
        exact site.view.keeps_hold e holder
      · exact hkeeps.hold e holder

theorem lowerRef_leads (v : Option Variable) :
    Leads P Alike (ctx.lowerRef site v) (ctx.lowerRef site v) := by
  cases v with
  | none => exact .pure fun _ => rfl
  | some v =>
    exact Leads.get.bind fun st st' => .attempt site fun hp a ha => ⟨a, by rw [hp.2.aliases, ha]⟩

/-- The receiver leads its name. -/
theorem Admits.lowerRef_leads (h : ctx.Admits r) :
    Leads (ctx.Nameable site) Alike (attempt site (ctx.receiverRef site))
      (ctx.lowerRef site (some r)) := by
  have hleads (st' : LoweringState) : Leads (ctx.Nameable site) Alike
      (attempt site (ctx.receiverRef site))
      (attempt site (ctx.variableRef site st'.aliases r)) :=
    .attempt site fun hs _ hx => h.variableRef_ok hs hx st'.aliases
  exact ⟨(hleads {}).sticky, fun hs st st' => (hleads st').follows hs st st'⟩

theorem lowerDelegate_leads (fn : Option NestedFunction) :
    Leads P Alike (ctx.lowerDelegate site fn) (ctx.lowerDelegate site fn) := by
  rw [lowerDelegate]
  cases (fn.bind ctx.graph.closureOf?).bind ctx.declarations.methodOf? with
  | none => exact .fail site _
  | some m =>
    exact (Leads.attempt site fun _ a ha => ⟨a, ha⟩).bind fun o o' =>
      .unlessFailed (.pure fun hp => hp.2.map _ _)

theorem lowerDeclaration_leads (loc : Loc) (v : Variable) {init init' : Option Expr}
    (hinit : Alike init init') :
    Leads P Alike (ctx.lowerDeclaration site loc v init)
      (ctx.lowerDeclaration site loc v init') := by
  cases henv : ctx.graph.envOf? v with
  | none =>
    simp only [lowerDeclaration, henv]
    split
    · exact .pure fun _ => rfl
    · exact (Leads.freshCopy v _).bind fun _ _ => .pure fun _ => rfl
  | some e =>
    cases init <;> cases init'
    · simp only [lowerDeclaration, henv]
      exact .pure fun _ => rfl
    · exact absurd hinit (by simp [Alike])
    · exact absurd hinit (by simp [Alike])
    · simp only [lowerDeclaration, henv]
      exact Leads.get.bind fun st st' =>
        (Leads.attempt site fun hp a ha => ⟨a, by rw [hp.2.aliases, ha]⟩).bind fun o o' =>
          .pure fun hp => hp.2.map _ _

variable {enter enter' : ClosureId → Loc → Lower Unit}

theorem lowerFunction_leads
    (henter : ∀ c loc, Leads True (fun _ _ => True) (enter c loc) (enter' c loc))
    (fn : Option NestedFunction) :
    Leads P (fun _ _ => True) (ctx.lowerFunction enter site fn)
      ((ctx.refill b f).lowerFunction enter' site fn) := by
  cases fn with
  | none => exact .record site _
  | some fn =>
    simp only [lowerFunction, Option.bind_some, graph_refill, Graph.closureOf_refill]
    cases ctx.graph.closureOf? fn with
    | none => exact .record site _
    | some c =>
      refine ⟨fun st hst => ?_, fun _ st st' hst hnone => ?_⟩
      · change ((if (st.bodies.getD c none).isSome then record site _
          else enter c site.loc : Lower Unit) st).2.failure = none at hst
        split at hst
        · exact absurd hst (record_inv rfl)
        · exact (henter c site.loc).sticky st hst
      · change ((if (st.bodies.getD c none).isSome then record site _
          else enter c site.loc : Lower Unit) st).2.failure = none at hnone
        change True ∧ ((if (st.bodies.getD c none).isSome then record site _
          else enter c site.loc : Lower Unit) st).2.InStep
            ((if (st'.bodies.getD c none).isSome then record site _
              else enter' c site.loc : Lower Unit) st').2
        rw [hst.isSome_body]
        split at hnone
        · exact absurd hnone (record_inv rfl)
        · rename_i htodo
          rw [if_neg htodo, if_neg htodo]
          exact (henter c site.loc).follows trivial st st' hst hnone

end LoweringContext

/-! ## Trees -/

section Walk

variable {ctx : LoweringContext} {r : Variable} {enter enter' : ClosureId → Loc → Lower Unit}

-- The walks part at a receiver that is named, where `Admits.variableRef_ok` brings them together.

mutual

theorem Expr.NamesSelf.lower (h : ctx.Admits r)
    (henter : ∀ c loc, Leads True (fun _ _ => True) (enter c loc) (enter' c loc)) :
    {e e' : Expr} → e.NamesSelf r e' → (site : Site) →
    Leads (ctx.Nameable site) Alike (e.lower ctx enter site) (e'.lower (ctx.refill b f) enter' site)
  | _, _, .named loc type, site => by
    rw [Expr.lower, Expr.lower, lowerRef_refill]
    exact (h.lowerRef_leads.mono fun hs => hs.locate loc).bind fun o o' =>
      .pure fun hp => hp.2.map _ _
  | _, _, .self loc type, site => by
    rw [Expr.lower, Expr.lower, receiverRef_refill]
    exact (Leads.attempt _ fun _ a ha => ⟨a, ha⟩).bind fun o o' => .pure fun hp => hp.2.map _ _
  | _, _, .literal .., _ | _, _, .newEnv .., _ | _, _, .zero .., _ => by
    rw [Expr.lower, Expr.lower]
    exact .pure fun _ => rfl
  | _, _, .ref loc v, site => by
    rw [Expr.lower, Expr.lower, lowerRef_refill]
    exact (lowerRef_leads v).bind fun o o' => .pure fun hp => hp.2.map _ _
  | _, _, .assign loc htarget hvalue, site => by
    rw [Expr.lower, Expr.lower]
    exact ((htarget.lower h henter _).mono fun hs => hs.locate loc).bind fun o o' =>
      ((hvalue.lower h henter _).mono fun hp => hp.1.locate loc).bind fun x x' =>
        .pure fun hp => (hp.1.2.map _ _).seq hp.2
  | _, _, .binary loc op hlhs hrhs, site => by
    rw [Expr.lower, Expr.lower]
    exact ((hlhs.lower h henter _).mono fun hs => hs.locate loc).bind fun o o' =>
      ((hrhs.lower h henter _).mono fun hp => hp.1.locate loc).bind fun x x' =>
        .pure fun hp => (hp.1.2.map _ _).seq hp.2
  | _, _, .lambda loc fn hb, site => by
    rw [Expr.lower, Expr.lower, lowerDelegate_refill]
    exact (lowerFunction_leads henter fn).bind fun _ _ => .unlessFailed
      ((lowerDelegate_leads fn).bind fun o o' => .pure fun hp => hp.2.map _ _)
  | _, _, .functionRef loc fn, site => by
    rw [Expr.lower, Expr.lower, lowerDelegate_refill]
    exact (lowerDelegate_leads fn).bind fun o o' => .pure fun hp => hp.2.map _ _
  | .localCall _ _ args, .localCall _ _ args', .localCall loc fn hargs, site => by
    have hall := Expr.NamesSelf.lowerAll h henter args args' hargs (site.locate loc)
    rw [Expr.lower, Expr.lower, graph_refill, Graph.closureOf_refill, declarations_refill]
    cases (ctx.graph.closureOf? fn).bind ctx.declarations.methodOf? with
    | none => exact .fail _ _
    | some m =>
      simp only [callReceiver_refill, envRef_refill]
      refine (Leads.attempt _ fun _ a ha => ⟨a, ha⟩).bind fun o o' => .unlessFailed ?_
      refine (hall.mono fun hp => hp.1.locate loc).bind fun x x' => ?_
      exact (Leads.attempt _ fun _ a ha => ⟨a, ha⟩).bind fun y y' =>
        .pure fun hp => hp.1.1.2.bind₃ hp.1.2 hp.2 _ _
  | .call _ _ _ args, .call _ _ _ args', .call loc method .none hargs, site => by
    rw [Expr.lower, Expr.lower]
    exact ((Expr.NamesSelf.lowerAll h henter args args' hargs _).mono fun hs => hs.locate loc).bind
      fun o o' => .pure fun hp => hp.2.map _ _
  | .call _ _ _ args, .call _ _ _ args', .call loc method (.some he) hargs, site => by
    rw [Expr.lower, Expr.lower]
    exact ((he.lower h henter _).mono fun hs => hs.locate loc).bind fun o o' =>
      ((Expr.NamesSelf.lowerAll h henter args args' hargs _).mono fun hp => hp.1.locate loc).bind
        fun x x' => .pure fun hp => ((hp.1.2.map some some).map _ _).seq hp.2
  | .invoke _ _ args, .invoke _ _ args', .invoke loc hcallee hargs, site => by
    rw [Expr.lower, Expr.lower]
    exact ((hcallee.lower h henter _).mono fun hs => hs.locate loc).bind fun o o' =>
      ((Expr.NamesSelf.lowerAll h henter args args' hargs _).mono fun hp => hp.1.locate loc).bind
        fun x x' => .pure fun hp => (hp.1.2.map _ _).seq hp.2
  | _, _, .field loc _ he, site => by
    rw [Expr.lower, Expr.lower]
    exact ((he.lower h henter _).mono fun hs => hs.locate loc).bind fun o o' =>
      .pure fun hp => hp.2.map _ _
  | _, _, .delegate _ _ .none, _ => by
    rw [Expr.lower, Expr.lower]
    exact .pure fun _ => rfl
  | _, _, .delegate loc _ (.some he), site => by
    rw [Expr.lower, Expr.lower]
    exact ((he.lower h henter _).mono fun hs => hs.locate loc).bind fun o o' =>
      .pure fun hp => hp.2.map _ _
termination_by structural e => e

theorem Expr.NamesSelf.lowerAll (h : ctx.Admits r)
    (henter : ∀ c loc, Leads True (fun _ _ => True) (enter c loc) (enter' c loc)) :
    (es es' : List Expr) → List.Forall₂ (Expr.NamesSelf r) es es' → (site : Site) →
    Leads (ctx.Nameable site) Alike (Expr.lowerAll ctx enter site es)
      (Expr.lowerAll (ctx.refill b f) enter' site es')
  | _, _, .nil, _ => by
    rw [Expr.lowerAll, Expr.lowerAll]
    exact .pure fun _ => rfl
  | _ :: es, _ :: es', .cons he hes, site => by
    rw [Expr.lowerAll, Expr.lowerAll]
    exact (he.lower h henter site).bind fun o o' =>
      ((Expr.NamesSelf.lowerAll h henter es es' hes site).mono And.left).bind fun x x' =>
        .pure fun hp => (hp.1.2.map _ _).seq hp.2
termination_by structural es => es

theorem Stmt.NamesSelf.lower (h : ctx.Admits r)
    (henter : ∀ c loc, Leads True (fun _ _ => True) (enter c loc) (enter' c loc)) :
    {s s' : Stmt} → s.NamesSelf r s' → (site : Site) →
    Leads (ctx.Nameable site) Alike (s.lower ctx enter site) (s'.lower (ctx.refill b f) enter' site)
  | .block b, _, .block hb, site => by
    rw [Stmt.lower, Stmt.lower, hb.loc_eq]
    exact ((hb.lower h henter _).mono fun hs => hs.locate b.loc).bind fun o o' =>
      .pure fun hp => hp.2.map _ _
  | _, _, .declare loc none .none, _ => .pure fun _ => rfl
  | _, _, .declare loc (some v) .none, site => by
    rw [Stmt.lower, Stmt.lower, lowerDeclaration_refill]
    exact lowerDeclaration_leads loc v rfl
  | _, _, .declare loc target (.some he), site => by
    rw [Stmt.lower, Stmt.lower, lowerDeclaration_refill]
    refine ((he.lower h henter _).mono fun hs => hs.locate loc).bind_alike ?_ fun x x' => ?_
    · exact .pure fun _ => rfl
    · cases target with
      | none => exact .pure fun _ => rfl
      | some v => exact lowerDeclaration_leads loc v rfl
  | _, _, .expr loc he, site => by
    rw [Stmt.lower, Stmt.lower]
    exact ((he.lower h henter _).mono fun hs => hs.locate loc).bind fun o o' =>
      .pure fun hp => hp.2.map _ _
  | _, _, .ret _ .none, _ => by
    rw [Stmt.lower, Stmt.lower]
    exact .pure fun _ => rfl
  | _, _, .ret loc (.some he), site => by
    rw [Stmt.lower, Stmt.lower]
    exact ((he.lower h henter _).mono fun hs => hs.locate loc).bind fun o o' =>
      .pure fun hp => hp.2.map _ _
  | _, _, .cond loc htest hb .none, site => by
    rw [Stmt.lower, Stmt.lower]
    exact ((htest.lower h henter _).mono fun hs => hs.locate loc).bind fun o o' =>
      ((hb.lower h henter _).mono fun hp => hp.1.locate loc).bind fun x x' =>
        .pure fun hp => ((hp.1.2.map _ _).seq hp.2).seq rfl
  | _, _, .cond loc htest hb (.some hx), site => by
    rw [Stmt.lower, Stmt.lower]
    exact ((htest.lower h henter _).mono fun hs => hs.locate loc).bind fun o o' =>
      ((hb.lower h henter _).mono fun hp => hp.1.locate loc).bind fun x x' =>
        ((hx.lower h henter _).mono fun hp => hp.1.1.locate loc).bind fun y y' =>
          .pure fun hp => ((hp.1.1.2.map _ _).seq hp.1.2).seq (hp.2.map some some)
  | _, _, .loop loc htest hb, site => by
    rw [Stmt.lower, Stmt.lower]
    exact ((htest.lower h henter _).mono fun hs => hs.locate loc).bind fun o o' =>
      ((hb.lower h henter _).mono fun hp => hp.1.locate loc).bind fun x x' =>
        .pure fun hp => (hp.1.2.map _ _).seq hp.2
  | _, _, .localFunction loc fn hb, site => by
    rw [Stmt.lower, Stmt.lower]
    exact (lowerFunction_leads henter fn).bind fun _ _ => .pure fun _ => rfl
termination_by structural s => s

theorem Stmt.NamesSelf.lowerAll (h : ctx.Admits r)
    (henter : ∀ c loc, Leads True (fun _ _ => True) (enter c loc) (enter' c loc)) :
    (ss ss' : List Stmt) → List.Forall₂ (Stmt.NamesSelf r) ss ss' → (site : Site) →
    Leads (ctx.Nameable site) Alike (Stmt.lowerAll ctx enter site ss)
      (Stmt.lowerAll (ctx.refill b f) enter' site ss')
  | _, _, .nil, _ => by
    rw [Stmt.lowerAll, Stmt.lowerAll]
    exact .pure fun _ => rfl
  | _ :: ss, _ :: ss', .cons hs hss, site => by
    rw [Stmt.lowerAll, Stmt.lowerAll]
    exact (hs.lower h henter site).bind fun o o' => .unlessFailed
      (((Stmt.NamesSelf.lowerAll h henter ss ss' hss site).mono And.left).bind fun x x' =>
        .pure fun hp => hp.2.map _ _)
termination_by structural ss => ss

theorem Block.NamesSelf.lower (h : ctx.Admits r)
    (henter : ∀ c loc, Leads True (fun _ _ => True) (enter c loc) (enter' c loc)) :
    {b₁ b₁' : Block} → b₁.NamesSelf r b₁' → (site : Site) →
    Leads (ctx.Nameable site) Alike (b₁.lower ctx enter site)
      (b₁'.lower (ctx.refill b f) enter' site)
  | .mk _ _ ss, .mk _ _ ss', .mk id loc hss, site => by
    rw [Block.lower, Block.lower, graph_refill, Graph.scopeOf_refill]
    cases ctx.graph.scopeOf? id with
    | none => exact .fail site _
    | some s =>
      simp only [openScope_refill]
      refine (openScope_leads s fun hs e he => .inr (hs e he)).bind_eq fun o => ?_
      rcases o with _ | ⟨created, site'⟩
      · exact .pure fun _ => rfl
      · exact ((Stmt.NamesSelf.lowerAll h henter ss ss' hss site').mono
          fun hp => hp.2 created site' rfl).bind fun x x' => .pure fun hp => hp.2.map _ _
termination_by structural b₁ => b₁

end

end Walk

/-! ## Methods -/

namespace LoweringContext.Admits

variable {ctx : LoweringContext} {r : Variable} {P : Prop} {site : Site} (h : ctx.Admits r)

include h

theorem lowerScope {enter enter' : ClosureId → Loc → Lower Unit}
    (henter : ∀ c loc, Leads True (fun _ _ => True) (enter c loc) (enter' c loc)) {s : ScopeId}
    (hs : P → ∀ e, ctx.graph.receiverEnv? = some e →
      (ctx.graph.scope s).env = some e ∨ site.view.Keeps e) {b₁ b₁' : Block}
    (hss : List.Forall₂ (Stmt.NamesSelf r) b₁.stmts b₁'.stmts) :
    Leads P Alike (ctx.lowerScope enter site s b₁)
      ((ctx.refill b f).lowerScope enter' site s b₁') := by
  rw [LoweringContext.lowerScope, LoweringContext.lowerScope, openScope_refill]
  refine (openScope_leads s hs).bind_eq fun o => ?_
  rcases o with _ | ⟨created, site'⟩
  · exact .pure fun _ => rfl
  · exact ((Stmt.NamesSelf.lowerAll h henter _ _ hss site').mono
      fun hp => hp.2 created site' rfl).bind fun x x' => .pure fun hp => hp.2.map _ _

theorem lowerClosure (hf : ∀ s, List.Forall₂ (Stmt.NamesSelf r) (ctx.graph.stmtsAt s) (f s))
    (depth : Nat) (c : ClosureId) (loc : Loc) :
    Leads True (fun _ _ => True) (ctx.lowerClosure depth c loc)
      ((ctx.refill b f).lowerClosure depth c loc) := by
  induction depth generalizing c loc with
  | zero => exact .pure fun _ => trivial
  | succ depth ih =>
    have hss := hf (ctx.graph.closure c).body
    rw [Graph.stmtsAt] at hss
    rw [LoweringContext.lowerClosure, LoweringContext.lowerClosure]
    simp only [declarations_refill, graph_refill, Graph.closure_refill, Graph.scope_refill,
      Scope.refill, methodSite_refill]
    cases hlm : ctx.declarations.methodOf? c with
    | none => exact .pure fun _ => trivial
    | some lm =>
      cases hblock : (ctx.graph.scope (ctx.graph.closure c).body).block with
      | none => exact .pure fun _ => trivial
      | some b₁ =>
        rw [hblock] at hss
        change List.Forall₂ (Stmt.NamesSelf r) b₁.stmts (b₁.refill _).stmts at hss
        refine Leads.get.bind fun st st' => ?_
        refine .bind (R := fun _ _ => True) ?_ fun _ _ => ?_
        · exact .update (fun _ => rfl) fun _ _ _ hst => { hst with aliases := rfl }
        refine (h.lowerScope ih (fun _ e he => .inr (h.methods c lm loc hlm e he)) hss).bind
          fun body body' => ?_
        refine .update (fun _ => rfl) fun hp st₁ st₁' hst => ?_
        refine { hst with aliases := hp.1.1.2.aliases, bodies := ?_ }
        rw [Array.map_setIfInBounds, Array.map_setIfInBounds, hst.bodies, hp.2]

theorem lowerMethod (hf : ∀ s, List.Forall₂ (Stmt.NamesSelf r) (ctx.graph.stmtsAt s) (f s))
    {b₁ b₁' : Block} (hb : b₁.NamesSelf r b₁') :
    Leads True Alike (ctx.lowerMethod b₁) ((ctx.refill b f).lowerMethod b₁') := by
  have hroot (e : EnvId) (he : ctx.graph.receiverEnv? = some e) :
      (ctx.graph.scope Graph.root).env = some e := by
    rw [Graph.receiverEnv?, h.receiver] at he
    exact h.root e he
  rw [LoweringContext.lowerMethod, LoweringContext.lowerMethod]
  refine (h.lowerScope (h.lowerClosure hf _) (fun _ e he => .inl (hroot e he)) hb.stmts).bind
    fun body body' => .unlessFailed (Leads.get.bind fun st st' => ?_)
  simp only [declarations_refill]
  refine ⟨fun st₁ hnone => ?_, fun hp st₁ st₁' hst hnone => ?_⟩
  · generalize ctx.declarations.methods.find? _ = found at hnone
    cases found with
    | none => exact hnone
    | some lm => exact absurd hnone (fail_inv (α := MethodBody) rfl)
  · have hfind : (fun lm : LoweredMethod => (st'.bodies.getD lm.closure none).isNone) =
        fun lm => (st.bodies.getD lm.closure none).isNone := by
      funext lm
      rw [← Option.not_isSome, ← Option.not_isSome, hp.2.isSome_body]
    rw [hfind]
    generalize ctx.declarations.methods.find? _ = found at hnone ⊢
    cases found with
    | none => exact ⟨rfl, hst⟩
    | some lm => exact absurd hnone (fail_inv (α := MethodBody) rfl)

end LoweringContext.Admits

/-! ## Conversions -/

/-- Drafts for graphs in step that are the same in all else. -/
structure DeclarationDraft.NamesSelf (r : Variable) (s s' : DeclarationDraft) : Prop where
  graph : s.graph.NamesSelf r s'.graph
  declarations : s'.declarations = s.declarations
  supply : s'.supply = s.supply

namespace DeclarationDraft

variable {r : Variable}

theorem declareAll_namesSelf {g g' : Graph} (h : g.NamesSelf r g') :
    (declareAll { graph := g }).1.NamesSelf r (declareAll { graph := g' }).1 ∧
      (declareAll { graph := g' }).2 = (declareAll { graph := g }).2 := by
  have hdeclare (g : Graph) (b : Option Block) (f : ScopeId → List Stmt) :
      declareAll { graph := g.refill b f } =
        ((declareAll { graph := g }).1.refill b f, (declareAll { graph := g }).2) :=
    declareAll_refill (s := { graph := g })
  refine ⟨⟨?_, ?_, ?_⟩, ?_⟩
  · exact h.map (P := fun g => (declareAll { graph := g }).1.graph) fun g b f => by
      rw [hdeclare]
      rfl
  · exact h.eq_of_refill (π := fun g => (declareAll { graph := g }).1.declarations) fun g b f => by
      rw [hdeclare]
      rfl
  · exact h.eq_of_refill (π := fun g => (declareAll { graph := g }).1.supply) fun g b f => by
      rw [hdeclare]
      rfl
  · exact h.eq_of_refill (π := fun g => (declareAll { graph := g }).2) fun g b f => by
      rw [hdeclare]

theorem NamesSelf.eq_refill {s s' : DeclarationDraft} (h : s.NamesSelf r s') :
    s' = s.refill s'.graph.body.block s'.graph.stmtsAt := by
  rw [refill, ← Graph.eq_refill_of_bare h.graph.bare, ← h.declarations, ← h.supply]

/-- If the receiver may be named, the trees that name it are lowered when the others are. -/
theorem NamesSelf.lower {s s' s₁ : DeclarationDraft} {method : Method} {body : MethodBody}
    (h : s.NamesSelf r s') (hm : s.graph.body.method = some method)
    (hadmits : LoweringContext.Admits ⟨s.graph, s.declarations, method⟩ r)
    (hlower : s.lower none = (some body, s₁, none)) :
    ∃ body' s₁', s'.lower none = (some body', s₁', none) := by
  have hrel := h.graph.block
  have hstmts := h.graph.stmts
  rw [h.eq_refill]
  generalize s'.graph.body.block = b at hrel
  generalize s'.graph.stmtsAt = f at hstmts
  cases hblock : s.graph.body.block with
  | none =>
    simp only [DeclarationDraft.lower, hm, hblock] at hlower
    cases hlower
  | some b₁ =>
    rw [hblock] at hrel
    cases hrel with
    | some hb =>
      rename_i b₁'
      simp only [DeclarationDraft.lower, hm, hblock] at hlower
      obtain ⟨hbody, hrest⟩ := Prod.mk.inj hlower
      obtain ⟨-, hfail⟩ := Prod.mk.inj hrest
      have hleads := hadmits.lowerMethod (b := some b₁') hstmts hb
      obtain ⟨halike, hstep⟩ := hleads.follows trivial _ _ ⟨rfl, rfl, rfl, rfl⟩ hfail
      obtain ⟨body', hbody'⟩ := Option.isSome_iff_exists.mp (halike.trans (congrArg _ hbody))
      have hm' : (s.refill (some b₁') f).graph.body.method = some method := hm
      have hblock' : (s.refill (some b₁') f).graph.body.block = some b₁' := rfl
      simp only [DeclarationDraft.lower, hm', hblock']
      exact ⟨body', _, Prod.ext hbody' (Prod.ext rfl (hstep.failure.trans hfail))⟩

end DeclarationDraft

namespace Conversion

variable {r : Variable} {m m' : MethodBody} {o : ConversionSettings}

/-- The graphs of bodies that differ in the way they refer to the receiver differ in statements
only. -/
theorem graph_namesSelf (h : m.NamesSelf r m') (o : ConversionSettings) :
    (run o m).graph.NamesSelf r (run o m').graph := by
  have hfinish (g : Graph) : (DeclarationDraft.finish o g).1 =
      (DeclarationDraft.declareAll { graph := g }).1.graph := by
    rw [DeclarationDraft.finish]
    rcases DeclarationDraft.declareAll { graph := g } with ⟨s, _ | failure⟩
    · simp only
      split
      · rfl
      · have hs := s.graph_lower none
        rcases hl : s.lower none with ⟨_ | body, s', _ | failure⟩
        all_goals simpa only [hl] using hs
    · rfl
  obtain ⟨hanalysis, hfailure⟩ := Analysis.run_namesSelf o h
  rw [run, run]
  generalize Analysis.run o m = x at hanalysis hfailure
  generalize Analysis.run o m' = x' at hanalysis hfailure
  obtain ⟨a, failure⟩ := x
  obtain ⟨a', failure'⟩ := x'
  obtain rfl : failure' = failure := hfailure
  cases failure' with
  | none =>
    simp only [hfinish]
    exact (DeclarationDraft.declareAll_namesSelf hanalysis).1.graph
  | some failure => exact hanalysis

/-- If the receiver may be named, a body that names it is converted when the other one is. -/
theorem ok_of_namesSelf (h : m.NamesSelf r m') {l : LoweredBody} (hok : (run o m).outcome = .ok l)
    (hadmits : ∀ ctx : LoweringContext, ctx.graph = (run o m).graph → ctx.Suits m →
      ctx.Admits r) :
    ∃ l', (run o m').outcome = .ok l' := by
  obtain ⟨a, s, s₁, method, ha, hs, hsuits, hstored, hlower, -, hgraph⟩ := stages_of_ok hok
  have hm : s.graph.body.method = some method := by
    rw [hsuits.seated.exact.holds.body]
    exact hsuits.method
  obtain ⟨hanalysis, hfailure⟩ := Analysis.run_namesSelf o h
  rw [ha] at hanalysis hfailure
  obtain ⟨hdraft, hdeclared⟩ := DeclarationDraft.declareAll_namesSelf hanalysis
  rw [hs] at hdraft hdeclared
  obtain ⟨body', s₁', hlower'⟩ := hdraft.lower hm (hadmits _ hgraph.symm hsuits) hlower
  have hdefect := hsuits.declared.defect_eq_none hsuits.seated hstored
  rw [← Declarations.defect_refill (b := _) (f := _), ← Graph.eq_refill_of_bare hdraft.graph.bare,
    ← hdraft.declarations] at hdefect
  rcases ha' : Analysis.run o m' with ⟨a', failure⟩
  rcases hs' : DeclarationDraft.declareAll { graph := a'.graph } with ⟨s', failure'⟩
  rw [ha'] at hfailure hdeclared hdefect hlower'
  rw [hs'] at hdeclared hdefect hlower'
  obtain rfl : failure = none := hfailure
  obtain rfl : failure' = none := hdeclared
  simp only [run, ha', DeclarationDraft.finish, hs', hdefect, ite_self, hlower']
  exact ⟨_, rfl⟩

end Conversion

end Unnest
