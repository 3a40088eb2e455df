import Unnest.Lowered.Frame
import Unnest.Proofs.Names.Declarations

/-!
# Ways to environments under new names

The expressions by which a lowered method reaches environments, the enclosing receiver and captured
variables, in a context and in a renamed one. The way to an environment is made of holders and
parent links, whose names are not made out of names; what is read at its end may have the name of a
variable.

## Main definitions

* `Expr.Renamed`, `Stmt.Renamed`, `Block.Renamed` : what a renaming can change of a lowered tree.
* `Except.Alike` : related results, or failures of one kind.
* `LoweringContext.Renamed`, `Site.Renamed` : what a renaming can change of a context and a place.

## Main statements

* `LoweringContext.Renamed.envRef`, `LoweringContext.Renamed.receiverRef`,
  `LoweringContext.Renamed.variableRef` : what is read differs by the renaming.
* `LoweringContext.Renamed.createEnv` : so does what is stored in a new environment.
-/

namespace Unnest

variable {ρ : Renaming}

/-! ## Lowered trees -/

/-- What a renaming can change of an expression. -/
abbrev Expr.Renamed (ρ : Renaming) (e e' : Expr) : Prop :=
  e'.mapSymbols .plain = e.mapSymbols (.sketch (Variable.rename ρ))

@[inherit_doc Expr.Renamed]
abbrev Expr.AllRenamed (ρ : Renaming) (es es' : List Expr) : Prop :=
  Expr.mapSymbolsAll .plain es' = Expr.mapSymbolsAll (.sketch (Variable.rename ρ)) es

/-- What a renaming can change of a statement. -/
abbrev Stmt.Renamed (ρ : Renaming) (s s' : Stmt) : Prop :=
  s'.mapSymbols .plain = s.mapSymbols (.sketch (Variable.rename ρ))

@[inherit_doc Stmt.Renamed]
abbrev Stmt.AllRenamed (ρ : Renaming) (ss ss' : List Stmt) : Prop :=
  Stmt.mapSymbolsAll .plain ss' = Stmt.mapSymbolsAll (.sketch (Variable.rename ρ)) ss

/-- What a renaming can change of a block. -/
abbrev Block.Renamed (ρ : Renaming) (b b' : Block) : Prop :=
  b'.mapSymbols .plain = b.mapSymbols (.sketch (Variable.rename ρ))

theorem Expr.mapSymbolsAll_append (σ : SymbolMap) (es es₁ : List Expr) :
    Expr.mapSymbolsAll σ (es ++ es₁) = Expr.mapSymbolsAll σ es ++ Expr.mapSymbolsAll σ es₁ := by
  induction es with
  | nil => rfl
  | cons e es ih => exact congrArg (_ :: ·) ih

theorem Stmt.mapSymbolsAll_append (σ : SymbolMap) (ss ss₁ : List Stmt) :
    Stmt.mapSymbolsAll σ (ss ++ ss₁) = Stmt.mapSymbolsAll σ ss ++ Stmt.mapSymbolsAll σ ss₁ := by
  induction ss with
  | nil => rfl
  | cons s ss ih => exact congrArg (_ :: ·) ih

theorem Expr.AllRenamed.append {es es' es₁ es₁' : List Expr} (h : Expr.AllRenamed ρ es es')
    (h₁ : Expr.AllRenamed ρ es₁ es₁') : Expr.AllRenamed ρ (es ++ es₁) (es' ++ es₁') := by
  rw [Expr.AllRenamed, Expr.mapSymbolsAll_append, h, h₁, Expr.mapSymbolsAll_append]

theorem Stmt.AllRenamed.append {ss ss' ss₁ ss₁' : List Stmt} (h : Stmt.AllRenamed ρ ss ss')
    (h₁ : Stmt.AllRenamed ρ ss₁ ss₁') : Stmt.AllRenamed ρ (ss ++ ss₁) (ss' ++ ss₁') := by
  rw [Stmt.AllRenamed, Stmt.mapSymbolsAll_append, h, h₁, Stmt.mapSymbolsAll_append]

namespace Expr.Renamed

variable {e e' : Expr}

theorem ref {v v' : Variable} (h : v'.nameless = (v.rename ρ).nameless) (loc : Loc) :
    (Expr.ref loc (some v)).Renamed ρ (.ref loc (some v')) :=
  congrArg (fun v => Expr.ref loc (some v)) h

theorem field (h : e.Renamed ρ e') {f f' : Field} (hf : f'.nameless = f.nameless) (loc : Loc) :
    (Expr.field loc e f).Renamed ρ (.field loc e' f') := congrArg₂ (Expr.field loc) h hf

theorem assign (h : e.Renamed ρ e') {x x' : Expr} (hx : x.Renamed ρ x') (loc : Loc) :
    (Expr.assign loc e x).Renamed ρ (.assign loc e' x') := congrArg₂ (Expr.assign loc) h hx

/-- A field of a new environment gets its value. -/
theorem store (h : e.Renamed ρ e') {f f' : Field} (hf : f'.nameless = f.nameless)
    (holder : Variable) : Stmt.AllRenamed ρ [LoweringContext.store holder f e]
      [LoweringContext.store (holder.rename ρ) f' e'] :=
  congrArg (fun e => [Stmt.expr {} e]) (((ref rfl {}).field hf {}).assign h {})

end Expr.Renamed

/-! ## Results -/

/-- Both succeed with related results, or both fail for a reason of one kind. -/
inductive Except.Alike {α : Type} (R : α → α → Prop) : Except Cause α → Except Cause α → Prop
  | ok {a a' : α} : R a a' → Alike R (.ok a) (.ok a')
  | error {c c' : Cause} : c'.kind = c.kind → Alike R (.error c) (.error c')

namespace Except.Alike

variable {α β : Type} {R : α → α → Prop} {S : β → β → Prop} {x x' : Except Cause α}

theorem map (h : Except.Alike R x x') {f f' : α → β} (hf : ∀ a a', R a a' → S (f a) (f' a')) :
    Except.Alike S (f <$> x) (f' <$> x') := by
  cases h with
  | ok ha => exact .ok (hf _ _ ha)
  | error hc => exact .error hc

theorem bind (h : Except.Alike R x x') {f f' : α → Except Cause β}
    (hf : ∀ a a', R a a' → Except.Alike S (f a) (f' a')) :
    Except.Alike S (x >>= f) (x' >>= f') := by
  cases h with
  | ok ha => exact hf _ _ ha
  | error hc => exact .error hc

end Except.Alike

/-! ## Contexts and places -/

/-- The second context is the first under new names. -/
structure LoweringContext.Renamed (ρ : Renaming) (ctx ctx' : LoweringContext) : Prop where
  graph : ctx'.graph = ctx.graph.rename ρ
  declarations : ctx.declarations.Renamed ρ ctx'.declarations
  method : ctx'.method = ctx.method.mapVariables (Variable.rename ρ)

/-- Variables that hold environments. -/
def HoldersRenamed (ρ : Renaming) (hs hs' : List (EnvId × Variable)) : Prop :=
  hs' = hs.map fun p => (p.1, p.2.rename ρ)

/-- Variables that stand for others. -/
def AliasesRenamed (ρ : Renaming) (as as' : List (Variable × Variable)) : Prop :=
  as'.map (fun p => (p.1, p.2.nameless)) =
    as.map fun p => (p.1.rename ρ, (p.2.rename ρ).nameless)

/-- The second place is the first under new names. -/
structure Site.Renamed (ρ : Renaming) (site site' : Site) : Prop where
  closure : site'.frame.closure = site.frame.closure
  host : Option.Rel (EnvType.Renamed ρ) site.frame.host site'.frame.host
  isStatic : site'.frame.isStatic = site.frame.isStatic
  envParams : HoldersRenamed ρ site.frame.envParams site'.frame.envParams
  innermost : site'.innermost = site.innermost
  locals : HoldersRenamed ρ site.locals site'.locals
  loc : site'.loc = site.loc

theorem Site.Renamed.locate {site site' : Site} (h : site.Renamed ρ site') (loc : Loc) :
    (site.locate loc).Renamed ρ (site'.locate loc) := by
  unfold Site.locate
  split
  · exact { h with loc := rfl }
  · exact h

theorem HoldersRenamed.lookup {hs hs' : List (EnvId × Variable)} (h : HoldersRenamed ρ hs hs')
    (e : EnvId) : hs'.lookup e = (hs.lookup e).map (·.rename ρ) := by
  rw [h]
  exact lookup_map_of_injective Function.injective_id (Variable.rename ρ) hs e

/-- What stands for a variable, or else the variable itself. -/
theorem AliasesRenamed.lookup {as as' : List (Variable × Variable)} (h : AliasesRenamed ρ as as')
    (v : Variable) : ((as'.lookup (v.rename ρ)).getD (v.rename ρ)).nameless =
      (((as.lookup v).getD v).rename ρ).nameless := by
  have hlookup : (as'.lookup (v.rename ρ)).map Variable.nameless =
      (as.lookup v).map fun w => (w.rename ρ).nameless := by
    rw [← lookup_map_of_injective Function.injective_id, id,
      ← lookup_map_of_injective Variable.rename_injective]
    exact congrArg (List.lookup (v.rename ρ)) h
  generalize as'.lookup (v.rename ρ) = w' at hlookup
  generalize as.lookup v = w at hlookup
  cases rel_of_map_eq hlookup with
  | none => rfl
  | some hw => exact hw

theorem EnvType.Renamed.selfRef {t t' : EnvType} (h : t.Renamed ρ t') :
    t.selfRef.Renamed ρ t'.selfRef := by
  simp only [EnvType.selfRef, EnvType.reference, h.name, h.typeParams]
  rfl

namespace LoweringContext.Renamed

variable {ctx ctx' : LoweringContext} {site site' : Site} (h : ctx.Renamed ρ ctx')

include h

theorem typeParams : ctx'.method.typeParams = ctx.method.typeParams := by
  rw [h.method]
  rfl

theorem typeArgs (hs : site.Renamed ρ site') :
    ctx'.typeArgs site'.frame = ctx.typeArgs site.frame := by
  have hhost := hs.host
  unfold LoweringContext.typeArgs
  generalize site.frame.host = t at hhost
  generalize site'.frame.host = t' at hhost
  cases hhost with
  | none => exact h.typeParams
  | some ht => exact ht.typeParams

theorem spell (hs : site.Renamed ρ site') (type : String) :
    ctx'.spell site'.frame type = ctx.spell site.frame type := by
  have hhost := hs.host
  unfold LoweringContext.spell
  generalize site.frame.host = t at hhost
  generalize site'.frame.host = t' at hhost
  cases hhost with
  | none => rfl
  | some ht => rw [h.typeParams]

/-! ## Ways -/

theorem link (e : EnvId) : (ctx'.declarations.typeOf? e).bind (·.link) =
    (ctx.declarations.typeOf? e).bind (·.link) := by
  have htype := h.declarations.typeOf e
  generalize ctx.declarations.typeOf? e = t at htype
  generalize ctx'.declarations.typeOf? e = t' at htype
  cases htype with
  | none => rfl
  | some ht => exact ht.link

theorem runtimeParent (e : EnvId) : ctx'.graph.runtimeParent? e = ctx.graph.runtimeParent? e := by
  rw [h.graph, Graph.runtimeParent_rename]

theorem isValue (e : EnvId) : (ctx'.graph.env e).isValue = (ctx.graph.env e).isValue := by
  rw [h.graph, Graph.env_rename, Environment.isValue_rename]

theorem size_envs : ctx'.graph.envs.size = ctx.graph.envs.size := by
  rw [h.graph, Graph.size_envs_rename]

theorem linkPath (t t' : EnvType) (target : EnvId) (fuel : Nat) (e : EnvId) {way way' : Expr}
    (hway : way.Renamed ρ way') : Except.Alike (Expr.Renamed ρ) (ctx.linkPath t target fuel e way)
      (ctx'.linkPath t' target fuel e way') := by
  induction fuel generalizing e way way' with
  | zero =>
    rw [LoweringContext.linkPath.eq_def, LoweringContext.linkPath.eq_def]
    dsimp only
    split
    · exact .ok hway
    · exact .error rfl
  | succ fuel ih =>
    rw [LoweringContext.linkPath.eq_def, LoweringContext.linkPath.eq_def]
    simp only [h.link, h.runtimeParent]
    split
    · exact .ok hway
    · generalize (ctx.declarations.typeOf? e).bind (·.link) = l
      cases l with
      | none => exact .error rfl
      | some l =>
        cases ctx.graph.runtimeParent? e with
        | none => exact .error rfl
        | some parent => exact ih parent (hway.field rfl {})

theorem receiverPath (t t' : EnvType) (fuel : Nat) (e : EnvId) {way way' : Expr}
    (hway : way.Renamed ρ way') : Except.Alike (Expr.Renamed ρ) (ctx.receiverPath t fuel e way)
      (ctx'.receiverPath t' fuel e way') := by
  induction fuel generalizing e way way' with
  | zero => exact .error rfl
  | succ fuel ih =>
    simp only [LoweringContext.receiverPath, h.link, h.runtimeParent]
    generalize (ctx.declarations.typeOf? e).bind (·.link) = l
    cases l with
    | none => exact .error rfl
    | some l =>
      cases ctx.graph.runtimeParent? e with
      | none => exact .ok (hway.field rfl {})
      | some parent => exact ih parent (hway.field rfl {})

/-- An environment is reached in the same way. -/
theorem envRef (hs : site.Renamed ρ site') (e : EnvId) :
    Except.Alike (Expr.Renamed ρ) (ctx.envRef site e) (ctx'.envRef site' e) := by
  have hhost := hs.host
  simp only [LoweringContext.envRef, hs.locals.lookup, hs.envParams.lookup, h.isValue, h.size_envs]
  cases site.locals.lookup e with
  | some holder => exact .ok (.ref rfl {})
  | none =>
    dsimp only [Option.map_none]
    split
    · cases site.frame.envParams.lookup e with
      | some holder => exact .ok (.ref rfl {})
      | none => exact .error rfl
    · generalize site.frame.host = t at hhost
      generalize site'.frame.host = t' at hhost
      cases hhost with
      | none => exact .error rfl
      | some ht =>
        dsimp only
        rw [ht.env]
        exact h.linkPath _ _ e _ _ ht.selfRef

theorem graph_receiver : ctx'.graph.receiver = ctx.graph.receiver.map (·.rename ρ) := by
  rw [h.graph, Graph.receiver_rename]

/-- The receiver is read in the same way up to the name of a field. -/
theorem receiverRef (hs : site.Renamed ρ site') :
    Except.Alike (Expr.Renamed ρ) (ctx.receiverRef site) (ctx'.receiverRef site') := by
  have hhost := hs.host
  have hisNone : site'.frame.host.isNone = site.frame.host.isNone := isNone_eq_of_rel hhost
  have howner : ctx'.method.owner = ctx.method.owner := by
    rw [h.method]
    rfl
  have hreceiverEnv : ctx'.graph.receiverEnv? = ctx.graph.receiverEnv? := by
    rw [h.graph, Graph.receiverEnv_rename]
  simp only [LoweringContext.receiverRef, h.graph_receiver, hs.closure, hisNone, hs.isStatic,
    howner, hreceiverEnv, h.size_envs]
  cases ctx.graph.receiver with
  | none => exact .error rfl
  | some receiver =>
    dsimp only [Option.map_some]
    split
    · exact .ok rfl
    · cases ctx.graph.receiverEnv? with
      | none =>
        generalize site.frame.host = t at hhost
        generalize site'.frame.host = t' at hhost
        cases hhost with
        | none => exact .error rfl
        | some ht =>
          dsimp only
          rw [ht.env]
          exact h.receiverPath _ _ _ _ ht.selfRef
      | some e =>
        have htype := h.declarations.typeOf e
        dsimp only
        generalize ctx.declarations.typeOf? e = t at htype
        generalize ctx'.declarations.typeOf? e = t' at htype
        cases htype with
        | none => exact .error rfl
        | @some t t' ht =>
          -- A value holds the receiver in a field; a heap environment links to it.
          have hheld : Option.Rel (fun f f' : Field => f'.nameless = f.nameless)
              (if t.isValue then t.field? receiver else t.link)
              (if t'.isValue then t'.field? (receiver.rename ρ) else t'.link) := by
            rw [EnvType.isValue, EnvType.isValue, ht.kind, ht.link]
            split
            · exact rel_of_map_eq (ht.field receiver)
            · cases t.link with
              | none => exact .none
              | some l => exact .some rfl
          dsimp only
          generalize (if t.isValue then t.field? receiver else t.link) = f at hheld
          generalize (if t'.isValue then t'.field? (receiver.rename ρ) else t'.link) = f' at hheld
          cases hheld with
          | none => exact .error rfl
          | some hf => exact (h.envRef hs e).map fun _ _ he => he.field hf {}

/-- A variable is read in the same way up to names. -/
theorem variableRef (hs : site.Renamed ρ site') {as as' : List (Variable × Variable)}
    (ha : AliasesRenamed ρ as as') (v : Variable) :
    Except.Alike (Expr.Renamed ρ) (ctx.variableRef site as v)
      (ctx'.variableRef site' as' (v.rename ρ)) := by
  simp only [LoweringContext.variableRef, h.graph, Graph.envOf_rename]
  cases ctx.graph.envOf? v with
  | none => exact .ok (.ref (ha.lookup v) {})
  | some e =>
    have hfield : Option.Rel (fun f f' : Field => f'.nameless = f.nameless)
        ((ctx.declarations.typeOf? e).bind (·.field? v))
        ((ctx'.declarations.typeOf? e).bind (·.field? (v.rename ρ))) := by
      have htype := h.declarations.typeOf e
      generalize ctx.declarations.typeOf? e = t at htype
      generalize ctx'.declarations.typeOf? e = t' at htype
      cases htype with
      | none => exact .none
      | some ht => exact rel_of_map_eq (ht.field v)
    dsimp only
    generalize (ctx.declarations.typeOf? e).bind (·.field? v) = f at hfield
    generalize (ctx'.declarations.typeOf? e).bind (·.field? (v.rename ρ)) = f' at hfield
    cases hfield with
    | none => exact .error rfl
    | some hf => exact (h.envRef hs e).map fun _ _ he => he.field hf {}

theorem callReceiver (hs : site.Renamed ρ site') {m m' : LoweredMethod} (hm : m.Renamed ρ m') :
    Except.Alike (Option.Rel (Expr.Renamed ρ)) (ctx.callReceiver site m)
      (ctx'.callReceiver site' m') := by
  simp only [LoweringContext.callReceiver, hm.host, hm.isStatic]
  cases m.host with
  | some e => exact (h.envRef hs e).map fun _ _ he => .some he
  | none =>
    dsimp only
    split
    · exact .ok .none
    · exact (h.receiverRef hs).map fun _ _ he => .some he

/-! ## Creating environments -/

theorem storeParent (hs : site.Renamed ρ site') (e : EnvId) {t t' : EnvType} (ht : t.Renamed ρ t')
    (holder : Variable) : Except.Alike (Stmt.AllRenamed ρ) (ctx.storeParent site e t holder)
      (ctx'.storeParent site' e t' (holder.rename ρ)) := by
  simp only [LoweringContext.storeParent, ht.link, h.runtimeParent, hs.innermost]
  cases t.link with
  | none => exact .ok rfl
  | some link =>
    dsimp only
    split
    · cases site.innermost with
      | some p => exact (h.envRef hs p).bind fun _ _ hp => .ok (hp.store rfl holder)
      | none => exact (h.receiverRef hs).bind fun _ _ hp => .ok (hp.store rfl holder)
    · exact .error rfl

theorem storeVariable (hs : site.Renamed ρ site') {as as' : List (Variable × Variable)}
    (ha : AliasesRenamed ρ as as') {t t' : EnvType} (ht : t.Renamed ρ t') (holder v : Variable) :
    Except.Alike (Stmt.AllRenamed ρ) (ctx.storeVariable site as t holder v)
      (ctx'.storeVariable site' as' t' (holder.rename ρ) (v.rename ρ)) := by
  have hfield := rel_of_map_eq (ht.field v)
  simp only [LoweringContext.storeVariable, Variable.role_rename]
  generalize t.field? v = f at hfield
  generalize t'.field? (v.rename ρ) = f' at hfield
  cases hfield with
  | none => cases v.role <;> exact .ok rfl
  | some hf =>
    cases v.role with
    | declared => exact .ok rfl
    | parameter => exact .ok (Expr.Renamed.store (.ref (ha.lookup v) {}) hf holder)
    | receiver => exact (h.receiverRef hs).bind fun _ _ hr => .ok (hr.store hf holder)

theorem storeVariables (hs : site.Renamed ρ site') {as as' : List (Variable × Variable)}
    (ha : AliasesRenamed ρ as as') {t t' : EnvType} (ht : t.Renamed ρ t') (holder : Variable)
    (vs : List Variable) :
    Except.Alike (fun ss ss' => Stmt.AllRenamed ρ ss.flatten ss'.flatten)
      (vs.mapM (ctx.storeVariable site as t holder))
      ((vs.map (·.rename ρ)).mapM (ctx'.storeVariable site' as' t' (holder.rename ρ))) := by
  induction vs with
  | nil => exact .ok rfl
  | cons v vs ih =>
    rw [List.map_cons, List.mapM_cons, List.mapM_cons]
    exact (h.storeVariable hs ha ht holder v).bind fun _ _ hv => ih.bind fun _ _ hvs =>
      .ok (hv.append hvs)

/-- An environment is created in the same way up to names. -/
theorem createEnv (hs : site.Renamed ρ site') {as as' : List (Variable × Variable)}
    (ha : AliasesRenamed ρ as as') (e : EnvId) {t t' : EnvType} (ht : t.Renamed ρ t')
    (holder : Variable) :
    Except.Alike (fun x x' => Stmt.AllRenamed ρ x.1 x'.1 ∧ x.2.Renamed ρ x'.2)
      (ctx.createEnv site as e t holder) (ctx'.createEnv site' as' e t' (holder.rename ρ)) := by
  have hvars : (ctx'.graph.env e).vars.toList =
      (ctx.graph.env e).vars.toList.map (·.rename ρ) := by
    rw [h.graph, Graph.env_rename]
    rfl
  simp only [LoweringContext.createEnv, h.isValue, hvars, hs.innermost, Variable.type_rename]
  refine (h.storeParent hs e ht holder).bind fun _ _ hparent =>
    (h.storeVariables hs ha ht holder _).bind fun _ _ hstores => .ok ⟨?_, ?_⟩
  · have hinit : Stmt.Renamed ρ
        (.declare {} (some holder) (some (if (ctx.graph.env e).isValue then .zero {} holder.type
          else .newEnv {} holder.type)))
        (.declare {} (some (holder.rename ρ)) (some (if (ctx.graph.env e).isValue then
          .zero {} holder.type else .newEnv {} holder.type))) := by
      split <;> rfl
    exact Stmt.AllRenamed.append (congrArg₂ List.cons hinit hparent) hstores
  · exact { hs with
      innermost := rfl
      locals := congrArg ((e, holder.rename ρ) :: ·) hs.locals }

end LoweringContext.Renamed

end Unnest
