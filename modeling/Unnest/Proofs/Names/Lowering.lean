import Unnest.Conversion
import Unnest.Proofs.Names.Frame

/-!
# Names never influence lowering

The walk over the trees of a renamed body writes the same trees under new names. The two walks are
followed side by side: a computation on each side starts from states that differ by the renaming,
and ends in such states, with results that differ by it too. Every step of the walk keeps that, so
the whole walk does.

With the stages before it the walk makes up the conversion. Two bodies that differ in nothing but
the names of their variables and nested functions are refused at the same stage and place, for a
reason of the same kind, or converted to bodies and declarations that differ by names only.

## Main definitions

* `Lower.Renamed` : two computations whose results differ by a renaming.
* `LoweredBody.sketch` : a result with the names made out of names left blank.
* `Conversion.Renamed` : two conversions that differ by a renaming.

## Main statements

* `Expr.renamed_lower`, `Stmt.renamed_lower`, `Block.renamed_lower` : the walk follows the names.
* `LoweringContext.Renamed.lowerMethod` : so does the lowering of a whole body.
* `MethodBody.run_named` : names never influence lowering.
-/

namespace Unnest

open LoweringContext Lower

variable {ρ : Renaming}

/-! ## Optional results -/

section Options

variable {α β γ : Type} {R : α → α → Prop} {S : β → β → Prop} {T : γ → γ → Prop}
  {o o' : Option α} {p p' : Option β}

theorem map_eq_of_rel {f f' : α → β} (h : Option.Rel (fun a a' => f' a' = f a) o o') :
    o'.map f' = o.map f := by
  cases h with
  | none => rfl
  | some ha => exact congrArg some ha

theorem rel_map (h : Option.Rel R o o') {f f' : α → β} (hf : ∀ a a', R a a' → S (f a) (f' a')) :
    Option.Rel S (o.map f) (o'.map f') := by
  cases h with
  | none => exact .none
  | some ha => exact .some (hf _ _ ha)

theorem rel_bind (h : Option.Rel R o o') {f f' : α → Option β}
    (hf : ∀ a a', R a a' → Option.Rel S (f a) (f' a')) :
    Option.Rel S (o >>= f) (o' >>= f') := by
  cases h with
  | none => exact .none
  | some ha => exact hf _ _ ha

theorem rel_map₂ (h : Option.Rel R o o') (hp : Option.Rel S p p') {f f' : α → β → γ}
    (hf : ∀ a a', R a a' → ∀ b b', S b b' → T (f a b) (f' a' b')) :
    Option.Rel T (f <$> o <*> p) (f' <$> o' <*> p') := by
  cases h with
  | none => exact .none
  | some ha =>
    cases hp with
    | none => exact .none
    | some hb => exact .some (hf _ _ ha _ _ hb)

end Options

/-! ## States -/

/-- The second state is the first under new names. -/
structure LoweringState.Renamed (ρ : Renaming) (st st' : LoweringState) : Prop where
  supply : st'.supply = st.supply
  bodies : st'.bodies.map (·.map (·.mapSymbols .plain)) =
    st.bodies.map (·.map (·.mapSymbols (.sketch (Variable.rename ρ))))
  aliases : AliasesRenamed ρ st.aliases st'.aliases
  failure : st'.failure.map Failure.key = st.failure.map Failure.key

theorem LoweringState.Renamed.body {st st' : LoweringState} (h : st.Renamed ρ st')
    (c : ClosureId) :
    Option.Rel (Block.Renamed ρ) (st.bodies.getD c none) (st'.bodies.getD c none) := by
  have hget (σ : SymbolMap) (bodies : Array (Option Block)) :
      (bodies.getD c none).map (·.mapSymbols σ) =
        (bodies.map (·.map (·.mapSymbols σ))).getD c none := by
    rw [Array.getD_eq_getD_getElem?, Array.getD_eq_getD_getElem?, Array.getElem?_map]
    cases bodies[c]? <;> rfl
  apply rel_of_map_eq
  rw [hget, h.bodies, hget]

theorem LoweringState.Renamed.setBody {st st' : LoweringState} (h : st.Renamed ρ st')
    {as as' : List (Variable × Variable)} (ha : AliasesRenamed ρ as as') (c : ClosureId)
    {b b' : Option Block} (hb : Option.Rel (Block.Renamed ρ) b b') :
    LoweringState.Renamed ρ { st with aliases := as, bodies := st.bodies.setIfInBounds c b }
      { st' with aliases := as', bodies := st'.bodies.setIfInBounds c b' } := by
  refine { h with aliases := ha, bodies := ?_ }
  rw [Array.map_setIfInBounds, h.bodies, map_eq_of_rel hb, Array.map_setIfInBounds]

theorem LoweringState.Renamed.isSome_failure {st st' : LoweringState} (h : st.Renamed ρ st') :
    st'.failure.isSome = st.failure.isSome := by
  have hsome := congrArg Option.isSome h.failure
  rwa [Option.isSome_map, Option.isSome_map] at hsome

/-! ## Computations -/

namespace Lower

variable {α β : Type} {R : α → α → Prop} {S : β → β → Prop} {site site' : Site}

/-- From states that differ by a renaming, related results and such states again. -/
def Renamed (ρ : Renaming) (R : α → α → Prop) (x x' : Lower α) : Prop :=
  ∀ st st', st.Renamed ρ st' → R (x st).1 (x' st').1 ∧ (x st).2.Renamed ρ (x' st').2

/-- The same for what is done with nested functions. -/
def EnterRenamed (ρ : Renaming) (enter enter' : ClosureId → Loc → Lower Unit) : Prop :=
  ∀ c loc, Renamed ρ (fun _ _ => True) (enter c loc) (enter' c loc)

namespace Renamed

theorem pure {a a' : α} (h : R a a') : Renamed ρ R (Pure.pure a) (Pure.pure a') :=
  fun _ _ hst => ⟨h, hst⟩

theorem bind {x x' : Lower α} (hx : Renamed ρ R x x') {f f' : α → Lower β}
    (hf : ∀ a a', R a a' → Renamed ρ S (f a) (f' a')) : Renamed ρ S (x >>= f) (x' >>= f') :=
  fun st st' hst => hf _ _ (hx st st' hst).1 _ _ (hx st st' hst).2

theorem get : Renamed ρ (LoweringState.Renamed ρ) MonadState.get MonadState.get :=
  fun _ _ hst => ⟨hst, hst⟩

theorem update {f f' : LoweringState → LoweringState}
    (h : ∀ st st', st.Renamed ρ st' → (f st).Renamed ρ (f' st')) :
    Renamed ρ (fun _ _ => True) (modify f : Lower Unit) (modify f') :=
  fun st st' hst => ⟨trivial, h st st' hst⟩

theorem record (hs : site.Renamed ρ site') {cause cause' : Cause}
    (hkind : cause'.kind = cause.kind) :
    Renamed ρ (fun _ _ => True) (record site cause) (record site' cause') := by
  refine update fun st st' hst => { hst with failure := ?_ }
  have hfailure := rel_of_map_eq hst.failure
  generalize st.failure = o at hfailure
  generalize st'.failure = o' at hfailure
  cases hfailure with
  | none => simp [Failure.key, Failure.kind, hkind, hs.loc]
  | some hf => exact congrArg some hf

theorem fail (hs : site.Renamed ρ site') {cause cause' : Cause}
    (hkind : cause'.kind = cause.kind) :
    Renamed ρ (Option.Rel R) (fail site cause) (fail site' cause') :=
  (record hs hkind).bind fun _ _ _ => pure .none

theorem attempt (hs : site.Renamed ρ site') {x x' : Except Cause α} (h : Except.Alike R x x') :
    Renamed ρ (Option.Rel R) (attempt site x) (attempt site' x') := by
  cases h with
  | ok ha => exact pure (.some ha)
  | error hkind => exact fail hs hkind

/-- Both computations are skipped after a failure, or neither is. -/
theorem unlessFailed {x x' : Lower (Option α)} (h : Renamed ρ (Option.Rel R) x x') :
    Renamed ρ (Option.Rel R) (do if ← failed then return none else x)
      (do if ← failed then return none else x') := by
  intro st st' hst
  change Option.Rel R ((if st.failure.isSome then Pure.pure none else x : Lower (Option α)) st).1
      ((if st'.failure.isSome then Pure.pure none else x' : Lower (Option α)) st').1 ∧
    ((if st.failure.isSome then Pure.pure none else x : Lower (Option α)) st).2.Renamed ρ
      ((if st'.failure.isSome then Pure.pure none else x' : Lower (Option α)) st').2
  rw [hst.isSome_failure]
  split
  · exact ⟨.none, hst⟩
  · exact h st st' hst

theorem freshHolder (e : EnvId) (type : String) :
    Renamed ρ (fun v v' => v' = v.rename ρ) (freshHolder e type) (freshHolder e type) := by
  intro st st' hst
  change (st'.supply.holder e type).1 = (st.supply.holder e type).1 ∧
    LoweringState.Renamed ρ { st with supply := (st.supply.holder e type).2 }
      { st' with supply := (st'.supply.holder e type).2 }
  rw [hst.supply]
  exact ⟨rfl, { hst with supply := rfl }⟩

theorem freshCopy (v : Variable) (type : String) :
    Renamed ρ (fun w w' => w'.nameless = (w.rename ρ).nameless) (freshCopy v type)
      (freshCopy (v.rename ρ) type) := by
  intro st st' hst
  have hcopy : (st'.supply.copy (v.rename ρ) .declared type).1.nameless =
      ((st.supply.copy v .declared type).1.rename ρ).nameless := by
    simp only [Supply.copy, Supply.fresh, Variable.id_rename, hst.supply]
    rfl
  have hsupply : (st'.supply.copy (v.rename ρ) .declared type).2 =
      (st.supply.copy v .declared type).2 := by
    rw [hst.supply]
    rfl
  exact ⟨hcopy, { hst with
    supply := hsupply
    aliases := congrArg₂ (fun w ws => (v.rename ρ, w) :: ws) hcopy hst.aliases }⟩

end Renamed

end Lower

/-! ## Steps -/

/-- What a renaming can change of a lowered body. -/
abbrev MethodBody.Renamed (ρ : Renaming) (m m' : MethodBody) : Prop :=
  m'.mapSymbols .plain = m.mapSymbols (.sketch (Variable.rename ρ))

theorem Expr.withLoc_mapSymbols (σ : SymbolMap) (loc : Loc) (e : Expr) :
    (e.withLoc loc).mapSymbols σ = (e.mapSymbols σ).withLoc loc := by
  cases e with
  | call _ _ receiver _ => cases receiver <;> rfl
  | delegate _ receiver _ => cases receiver <;> rfl
  | _ => rfl

namespace Expr.Renamed

theorem withLoc {e e' : Expr} (h : e.Renamed ρ e') (loc : Loc) :
    (e.withLoc loc).Renamed ρ (e'.withLoc loc) := by
  rw [Expr.Renamed, Expr.withLoc_mapSymbols, h, Expr.withLoc_mapSymbols]

variable {e e' : Option Expr} {m m' : Method}

theorem delegate (h : Option.Rel (Expr.Renamed ρ) e e')
    (hm : m'.sketch id = m.sketch (Variable.rename ρ)) (loc : Loc) :
    (Expr.delegate loc e m).Renamed ρ (.delegate loc e' m') := by
  cases h with
  | none => exact congrArg (Expr.delegate loc none) hm
  | some he => exact congrArg₂ (fun e m => Expr.delegate loc (some e) m) he hm

theorem call (h : Option.Rel (Expr.Renamed ρ) e e')
    (hm : m'.sketch id = m.sketch (Variable.rename ρ)) {es es' : List Expr}
    (hes : Expr.AllRenamed ρ es es') (loc : Loc) :
    (Expr.call loc m e es).Renamed ρ (.call loc m' e' es') := by
  cases h with
  | none => exact congrArg₂ (fun m es => Expr.call loc m none es) hm hes
  | some he =>
    simp only [Expr.Renamed, Expr.mapSymbols, he, hes]
    exact congrArg (fun m => Expr.call loc m _ _) hm

end Expr.Renamed

namespace Stmt.Renamed

theorem declare {v v' : Variable} (hv : v'.nameless = (v.rename ρ).nameless)
    {e e' : Option Expr} (h : Option.Rel (Expr.Renamed ρ) e e') (loc : Loc) :
    (Stmt.declare loc (some v) e).Renamed ρ (.declare loc (some v') e') := by
  cases h with
  | none => exact congrArg (fun v => Stmt.declare loc (some v) none) hv
  | some he => exact congrArg₂ (fun v e => Stmt.declare loc (some v) (some e)) hv he

theorem cond {e e' : Expr} (he : e.Renamed ρ e') {b b' : Block} (hb : b.Renamed ρ b')
    {x x' : Option Block} (h : Option.Rel (Block.Renamed ρ) x x') (loc : Loc) :
    (Stmt.cond loc e b x).Renamed ρ (.cond loc e' b' x') := by
  cases h with
  | none => exact congrArg₂ (fun e b => Stmt.cond loc e b none) he hb
  | some hx => simp only [Stmt.Renamed, Stmt.mapSymbols, he, hb, hx]

end Stmt.Renamed

theorem Stmt.AllRenamed.toList {s s' : Option Stmt} (h : Option.Rel (Stmt.Renamed ρ) s s') :
    Stmt.AllRenamed ρ s.toList s'.toList := by
  cases h with
  | none => rfl
  | some hs => exact congrArg (fun s => [s]) hs

namespace LoweringContext.Renamed

variable {ctx ctx' : LoweringContext} {site site' : Site} (h : ctx.Renamed ρ ctx')

include h

theorem openScope (hs : site.Renamed ρ site') (s : ScopeId) :
    Lower.Renamed ρ (Option.Rel fun x x' => Stmt.AllRenamed ρ x.1 x'.1 ∧ x.2.Renamed ρ x'.2)
      (ctx.openScope site s) (ctx'.openScope site' s) := by
  have henv : (ctx'.graph.scope s).env = (ctx.graph.scope s).env := by
    rw [h.graph, Graph.scope_rename]
    rfl
  simp only [LoweringContext.openScope, henv]
  cases (ctx.graph.scope s).env with
  | none => exact .pure (.some ⟨rfl, hs⟩)
  | some e =>
    have htype := h.declarations.typeOf e
    dsimp only
    generalize ctx.declarations.typeOf? e = t at htype
    generalize ctx'.declarations.typeOf? e = t' at htype
    cases htype with
    | none => exact .fail hs rfl
    | some ht =>
      simp only [EnvType.reference, ht.name, h.typeArgs hs]
      refine (Lower.Renamed.freshHolder e _).bind fun holder _ hholder => ?_
      subst hholder
      exact Lower.Renamed.get.bind fun st st' hst =>
        .attempt hs (h.createEnv hs hst.aliases e ht holder)

theorem lowerRef (hs : site.Renamed ρ site') (v : Option Variable) :
    Lower.Renamed ρ (Option.Rel (Expr.Renamed ρ)) (ctx.lowerRef site v)
      (ctx'.lowerRef site' (v.map (·.rename ρ))) := by
  cases v with
  | none => exact .pure (.some rfl)
  | some v =>
    exact Lower.Renamed.get.bind fun st st' hst => .attempt hs (h.variableRef hs hst.aliases v)

theorem closureOf (fn : NestedFunction) :
    ctx'.graph.closureOf? (fn.rename ρ) = ctx.graph.closureOf? fn := by
  rw [h.graph, Graph.closureOf_rename]

theorem methodOf (fn : Option NestedFunction) : Option.Rel (LoweredMethod.Renamed ρ)
    ((fn.bind ctx.graph.closureOf?).bind ctx.declarations.methodOf?)
    (((fn.map (·.rename ρ)).bind ctx'.graph.closureOf?).bind ctx'.declarations.methodOf?) := by
  cases fn with
  | none => exact .none
  | some f =>
    simp only [Option.map_some, Option.bind_some, h.closureOf]
    cases ctx.graph.closureOf? f with
    | none => exact .none
    | some c => exact h.declarations.methodOf c

/-- A nested function is met for the first time under both names. -/
theorem lowerFunction {enter enter' : ClosureId → Loc → Lower Unit}
    (henter : EnterRenamed ρ enter enter')
    (hs : site.Renamed ρ site') (fn : Option NestedFunction) :
    Lower.Renamed ρ (fun _ _ => True) (ctx.lowerFunction enter site fn)
      (ctx'.lowerFunction enter' site' (fn.map (·.rename ρ))) := by
  cases fn with
  | none => exact .record hs rfl
  | some f =>
    simp only [LoweringContext.lowerFunction, Option.map_some, Option.bind_some, h.closureOf]
    cases ctx.graph.closureOf? f with
    | none => exact .record hs rfl
    | some c =>
      refine Lower.Renamed.get.bind fun st st' hst => ?_
      have hdone : (st'.bodies.getD c none).isSome = (st.bodies.getD c none).isSome := by
        have hnone := isNone_eq_of_rel (hst.body c)
        simpa only [Option.not_isNone] using congrArg not hnone
      simp only [hdone, hs.loc]
      split
      · exact .record hs rfl
      · exact henter c site.loc

theorem lowerDelegate (hs : site.Renamed ρ site') (fn : Option NestedFunction) :
    Lower.Renamed ρ (Option.Rel (Expr.Renamed ρ)) (ctx.lowerDelegate site fn)
      (ctx'.lowerDelegate site' (fn.map (·.rename ρ))) := by
  have hmethod := h.methodOf fn
  unfold LoweringContext.lowerDelegate
  generalize (fn.bind ctx.graph.closureOf?).bind ctx.declarations.methodOf? = m at hmethod
  generalize ((fn.map (·.rename ρ)).bind ctx'.graph.closureOf?).bind ctx'.declarations.methodOf? =
    m' at hmethod
  cases hmethod with
  | none => exact .fail hs rfl
  | some hm =>
    exact (Lower.Renamed.attempt hs (h.callReceiver hs hm)).bind fun _ _ hr =>
      .unlessFailed (.pure (rel_map hr fun _ _ hr => .delegate hr hm.symbol {}))

theorem envArgs (hs : site.Renamed ρ site') {m m' : LoweredMethod} (hm : m.Renamed ρ m') :
    Except.Alike (Expr.AllRenamed ρ) (m.envParams.mapM fun p => ctx.envRef site p.1)
      (m'.envParams.mapM fun p => ctx'.envRef site' p.1) := by
  rw [hm.envParams]
  induction m.envParams with
  | nil => exact .ok rfl
  | cons p ps ih =>
    rw [List.map_cons, List.mapM_cons, List.mapM_cons]
    exact (h.envRef hs p.1).bind fun _ _ he => ih.bind fun _ _ hes =>
      .ok (congrArg₂ List.cons he hes)

theorem lowerDeclaration (hs : site.Renamed ρ site') (loc : Loc) (v : Variable)
    {init init' : Option Expr} (hinit : Option.Rel (Expr.Renamed ρ) init init') :
    Lower.Renamed ρ (Option.Rel (Stmt.Renamed ρ)) (ctx.lowerDeclaration site loc v init)
      (ctx'.lowerDeclaration site' loc (v.rename ρ) init') := by
  have henv : ctx'.graph.envOf? (v.rename ρ) = ctx.graph.envOf? v := by
    rw [h.graph, Graph.envOf_rename]
  simp only [LoweringContext.lowerDeclaration, henv, h.spell hs, Variable.type_rename]
  cases ctx.graph.envOf? v with
  | none =>
    dsimp only
    split
    · exact .pure (.some (Stmt.Renamed.declare rfl hinit loc))
    · exact (Lower.Renamed.freshCopy v _).bind fun _ _ hw =>
        .pure (.some (Stmt.Renamed.declare hw hinit loc))
  | some e =>
    cases hinit with
    | none => exact .pure .none
    | some he =>
      exact Lower.Renamed.get.bind fun st st' hst =>
        (Lower.Renamed.attempt hs (h.variableRef hs hst.aliases v)).bind fun _ _ ht =>
          .pure (rel_map ht fun _ _ ht =>
            congrArg (Stmt.expr loc) (ht.assign he {}))

end LoweringContext.Renamed

/-! ## Trees -/

section Walk

variable {ctx ctx' : LoweringContext} {enter enter' : ClosureId → Loc → Lower Unit}

-- The walk is followed through the constructors; `henter` says that nested functions are too.

mutual

theorem Expr.renamed_lower (h : ctx.Renamed ρ ctx')
    (henter : EnterRenamed ρ enter enter') :
    (e : Expr) → {site site' : Site} → site.Renamed ρ site' →
    Lower.Renamed ρ (Option.Rel (Expr.Renamed ρ)) (e.lower ctx enter site)
      ((e.mapSymbols ρ.symbols).lower ctx' enter' site')
  | .literal loc value type, _, _, hs => by
    rw [Expr.mapSymbols, Expr.lower, Expr.lower, h.spell hs]
    exact .pure (.some rfl)
  | .ref loc target, _, _, hs => by
    rw [Expr.mapSymbols, Expr.lower, Expr.lower]
    exact (h.lowerRef (hs.locate loc) target).bind fun _ _ he =>
      .pure (rel_map he fun _ _ he => he.withLoc loc)
  | .self loc type, _, _, hs => by
    rw [Expr.mapSymbols, Expr.lower, Expr.lower]
    exact (Lower.Renamed.attempt (hs.locate loc) (h.receiverRef (hs.locate loc))).bind
      fun _ _ he => .pure (rel_map he fun _ _ he => he.withLoc loc)
  | .assign loc target value, _, _, hs => by
    rw [Expr.mapSymbols, Expr.lower, Expr.lower]
    exact (target.renamed_lower h henter (hs.locate loc)).bind fun _ _ ht =>
      (value.renamed_lower h henter (hs.locate loc)).bind fun _ _ hv =>
        .pure (rel_map₂ ht hv fun _ _ ht _ _ hv => ht.assign hv loc)
  | .binary loc op lhs rhs, _, _, hs => by
    rw [Expr.mapSymbols, Expr.lower, Expr.lower]
    exact (lhs.renamed_lower h henter (hs.locate loc)).bind fun _ _ hl =>
      (rhs.renamed_lower h henter (hs.locate loc)).bind fun _ _ hr =>
        .pure (rel_map₂ hl hr fun _ _ hl _ _ hr => congrArg₂ (Expr.binary loc op) hl hr)
  | .lambda loc fn body, _, _, hs => by
    rw [Expr.mapSymbols, Expr.lower, Expr.lower]
    exact (h.lowerFunction henter (hs.locate loc) fn).bind fun _ _ _ =>
      .unlessFailed ((h.lowerDelegate (hs.locate loc) fn).bind fun _ _ he =>
        .pure (rel_map he fun _ _ he => he.withLoc loc))
  | .functionRef loc fn, _, _, hs => by
    rw [Expr.mapSymbols, Expr.lower, Expr.lower]
    exact (h.lowerDelegate (hs.locate loc) fn).bind fun _ _ he =>
      .pure (rel_map he fun _ _ he => he.withLoc loc)
  | .localCall loc fn args, _, _, hs => by
    have hmethod := h.methodOf (some fn)
    have hargs := Expr.renamed_lowerAll h henter args (hs.locate loc)
    rw [Expr.mapSymbols, Expr.lower, Expr.lower]
    change Option.Rel _ ((ctx.graph.closureOf? fn).bind ctx.declarations.methodOf?)
      ((ctx'.graph.closureOf? (ρ.symbols.fn fn)).bind ctx'.declarations.methodOf?) at hmethod
    generalize (ctx.graph.closureOf? fn).bind ctx.declarations.methodOf? = m at hmethod
    generalize (ctx'.graph.closureOf? (ρ.symbols.fn fn)).bind ctx'.declarations.methodOf? = m'
      at hmethod
    cases hmethod with
    | none => exact .fail (hs.locate loc) rfl
    | some hm =>
      exact (Lower.Renamed.attempt (hs.locate loc) (h.callReceiver (hs.locate loc) hm)).bind
        fun _ _ hr => .unlessFailed (hargs.bind fun _ _ ha =>
          (Lower.Renamed.attempt (hs.locate loc) (h.envArgs (hs.locate loc) hm)).bind fun _ _ he =>
            .pure (rel_bind hr fun _ _ hr => rel_bind ha fun _ _ ha => rel_bind he fun _ _ he =>
              .some (Expr.Renamed.call hr hm.symbol (ha.append he) loc)))
  | .call loc method none args, _, _, hs => by
    rw [Expr.mapSymbols, Expr.lower, Expr.lower]
    exact (Expr.renamed_lowerAll h henter args (hs.locate loc)).bind fun _ _ ha =>
      .pure (rel_map ha fun _ _ ha => .call .none (sketch_mapVariables _ method) ha loc)
  | .call loc method (some e) args, _, _, hs => by
    rw [Expr.mapSymbols, Expr.lower, Expr.lower]
    exact (e.renamed_lower h henter (hs.locate loc)).bind fun _ _ he =>
      (Expr.renamed_lowerAll h henter args (hs.locate loc)).bind fun _ _ ha =>
        .pure (rel_map₂ (rel_map he fun _ _ => Option.Rel.some) ha fun _ _ he _ _ ha =>
          .call he (sketch_mapVariables _ method) ha loc)
  | .invoke loc callee args, _, _, hs => by
    rw [Expr.mapSymbols, Expr.lower, Expr.lower]
    exact (callee.renamed_lower h henter (hs.locate loc)).bind fun _ _ hc =>
      (Expr.renamed_lowerAll h henter args (hs.locate loc)).bind fun _ _ ha =>
        .pure (rel_map₂ hc ha fun _ _ hc _ _ ha => congrArg₂ (Expr.invoke loc) hc ha)
  | .field loc receiver f, _, _, hs => by
    rw [Expr.mapSymbols, Expr.lower, Expr.lower]
    exact (receiver.renamed_lower h henter (hs.locate loc)).bind fun _ _ he =>
      .pure (rel_map he fun _ _ he => he.field rfl loc)
  | .newEnv loc type, _, _, hs => by
    rw [Expr.mapSymbols, Expr.lower, Expr.lower, h.spell hs]
    exact .pure (.some rfl)
  | .zero loc type, _, _, hs => by
    rw [Expr.mapSymbols, Expr.lower, Expr.lower, h.spell hs]
    exact .pure (.some rfl)
  | .delegate loc none method, _, _, hs => by
    rw [Expr.mapSymbols, Expr.lower, Expr.lower]
    exact .pure (.some (Expr.Renamed.delegate .none (sketch_mapVariables _ method) loc))
  | .delegate loc (some e) method, _, _, hs => by
    rw [Expr.mapSymbols, Expr.lower, Expr.lower]
    exact (e.renamed_lower h henter (hs.locate loc)).bind fun _ _ he =>
      .pure (rel_map he fun _ _ he =>
        .delegate (.some he) (sketch_mapVariables _ method) loc)

theorem Expr.renamed_lowerAll (h : ctx.Renamed ρ ctx')
    (henter : EnterRenamed ρ enter enter') :
    (es : List Expr) → {site site' : Site} → site.Renamed ρ site' →
    Lower.Renamed ρ (Option.Rel (Expr.AllRenamed ρ)) (Expr.lowerAll ctx enter site es)
      (Expr.lowerAll ctx' enter' site' (Expr.mapSymbolsAll ρ.symbols es))
  | [], _, _, _ => by
    rw [Expr.mapSymbolsAll, Expr.lowerAll, Expr.lowerAll]
    exact .pure (.some rfl)
  | e :: es, _, _, hs => by
    rw [Expr.mapSymbolsAll, Expr.lowerAll, Expr.lowerAll]
    exact (e.renamed_lower h henter hs).bind fun _ _ he =>
      (Expr.renamed_lowerAll h henter es hs).bind fun _ _ hes =>
        .pure (rel_map₂ he hes fun _ _ he _ _ hes => congrArg₂ List.cons he hes)

theorem Stmt.renamed_lower (h : ctx.Renamed ρ ctx')
    (henter : EnterRenamed ρ enter enter') :
    (s : Stmt) → {site site' : Site} → site.Renamed ρ site' →
    Lower.Renamed ρ (Option.Rel (Stmt.Renamed ρ)) (s.lower ctx enter site)
      ((s.mapSymbols ρ.symbols).lower ctx' enter' site')
  | .block b, _, _, hs => by
    rw [Stmt.mapSymbols, Stmt.lower, Stmt.lower, Block.loc_mapSymbols]
    exact (b.renamed_lower h henter (hs.locate b.loc)).bind fun _ _ hb =>
      .pure (rel_map hb fun _ _ hb => congrArg Stmt.block hb)
  | .declare loc none none, _, _, _ => .pure (.some rfl)
  | .declare loc (some v) none, _, _, hs => h.lowerDeclaration (hs.locate loc) loc v .none
  | .declare loc target (some e), _, _, hs => by
    rw [Stmt.mapSymbols, Stmt.lower, Stmt.lower]
    refine (e.renamed_lower h henter (hs.locate loc)).bind fun _ _ he => ?_
    cases he with
    | none => exact .pure .none
    | some he =>
      cases target with
      | none => exact .pure (.some (congrArg (fun e => Stmt.declare loc none (some e)) he))
      | some v => exact h.lowerDeclaration (hs.locate loc) loc v (.some he)
  | .expr loc value, _, _, hs => by
    rw [Stmt.mapSymbols, Stmt.lower, Stmt.lower]
    exact (value.renamed_lower h henter (hs.locate loc)).bind fun _ _ he =>
      .pure (rel_map he fun _ _ he => congrArg (Stmt.expr loc) he)
  | .ret loc none, _, _, hs => by
    rw [Stmt.mapSymbols, Stmt.lower, Stmt.lower]
    exact .pure (.some rfl)
  | .ret loc (some e), _, _, hs => by
    rw [Stmt.mapSymbols, Stmt.lower, Stmt.lower]
    exact (e.renamed_lower h henter (hs.locate loc)).bind fun _ _ he =>
      .pure (rel_map he fun _ _ he => congrArg (fun e => Stmt.ret loc (some e)) he)
  | .cond loc test thenBlock none, _, _, hs => by
    rw [Stmt.mapSymbols, Stmt.lower, Stmt.lower]
    refine (test.renamed_lower h henter (hs.locate loc)).bind fun _ _ ht =>
      (thenBlock.renamed_lower h henter (hs.locate loc)).bind fun _ _ hb => .pure ?_
    cases ht with
    | none => exact .none
    | some ht =>
      have hnone : Option.Rel (Option.Rel (Block.Renamed ρ)) (some none) (some none) := .some .none
      exact rel_map₂ hb hnone fun _ _ hb _ _ he => .cond ht hb he loc
  | .cond loc test thenBlock (some b), _, _, hs => by
    rw [Stmt.mapSymbols, Stmt.lower, Stmt.lower]
    refine (test.renamed_lower h henter (hs.locate loc)).bind fun _ _ ht =>
      (thenBlock.renamed_lower h henter (hs.locate loc)).bind fun _ _ hb =>
        (b.renamed_lower h henter (hs.locate loc)).bind fun _ _ he => .pure ?_
    cases ht with
    | none => exact .none
    | some ht =>
      exact rel_map₂ hb (rel_map he fun _ _ => Option.Rel.some) fun _ _ hb _ _ he =>
        .cond ht hb he loc
  | .loop loc test body, _, _, hs => by
    rw [Stmt.mapSymbols, Stmt.lower, Stmt.lower]
    exact (test.renamed_lower h henter (hs.locate loc)).bind fun _ _ ht =>
      (body.renamed_lower h henter (hs.locate loc)).bind fun _ _ hb =>
        .pure (rel_map₂ ht hb fun _ _ ht _ _ hb => congrArg₂ (Stmt.loop loc) ht hb)
  | .localFunction loc fn body, _, _, hs => by
    rw [Stmt.mapSymbols, Stmt.lower, Stmt.lower]
    exact (h.lowerFunction henter (hs.locate loc) fn).bind fun _ _ _ => .pure .none

theorem Stmt.renamed_lowerAll (h : ctx.Renamed ρ ctx')
    (henter : EnterRenamed ρ enter enter') :
    (ss : List Stmt) → {site site' : Site} → site.Renamed ρ site' →
    Lower.Renamed ρ (Option.Rel (Stmt.AllRenamed ρ)) (Stmt.lowerAll ctx enter site ss)
      (Stmt.lowerAll ctx' enter' site' (Stmt.mapSymbolsAll ρ.symbols ss))
  | [], _, _, _ => by
    rw [Stmt.mapSymbolsAll, Stmt.lowerAll, Stmt.lowerAll]
    exact .pure (.some rfl)
  | s :: ss, _, _, hs => by
    rw [Stmt.mapSymbolsAll, Stmt.lowerAll, Stmt.lowerAll]
    exact (s.renamed_lower h henter hs).bind fun _ _ hfirst =>
      .unlessFailed ((Stmt.renamed_lowerAll h henter ss hs).bind fun _ _ hrest =>
        .pure (rel_map hrest fun _ _ hrest => (Stmt.AllRenamed.toList hfirst).append hrest))

theorem Block.renamed_lower (h : ctx.Renamed ρ ctx')
    (henter : EnterRenamed ρ enter enter') :
    (b : Block) → {site site' : Site} → site.Renamed ρ site' →
    Lower.Renamed ρ (Option.Rel (Block.Renamed ρ)) (b.lower ctx enter site)
      ((b.mapSymbols ρ.symbols).lower ctx' enter' site')
  | .mk id loc stmts, _, _, hs => by
    have hscope : ctx'.graph.scopeOf? id = ctx.graph.scopeOf? id := by
      rw [h.graph, Graph.scopeOf_rename]
    rw [Block.mapSymbols, Block.lower, Block.lower, hscope]
    cases ctx.graph.scopeOf? id with
    | none => exact .fail hs rfl
    | some s =>
      refine (h.openScope hs s).bind fun _ _ hopen => ?_
      cases hopen with
      | none => exact .pure .none
      | some hopen =>
        exact (Stmt.renamed_lowerAll h henter stmts hopen.2).bind fun _ _ hss =>
          .pure (rel_map hss fun _ _ hss => congrArg (Block.mk id loc) (hopen.1.append hss))

end

end Walk

/-! ## Methods -/

namespace LoweringContext.Renamed

variable {ctx ctx' : LoweringContext} {site site' : Site} (h : ctx.Renamed ρ ctx')

include h

theorem lowerScope {enter enter' : ClosureId → Loc → Lower Unit}
    (henter : EnterRenamed ρ enter enter')
    (hs : site.Renamed ρ site') (s : ScopeId) (b : Block) :
    Lower.Renamed ρ (Option.Rel (Block.Renamed ρ)) (ctx.lowerScope enter site s b)
      (ctx'.lowerScope enter' site' s (b.mapSymbols ρ.symbols)) := by
  refine (h.openScope hs s).bind fun _ _ hopen => ?_
  cases hopen with
  | none => exact .pure .none
  | some hopen =>
    rw [Block.stmts_mapSymbols, Block.id_mapSymbols, Block.loc_mapSymbols]
    exact (Stmt.renamed_lowerAll h henter b.stmts hopen.2).bind fun _ _ hss =>
      .pure (rel_map hss fun _ _ hss => congrArg (Block.mk b.id b.loc) (hopen.1.append hss))

theorem methodSite {m m' : LoweredMethod} (hm : m.Renamed ρ m') (loc : Loc) :
    (ctx.methodSite m loc).Renamed ρ (ctx'.methodSite m' loc) where
  closure := congrArg some hm.closure
  host := by
    simp only [LoweringContext.methodSite, hm.host]
    cases m.host with
    | none => exact .none
    | some e => exact h.declarations.typeOf e
  isStatic := hm.isStatic
  envParams := hm.envParams
  innermost := hm.host
  locals := rfl
  loc := rfl

theorem body : { ctx.graph.body with block := none }.Renamed ρ
    { ctx'.graph.body with block := none } := by
  have hmethod (m : Method) : SymbolMap.plain.method (ρ.symbols.method m) =
      (SymbolMap.sketch (Variable.rename ρ)).method m := sketch_mapVariables _ m
  rw [h.graph]
  simp only [MethodBody.Renamed, MethodBody.mapSymbols, Graph.rename, Option.map_map,
    Function.comp_def, hmethod]
  rfl

theorem lowerClosure (depth : Nat) :
    EnterRenamed ρ (ctx.lowerClosure depth) (ctx'.lowerClosure depth) := by
  induction depth with
  | zero => exact fun _ _ => .pure trivial
  | succ depth ih =>
    intro c loc
    have hmethod := h.declarations.methodOf c
    have hbody : (ctx'.graph.closure c).body = (ctx.graph.closure c).body := by
      rw [h.graph, Graph.bodyScope_rename]
    have hblock (s : ScopeId) : (ctx'.graph.scope s).block =
        (ctx.graph.scope s).block.map (·.mapSymbols ρ.symbols) := by
      rw [h.graph, Graph.scope_rename]
      rfl
    simp only [LoweringContext.lowerClosure, hbody, hblock]
    generalize ctx.declarations.methodOf? c = m at hmethod
    generalize ctx'.declarations.methodOf? c = m' at hmethod
    cases hmethod with
    | none => exact .pure trivial
    | @some m m' hm =>
      cases (ctx.graph.scope (ctx.graph.closure c).body).block with
      | none => exact .pure trivial
      | some b =>
        have hcopies : Lower.Renamed ρ (fun _ _ => True)
            (modify fun st => { st with aliases := m.copies })
            (modify fun st => { st with aliases := m'.copies }) :=
          .update fun _ _ hst => { hst with aliases := hm.copies }
        exact Lower.Renamed.get.bind fun _ _ hst => hcopies.bind fun _ _ _ =>
          (h.lowerScope ih (h.methodSite hm loc) _ b).bind fun _ _ hb =>
            .update fun _ _ hst₁ => hst₁.setBody hst.aliases c hb

/-- A whole body and the bodies of all its methods are lowered in the same way up to names. -/
theorem lowerMethod (b : Block) :
    Lower.Renamed ρ (Option.Rel (MethodBody.Renamed ρ)) (ctx.lowerMethod b)
      (ctx'.lowerMethod (b.mapSymbols ρ.symbols)) := by
  have hdepth : ctx'.nestingDepth = ctx.nestingDepth := by
    rw [nestingDepth, h.graph, Graph.size_closures_rename, nestingDepth]
  have hs : Site.Renamed ρ { frame := { isStatic := ctx.method.isStatic } }
      { frame := { isStatic := ctx'.method.isStatic } } := by
    rw [h.method]
    exact ⟨rfl, .none, rfl, rfl, rfl, rfl, rfl⟩
  unfold LoweringContext.lowerMethod
  rw [hdepth]
  refine (h.lowerScope (h.lowerClosure _) hs Graph.root b).bind fun _ _ hb => .unlessFailed ?_
  refine Lower.Renamed.get.bind fun st st' hst => ?_
  -- On both sides the same methods are left without a body.
  have hdone : (fun m : LoweredMethod => (st'.bodies.getD m.closure none).isNone) =
      fun m => (st.bodies.getD m.closure none).isNone :=
    funext fun m => isNone_eq_of_rel (hst.body m.closure)
  have hfind := h.declarations.findMethod fun c => (st.bodies.getD c none).isNone
  simp only [hdone]
  generalize (ctx.declarations.methods.find? fun m => (st.bodies.getD m.closure none).isNone) = m
    at hfind
  generalize (ctx'.declarations.methods.find? fun m => (st.bodies.getD m.closure none).isNone) = m'
    at hfind
  cases hfind with
  | some _ => exact .fail hs rfl
  | none =>
    refine .pure (.some ?_)
    exact congrArg₂ (fun (m : MethodBody) block => { m with block }) h.body (map_eq_of_rel hb)

end LoweringContext.Renamed

/-! ## Conversions -/

theorem Declarations.Renamed.setBodies {d d' : Declarations} (h : d.Renamed ρ d')
    {bodies bodies' : Array (Option Block)}
    (hbodies : ∀ c, Option.Rel (Block.Renamed ρ) (bodies.getD c none) (bodies'.getD c none)) :
    Declarations.Renamed ρ
      { d with
        methods := d.methods.mapIdx fun i m => { m with body := bodies.getD i none } }
      { d' with
        methods := d'.methods.mapIdx fun i m => { m with body := bodies'.getD i none } } := by
  have htypes : (d'.sketch id).types = (d.sketch (Variable.rename ρ)).types := by rw [h]
  refine congrArg₂ Declarations.mk htypes (List.ext_getElem? fun c => ?_)
  have hmethod := h.methodOf c
  simp only [Declarations.methodOf?] at hmethod
  simp only [List.getElem?_map, List.getElem?_mapIdx]
  generalize d.methods[c]? = m at hmethod
  generalize d'.methods[c]? = m' at hmethod
  cases hmethod with
  | none => rfl
  | some hm =>
    exact congrArg₂ (fun (m : LoweredMethod) body => some { m with body }) hm
      (map_eq_of_rel (hbodies c))

theorem DeclarationDraft.Renamed.lower {s s' : DeclarationDraft} (h : s.Renamed ρ s') :
    Option.Rel (MethodBody.Renamed ρ) (s.lower none).1 (s'.lower none).1 ∧
      StepRenamed ρ (s.lower none).2 (s'.lower none).2 := by
  have hmethod : s'.graph.body.method =
      s.graph.body.method.map (·.mapVariables (Variable.rename ρ)) := by
    rw [h.graph]
    rfl
  have hblock : s'.graph.body.block = s.graph.body.block.map (·.mapSymbols ρ.symbols) := by
    rw [h.graph]
    rfl
  unfold DeclarationDraft.lower
  rw [hmethod, hblock]
  cases s.graph.body.method with
  | none => exact ⟨.none, h, rfl⟩
  | some method =>
    cases s.graph.body.block with
    | none => exact ⟨.none, h, rfl⟩
    | some block =>
      let ctx : LoweringContext := { graph := s.graph, declarations := s.declarations, method }
      let ctx' : LoweringContext :=
        { graph := s'.graph
          declarations := s'.declarations
          method := method.mapVariables (Variable.rename ρ) }
      have hctx : ctx.Renamed ρ ctx' := ⟨h.graph, h.declarations, rfl⟩
      have hstart : LoweringState.Renamed ρ
          { supply := s.supply, bodies := (s.declarations.methods.map (·.body)).toArray }
          { supply := s'.supply, bodies := (s'.declarations.methods.map (·.body)).toArray } := by
        refine ⟨h.supply, ?_, rfl, rfl⟩
        have hbodies := congrArg (fun d : Declarations => (d.methods.map (·.body)).toArray)
          h.declarations
        simpa [Declarations.sketch, LoweredMethod.sketch, Function.comp_def] using hbodies
      obtain ⟨hbody, hst⟩ := hctx.lowerMethod block _ _ hstart
      refine ⟨hbody, ⟨h.graph, ?_, hst.supply⟩, hst.failure⟩
      exact h.declarations.setBodies hst.body

/-- The result with the names that the conversion makes out of names left blank, and its variables
changed by `f`. -/
def LoweredBody.sketch (f : Variable → Variable) (r : LoweredBody) : LoweredBody where
  body := r.body.mapSymbols (.sketch f)
  declarations := r.declarations.sketch f
  supply := r.supply

/-- Both succeed with results that differ by a renaming, or both fail at one stage, for a reason of
one kind and at one place. -/
def OutcomeRenamed (ρ : Renaming) :
    Except StageFailure LoweredBody → Except StageFailure LoweredBody → Prop
  | .ok r, .ok r' => r'.sketch id = r.sketch (Variable.rename ρ)
  | .error f, .error f' => f'.key = f.key
  | _, _ => False

/-- The second conversion is the first under new names. -/
structure Conversion.Renamed (ρ : Renaming) (c c' : Conversion) : Prop where
  graph : c'.graph = c.graph.rename ρ
  trace : c'.trace = c.trace.map fun x => (x.1, x.2.rename ρ)
  outcome : OutcomeRenamed ρ c.outcome c'.outcome

/-- Declaring, checking and lowering a renamed graph. -/
theorem DeclarationDraft.finish_rename (o : ConversionSettings) (g : Graph) :
    (finish o (g.rename ρ)).1 = (finish o g).1.rename ρ ∧
      OutcomeRenamed ρ (finish o g).2 (finish o (g.rename ρ)).2 := by
  have hstart : Renamed ρ { graph := g } { graph := g.rename ρ } := ⟨rfl, rfl, rfl⟩
  obtain ⟨hs, hfailure⟩ := hstart.declareAll
  unfold finish
  generalize declareAll { graph := g } = x at hs hfailure
  generalize declareAll { graph := g.rename ρ } = x' at hs hfailure
  obtain ⟨s, f⟩ := x
  obtain ⟨s', f'⟩ := x'
  cases rel_of_map_eq hfailure with
  | some hf => exact ⟨hs.graph, congrArg (Prod.mk Stage.declaring) hf⟩
  | none =>
    have hdefect : (if o.verify then s'.declarations.defect? s'.graph else none).map Failure.key =
        (if o.verify then s.declarations.defect? s.graph else none).map Failure.key := by
      split
      · rw [hs.graph]
        exact hs.declarations.defect s.graph
      · rfl
    dsimp only at hs ⊢
    generalize (if o.verify then s.declarations.defect? s.graph else none) = f at hdefect
    generalize (if o.verify then s'.declarations.defect? s'.graph else none) = f' at hdefect
    cases rel_of_map_eq hdefect with
    | some hf => exact ⟨hs.graph, congrArg (Prod.mk Stage.verifying) hf⟩
    | none =>
      obtain ⟨hbody, hlowered, hfailure⟩ := hs.lower
      dsimp only
      generalize s.lower none = y at hbody hlowered hfailure
      generalize s'.lower none = y' at hbody hlowered hfailure
      obtain ⟨b, s₁, f⟩ := y
      obtain ⟨b', s₁', f'⟩ := y'
      dsimp only at hbody hlowered hfailure
      cases rel_of_map_eq hfailure with
      | some hf =>
        cases hbody with
        | none => exact ⟨hlowered.graph, congrArg (Prod.mk Stage.lowering) hf⟩
        | some hb => exact ⟨hlowered.graph, congrArg (Prod.mk Stage.lowering) hf⟩
      | none =>
        cases hbody with
        | none => exact ⟨hlowered.graph, rfl⟩
        | some hb =>
          refine ⟨hlowered.graph, ?_⟩
          simp only [OutcomeRenamed, LoweredBody.sketch, hlowered.supply, LoweredBody.mk.injEq,
            and_true]
          exact ⟨hb, hlowered.declarations⟩

namespace Conversion

/-- The conversion of a renamed body. -/
theorem run_rename (o : ConversionSettings) (m : MethodBody) :
    (run o m).Renamed ρ (run o (m.mapSymbols ρ.symbols)) := by
  obtain ⟨hanalysis, hfailure⟩ := Analysis.run_rename (ρ := ρ) o m
  unfold run
  generalize Analysis.run o m = x at hanalysis hfailure
  generalize Analysis.run o (m.mapSymbols ρ.symbols) = x' at hanalysis hfailure
  obtain ⟨a, f⟩ := x
  obtain ⟨a', f'⟩ := x'
  obtain rfl : a' = a.rename ρ := hanalysis
  cases rel_of_map_eq hfailure with
  | some hf => exact ⟨rfl, rfl, hf⟩
  | none =>
    obtain ⟨hgraph, houtcome⟩ := DeclarationDraft.finish_rename (ρ := ρ) o a.graph
    exact ⟨hgraph, rfl, houtcome⟩

end Conversion

/-- Names never influence lowering. However the variables and the nested functions of a body are
named, also if names coincide, shadow each other or look like made-up ones, the conversion goes
through the same graphs up to names. It succeeds with the same declarations and the same bodies, but
for the names of the variables of the body, of their copies and fields and of the lowered methods;
or it fails at the same stage and place, for a reason of the same kind. -/
theorem MethodBody.run_named (o : ConversionSettings) (m : MethodBody) (ν ν' : Naming) :
    (Conversion.run o (m.named ν)).Renamed (.exchange ν ν') (Conversion.run o (m.named ν')) := by
  rw [named_eq_rename ν ν' m]
  exact Conversion.run_rename o (m.named ν)

end Unnest
