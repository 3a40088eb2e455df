import Unnest.Conversion
import Unnest.Proofs.Names.Graph

/-!
# The analysis does not look at names

Every stage of the analysis does to a renamed graph what it does to the graph. A stage that fails
finds the same kind of failure at the same place under any names; only its message speaks of them.

## Main definitions

* `Failure.key` : what of a failure does not depend on names.
* `Draft.Renamed` : two drafts that differ by a renaming.

## Main statements

* `Expr.renamed_enter`, `Expr.renamed_collect` and their companions : both walks over a body follow
  its names.
* `Graph.propagate_rename`, `Graph.allocate_rename`, `Graph.assignHosts_rename`,
  `Graph.prune_rename` : so do the stages that work on the graph alone.
* `Analysis.run_rename` : so does the whole analysis.
-/

namespace Unnest

variable {ρ : Renaming}

/-- What of a failure does not depend on names: its kind and its place. -/
def Failure.key (f : Failure) : CauseKind × Loc := (f.kind, f.loc)

/-- Two options that agree on what is looked at are both empty or both full. -/
theorem rel_of_map_eq {α β : Type} {f f' : α → β} {o o' : Option α} (h : o'.map f' = o.map f) :
    Option.Rel (fun a a' => f' a' = f a) o o' := by
  cases o with
  | none =>
    obtain rfl := Option.map_eq_none_iff.mp h
    exact .none
  | some a =>
    obtain ⟨a', rfl, ha⟩ := Option.map_eq_some_iff.mp h
    exact .some ha

theorem isNone_eq_of_rel {α : Type} {R : α → α → Prop} {o o' : Option α} (h : Option.Rel R o o') :
    o'.isNone = o.isNone := by
  cases h <;> rfl

/-! ## Drafts -/

/-- The second draft is the first under new names. -/
structure Draft.Renamed (ρ : Renaming) (d d' : Draft) : Prop where
  graph : d'.graph = d.graph.rename ρ
  failure : d'.failure.map Failure.key = d.failure.map Failure.key

namespace Draft.Renamed

variable {d d' : Draft} (h : d.Renamed ρ d')

include h

theorem isOk_eq : d'.isOk = d.isOk := by
  have hnone := congrArg Option.isNone h.failure
  rwa [Option.isNone_map, Option.isNone_map] at hnone

theorem fail {cause cause' : Cause} (hkind : cause'.kind = cause.kind) (loc : Loc) :
    (d.fail cause loc).Renamed ρ (d'.fail cause' loc) where
  graph := h.graph
  failure := by simp [Draft.fail, Failure.key, Failure.kind, hkind]

theorem failFirst {cause cause' : Cause} (hkind : cause'.kind = cause.kind) (loc : Loc) :
    (d.failFirst cause loc).Renamed ρ (d'.failFirst cause' loc) := by
  rw [Draft.failFirst, Draft.failFirst, h.isOk_eq]
  split
  · exact h.fail hkind loc
  · exact h

theorem modify {f f' : Graph → Graph} (hf : ∀ g : Graph, f' (g.rename ρ) = (f g).rename ρ) :
    (d.modify f).Renamed ρ (d'.modify f') where
  graph := by rw [Draft.modify, h.graph, hf]; rfl
  failure := h.failure

/-! ## Building -/

theorem declare (loc : Loc) (s : ScopeId) (v : Option Variable) :
    (d.declare loc s v).Renamed ρ (d'.declare loc s (v.map (·.rename ρ))) := by
  cases v with
  | none => exact h.fail (by rfl) loc
  | some v =>
    simp only [Draft.declare, Option.map_some, h.graph, Graph.declare_rename]
    cases d.graph.declare? s v with
    | none =>
      change (d.fail _ loc).Renamed ρ (d'.fail _ loc)
      exact h.fail (by rfl) loc
    | some g => exact ⟨rfl, h.failure⟩

theorem params (loc : Loc) (s : ScopeId) (ps : List (Option Variable)) :
    (ps.foldl (fun d p => d.declare loc s p) d).Renamed ρ
      ((ps.map (·.map (·.rename ρ))).foldl (fun d p => d.declare loc s p) d') := by
  induction ps generalizing d d' with
  | nil => exact h
  | cons p ps ih => exact ih (h.declare loc s p)

theorem openFunction (s : ScopeId) (kind : ScopeKind) (loc : Loc) (fn : Option NestedFunction)
    (b : Block) :
    (d.openFunction s kind loc fn b).1.Renamed ρ (d'.openFunction s kind loc
      (fn.map (·.rename ρ)) (b.mapSymbols ρ.symbols)).1 ∧
    (d'.openFunction s kind loc (fn.map (·.rename ρ)) (b.mapSymbols ρ.symbols)).2 =
      (d.openFunction s kind loc fn b).2 := by
  unfold Draft.openFunction
  rw [h.isOk_eq]
  cases d.isOk with
  | false => exact ⟨h, rfl⟩
  | true =>
    cases fn with
    | none => exact ⟨h.fail (by rfl) loc, rfl⟩
    | some f =>
      simp only [if_true, Option.map_some, h.graph, Graph.closureOf_rename]
      cases d.graph.closureOf? f with
      | some c =>
        refine ⟨?_, rfl⟩
        change (d.fail _ loc).Renamed ρ (d'.fail _ loc)
        exact h.fail (by rfl) loc
      | none =>
        simp only [Graph.size_closures_rename, Graph.size_scopes_rename]
        refine ⟨(h.modify fun g => ?_).params loc _ f.params, trivial⟩
        rw [Graph.pushClosure_rename, ← Graph.setBody_rename, ← Graph.pushScope_rename]
        rfl

end Draft.Renamed

mutual

theorem Expr.renamed_enter {s : ScopeId} {d d' : Draft} : (e : Expr) → d.Renamed ρ d' →
    (e.enter s d).Renamed ρ ((e.mapSymbols ρ.symbols).enter s d')
  | .literal .., h | .ref .., h | .self .., h | .functionRef .., h | .newEnv .., h
  | .zero .., h => h
  | .delegate _ none _, h => h
  | .delegate _ (some e) _, h => e.renamed_enter h
  | .assign _ target value, h => value.renamed_enter (target.renamed_enter h)
  | .binary _ _ lhs rhs, h => rhs.renamed_enter (lhs.renamed_enter h)
  | .lambda _ fn body, h => body.renamed_enterBody fn h
  | .localCall _ _ args, h => Expr.renamed_enterAll args h
  | .call _ _ none args, h => Expr.renamed_enterAll args h
  | .call _ _ (some e) args, h => Expr.renamed_enterAll args (e.renamed_enter h)
  | .invoke _ callee args, h => Expr.renamed_enterAll args (callee.renamed_enter h)
  | .field _ receiver _, h => receiver.renamed_enter h

theorem Expr.renamed_enterAll {s : ScopeId} {d d' : Draft} : (es : List Expr) → d.Renamed ρ d' →
    (Expr.enterAll s es d).Renamed ρ (Expr.enterAll s (Expr.mapSymbolsAll ρ.symbols es) d')
  | [], h => h
  | e :: es, h => Expr.renamed_enterAll es (e.renamed_enter h)

theorem Stmt.renamed_enter {s : ScopeId} {d d' : Draft} : (st : Stmt) → d.Renamed ρ d' →
    (st.enter s d).Renamed ρ ((st.mapSymbols ρ.symbols).enter s d')
  | .block b, h => b.renamed_enter h
  | .declare loc none none, h => h.fail (by rfl) loc
  | .declare loc none (some _), h => h.fail (by rfl) loc
  | .declare loc (some v) none, h => h.declare loc s (some v)
  | .declare loc (some v) (some e), h => (e.renamed_enter h).declare loc s (some v)
  | .expr _ value, h => value.renamed_enter h
  | .ret _ none, h => h
  | .ret _ (some e), h => e.renamed_enter h
  | .cond _ test thenBlock none, h => thenBlock.renamed_enter (test.renamed_enter h)
  | .cond _ test thenBlock (some b), h =>
    b.renamed_enter (thenBlock.renamed_enter (test.renamed_enter h))
  | .loop _ test body, h => body.renamed_enter (test.renamed_enter h)
  | .localFunction _ fn body, h => body.renamed_enterBody fn h

theorem Stmt.renamed_enterAll {s : ScopeId} {d d' : Draft} : (ss : List Stmt) → d.Renamed ρ d' →
    (Stmt.enterAll s ss d).Renamed ρ (Stmt.enterAll s (Stmt.mapSymbolsAll ρ.symbols ss) d')
  | [], h => h
  | st :: ss, h => by
    rw [Stmt.mapSymbolsAll, Stmt.enterAll, Stmt.enterAll, h.isOk_eq]
    split
    · exact Stmt.renamed_enterAll ss (st.renamed_enter h)
    · exact h

theorem Block.renamed_enter {s : ScopeId} {d d' : Draft} : (b : Block) → d.Renamed ρ d' →
    (b.enter s d).Renamed ρ ((b.mapSymbols ρ.symbols).enter s d')
  | .mk id loc stmts, h => by
    rw [Block.mapSymbols, Block.enter, Block.enter, h.graph, Graph.size_scopes_rename]
    exact Stmt.renamed_enterAll stmts
      (h.modify fun g => g.pushScope_rename .block (some s) (some (.mk id loc stmts)))

theorem Block.renamed_enterBody {s : ScopeId} {kind : ScopeKind} {loc : Loc} {d d' : Draft} :
    (b : Block) → (fn : Option NestedFunction) → d.Renamed ρ d' →
    (b.enterBody s kind loc fn d).Renamed ρ
      ((b.mapSymbols ρ.symbols).enterBody s kind loc (fn.map (·.rename ρ)) d')
  | .mk id blockLoc stmts, fn, h => by
    obtain ⟨hopen, hinner⟩ := h.openFunction s kind loc fn (.mk id blockLoc stmts)
    rw [Block.mapSymbols] at hopen hinner ⊢
    rw [Block.enterBody, Block.enterBody]
    generalize d.openFunction s kind loc fn (.mk id blockLoc stmts) = x at hopen hinner ⊢
    generalize d'.openFunction s kind loc (fn.map (·.rename ρ))
      (.mk id blockLoc (Stmt.mapSymbolsAll ρ.symbols stmts)) = x' at hopen hinner ⊢
    obtain ⟨e, inner⟩ := x
    obtain ⟨e', inner'⟩ := x'
    obtain rfl : inner' = inner := hinner
    cases inner' with
    | none => exact hopen
    | some inner => exact Stmt.renamed_enterAll stmts hopen

end

theorem Draft.Renamed.enterMethod {d d' : Draft} (h : d.Renamed ρ d') (method : Method)
    (b : Block) : (d.enterMethod method b).Renamed ρ
      (d'.enterMethod (ρ.symbols.method method) (b.mapSymbols ρ.symbols)) := by
  have hroot : (d.modify (·.pushScope .methodBody none (some b))).Renamed ρ
      (d'.modify (·.pushScope .methodBody none (some (b.mapSymbols ρ.symbols)))) :=
    h.modify fun g => g.pushScope_rename .methodBody none (some b)
  unfold Draft.enterMethod
  rw [Block.stmts_mapSymbols, Block.loc_mapSymbols]
  refine Stmt.renamed_enterAll b.stmts (params ?_ b.loc Graph.root method.params)
  rw [hroot.graph, Graph.receiver_rename]
  cases (d.modify (·.pushScope .methodBody none (some b))).graph.receiver with
  | none => exact hroot
  | some r => exact hroot.declare b.loc Graph.root (some r)

theorem Draft.Renamed.build {d d' : Draft} (h : d.Renamed ρ d') :
    d.build.Renamed ρ d'.build := by
  have hempty : (d.graph.rename ρ).scopes.isEmpty = d.graph.scopes.isEmpty := by
    rw [Array.isEmpty, Graph.size_scopes_rename, Array.isEmpty]
  unfold Draft.build
  rw [h.graph, hempty]
  split
  · have hmethod : (d.graph.rename ρ).body.method =
        d.graph.body.method.map ρ.symbols.method := rfl
    have hblock : (d.graph.rename ρ).body.block =
        d.graph.body.block.map (Block.mapSymbols ρ.symbols) := rfl
    rw [hmethod, hblock]
    rcases d.graph.body.method with _ | method
    · exact h.fail (by rfl) {}
    · rcases d.graph.body.block with _ | b
      · exact h.fail (by rfl) {}
      · exact h.enterMethod method b
  · exact h.fail (by rfl) {}

/-! ## Collecting -/

/-- Two ways to walk into closures that follow the names. -/
def Follows (ρ : Renaming) (enter enter' : ClosureId → Draft → Draft) : Prop :=
  ∀ c d d', d.Renamed ρ d' → (enter c d).Renamed ρ (enter' c d')

namespace Draft.Renamed

variable {d d' : Draft} (h : d.Renamed ρ d') {p : Place}

include h

theorem depend (c : ClosureId) : (d.depend p c).Renamed ρ (d'.depend p c) := by
  unfold Draft.depend
  split
  · exact h.modify fun g => Graph.modifyClosure_rename fun _ => rfl
  · exact h

theorem refer (loc : Loc) (v : Option Variable) :
    (d.refer p loc v).Renamed ρ (d'.refer p loc (v.map (·.rename ρ))) := by
  cases v with
  | none => exact h.failFirst (by rfl) loc
  | some v =>
    simp only [Draft.refer, Option.map_some, h.graph, Graph.declaringScope_rename,
      Graph.encloses_rename, Graph.bodyDeclares_rename]
    cases d.graph.declaringScope? v with
    | none =>
      change (d.failFirst _ loc).Renamed ρ (d'.failFirst _ loc)
      exact h.failFirst (by rfl) loc
    | some s =>
      simp only
      split
      · cases p.closure with
        | none => exact h
        | some c =>
          simp only
          split
          · exact h
          · refine h.modify fun g => Graph.modifyClosure_rename fun cl => ?_
            simp only [Closure.rename, OrderedSet.rename_insert]
      · exact h.failFirst (by rfl) loc

theorem callee_eq (fn : Option NestedFunction) :
    d'.callee? (fn.map (·.rename ρ)) = d.callee? fn := by
  cases fn with
  | none => rfl
  | some f => simp only [Draft.callee?, Option.map_some, Option.bind_some, h.graph,
      Graph.closureOf_rename]

theorem unknownFunction (loc : Loc) (fn : Option NestedFunction) :
    (d.unknownFunction loc fn).Renamed ρ (d'.unknownFunction loc (fn.map (·.rename ρ))) :=
  h.failFirst (by rfl) loc

theorem enterClosure {enter enter' : ClosureId → Draft → Draft} (henter : Follows ρ enter enter')
    (loc : Loc) (fn : Option NestedFunction) : (d.enterClosure enter p loc fn).Renamed ρ
      (d'.enterClosure enter' p loc (fn.map (·.rename ρ))) := by
  unfold Draft.enterClosure
  rw [h.callee_eq]
  split
  · exact henter _ _ _ (h.depend _)
  · exact h.failFirst (by rfl) loc

end Draft.Renamed

variable {enter enter' : ClosureId → Draft → Draft}

mutual

theorem Expr.renamed_collect {p : Place} {d d' : Draft} (henter : Follows ρ enter enter') :
    (e : Expr) → d.Renamed ρ d' →
    (e.collect enter p d).Renamed ρ ((e.mapSymbols ρ.symbols).collect enter' p d')
  | .literal .., h | .newEnv .., h | .zero .., h => h
  | .ref loc target, h => h.refer loc target
  | .self loc _, h => by
    -- `collect` has no equation for a single constructor, so its cases are opened by hand.
    change (match d.graph.receiver with
      | some r => d.refer p loc (some r)
      | none => d.failFirst .receiverInStaticMethod loc).Renamed ρ (match d'.graph.receiver with
      | some r => d'.refer p loc (some r)
      | none => d'.failFirst .receiverInStaticMethod loc)
    rw [h.graph, Graph.receiver_rename]
    cases d.graph.receiver with
    | none => exact h.failFirst (by rfl) loc
    | some r => exact h.refer loc (some r)
  | .delegate _ none _, h => h
  | .delegate _ (some e) _, h => e.renamed_collect henter h
  | .assign _ target value, h => value.renamed_collect henter (target.renamed_collect henter h)
  | .binary _ _ lhs rhs, h => rhs.renamed_collect henter (lhs.renamed_collect henter h)
  | .lambda loc fn _, h => h.enterClosure henter loc fn
  | .functionRef loc fn, h => by
    let name (c : ClosureId) (g : Graph) :=
      g.modifyClosure c fun cl => { cl with isDelegate := true }
    change (match d.callee? fn with
      | some c => (d.modify (name c)).depend p c
      | none => d.unknownFunction loc fn).Renamed ρ
        (match d'.callee? (fn.map (NestedFunction.rename ρ)) with
        | some c => (d'.modify (name c)).depend p c
        | none => d'.unknownFunction loc (fn.map (NestedFunction.rename ρ)))
    rw [h.callee_eq]
    cases d.callee? fn with
    | none => exact h.unknownFunction loc fn
    | some c =>
      have hname (g : Graph) : name c (g.rename ρ) = (name c g).rename ρ :=
        Graph.modifyClosure_rename fun _ => rfl
      exact (h.modify hname).depend c
  | .localCall loc fn args, h => by
    change (match d.callee? (some fn) with
      | some c => Expr.collectAll enter p args (d.depend p c)
      | none => d.unknownFunction loc (some fn)).Renamed ρ
        (match d'.callee? ((some fn).map (NestedFunction.rename ρ)) with
        | some c => Expr.collectAll enter' p (Expr.mapSymbolsAll ρ.symbols args) (d'.depend p c)
        | none => d'.unknownFunction loc ((some fn).map (NestedFunction.rename ρ)))
    rw [h.callee_eq]
    cases d.callee? (some fn) with
    | none => exact h.unknownFunction loc (some fn)
    | some c => exact Expr.renamed_collectAll henter args (h.depend c)
  | .call _ _ none args, h => Expr.renamed_collectAll henter args h
  | .call _ _ (some e) args, h => Expr.renamed_collectAll henter args (e.renamed_collect henter h)
  | .invoke _ callee args, h =>
    Expr.renamed_collectAll henter args (callee.renamed_collect henter h)
  | .field _ receiver _, h => receiver.renamed_collect henter h

theorem Expr.renamed_collectAll {p : Place} {d d' : Draft} (henter : Follows ρ enter enter') :
    (es : List Expr) → d.Renamed ρ d' →
    (Expr.collectAll enter p es d).Renamed ρ
      (Expr.collectAll enter' p (Expr.mapSymbolsAll ρ.symbols es) d')
  | [], h => h
  | e :: es, h => Expr.renamed_collectAll henter es (e.renamed_collect henter h)

theorem Stmt.renamed_collect {p : Place} {d d' : Draft} (henter : Follows ρ enter enter') :
    (s : Stmt) → d.Renamed ρ d' →
    (s.collect enter p d).Renamed ρ ((s.mapSymbols ρ.symbols).collect enter' p d')
  | .block b, h => b.renamed_collect henter h
  | .declare _ _ none, h => h
  | .declare _ _ (some e), h => e.renamed_collect henter h
  | .expr _ value, h => value.renamed_collect henter h
  | .ret _ none, h => h
  | .ret _ (some e), h => e.renamed_collect henter h
  | .cond _ test thenBlock none, h =>
    thenBlock.renamed_collect henter (test.renamed_collect henter h)
  | .cond _ test thenBlock (some b), h =>
    b.renamed_collect henter (thenBlock.renamed_collect henter (test.renamed_collect henter h))
  | .loop _ test body, h => body.renamed_collect henter (test.renamed_collect henter h)
  | .localFunction loc fn _, h => h.enterClosure henter loc fn

theorem Stmt.renamed_collectAll {p : Place} {d d' : Draft} (henter : Follows ρ enter enter') :
    (ss : List Stmt) → d.Renamed ρ d' →
    (Stmt.collectAll enter p ss d).Renamed ρ
      (Stmt.collectAll enter' p (Stmt.mapSymbolsAll ρ.symbols ss) d')
  | [], h => h
  | s :: ss, h => by
    rw [Stmt.mapSymbolsAll, Stmt.collectAll, Stmt.collectAll, h.isOk_eq]
    split
    · exact Stmt.renamed_collectAll henter ss (s.renamed_collect henter h)
    · exact h

theorem Block.renamed_collect {p : Place} {d d' : Draft} (henter : Follows ρ enter enter') :
    (b : Block) → d.Renamed ρ d' →
    (b.collect enter p d).Renamed ρ ((b.mapSymbols ρ.symbols).collect enter' p d')
  | .mk id loc stmts, h => by
    rw [Block.mapSymbols, Block.collect, Block.collect, h.graph, Graph.scopeOf_rename]
    cases d.graph.scopeOf? id with
    | none => exact h.failFirst (by rfl) loc
    | some s => exact Stmt.renamed_collectAll henter stmts h

end

namespace Draft.Renamed

theorem collectClosure (depth : Nat) :
    Follows ρ (Draft.collectClosure depth) (Draft.collectClosure depth) := by
  induction depth with
  | zero => exact fun c d d' h => h
  | succ depth ih =>
    intro c d d' h
    simp only [Draft.collectClosure, h.graph, Graph.bodyScope_rename, Graph.scope_rename,
      Scope.rename]
    cases (d.graph.scope (d.graph.closure c).body).block with
    | none => exact h
    | some b =>
      simp only [Option.map_some, Block.stmts_mapSymbols]
      exact Stmt.renamed_collectAll ih b.stmts h

theorem collect {d d' : Draft} (h : d.Renamed ρ d') : d.collect.Renamed ρ d'.collect := by
  unfold Draft.collect
  rw [h.graph, Graph.size_closures_rename,
    show (d.graph.rename ρ).body.block = d.graph.body.block.map (·.mapSymbols ρ.symbols) from rfl]
  cases d.graph.body.block with
  | none => exact h
  | some b =>
    simp only [Option.map_some, Block.stmts_mapSymbols]
    exact Stmt.renamed_collectAll (collectClosure _) b.stmts h

end Draft.Renamed

/-! ## Propagating -/

namespace Graph

variable {g : Graph}

@[simp] theorem dependents_rename (c : ClosureId) :
    (g.rename ρ).dependents c = g.dependents c := by
  simp only [dependents, size_closures_rename, dependencies_rename]

theorem inherited_rename (caller callee : ClosureId) :
    (g.rename ρ).inherited caller callee = (g.inherited caller callee).map (·.rename ρ) := by
  simp only [inherited, captured_rename, OrderedSet.toList_rename, List.filter_map,
    Function.comp_def, bodyDeclares_rename]

@[simp] theorem capturing_rename : (g.rename ρ).capturing = g.capturing := by
  simp only [capturing, size_closures_rename, captured_rename, OrderedSet.isEmpty_rename]

end Graph

namespace Propagation

def rename (ρ : Renaming) (p : Propagation) : Propagation := { p with graph := p.graph.rename ρ }

theorem handOn_rename (callee : ClosureId) (p : Propagation) (caller : ClosureId) :
    handOn callee (p.rename ρ) caller = (handOn callee p caller).rename ρ := by
  have hall : ((p.graph.inherited caller callee).map (·.rename ρ)).all
      (· ∈ ((p.graph.rename ρ).closure caller).captured) =
        (p.graph.inherited caller callee).all (· ∈ (p.graph.closure caller).captured) := by
    simp only [List.all_map, Function.comp_def, Graph.captured_rename, OrderedSet.mem_rename]
  have hmod : (p.graph.rename ρ).modifyClosure caller (fun cl => { cl with
        captured := cl.captured.insertAll
          ((p.graph.inherited caller callee).map (·.rename ρ)) }) =
      (p.graph.modifyClosure caller fun cl => { cl with
        captured := cl.captured.insertAll (p.graph.inherited caller callee) }).rename ρ :=
    Graph.modifyClosure_rename fun cl => by
      simp only [Closure.rename, OrderedSet.rename_insertAll]
  simp only [handOn, show (p.rename ρ).graph = p.graph.rename ρ from rfl,
    Graph.inherited_rename, hall, hmod]
  split <;> rfl

theorem visit_rename (p : Propagation) (callee : ClosureId) :
    (p.rename ρ).visit callee = (p.visit callee).rename ρ := by
  have hfold (l : List ClosureId) (p : Propagation) :
      l.foldl (handOn callee) (p.rename ρ) = (l.foldl (handOn callee) p).rename ρ := by
    induction l generalizing p with
    | nil => rfl
    | cons c l ih => rw [List.foldl_cons, handOn_rename, ih, List.foldl_cons]
  simp only [visit, rename, Graph.dependents_rename]
  exact hfold _ { p with visits := p.visits + 1 }

theorem visitAll_rename (bound : Nat) (cs : List ClosureId) (p : Propagation) :
    visitAll bound cs (p.rename ρ) = (visitAll bound cs p).rename ρ := by
  induction cs generalizing p with
  | nil => rfl
  | cons c cs ih =>
    simp only [visitAll, show (p.rename ρ).visits = p.visits from rfl, visit_rename, ih]
    split <;> rfl

theorem run_rename (bound fuel : Nat) (p : Propagation) :
    run bound fuel (p.rename ρ) = (run bound fuel p).rename ρ := by
  induction fuel generalizing p with
  | zero => rfl
  | succ fuel ih =>
    have hround := visitAll_rename (ρ := ρ) bound p.next.toList
      { p with next := ∅, rounds := p.rounds + 1 }
    -- A round starts from an empty list of closures, which has nothing to rename.
    change (if p.next.isEmpty then p.rename ρ else
      let q := visitAll bound p.next.toList ({ p with next := ∅, rounds := p.rounds + 1 }.rename ρ)
      if q.exceeded then q else run bound fuel q) = _
    rw [hround, run]
    generalize visitAll bound p.next.toList { p with next := ∅, rounds := p.rounds + 1 } = q
    simp only [show (q.rename ρ).exceeded = q.exceeded from rfl, ih]
    split_ifs <;> rfl

end Propagation

namespace Graph

variable {g : Graph}

theorem propagate_rename (bound : Nat) :
    (g.rename ρ).propagate bound = ((g.propagate bound).1.rename ρ, (g.propagate bound).2) := by
  have hbound : (g.rename ρ).visitBound bound = g.visitBound bound := by
    simp only [visitBound, size_closures_rename]
  have hrun : (g.rename ρ).propagation bound = (g.propagation bound).rename ρ := by
    simp only [propagation, hbound, capturing_rename]
    exact Propagation.run_rename _ _ { graph := g, next := g.capturing }
  simp only [propagate, hrun, hbound]
  rfl

theorem markReceiverCaptures_rename :
    (g.rename ρ).markReceiverCaptures = g.markReceiverCaptures.rename ρ := by
  refine mapClosures_rename fun cl => ?_
  have hany : (g.rename ρ).receiver.any (· ∈ (cl.rename ρ).captured) =
      g.receiver.any (· ∈ cl.captured) := by
    rw [receiver_rename]
    cases g.receiver <;> simp [Closure.rename]
  rw [hany]
  rfl

end Graph

theorem Draft.Renamed.findCaptures {d d' : Draft} (h : d.Renamed ρ d') :
    d.findCaptures.Renamed ρ d'.findCaptures := by
  have hcollect := h.collect
  simp only [Draft.findCaptures, hcollect.isOk_eq, hcollect.graph, Graph.propagate_rename]
  cases d.collect.isOk with
  | false => exact hcollect
  | true =>
    rcases d.collect.graph.propagate 0 with ⟨g, _ | f⟩
    · exact ⟨Graph.markReceiverCaptures_rename, hcollect.failure⟩
    · exact ⟨rfl, rfl⟩

/-! ## Environments -/

namespace Graph

variable {g : Graph}

theorem hoistedVariables_rename (s : ScopeId) :
    (g.rename ρ).hoistedVariables s = (g.hoistedVariables s).map (·.rename ρ) := by
  simp only [hoistedVariables, scope_rename, Scope.rename, OrderedSet.toList_rename,
    List.filter_map, Function.comp_def]
  congr 1
  refine List.filter_congr fun v _ => ?_
  simp only [rename, Array.any_map, Function.comp_def, Closure.rename, OrderedSet.mem_rename]

theorem readsAny_rename (cl : Closure) (vs : List Variable) :
    (cl.rename ρ).readsAny (vs.map (·.rename ρ)) = cl.readsAny vs := by
  simp only [Closure.readsAny, Closure.rename, List.any_map, Function.comp_def,
    OrderedSet.mem_rename]

theorem envKindFor_rename (vs : List Variable) :
    (g.rename ρ).envKindFor (vs.map (·.rename ρ)) = g.envKindFor vs := by
  have hall : (g.rename ρ).closures.all
      (fun c => !c.readsAny (vs.map (·.rename ρ)) || c.takesReferences) =
        g.closures.all fun c => !c.readsAny vs || c.takesReferences := by
    simp only [rename, Array.all_map, Function.comp_def, readsAny_rename,
      Closure.takesReferences_rename]
  rw [envKindFor, hall, envKindFor]

theorem allocateScope_rename (s : ScopeId) :
    (g.rename ρ).allocateScope s = (g.allocateScope s).rename ρ := by
  simp only [allocateScope, hoistedVariables_rename, List.isEmpty_map, envKindFor_rename,
    size_envs_rename, pushEnv_rename]
  split
  · rfl
  · rw [modifyEnv_rename (f := fun env =>
      { env with vars := env.vars.insertAll (g.hoistedVariables s) }) fun env => by
        simp only [Environment.rename, OrderedSet.rename_insertAll]]
    refine mapClosures_rename fun cl => ?_
    rw [readsAny_rename]
    split <;> rfl

theorem allocate_rename : (g.rename ρ).allocate = g.allocate.map (·.rename ρ) := by
  have hfold (l : List ScopeId) (g : Graph) :
      l.foldl allocateScope (g.rename ρ) = (l.foldl allocateScope g).rename ρ := by
    induction l generalizing g with
    | nil => rfl
    | cons s l ih => rw [List.foldl_cons, allocateScope_rename, ih, List.foldl_cons]
  have hempty : (g.rename ρ).envs.isEmpty = g.envs.isEmpty := by
    rw [Array.isEmpty, size_envs_rename, Array.isEmpty]
  rw [allocate, hempty, preorder_rename, hfold, allocate]
  split <;> rfl

/-! ## Hosts -/

theorem nearestHost_rename (c : ClosureId) :
    (g.rename ρ).nearestHost? ((g.rename ρ).closure c) = g.nearestHost? (g.closure c) := by
  have hhome : ((g.rename ρ).closure c).home = (g.closure c).home :=
    proj_closure_rename (fun _ => rfl) c
  have henvs : ((g.rename ρ).closure c).envs = (g.closure c).envs :=
    proj_closure_rename (fun _ => rfl) c
  simp only [nearestHost?, hhome, henvs, ancestors_rename, scope_rename, env_rename, Scope.rename,
    Environment.isValue_rename]

theorem markParent_rename (e : EnvId) :
    (g.rename ρ).modifyEnv e (fun env => { env with needsParent := true }) =
      (g.modifyEnv e fun env => { env with needsParent := true }).rename ρ :=
  modifyEnv_rename fun _ => rfl

theorem linkTargets_rename (fuel : Nat) (e : EnvId) (targets : List EnvId) :
    linkTargets fuel e targets (g.rename ρ) =
      ((linkTargets fuel e targets g).1.rename ρ, (linkTargets fuel e targets g).2) := by
  induction fuel generalizing g e targets with
  | zero => cases targets <;> rfl
  | succ fuel ih =>
    cases targets with
    | nil => rfl
    | cons t targets =>
      simp only [linkTargets, markParent_rename, runtimeParent_rename]
      cases (g.modifyEnv e fun env => { env with needsParent := true }).runtimeParent? e with
      | none => rfl
      | some parent => exact ih parent _

theorem linkReceiver_rename (c : ClosureId) :
    (g.rename ρ).linkReceiver c = (g.linkReceiver c).rename ρ := by
  have hcaptures : ((g.rename ρ).closure c).capturesReceiver = (g.closure c).capturesReceiver :=
    proj_closure_rename (fun _ => rfl) c
  simp only [linkReceiver, receiverEnv_rename, hcaptures, env_rename, Environment.isValue_rename]
  cases g.receiverEnv? with
  | none => rfl
  | some e =>
    simp only
    split
    · exact markParent_rename e
    · rfl

/-- A graph and a failure that differ from others by a renaming. -/
def StageRenamed (ρ : Renaming) (x x' : Graph × Option Failure) : Prop :=
  x'.1 = x.1.rename ρ ∧ x'.2.map Failure.key = x.2.map Failure.key

theorem hostClosure_rename (c : ClosureId) :
    StageRenamed ρ (g.hostClosure c) ((g.rename ρ).hostClosure c) := by
  have hmod (host : Option EnvId) : (g.rename ρ).modifyClosure c (fun cl => { cl with host }) =
      (g.modifyClosure c fun cl => { cl with host }).rename ρ :=
    modifyClosure_rename fun _ => rfl
  simp only [hostClosure, nearestHost_rename, hmod]
  cases g.nearestHost? (g.closure c) with
  | none => exact ⟨rfl, rfl⟩
  | some e =>
    generalize g.modifyClosure c (fun cl => { cl with host := some e }) = g₁
    have hhosted : (g₁.rename ρ).modifyEnv e (fun env =>
        { env with closures := env.closures ++ [c] }) =
        (g₁.modifyEnv e fun env => { env with closures := env.closures ++ [c] }).rename ρ :=
      modifyEnv_rename fun _ => rfl
    simp only [hhosted]
    generalize g₁.modifyEnv e (fun env => { env with closures := env.closures ++ [c] }) = g₂
    have henvs : ((g₂.rename ρ).closure c).envs = (g₂.closure c).envs :=
      proj_closure_rename (fun _ => rfl) c
    simp only [henvs, env_rename, Environment.isValue_rename, size_envs_rename, linkTargets_rename]
    rcases linkTargets g₂.envs.size e _ g₂ with ⟨g₃, _ | ⟨t, ts⟩⟩
    · exact ⟨linkReceiver_rename c, rfl⟩
    · -- The function is named in the message only.
      refine ⟨rfl, ?_⟩
      simp [Failure.key, Failure.kind, Cause.kind]

theorem assignHosts_rename : StageRenamed ρ g.assignHosts (g.rename ρ).assignHosts := by
  have hall (cs : List ClosureId) (g : Graph) :
      StageRenamed ρ (hostClosures cs g) (hostClosures cs (g.rename ρ)) := by
    induction cs generalizing g with
    | nil => exact ⟨rfl, rfl⟩
    | cons c cs ih =>
      obtain ⟨hgraph, hfailure⟩ := g.hostClosure_rename (ρ := ρ) c
      rw [hostClosures, hostClosures]
      generalize g.hostClosure c = x at hgraph hfailure
      generalize (g.rename ρ).hostClosure c = x' at hgraph hfailure
      obtain ⟨g₁, o⟩ := x
      obtain ⟨g₁', o'⟩ := x'
      obtain rfl : g₁' = g₁.rename ρ := hgraph
      cases rel_of_map_eq hfailure with
      | none => exact ih g₁
      | some hf => exact ⟨rfl, congrArg some hf⟩
  rw [assignHosts, assignHosts, size_closures_rename]
  exact hall _ g

/-! ## Pruning -/

theorem detachEnv_rename (e : EnvId) :
    (g.rename ρ).detachEnv e = (g.detachEnv e).rename ρ := by
  simp only [detachEnv, env_rename]
  rw [modifyEnv_rename (f := fun env => { env with removed := true, closures := [] }) fun _ => rfl,
    modifyScope_rename (f := fun s => { s with env := none }) fun _ => rfl]
  exact mapClosures_rename fun _ => rfl

theorem unhost_rename (cs : List ClosureId) : (g.rename ρ).unhost cs = (g.unhost cs).rename ρ := by
  induction cs generalizing g with
  | nil => rfl
  | cons c cs ih =>
    rw [unhost, List.foldl_cons,
      modifyClosure_rename (f := fun cl => { cl with host := none }) fun _ => rfl]
    exact ih

theorem pruneEnv_rename (e : EnvId) :
    (g.rename ρ).pruneEnv? e = (g.pruneEnv? e).map (·.rename ρ) := by
  have hany : (g.rename ρ).closures.any (fun c => decide (e ∈ c.envs) && c.host.isSome) =
      g.closures.any fun c => decide (e ∈ c.envs) && c.host.isSome := by
    simp only [rename, Array.any_map]
    rfl
  have hremoved : ((g.env e).rename ρ).removed = (g.env e).removed := rfl
  have hclosures : ((g.env e).rename ρ).closures = (g.env e).closures := rfl
  simp only [pruneEnv?, env_rename, Environment.isValue_rename, hremoved, hclosures,
    Environment.isReceiverOnly_rename, hany, unhost_rename, detachEnv_rename]
  split_ifs <;> rfl

theorem prune_rename : (g.rename ρ).prune = (g.prune.1.rename ρ, g.prune.2) := by
  have hsweep (es : List EnvId) (g : Graph) (n : Nat) :
      sweep es (g.rename ρ, n) = ((sweep es (g, n)).1.rename ρ, (sweep es (g, n)).2) := by
    induction es generalizing g n with
    | nil => rfl
    | cons e es ih =>
      rw [sweep, pruneEnv_rename, sweep]
      cases g.pruneEnv? e with
      | none => exact ih g n
      | some g => exact ih g (n + 1)
  have hsweeps (fuel : Nat) (g : Graph) (n : Nat) :
      sweeps fuel (g.rename ρ, n) = ((sweeps fuel (g, n)).1.rename ρ, (sweeps fuel (g, n)).2) := by
    induction fuel generalizing g n with
    | zero => rfl
    | succ fuel ih =>
      simp only [sweeps, size_envs_rename, hsweep]
      split
      · rfl
      · exact ih _ _
  rw [prune, size_envs_rename]
  exact hsweeps _ g 0

end Graph

/-! ## The whole analysis -/

def Analysis.rename (ρ : Renaming) (a : Analysis) : Analysis where
  graph := a.graph.rename ρ
  trace := a.trace.map fun x => (x.1, x.2.rename ρ)

/-- What of the failure of a stage does not depend on names. -/
def StageFailure.key (f : StageFailure) : Stage × CauseKind × Loc := (f.stage, f.failure.key)

namespace Analysis

open Unnest.Graph (StageRenamed)

/-- An analysis and a failure that differ from others by a renaming. -/
def Renamed (ρ : Renaming) (x x' : Analysis × Option StageFailure) : Prop :=
  x'.1 = x.1.rename ρ ∧ x'.2.map StageFailure.key = x.2.map StageFailure.key

theorem step_rename {run : Graph → Graph × Option Failure} (stage : Stage) (a : Analysis)
    (h : StageRenamed ρ (run a.graph) (run (a.graph.rename ρ))) :
    Renamed ρ (a.step stage run) ((a.rename ρ).step stage run) := by
  obtain ⟨hgraph, hfailure⟩ := h
  simp only [step, show (a.rename ρ).graph = a.graph.rename ρ from rfl]
  generalize run a.graph = x at hgraph hfailure
  generalize run (a.graph.rename ρ) = x' at hgraph hfailure
  obtain ⟨g, o⟩ := x
  obtain ⟨g', o'⟩ := x'
  obtain rfl : g' = g.rename ρ := hgraph
  cases rel_of_map_eq hfailure with
  | none =>
    refine ⟨?_, rfl⟩
    simp [rename]
  | some hf => exact ⟨rfl, congrArg (fun k => some (stage, k)) hf⟩

theorem steps_rename (stages : List (Stage × (Graph → Graph × Option Failure)))
    (h : ∀ x ∈ stages, ∀ g, StageRenamed ρ (x.2 g) (x.2 (g.rename ρ))) (a : Analysis) :
    Renamed ρ (steps stages a) (steps stages (a.rename ρ)) := by
  induction stages generalizing a with
  | nil => exact ⟨rfl, rfl⟩
  | cons x stages ih =>
    obtain ⟨stage, run⟩ := x
    obtain ⟨hrenamed, hfailure⟩ :=
      step_rename stage a (h (stage, run) List.mem_cons_self a.graph)
    rw [steps, steps]
    generalize a.step stage run = x at hrenamed hfailure
    generalize (a.rename ρ).step stage run = x' at hrenamed hfailure
    obtain ⟨a₁, o⟩ := x
    obtain ⟨a₁', o'⟩ := x'
    obtain rfl : a₁' = a₁.rename ρ := hrenamed
    cases rel_of_map_eq hfailure with
    | none => exact ih (fun y hy => h y (List.mem_cons_of_mem _ hy)) a₁
    | some hf => exact ⟨rfl, congrArg some hf⟩

theorem stages_rename (o : ConversionSettings) :
    ∀ x ∈ stages o, ∀ g, StageRenamed ρ (x.2 g) (x.2 (g.rename ρ)) := by
  intro x hx g
  have hstart : Draft.Renamed ρ { graph := g } { graph := g.rename ρ } := ⟨rfl, rfl⟩
  have hallocate : StageRenamed ρ (allocateStage g) (allocateStage (g.rename ρ)) := by
    rw [allocateStage, allocateStage, Graph.allocate_rename]
    cases g.allocate <;> exact ⟨rfl, rfl⟩
  have hprune : StageRenamed ρ (g.prune.1, none) ((g.rename ρ).prune.1, none) := by
    rw [Graph.prune_rename]
    exact ⟨rfl, rfl⟩
  simp only [stages, List.mem_append, List.mem_cons, List.not_mem_nil, or_false] at hx
  rcases hx with (rfl | rfl | rfl | rfl) | hx
  · exact ⟨hstart.build.graph, hstart.build.failure⟩
  · exact ⟨hstart.findCaptures.graph, hstart.findCaptures.failure⟩
  · exact hallocate
  · exact Graph.assignHosts_rename
  · split at hx
    · rw [List.mem_singleton] at hx
      exact hx ▸ hprune
    · exact nomatch hx

/-- The analysis of a renamed body: the same graph in new names after each stage, and the same
failure or none. -/
theorem run_rename (o : ConversionSettings) (m : MethodBody) :
    Renamed ρ (run o m) (run o (m.mapSymbols ρ.symbols)) := by
  rw [run, run, Graph.ofBody_rename]
  exact steps_rename _ (stages_rename o) { graph := Graph.ofBody m }

end Analysis

end Unnest
