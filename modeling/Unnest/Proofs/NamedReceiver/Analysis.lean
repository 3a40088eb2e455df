import Unnest.Conversion
import Unnest.Proofs.NamedReceiver.Graph

/-!
# The analysis does not tell the receiver from its name

A reference to the receiver's variable is noted as the receiver itself would be. Two bodies that
differ in the way they refer to the receiver are therefore analysed in step: the walks over the
bodies note the same captures in the same order, and the stages that work on the graph alone do not
look at statements.

## Main definitions

* `Draft.NamesSelf` : two drafts that differ in the way their statements refer to the receiver.
* `MethodBody.NamesSelf` : two bodies that do.

## Main statements

* `Expr.NamesSelf.enter`, `Expr.NamesSelf.collect` and their companions : both walks over a body
  keep in step.
* `Graph.propagate_refill`, `Graph.allocate_refill`, `Graph.assignHosts_refill`,
  `Graph.prune_refill` : the other stages do not look at statements.
* `Analysis.run_namesSelf` : the whole analysis keeps in step.
-/

namespace Unnest

variable {r : Variable}

/-! ## Drafts -/

/-- The second draft is the first one with the receiver, which is `r`, written so in some
statements. -/
structure Draft.NamesSelf (r : Variable) (d d' : Draft) : Prop where
  graph : d.graph.NamesSelf r d'.graph
  receiver : d.graph.receiver = some r
  failure : d'.failure = d.failure

namespace Draft.NamesSelf

variable {d d' : Draft} (h : d.NamesSelf r d')

include h

theorem isOk_eq : d'.isOk = d.isOk := by rw [Draft.isOk, h.failure, Draft.isOk]

theorem size_eq : d'.graph.scopes.size = d.graph.scopes.size :=
  h.graph.eq_of_refill (π := fun g => g.scopes.size) fun _ _ _ => Graph.size_scopes_refill

theorem fail (cause : Cause) (loc : Loc) :
    (d.fail cause loc).NamesSelf r (d'.fail cause loc) := ⟨h.graph, h.receiver, rfl⟩

theorem failFirst (cause : Cause) (loc : Loc) :
    (d.failFirst cause loc).NamesSelf r (d'.failFirst cause loc) := by
  rw [Draft.failFirst, Draft.failFirst, h.isOk_eq]
  split
  · exact h.fail cause loc
  · exact h

theorem modify {P : Graph → Graph} (hP : ∀ (g : Graph) (b : Option Block)
    (f : ScopeId → List Stmt), P (g.refill b f) = (P g).refill b f)
    (hreceiver : ∀ g, (P g).receiver = g.receiver := by exact fun _ => rfl) :
    (d.modify P).NamesSelf r (d'.modify P) :=
  ⟨h.graph.map hP, (hreceiver _).trans h.receiver, h.failure⟩

theorem pushScope (kind : ScopeKind) (p : Option ScopeId) {b b' : Block}
    (hb : b.NamesSelf r b') : (d.modify (·.pushScope kind p (some b))).NamesSelf r
      (d'.modify (·.pushScope kind p (some b'))) where
  graph := h.graph.pushScope kind p hb
  receiver := by
    rw [← h.receiver]
    cases p <;> rfl
  failure := h.failure

/-! ## Building -/

theorem declare (loc : Loc) (s : ScopeId) (v : Option Variable) :
    (d.declare loc s v).NamesSelf r (d'.declare loc s v) := by
  cases v with
  | none => exact h.fail _ loc
  | some v =>
    have hdeclaring : d'.graph.declaringScope? v = d.graph.declaringScope? v :=
      h.graph.eq_of_refill (π := fun g => g.declaringScope? v) fun _ _ _ =>
        Graph.declaringScope_refill v
    simp only [Draft.declare, Graph.declare?, hdeclaring]
    cases d.graph.declaringScope? v with
    | none =>
      exact h.modify (P := fun g => g.modifyScope s fun sc => { sc with vars := sc.vars.insert v })
        fun _ _ _ => Graph.modifyScope_refill s fun _ _ => rfl
    | some t => exact h.fail _ loc

theorem params (loc : Loc) (s : ScopeId) (ps : List (Option Variable)) :
    (ps.foldl (fun d p => d.declare loc s p) d).NamesSelf r
      (ps.foldl (fun d p => d.declare loc s p) d') := by
  induction ps generalizing d d' with
  | nil => exact h
  | cons p ps ih => exact ih (h.declare loc s p)

theorem callee_eq (fn : Option NestedFunction) : d'.callee? fn = d.callee? fn :=
  h.graph.eq_of_refill (π := fun g => fn.bind g.closureOf?) fun _ _ _ => rfl

theorem openFunction (s : ScopeId) (kind : ScopeKind) (loc : Loc) (fn : Option NestedFunction)
    {b b' : Block} (hb : b.NamesSelf r b') :
    (d.openFunction s kind loc fn b).1.NamesSelf r (d'.openFunction s kind loc fn b').1 ∧
      (d'.openFunction s kind loc fn b').2 = (d.openFunction s kind loc fn b).2 := by
  unfold Draft.openFunction
  rw [h.isOk_eq]
  cases d.isOk with
  | false => exact ⟨h, rfl⟩
  | true =>
    cases fn with
    | none => exact ⟨h.fail _ loc, rfl⟩
    | some f =>
      have hclosure : d'.graph.closureOf? f = d.graph.closureOf? f := h.callee_eq (some f)
      have hcount : d'.graph.closures.size = d.graph.closures.size :=
        h.graph.eq_of_refill (π := fun g => g.closures.size) fun _ _ _ => rfl
      simp only [if_true, hclosure, hcount, h.size_eq]
      cases d.graph.closureOf? f with
      | some c => exact ⟨h.fail _ loc, rfl⟩
      | none =>
        refine ⟨Draft.NamesSelf.params ?_ loc _ f.params, rfl⟩
        have hpushed := h.modify (P := (·.pushClosure f s)) fun _ _ _ =>
          Graph.pushClosure_refill f s
        exact (hpushed.pushScope kind (some s) hb).modify (P := (·.setBody _ _)) fun _ _ _ =>
          Graph.setBody_refill _ _

end Draft.NamesSelf

mutual

theorem Expr.NamesSelf.enter {s : ScopeId} {d d' : Draft} : {e e' : Expr} →
    e.NamesSelf r e' → d.NamesSelf r d' → (e.enter s d).NamesSelf r (e'.enter s d')
  | _, _, .named .., h | _, _, .self .., h | _, _, .literal .., h | _, _, .ref .., h
  | _, _, .functionRef .., h | _, _, .newEnv .., h | _, _, .zero .., h => h
  | _, _, .assign _ htarget hvalue, h => hvalue.enter (htarget.enter h)
  | _, _, .binary _ _ hlhs hrhs, h => hrhs.enter (hlhs.enter h)
  | _, _, .lambda _ fn hb, h => hb.enterBody fn h
  | _, _, .localCall _ _ hargs, h => Expr.NamesSelf.enterAll _ _ hargs h
  | _, _, .call _ _ .none hargs, h => Expr.NamesSelf.enterAll _ _ hargs h
  | _, _, .call _ _ (.some he) hargs, h => Expr.NamesSelf.enterAll _ _ hargs (he.enter h)
  | _, _, .invoke _ hcallee hargs, h => Expr.NamesSelf.enterAll _ _ hargs (hcallee.enter h)
  | _, _, .field _ _ he, h => he.enter h
  | _, _, .delegate _ _ .none, h => h
  | _, _, .delegate _ _ (.some he), h => he.enter h
termination_by structural e => e

theorem Expr.NamesSelf.enterAll {s : ScopeId} {d d' : Draft} : (es es' : List Expr) →
    List.Forall₂ (Expr.NamesSelf r) es es' → d.NamesSelf r d' →
    (Expr.enterAll s es d).NamesSelf r (Expr.enterAll s es' d')
  | _, _, .nil, h => h
  | _ :: es, _ :: es', .cons he hes, h => Expr.NamesSelf.enterAll es es' hes (he.enter h)
termination_by structural es => es

theorem Stmt.NamesSelf.enter {s : ScopeId} {d d' : Draft} : {st st' : Stmt} →
    st.NamesSelf r st' → d.NamesSelf r d' → (st.enter s d).NamesSelf r (st'.enter s d')
  | _, _, .block hb, h => hb.enter h
  | _, _, .declare loc none .none, h => h.fail _ loc
  | _, _, .declare loc none (.some _), h => h.fail _ loc
  | _, _, .declare loc (some v) .none, h => h.declare loc s (some v)
  | _, _, .declare loc (some v) (.some he), h => (he.enter h).declare loc s (some v)
  | _, _, .expr _ he, h => he.enter h
  | _, _, .ret _ .none, h => h
  | _, _, .ret _ (.some he), h => he.enter h
  | _, _, .cond _ htest hb .none, h => hb.enter (htest.enter h)
  | _, _, .cond _ htest hb (.some hx), h => hx.enter (hb.enter (htest.enter h))
  | _, _, .loop _ htest hb, h => hb.enter (htest.enter h)
  | _, _, .localFunction _ fn hb, h => hb.enterBody fn h
termination_by structural st => st

theorem Stmt.NamesSelf.enterAll {s : ScopeId} {d d' : Draft} : (ss ss' : List Stmt) →
    List.Forall₂ (Stmt.NamesSelf r) ss ss' → d.NamesSelf r d' →
    (Stmt.enterAll s ss d).NamesSelf r (Stmt.enterAll s ss' d')
  | _, _, .nil, h => h
  | _ :: ss, _ :: ss', .cons hst hss, h => by
    rw [Stmt.enterAll, Stmt.enterAll, h.isOk_eq]
    split
    · exact Stmt.NamesSelf.enterAll ss ss' hss (hst.enter h)
    · exact h
termination_by structural ss => ss

theorem Block.NamesSelf.enter {s : ScopeId} {d d' : Draft} : {b b' : Block} →
    b.NamesSelf r b' → d.NamesSelf r d' → (b.enter s d).NamesSelf r (b'.enter s d')
  | .mk _ _ ss, .mk _ _ ss', .mk id loc hss, h => by
    rw [Block.enter, Block.enter, h.size_eq]
    exact Stmt.NamesSelf.enterAll ss ss' hss (h.pushScope .block (some s) (.mk id loc hss))
termination_by structural b => b

theorem Block.NamesSelf.enterBody {s : ScopeId} {kind : ScopeKind} {loc : Loc} {d d' : Draft} :
    {b b' : Block} → b.NamesSelf r b' → (fn : Option NestedFunction) → d.NamesSelf r d' →
    (b.enterBody s kind loc fn d).NamesSelf r (b'.enterBody s kind loc fn d')
  | .mk _ _ ss, .mk _ _ ss', .mk id blockLoc hss, fn, h => by
    obtain ⟨hopen, hinner⟩ := h.openFunction s kind loc fn (.mk id blockLoc hss)
    rw [Block.enterBody, Block.enterBody]
    generalize d.openFunction s kind loc fn (.mk id blockLoc ss) = x at hopen hinner ⊢
    generalize d'.openFunction s kind loc fn (.mk id blockLoc ss') = x' at hopen hinner ⊢
    obtain ⟨e, inner⟩ := x
    obtain ⟨e', inner'⟩ := x'
    obtain rfl : inner' = inner := hinner
    cases inner' with
    | none => exact hopen
    | some inner => exact Stmt.NamesSelf.enterAll ss ss' hss hopen
termination_by structural b => b

end

namespace Draft.NamesSelf

variable {d d' : Draft}

theorem receiver_right (h : d.NamesSelf r d') : d'.graph.receiver = some r :=
  (h.graph.eq_of_refill (π := Graph.receiver) fun _ _ _ => rfl).trans h.receiver

theorem enterMethod (h : d.NamesSelf r d') (method : Method) {b b' : Block}
    (hb : b.NamesSelf r b') :
    (d.enterMethod method b).NamesSelf r (d'.enterMethod method b') := by
  have hroot := h.pushScope .methodBody none hb
  unfold Draft.enterMethod
  rw [hb.loc_eq]
  refine Stmt.NamesSelf.enterAll _ _ hb.stmts (params ?_ b.loc Graph.root method.params)
  rw [hroot.receiver, hroot.receiver_right]
  exact hroot.declare b.loc Graph.root (some r)

theorem build (h : d.NamesSelf r d') : d.build.NamesSelf r d'.build := by
  have hempty : d'.graph.scopes.isEmpty = d.graph.scopes.isEmpty := by
    rw [Array.isEmpty, h.size_eq, Array.isEmpty]
  have hmethod : d'.graph.body.method = d.graph.body.method :=
    h.graph.eq_of_refill (π := fun g => g.body.method) fun _ _ _ => rfl
  have hblock := h.graph.block
  simp only [Draft.build, hempty, hmethod]
  generalize d.graph.body.block = x at hblock ⊢
  generalize d'.graph.body.block = x' at hblock ⊢
  split
  · cases d.graph.body.method with
    | none => exact h.fail _ {}
    | some method =>
      cases hblock with
      | none => exact h.fail _ {}
      | some hb => exact h.enterMethod method hb
  · exact h.fail _ {}

/-! ## Collecting -/

variable (h : d.NamesSelf r d') {p : Place}

include h

theorem depend (c : ClosureId) : (d.depend p c).NamesSelf r (d'.depend p c) := by
  unfold Draft.depend
  split
  · exact h.modify (P := (·.modifyClosure _ _)) fun _ _ _ => rfl
  · exact h

theorem refer (loc : Loc) (v : Option Variable) :
    (d.refer p loc v).NamesSelf r (d'.refer p loc v) := by
  cases v with
  | none => exact h.failFirst _ loc
  | some v =>
    obtain ⟨b, f, hgraph⟩ := h.graph.eq_refill
    simp only [Draft.refer, hgraph, Graph.declaringScope_refill, Graph.encloses_refill,
      Graph.bodyDeclares_refill]
    split
    · exact h.failFirst _ loc
    · split
      · split
        · split
          · exact h
          · exact h.modify (P := (·.modifyClosure _ _)) fun _ _ _ => rfl
        · exact h
      · exact h.failFirst _ loc

theorem enterClosure {enter enter' : ClosureId → Draft → Draft}
    (henter : ∀ c d d', d.NamesSelf r d' → (enter c d).NamesSelf r (enter' c d'))
    (loc : Loc) (fn : Option NestedFunction) :
    (d.enterClosure enter p loc fn).NamesSelf r (d'.enterClosure enter' p loc fn) := by
  unfold Draft.enterClosure
  rw [h.callee_eq]
  split
  · exact henter _ _ _ (h.depend _)
  · exact h.failFirst _ loc

end Draft.NamesSelf

variable {enter enter' : ClosureId → Draft → Draft}

mutual

theorem Expr.NamesSelf.collect {p : Place} {d d' : Draft}
    (henter : ∀ c d d', d.NamesSelf r d' → (enter c d).NamesSelf r (enter' c d')) :
    {e e' : Expr} → e.NamesSelf r e' → d.NamesSelf r d' →
    (e.collect enter p d).NamesSelf r (e'.collect enter' p d')
  | _, _, .named loc type, h => by
    -- The walk looks the receiver up and notes a reference to it.
    change (match d.graph.receiver with
      | some v => d.refer p loc (some v)
      | none => d.failFirst .receiverInStaticMethod loc).NamesSelf r (d'.refer p loc (some r))
    rw [h.receiver]
    exact h.refer loc (some r)
  | _, _, .self loc _, h => by
    change (match d.graph.receiver with
      | some v => d.refer p loc (some v)
      | none => d.failFirst .receiverInStaticMethod loc).NamesSelf r (match d'.graph.receiver with
      | some v => d'.refer p loc (some v)
      | none => d'.failFirst .receiverInStaticMethod loc)
    rw [h.receiver, h.receiver_right]
    exact h.refer loc (some r)
  | _, _, .literal .., h | _, _, .newEnv .., h | _, _, .zero .., h => h
  | _, _, .ref loc v, h => h.refer loc v
  | _, _, .assign _ htarget hvalue, h => hvalue.collect henter (htarget.collect henter h)
  | _, _, .binary _ _ hlhs hrhs, h => hrhs.collect henter (hlhs.collect henter h)
  | _, _, .lambda loc fn _, h => h.enterClosure henter loc fn
  | _, _, .functionRef loc fn, h => by
    let mark (c : ClosureId) (g : Graph) :=
      g.modifyClosure c fun cl => { cl with isDelegate := true }
    change (match d.callee? fn with
      | some c => (d.modify (mark c)).depend p c
      | none => d.unknownFunction loc fn).NamesSelf r (match d'.callee? fn with
      | some c => (d'.modify (mark c)).depend p c
      | none => d'.unknownFunction loc fn)
    rw [h.callee_eq]
    cases d.callee? fn with
    | none => exact h.failFirst _ loc
    | some c => exact (h.modify (P := mark c) fun _ _ _ => rfl).depend c
  | .localCall _ _ args, .localCall _ _ args', .localCall loc fn hargs, h => by
    change (match d.callee? (some fn) with
      | some c => Expr.collectAll enter p args (d.depend p c)
      | none => d.unknownFunction loc (some fn)).NamesSelf r (match d'.callee? (some fn) with
      | some c => Expr.collectAll enter' p args' (d'.depend p c)
      | none => d'.unknownFunction loc (some fn))
    rw [h.callee_eq]
    cases d.callee? (some fn) with
    | none => exact h.failFirst _ loc
    | some c => exact Expr.NamesSelf.collectAll henter args args' hargs (h.depend c)
  | _, _, .call _ _ .none hargs, h => Expr.NamesSelf.collectAll henter _ _ hargs h
  | _, _, .call _ _ (.some he) hargs, h =>
    Expr.NamesSelf.collectAll henter _ _ hargs (he.collect henter h)
  | _, _, .invoke _ hcallee hargs, h =>
    Expr.NamesSelf.collectAll henter _ _ hargs (hcallee.collect henter h)
  | _, _, .field _ _ he, h => he.collect henter h
  | _, _, .delegate _ _ .none, h => h
  | _, _, .delegate _ _ (.some he), h => he.collect henter h
termination_by structural e => e

theorem Expr.NamesSelf.collectAll {p : Place} {d d' : Draft}
    (henter : ∀ c d d', d.NamesSelf r d' → (enter c d).NamesSelf r (enter' c d')) :
    (es es' : List Expr) → List.Forall₂ (Expr.NamesSelf r) es es' → d.NamesSelf r d' →
    (Expr.collectAll enter p es d).NamesSelf r (Expr.collectAll enter' p es' d')
  | _, _, .nil, h => h
  | _ :: es, _ :: es', .cons he hes, h =>
    Expr.NamesSelf.collectAll henter es es' hes (he.collect henter h)
termination_by structural es => es

theorem Stmt.NamesSelf.collect {p : Place} {d d' : Draft}
    (henter : ∀ c d d', d.NamesSelf r d' → (enter c d).NamesSelf r (enter' c d')) :
    {st st' : Stmt} → st.NamesSelf r st' → d.NamesSelf r d' →
    (st.collect enter p d).NamesSelf r (st'.collect enter' p d')
  | _, _, .block hb, h => hb.collect henter h
  | _, _, .declare _ _ .none, h => h
  | _, _, .declare _ _ (.some he), h => he.collect henter h
  | _, _, .expr _ he, h => he.collect henter h
  | _, _, .ret _ .none, h => h
  | _, _, .ret _ (.some he), h => he.collect henter h
  | _, _, .cond _ htest hb .none, h => hb.collect henter (htest.collect henter h)
  | _, _, .cond _ htest hb (.some hx), h =>
    hx.collect henter (hb.collect henter (htest.collect henter h))
  | _, _, .loop _ htest hb, h => hb.collect henter (htest.collect henter h)
  | _, _, .localFunction loc fn _, h => h.enterClosure henter loc fn
termination_by structural st => st

theorem Stmt.NamesSelf.collectAll {p : Place} {d d' : Draft}
    (henter : ∀ c d d', d.NamesSelf r d' → (enter c d).NamesSelf r (enter' c d')) :
    (ss ss' : List Stmt) → List.Forall₂ (Stmt.NamesSelf r) ss ss' → d.NamesSelf r d' →
    (Stmt.collectAll enter p ss d).NamesSelf r (Stmt.collectAll enter' p ss' d')
  | _, _, .nil, h => h
  | _ :: ss, _ :: ss', .cons hst hss, h => by
    rw [Stmt.collectAll, Stmt.collectAll, h.isOk_eq]
    split
    · exact Stmt.NamesSelf.collectAll henter ss ss' hss (hst.collect henter h)
    · exact h
termination_by structural ss => ss

theorem Block.NamesSelf.collect {p : Place} {d d' : Draft}
    (henter : ∀ c d d', d.NamesSelf r d' → (enter c d).NamesSelf r (enter' c d')) :
    {b b' : Block} → b.NamesSelf r b' → d.NamesSelf r d' →
    (b.collect enter p d).NamesSelf r (b'.collect enter' p d')
  | .mk _ _ ss, .mk _ _ ss', .mk id loc hss, h => by
    have hscope : d'.graph.scopeOf? id = d.graph.scopeOf? id :=
      h.graph.eq_of_refill (π := fun g => g.scopeOf? id) fun _ _ _ => Graph.scopeOf_refill id
    rw [Block.collect, Block.collect, hscope]
    cases d.graph.scopeOf? id with
    | none => exact h.failFirst _ loc
    | some s => exact Stmt.NamesSelf.collectAll henter ss ss' hss h
termination_by structural b => b

end

namespace Draft.NamesSelf

theorem collectClosure (depth : Nat) (c : ClosureId) (d d' : Draft) (h : d.NamesSelf r d') :
    (Draft.collectClosure depth c d).NamesSelf r (Draft.collectClosure depth c d') := by
  induction depth generalizing c d d' with
  | zero => exact h
  | succ depth ih =>
    have hbody : d'.graph.closure c = d.graph.closure c :=
      h.graph.eq_of_refill (π := fun g => g.closure c) fun _ _ _ => rfl
    have hss := h.graph.stmts (d.graph.closure c).body
    obtain ⟨b, f, hgraph⟩ := h.graph.eq_refill
    rw [Draft.collectClosure, Draft.collectClosure, hbody]
    rw [Graph.stmtsAt, Graph.stmtsAt, hgraph, Graph.scope_refill, Scope.refill] at hss
    rw [hgraph, Graph.scope_refill, Scope.refill]
    cases hblock : (d.graph.scope (d.graph.closure c).body).block with
    | none => exact h
    | some b =>
      rw [hblock] at hss
      exact Stmt.NamesSelf.collectAll ih _ _ hss h

theorem collect {d d' : Draft} (h : d.NamesSelf r d') : d.collect.NamesSelf r d'.collect := by
  have hcount : d'.graph.closures.size = d.graph.closures.size :=
    h.graph.eq_of_refill (π := fun g => g.closures.size) fun _ _ _ => rfl
  have hblock := h.graph.block
  simp only [Draft.collect, hcount]
  generalize d.graph.body.block = x at hblock ⊢
  generalize d'.graph.body.block = x' at hblock ⊢
  cases hblock with
  | none => exact h
  | some hb => exact Stmt.NamesSelf.collectAll (collectClosure _) _ _ hb.stmts h

end Draft.NamesSelf

/-! ## The other stages -/

variable {b : Option Block} {f : ScopeId → List Stmt}

namespace Propagation

/-- The propagation on a graph with other statements. -/
def refill (p : Propagation) (b : Option Block) (f : ScopeId → List Stmt) : Propagation :=
  { p with graph := p.graph.refill b f }

theorem handOn_refill (callee : ClosureId) (p : Propagation) (caller : ClosureId) :
    handOn callee (p.refill b f) caller = (handOn callee p caller).refill b f := by
  have hinherited : (p.graph.refill b f).inherited caller callee =
      p.graph.inherited caller callee := by
    simp only [Graph.inherited, Graph.closure_refill, Graph.bodyDeclares_refill]
  simp only [handOn, show (p.refill b f).graph = p.graph.refill b f from rfl, hinherited,
    Graph.closure_refill]
  split <;> rfl

theorem visit_refill (p : Propagation) (callee : ClosureId) :
    (p.refill b f).visit callee = (p.visit callee).refill b f := by
  have hfold (l : List ClosureId) (p : Propagation) :
      l.foldl (handOn callee) (p.refill b f) = (l.foldl (handOn callee) p).refill b f := by
    induction l generalizing p with
    | nil => rfl
    | cons c l ih => rw [List.foldl_cons, handOn_refill, ih, List.foldl_cons]
  exact hfold _ { p with visits := p.visits + 1 }

theorem visitAll_refill (bound : Nat) (cs : List ClosureId) (p : Propagation) :
    visitAll bound cs (p.refill b f) = (visitAll bound cs p).refill b f := by
  induction cs generalizing p with
  | nil => rfl
  | cons c cs ih =>
    simp only [visitAll, show (p.refill b f).visits = p.visits from rfl, visit_refill, ih]
    split <;> rfl

theorem run_refill (bound fuel : Nat) (p : Propagation) :
    run bound fuel (p.refill b f) = (run bound fuel p).refill b f := by
  induction fuel generalizing p with
  | zero => rfl
  | succ fuel ih =>
    have hround := visitAll_refill (b := b) (f := f) bound p.next.toList
      { p with next := ∅, rounds := p.rounds + 1 }
    change (if p.next.isEmpty then p.refill b f else
      let q := visitAll bound p.next.toList
        ({ p with next := ∅, rounds := p.rounds + 1 }.refill b f)
      if q.exceeded then q else run bound fuel q) = _
    rw [hround, run]
    generalize visitAll bound p.next.toList { p with next := ∅, rounds := p.rounds + 1 } = q
    simp only [show (q.refill b f).exceeded = q.exceeded from rfl, ih]
    split_ifs <;> rfl

end Propagation

namespace Graph

variable {g : Graph}

theorem propagate_refill (bound : Nat) :
    (g.refill b f).propagate bound = ((g.propagate bound).1.refill b f, (g.propagate bound).2) := by
  have hrun : (g.refill b f).propagation bound = (g.propagation bound).refill b f :=
    Propagation.run_refill _ _ { graph := g, next := g.capturing }
  simp only [propagate, hrun]
  rfl

theorem allocate_refill : (g.refill b f).allocate = g.allocate.map (·.refill b f) := by
  have hscope (g : Graph) (s : ScopeId) :
      (g.refill b f).allocateScope s = (g.allocateScope s).refill b f := by
    have hvars : (g.refill b f).hoistedVariables s = g.hoistedVariables s := by
      simp only [hoistedVariables, scope_refill, Scope.refill_vars, closures_refill]
    simp only [allocateScope, hvars, envs_refill, pushEnv_refill]
    split <;> rfl
  have hfold (l : List ScopeId) (g : Graph) :
      l.foldl allocateScope (g.refill b f) = (l.foldl allocateScope g).refill b f := by
    induction l generalizing g with
    | nil => rfl
    | cons s l ih => rw [List.foldl_cons, hscope, ih, List.foldl_cons]
  rw [allocate, envs_refill, preorder_refill, hfold, allocate]
  split <;> rfl

theorem linkTargets_refill (fuel : Nat) (e : EnvId) (targets : List EnvId) :
    linkTargets fuel e targets (g.refill b f) =
      ((linkTargets fuel e targets g).1.refill b f, (linkTargets fuel e targets g).2) := by
  induction fuel generalizing g e targets with
  | zero => cases targets <;> rfl
  | succ fuel ih =>
    cases targets with
    | nil => rfl
    | cons t targets =>
      simp only [linkTargets, modifyEnv_refill, runtimeParent_refill]
      cases (g.modifyEnv e fun env => { env with needsParent := true }).runtimeParent? e with
      | none => rfl
      | some parent => exact ih parent _

theorem linkReceiver_refill (c : ClosureId) :
    (g.refill b f).linkReceiver c = (g.linkReceiver c).refill b f := by
  rw [linkReceiver, receiverEnv_refill, linkReceiver]
  cases g.receiverEnv? with
  | none => rfl
  | some e =>
    simp only [apply_ite (fun g : Graph => g.refill b f)]
    rfl

theorem hostClosure_refill (c : ClosureId) : (g.refill b f).hostClosure c =
    ((g.hostClosure c).1.refill b f, (g.hostClosure c).2) := by
  have hnearest : (g.refill b f).nearestHost? (g.closure c) = g.nearestHost? (g.closure c) := by
    simp only [nearestHost?, ancestors_refill, scope_refill, Scope.refill_env, env_refill]
  simp only [hostClosure, closure_refill, hnearest, modifyClosure_refill]
  cases g.nearestHost? (g.closure c) with
  | none => rfl
  | some e =>
    simp only [modifyEnv_refill, closure_refill, env_refill, envs_refill, linkTargets_refill]
    generalize (g.modifyClosure c fun cl => { cl with host := some e }).modifyEnv e
      (fun env => { env with closures := env.closures ++ [c] }) = g₁
    rcases linkTargets g₁.envs.size e _ g₁ with ⟨g₂, _ | ⟨t, ts⟩⟩
    · simp only [linkReceiver_refill]
    · simp only [closure_refill, bodyLoc_refill]

theorem assignHosts_refill :
    (g.refill b f).assignHosts = (g.assignHosts.1.refill b f, g.assignHosts.2) := by
  have hall (cs : List ClosureId) (g : Graph) : hostClosures cs (g.refill b f) =
      ((hostClosures cs g).1.refill b f, (hostClosures cs g).2) := by
    induction cs generalizing g with
    | nil => rfl
    | cons c cs ih =>
      rw [hostClosures, hostClosures, hostClosure_refill]
      rcases g.hostClosure c with ⟨g₁, _ | failure⟩
      · exact ih g₁
      · rfl
  exact hall _ g

theorem pruneEnv_refill (e : EnvId) :
    (g.refill b f).pruneEnv? e = (g.pruneEnv? e).map (·.refill b f) := by
  have hdetach (g : Graph) : (g.refill b f).detachEnv e = (g.detachEnv e).refill b f := by
    rw [detachEnv, modifyEnv_refill, env_refill, modifyScope_refill _ fun _ _ => rfl]
    rfl
  have hunhost (cs : List ClosureId) (g : Graph) :
      (g.refill b f).unhost cs = (g.unhost cs).refill b f := by
    induction cs generalizing g with
    | nil => rfl
    | cons c cs ih => exact ih (g.modifyClosure c fun cl => { cl with host := none })
  simp only [pruneEnv?, env_refill, closures_refill, hunhost, hdetach]
  split_ifs <;> rfl

theorem prune_refill : (g.refill b f).prune = (g.prune.1.refill b f, g.prune.2) := by
  have hsweep (es : List EnvId) (g : Graph) (n : Nat) :
      sweep es (g.refill b f, n) = ((sweep es (g, n)).1.refill b f, (sweep es (g, n)).2) := by
    induction es generalizing g n with
    | nil => rfl
    | cons e es ih =>
      rw [sweep, pruneEnv_refill, sweep]
      cases g.pruneEnv? e with
      | none => exact ih g n
      | some g => exact ih g (n + 1)
  have hsweeps (fuel : Nat) (g : Graph) (n : Nat) :
      sweeps fuel (g.refill b f, n) =
        ((sweeps fuel (g, n)).1.refill b f, (sweeps fuel (g, n)).2) := by
    induction fuel generalizing g n with
    | zero => rfl
    | succ fuel ih =>
      simp only [sweeps, envs_refill, hsweep]
      split
      · rfl
      · exact ih _ _
  exact hsweeps _ g 0

end Graph

/-! ## The whole analysis -/

theorem Draft.NamesSelf.findCaptures {d d' : Draft} (h : d.NamesSelf r d') :
    d.findCaptures.graph.NamesSelf r d'.findCaptures.graph ∧
      d'.findCaptures.failure = d.findCaptures.failure := by
  have hcollect := h.collect
  have hpropagate := hcollect.graph.map (P := fun g => (g.propagate 0).1) fun _ _ _ => by
    rw [Graph.propagate_refill]
  have hfailure : (d'.collect.graph.propagate 0).2 = (d.collect.graph.propagate 0).2 :=
    hcollect.graph.eq_of_refill (π := fun g => (g.propagate 0).2) fun _ _ _ => by
      rw [Graph.propagate_refill]
  simp only [Draft.findCaptures, hcollect.isOk_eq]
  cases d.collect.isOk with
  | false => exact ⟨hcollect.graph, hcollect.failure⟩
  | true =>
    generalize d.collect.graph.propagate 0 = x at hpropagate hfailure
    generalize d'.collect.graph.propagate 0 = x' at hpropagate hfailure
    obtain ⟨g, o⟩ := x
    obtain ⟨g', o'⟩ := x'
    obtain rfl : o' = o := hfailure
    cases o' with
    | none =>
      exact ⟨hpropagate.map (P := Graph.markReceiverCaptures) fun _ _ _ => rfl, hcollect.failure⟩
    | some failure => exact ⟨hpropagate, rfl⟩

/-- The second body is the first one with the receiver, which is `r`, written so in some places.
Blocks are compared by their place in the body. -/
structure MethodBody.NamesSelf (r : Variable) (m m' : MethodBody) : Prop where
  receiver : m.receiver = some r
  receiver_eq : m'.receiver = m.receiver
  method_eq : m'.method = m.method
  block : Option.Rel (Block.NamesSelf r) m.numbered.block m'.numbered.block

namespace Analysis

/-- Two analyses in step: graphs that differ in statements only, and the same failure or none. -/
def NamesSelf (r : Variable) (x x' : Analysis × Option StageFailure) : Prop :=
  x.1.graph.NamesSelf r x'.1.graph ∧ x'.2 = x.2

theorem steps_cons_namesSelf {stage : Stage} {run : Graph → Graph × Option Failure}
    {rest : List (Stage × (Graph → Graph × Option Failure))} {a a' : Analysis}
    (hrun : (run a.graph).1.NamesSelf r (run a'.graph).1 ∧ (run a'.graph).2 = (run a.graph).2)
    (hrest : ∀ a₁ a₁' : Analysis, a₁.graph = (run a.graph).1 → a₁'.graph = (run a'.graph).1 →
      NamesSelf r (steps rest a₁) (steps rest a₁')) :
    NamesSelf r (steps ((stage, run) :: rest) a) (steps ((stage, run) :: rest) a') := by
  rw [steps, steps, step, step]
  generalize run a.graph = x at hrun hrest
  generalize run a'.graph = x' at hrun hrest
  obtain ⟨g, o⟩ := x
  obtain ⟨g', o'⟩ := x'
  obtain ⟨hgraph, rfl : o' = o⟩ := hrun
  cases o' with
  | none => exact hrest _ _ rfl rfl
  | some failure => exact ⟨hgraph, rfl⟩

/-- Stages that do not look at statements keep analyses in step. -/
theorem steps_namesSelf {stages : List (Stage × (Graph → Graph × Option Failure))}
    (h : ∀ x ∈ stages, ∀ (g : Graph) (b : Option Block) (f : ScopeId → List Stmt),
      x.2 (g.refill b f) = ((x.2 g).1.refill b f, (x.2 g).2))
    {a a' : Analysis} (ha : a.graph.NamesSelf r a'.graph) :
    NamesSelf r (steps stages a) (steps stages a') := by
  induction stages generalizing a a' with
  | nil => exact ⟨ha, rfl⟩
  | cons x stages ih =>
    have hx := h x List.mem_cons_self
    have hgraph := ha.map (P := fun g => (x.2 g).1) fun g b f => by rw [hx]
    refine steps_cons_namesSelf ⟨hgraph, ?_⟩ fun a₁ a₁' h₁ h₁' => ?_
    · exact ha.eq_of_refill (π := fun g => (x.2 g).2) fun g b f => by rw [hx]
    · exact ih (fun y hy => h y (List.mem_cons_of_mem x hy)) (h₁ ▸ h₁' ▸ hgraph)

/-- The stages after the walks over the body do not look at statements. -/
theorem stages_refill (o : ConversionSettings) (g : Graph) (b : Option Block)
    (f : ScopeId → List Stmt) :
    ∀ x ∈ (stages o).drop 2, x.2 (g.refill b f) = ((x.2 g).1.refill b f, (x.2 g).2) := by
  have hallocate : allocateStage (g.refill b f) =
      ((allocateStage g).1.refill b f, (allocateStage g).2) := by
    simp only [allocateStage, Graph.allocate_refill]
    cases g.allocate <;> rfl
  rcases o with ⟨_ | _, _⟩ <;>
    simp [stages, hallocate, Graph.assignHosts_refill, Graph.prune_refill]

/-- Bodies that differ in the way they refer to the receiver are analysed in step. -/
theorem run_namesSelf (o : ConversionSettings) {m m' : MethodBody} (h : m.NamesSelf r m') :
    NamesSelf r (run o m) (run o m') := by
  have hstart : Draft.NamesSelf r { graph := Graph.ofBody m } { graph := Graph.ofBody m' } := by
    refine ⟨⟨?_, h.block, fun s => .nil⟩, h.receiver, rfl⟩
    simp [Graph.bare, Graph.refill, Graph.ofBody, MethodBody.numbered, h.receiver_eq, h.method_eq]
  have hbuild := hstart.build
  refine steps_cons_namesSelf ⟨hbuild.graph, hbuild.failure⟩ fun a a' ha ha' => ?_
  have hcaptures : Draft.NamesSelf r { graph := a.graph } { graph := a'.graph } := by
    refine ⟨?_, ?_, rfl⟩
    · rw [ha, ha']
      exact hbuild.graph
    · rw [ha]
      exact hbuild.receiver
  refine steps_cons_namesSelf hcaptures.findCaptures fun a₁ a₁' h₁ h₁' => ?_
  exact steps_namesSelf (fun x hx g b f => stages_refill o g b f x hx)
    (h₁ ▸ h₁' ▸ hcaptures.findCaptures.1)

end Analysis

end Unnest
