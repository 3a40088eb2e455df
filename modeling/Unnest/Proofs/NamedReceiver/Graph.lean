import Mathlib.Data.List.Forall2
import Unnest.Environments.Host
import Unnest.Environments.Prune
import Unnest.Proofs.Graph.Basic

/-!
# Bodies that call the receiver by name

The receiver of a method is also a variable, so a body can refer to it in two ways. Two bodies that
differ in nothing else lead to graphs that differ in the statements kept with their scopes and in
nothing else. Whatever is read off such a graph without looking at statements is the same for both,
and every change that does not look at statements keeps the two graphs in step.

## Main definitions

* `Expr.NamesSelf`, `Stmt.NamesSelf`, `Block.NamesSelf` : the second tree is the first one with the
  receiver written as a variable in some places.
* `Graph.refill` : the graph with other statements in its blocks.
* `Graph.bare` : the graph with no statements at all.
* `Graph.NamesSelf` : two graphs that differ in the way their statements refer to the receiver.

## Main statements

* `Graph.ancestors_refill`, `Graph.envOf_refill` and their companions : what is looked up without
  statements does not depend on them.
* `Graph.NamesSelf.map` : a change that does not look at statements keeps two graphs in step.
-/

namespace Unnest

/-! ## Trees -/

mutual

/-- The second expression is the first one with the receiver written as `r` in some places. -/
inductive Expr.NamesSelf (r : Variable) : Expr → Expr → Prop where
  | named (loc : Loc) (type : String) : Expr.NamesSelf r (.self loc type) (.ref loc (some r))
  | self (loc : Loc) (type : String) : Expr.NamesSelf r (.self loc type) (.self loc type)
  | literal (loc : Loc) (value type : String) :
    Expr.NamesSelf r (.literal loc value type) (.literal loc value type)
  | ref (loc : Loc) (v : Option Variable) : Expr.NamesSelf r (.ref loc v) (.ref loc v)
  | assign (loc : Loc) {target target' value value' : Expr} :
    target.NamesSelf r target' → value.NamesSelf r value' →
    Expr.NamesSelf r (.assign loc target value) (.assign loc target' value')
  | binary (loc : Loc) (op : String) {lhs lhs' rhs rhs' : Expr} :
    lhs.NamesSelf r lhs' → rhs.NamesSelf r rhs' →
    Expr.NamesSelf r (.binary loc op lhs rhs) (.binary loc op lhs' rhs')
  | lambda (loc : Loc) (fn : Option NestedFunction) {b b' : Block} :
    b.NamesSelf r b' → Expr.NamesSelf r (.lambda loc fn b) (.lambda loc fn b')
  | functionRef (loc : Loc) (fn : Option NestedFunction) :
    Expr.NamesSelf r (.functionRef loc fn) (.functionRef loc fn)
  | localCall (loc : Loc) (fn : NestedFunction) {args args' : List Expr} :
    List.Forall₂ (Expr.NamesSelf r) args args' →
    Expr.NamesSelf r (.localCall loc fn args) (.localCall loc fn args')
  | call (loc : Loc) (method : Method) {e e' : Option Expr} {args args' : List Expr} :
    Option.Rel (Expr.NamesSelf r) e e' → List.Forall₂ (Expr.NamesSelf r) args args' →
    Expr.NamesSelf r (.call loc method e args) (.call loc method e' args')
  | invoke (loc : Loc) {callee callee' : Expr} {args args' : List Expr} :
    callee.NamesSelf r callee' → List.Forall₂ (Expr.NamesSelf r) args args' →
    Expr.NamesSelf r (.invoke loc callee args) (.invoke loc callee' args')
  | field (loc : Loc) (f : Field) {e e' : Expr} :
    e.NamesSelf r e' → Expr.NamesSelf r (.field loc e f) (.field loc e' f)
  | newEnv (loc : Loc) (type : String) : Expr.NamesSelf r (.newEnv loc type) (.newEnv loc type)
  | zero (loc : Loc) (type : String) : Expr.NamesSelf r (.zero loc type) (.zero loc type)
  | delegate (loc : Loc) (method : Method) {e e' : Option Expr} :
    Option.Rel (Expr.NamesSelf r) e e' →
    Expr.NamesSelf r (.delegate loc e method) (.delegate loc e' method)

inductive Stmt.NamesSelf (r : Variable) : Stmt → Stmt → Prop where
  | block {b b' : Block} : b.NamesSelf r b' → Stmt.NamesSelf r (.block b) (.block b')
  | declare (loc : Loc) (v : Option Variable) {e e' : Option Expr} :
    Option.Rel (Expr.NamesSelf r) e e' → Stmt.NamesSelf r (.declare loc v e) (.declare loc v e')
  | expr (loc : Loc) {e e' : Expr} :
    e.NamesSelf r e' → Stmt.NamesSelf r (.expr loc e) (.expr loc e')
  | ret (loc : Loc) {e e' : Option Expr} :
    Option.Rel (Expr.NamesSelf r) e e' → Stmt.NamesSelf r (.ret loc e) (.ret loc e')
  | cond (loc : Loc) {test test' : Expr} {b b' : Block} {x x' : Option Block} :
    test.NamesSelf r test' → b.NamesSelf r b' → Option.Rel (Block.NamesSelf r) x x' →
    Stmt.NamesSelf r (.cond loc test b x) (.cond loc test' b' x')
  | loop (loc : Loc) {test test' : Expr} {b b' : Block} :
    test.NamesSelf r test' → b.NamesSelf r b' →
    Stmt.NamesSelf r (.loop loc test b) (.loop loc test' b')
  | localFunction (loc : Loc) (fn : Option NestedFunction) {b b' : Block} :
    b.NamesSelf r b' → Stmt.NamesSelf r (.localFunction loc fn b) (.localFunction loc fn b')

inductive Block.NamesSelf (r : Variable) : Block → Block → Prop where
  | mk (id : BlockId) (loc : Loc) {ss ss' : List Stmt} :
    List.Forall₂ (Stmt.NamesSelf r) ss ss' → Block.NamesSelf r (.mk id loc ss) (.mk id loc ss')

end

theorem Block.NamesSelf.stmts {r : Variable} {b b' : Block} (h : b.NamesSelf r b') :
    List.Forall₂ (Stmt.NamesSelf r) b.stmts b'.stmts := by
  cases h with
  | mk _ _ hss => exact hss

theorem Block.NamesSelf.loc_eq {r : Variable} {b b' : Block} (h : b.NamesSelf r b') :
    b'.loc = b.loc := by
  cases h
  rfl

/-! ## Graphs with other statements -/

/-- The block with other statements. -/
def Block.refill (b : Block) (ss : List Stmt) : Block := .mk b.id b.loc ss

@[simps kind parent children vars closures owner env depth]
def Scope.refill (s : Scope) (ss : List Stmt) : Scope :=
  { s with block := s.block.map (·.refill ss) }

theorem Scope.refill_self (s : Scope) : s.refill ((s.block.map (·.stmts)).getD []) = s := by
  rcases s with ⟨_, _, _, _, _, _, _, _ | ⟨_, _, _⟩, _⟩ <;> rfl

namespace Graph

/-- The graph with `b` for the block of the method and `f s` for the statements of scope `s`. -/
def refill (g : Graph) (b : Option Block) (f : ScopeId → List Stmt) : Graph :=
  { g with
    body := { g.body with block := b }
    scopes := g.scopes.mapIdx fun i s => s.refill (f i) }

/-- The graph with all statements taken out. -/
def bare (g : Graph) : Graph := g.refill none fun _ => []

/-- The statements kept with a scope. -/
def stmtsAt (g : Graph) (s : ScopeId) : List Stmt := ((g.scope s).block.map (·.stmts)).getD []

variable {g : Graph} {b : Option Block} {f : ScopeId → List Stmt}

@[simp] theorem receiver_refill : (g.refill b f).receiver = g.receiver := rfl

@[simp] theorem method_refill : (g.refill b f).body.method = g.body.method := rfl

@[simp] theorem closures_refill : (g.refill b f).closures = g.closures := rfl

@[simp] theorem closure_refill (c : ClosureId) : (g.refill b f).closure c = g.closure c := rfl

@[simp] theorem envs_refill : (g.refill b f).envs = g.envs := rfl

@[simp] theorem env_refill (e : EnvId) : (g.refill b f).env e = g.env e := rfl

@[simp] theorem size_scopes_refill : (g.refill b f).scopes.size = g.scopes.size := by
  simp [refill]

@[simp] theorem scope_refill (s : ScopeId) :
    (g.refill b f).scope s = (g.scope s).refill (f s) := by
  by_cases hs : s < g.scopes.size
  · simp [scope, refill, hs]
  · simp [scope, refill, hs, default, instInhabitedScope.default, Scope.refill]

theorem refill_refill (b' : Option Block) (f' : ScopeId → List Stmt) :
    (g.refill b f).refill b' f' = g.refill b' f' := by
  simp [refill, Scope.refill, Function.comp_def, Block.refill, Block.id, Block.loc]

theorem bare_refill : (g.refill b f).bare = g.bare := refill_refill _ _

/-- A graph has its own statements. -/
theorem refill_self : g.refill g.body.block g.stmtsAt = g := by
  have hscopes : g.scopes.mapIdx (fun i s => s.refill (g.stmtsAt i)) = g.scopes := by
    apply Array.ext
    · simp
    · intro i h₁ h₂
      have hat : g.stmtsAt i = (g.scopes[i].block.map (·.stmts)).getD [] := by
        simp [stmtsAt, scope, h₂]
      rw [Array.getElem_mapIdx, hat, Scope.refill_self]
  rw [refill, hscopes]

/-- Graphs that differ in statements only are each other with other statements. -/
theorem eq_refill_of_bare {g' : Graph} (h : g'.bare = g.bare) :
    g' = g.refill g'.body.block g'.stmtsAt := by
  calc g' = g'.refill g'.body.block g'.stmtsAt := refill_self.symm
    _ = g'.bare.refill g'.body.block g'.stmtsAt := (refill_refill _ _).symm
    _ = g.bare.refill g'.body.block g'.stmtsAt := by rw [h]
    _ = g.refill g'.body.block g'.stmtsAt := refill_refill _ _

theorem stmtsAt_refill (s : ScopeId) :
    (g.refill b f).stmtsAt s = if (g.scope s).block.isSome then f s else [] := by
  rw [stmtsAt, scope_refill, Scope.refill]
  cases (g.scope s).block <;> rfl

/-! ### Changes -/

theorem modifyScope_refill (s : ScopeId) {k : Scope → Scope}
    (h : ∀ sc ss, k (sc.refill ss) = (k sc).refill ss) :
    (g.refill b f).modifyScope s k = (g.modifyScope s k).refill b f := by
  simp only [modifyScope, refill, mk.injEq, and_true, true_and]
  apply Array.ext
  · simp
  · intro j h₁ h₂
    simp only [Array.getElem_modify, Array.getElem_mapIdx]
    split
    · exact h _ _
    · rfl

theorem modifyClosure_refill (c : ClosureId) (k : Closure → Closure) :
    (g.refill b f).modifyClosure c k = (g.modifyClosure c k).refill b f := rfl

theorem modifyEnv_refill (e : EnvId) (k : Environment → Environment) :
    (g.refill b f).modifyEnv e k = (g.modifyEnv e k).refill b f := rfl

/-- The new scope gets the statements that are meant for it. -/
theorem pushScope_refill (kind : ScopeKind) (p : Option ScopeId) (block : Option Block) :
    (g.pushScope kind p block).refill b f =
      (g.refill b f).pushScope kind p (block.map (·.refill (f g.scopes.size))) := by
  cases p with
  | none => simp [pushScope, refill, Scope.refill]
  | some p =>
    have hchild := modifyScope_refill (g := g) (b := b) (f := f) p
      (k := fun s => { s with children := s.children ++ [g.scopes.size] }) fun _ _ => rfl
    simp only [pushScope, size_scopes_refill, hchild, scope_refill, Scope.refill_depth]
    simp [refill, Scope.refill, modifyScope]

theorem pushClosure_refill (fn : NestedFunction) (s : ScopeId) :
    (g.refill b f).pushClosure fn s = (g.pushClosure fn s).refill b f :=
  modifyScope_refill (g := { g with closures := g.closures.push _ }) s fun _ _ => rfl

theorem setBody_refill (c : ClosureId) (s : ScopeId) :
    (g.refill b f).setBody c s = (g.setBody c s).refill b f := by
  rw [setBody, modifyScope_refill s fun _ _ => rfl]
  rfl

theorem pushEnv_refill (s : ScopeId) (kind : EnvKind) :
    (g.refill b f).pushEnv s kind = (g.pushEnv s kind).refill b f :=
  modifyScope_refill (g := { g with envs := g.envs.push _ }) s fun _ _ => rfl

/-! ### Looking things up -/

@[simp] theorem declaringScope_refill (v : Variable) :
    (g.refill b f).declaringScope? v = g.declaringScope? v := by
  apply Option.ext
  intro s
  simp only [declaringScope?, Array.findIdx?_eq_some_iff_getElem, size_scopes_refill]
  simp [refill]

@[simp] theorem scopeOf_refill (i : BlockId) : (g.refill b f).scopeOf? i = g.scopeOf? i := by
  have hany (s : Scope) (ss : List Stmt) :
      (s.refill ss).block.any (fun x => x.id = i) = s.block.any fun x => x.id = i := by
    rw [Scope.refill, Option.any_map]
    rfl
  apply Option.ext
  intro s
  simp only [scopeOf?, Array.findIdx?_eq_some_iff_getElem, size_scopes_refill]
  simp [refill, hany]

@[simp] theorem closureOf_refill (fn : NestedFunction) :
    (g.refill b f).closureOf? fn = g.closureOf? fn := rfl

@[simp] theorem bodyLoc_refill (c : ClosureId) : (g.refill b f).bodyLoc c = g.bodyLoc c := by
  simp only [bodyLoc, closure_refill, scope_refill, Scope.refill]
  cases (g.scope (g.closure c).body).block <;> rfl

@[simp] theorem ancestors_refill (s : ScopeId) : (g.refill b f).ancestors s = g.ancestors s := by
  induction s using Nat.strongRecOn with
  | _ s ih =>
    rw [ancestors, ancestors, scope_refill, Scope.refill_parent]
    cases (g.scope s).parent with
    | none => rfl
    | some p =>
      simp only
      split
      · rename_i hp
        rw [ih p hp]
      · rfl

theorem findAtDepth_refill (a : ScopeId) (l : List ScopeId) :
    (g.refill b f).findAtDepth a l = g.findAtDepth a l := by
  induction l with
  | nil => rfl
  | cons s l ih => simp only [findAtDepth, scope_refill, Scope.refill_depth, ih]

@[simp] theorem encloses_refill (a s : ScopeId) :
    (g.refill b f).encloses a s = g.encloses a s := by
  rw [encloses, ancestors_refill, findAtDepth_refill, encloses]

@[simp] theorem bodyDeclares_refill (c : ClosureId) (v : Variable) :
    (g.refill b f).bodyDeclares c v = g.bodyDeclares c v := by
  simp only [bodyDeclares, declaringScope_refill, closure_refill, encloses_refill]

theorem surroundingEnv_refill (l : List ScopeId) :
    (g.refill b f).surroundingEnv? l = g.surroundingEnv? l := by
  have hlive (s : ScopeId) : (g.refill b f).liveReferenceEnv? s = g.liveReferenceEnv? s := by
    simp only [liveReferenceEnv?, scope_refill, Scope.refill_env, env_refill]
  induction l with
  | nil => rfl
  | cons s l ih =>
    cases l with
    | nil => simp [surroundingEnv?]
    | cons p l =>
      rw [surroundingEnv?.eq_def, surroundingEnv?.eq_def g]
      simp only [scope_refill, Scope.refill_owner, closure_refill, hlive, ih]

@[simp] theorem runtimeParent_refill (e : EnvId) :
    (g.refill b f).runtimeParent? e = g.runtimeParent? e := by
  simp only [runtimeParent?, env_refill, ancestors_refill, surroundingEnv_refill]

@[simp] theorem envOf_refill (v : Variable) : (g.refill b f).envOf? v = g.envOf? v := by
  rw [envOf?, envOf?, declaringScope_refill]
  cases g.declaringScope? v with
  | none => rfl
  | some s =>
    simp only [scope_refill]
    rfl

@[simp] theorem receiverEnv_refill : (g.refill b f).receiverEnv? = g.receiverEnv? := by
  rw [receiverEnv?, receiverEnv?, receiver_refill]
  cases g.receiver <;> simp

@[simp] theorem preorder_refill : (g.refill b f).preorder = g.preorder := by
  have hvisit (fuel : Nat) (stack : List ScopeId) :
      (g.refill b f).visitScopes fuel stack = g.visitScopes fuel stack := by
    induction fuel generalizing stack with
    | zero => rfl
    | succ fuel ih =>
      cases stack with
      | nil => rfl
      | cons s stack => simp only [visitScopes, scope_refill, Scope.refill_children, ih]
  have hempty : (g.refill b f).scopes.isEmpty = g.scopes.isEmpty := by
    rw [Array.isEmpty, size_scopes_refill, Array.isEmpty]
  rw [preorder, preorder, hempty, hvisit, size_scopes_refill]

/-! ## Graphs in step -/

/-- The statements of the second graph are those of the first one with the receiver written as `r`
in some places; all else is the same. -/
structure NamesSelf (r : Variable) (g g' : Graph) : Prop where
  bare : g'.bare = g.bare
  block : Option.Rel (Block.NamesSelf r) g.body.block g'.body.block
  stmts : ∀ s, List.Forall₂ (Stmt.NamesSelf r) (g.stmtsAt s) (g'.stmtsAt s)

namespace NamesSelf

variable {r : Variable} {g g' : Graph} (h : g.NamesSelf r g')

include h

theorem eq_refill : ∃ b f, g' = g.refill b f := ⟨_, _, eq_refill_of_bare h.bare⟩

/-- Two graphs in step agree on all that does not depend on statements. -/
theorem eq_of_refill {α : Type} {π : Graph → α}
    (hπ : ∀ (g : Graph) (b : Option Block) (f : ScopeId → List Stmt), π (g.refill b f) = π g) :
    π g' = π g := by
  rw [eq_refill_of_bare h.bare, hπ]

/-- A change that does not look at statements keeps graphs in step. -/
theorem map {P : Graph → Graph}
    (hP : ∀ (g : Graph) (b : Option Block) (f : ScopeId → List Stmt),
      P (g.refill b f) = (P g).refill b f) :
    (P g).NamesSelf r (P g') := by
  have hown (g : Graph) : P g = (P g).refill g.body.block g.stmtsAt := by
    rw [← hP, refill_self]
  have hother : P g' = (P g).refill g'.body.block g'.stmtsAt := by
    rw [← hP, ← eq_refill_of_bare h.bare]
  refine ⟨?_, ?_, fun s => ?_⟩
  · rw [hother, bare_refill]
  · rw [hown g, hown g']
    exact h.block
  · have hs := stmtsAt_refill (g := P g) (b := g.body.block) (f := g.stmtsAt) s
    rw [← hown] at hs
    rw [hs, hother, stmtsAt_refill]
    split
    · exact h.stmts s
    · exact .nil

/-- New scopes with blocks in step keep graphs in step. -/
theorem pushScope (kind : ScopeKind) (p : Option ScopeId) {b b' : Block}
    (hb : b.NamesSelf r b') :
    (g.pushScope kind p (some b)).NamesSelf r (g'.pushScope kind p (some b')) := by
  have hsize : g'.scopes.size = g.scopes.size :=
    h.eq_of_refill (π := fun g => g.scopes.size) fun _ _ _ => size_scopes_refill
  have hat (g : Graph) (b : Block) (s : ScopeId) : (g.pushScope kind p (some b)).stmtsAt s =
      if s = g.scopes.size then b.stmts else g.stmtsAt s := by
    rw [stmtsAt, stmtsAt]
    cases p with
    | none =>
      rw [scope_pushScope_none]
      split <;> rfl
    | some p =>
      rw [scope_pushScope_some]
      split_ifs <;> rfl
  refine ⟨?_, ?_, fun s => ?_⟩
  · have hrefill : b'.refill [] = b.refill [] := by
      cases hb
      rfl
    rw [Graph.bare, Graph.bare, pushScope_refill, pushScope_refill]
    change g'.bare.pushScope kind p (some (b'.refill [])) =
      g.bare.pushScope kind p (some (b.refill []))
    rw [h.bare, hrefill]
  · simpa using h.block
  · rw [hat, hat, hsize]
    split
    · exact hb.stmts
    · exact h.stmts s

end NamesSelf

end Graph

end Unnest
