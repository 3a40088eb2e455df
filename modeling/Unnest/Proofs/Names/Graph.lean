import Mathlib.Data.List.Nodup
import Unnest.Environments.Host
import Unnest.Environments.Prune
import Unnest.Proofs.Graph.Basic
import Unnest.Proofs.Names.Symbols

/-!
# Graphs under new names

The graph of a body whose symbols are renamed. Everything that is looked up in a graph is looked up
by identity: a renamed graph gives the same scopes, closures and environments for the renamed
symbols, and every change of a graph does to a renamed graph what it does to the graph.

## Main definitions

* `Graph.rename` : the graph with its symbols renamed.

## Main statements

* `Graph.declaringScope_rename`, `Graph.closureOf_rename`, `Graph.scopeOf_rename`,
  `Graph.envOf_rename` : what is found for a renamed symbol.
* `Graph.encloses_rename`, `Graph.runtimeParent_rename` : nesting does not depend on names.
-/

namespace Unnest

variable (ρ : Renaming)

/-! ## Sets of variables -/

namespace OrderedSet

def rename (s : OrderedSet Variable) : OrderedSet Variable :=
  ⟨s.toList.map (·.rename ρ), s.nodup.map Variable.rename_injective⟩

@[simp] theorem toList_rename (s : OrderedSet Variable) :
    (s.rename ρ).toList = s.toList.map (·.rename ρ) := rfl

@[simp] theorem rename_empty : (∅ : OrderedSet Variable).rename ρ = ∅ := rfl

@[simp] theorem isEmpty_rename (s : OrderedSet Variable) : (s.rename ρ).isEmpty = s.isEmpty := by
  simp [isEmpty]

variable {ρ}

theorem ext {α : Type} {s t : OrderedSet α} (h : s.toList = t.toList) : s = t := by
  cases s
  cases t
  congr

@[simp] theorem mem_rename {s : OrderedSet Variable} {v : Variable} :
    v.rename ρ ∈ s.rename ρ ↔ v ∈ s :=
  List.mem_map_of_injective Variable.rename_injective

theorem rename_insert (s : OrderedSet Variable) (v : Variable) :
    (s.rename ρ).insert (v.rename ρ) = (s.insert v).rename ρ := by
  apply ext
  simp only [toList_insert, toList_rename, mem_rename]
  split <;> simp

theorem rename_insertAll (s : OrderedSet Variable) (vs : List Variable) :
    (s.rename ρ).insertAll (vs.map (·.rename ρ)) = (s.insertAll vs).rename ρ := by
  induction vs generalizing s with
  | nil => rfl
  | cons v vs ih =>
    simp only [insertAll, List.map_cons, List.foldl_cons, rename_insert]
    exact ih (s.insert v)

end OrderedSet

/-! ## Renamed graphs -/

def Scope.rename (s : Scope) : Scope :=
  { s with vars := s.vars.rename ρ, block := s.block.map (·.mapSymbols ρ.symbols) }

def Closure.rename (c : Closure) : Closure :=
  { c with
    function := c.function.rename ρ
    direct := c.direct.rename ρ
    captured := c.captured.rename ρ }

def Environment.rename (e : Environment) : Environment := { e with vars := e.vars.rename ρ }

@[simp] theorem Closure.takesReferences_rename (c : Closure) :
    (c.rename ρ).takesReferences = c.takesReferences := rfl

@[simp] theorem Environment.isValue_rename (e : Environment) :
    (e.rename ρ).isValue = e.isValue := rfl

@[simp] theorem Environment.isLiveReference_rename (e : Environment) :
    (e.rename ρ).isLiveReference = e.isLiveReference := rfl

@[simp] theorem Environment.isReceiverOnly_rename (e : Environment) :
    (e.rename ρ).isReceiverOnly = e.isReceiverOnly := by
  simp only [isReceiverOnly, rename, OrderedSet.toList_rename]
  rcases e.vars.toList with _ | ⟨v, _ | ⟨w, vs⟩⟩ <;> simp

namespace Graph

/-- The graph with its symbols renamed. -/
def rename (g : Graph) : Graph where
  body := g.body.mapSymbols ρ.symbols
  scopes := g.scopes.map (·.rename ρ)
  closures := g.closures.map (·.rename ρ)
  envs := g.envs.map (·.rename ρ)

variable {ρ} {g : Graph}

@[simp] theorem receiver_rename : (g.rename ρ).receiver = g.receiver.map (·.rename ρ) := rfl

@[simp] theorem size_scopes_rename : (g.rename ρ).scopes.size = g.scopes.size := by simp [rename]

@[simp] theorem size_closures_rename : (g.rename ρ).closures.size = g.closures.size := by
  simp [rename]

@[simp] theorem size_envs_rename : (g.rename ρ).envs.size = g.envs.size := by simp [rename]

theorem ofBody_rename (m : MethodBody) :
    ofBody (m.mapSymbols ρ.symbols) = (ofBody m).rename ρ := by
  simp [ofBody, rename, MethodBody.numbered_mapSymbols]

@[simp] theorem scope_rename (s : ScopeId) : (g.rename ρ).scope s = (g.scope s).rename ρ := by
  by_cases hs : s < g.scopes.size
  · simp [scope, rename, hs]
  · simp [scope, rename, hs, default, instInhabitedScope.default, Scope.rename]

@[simp] theorem env_rename (e : EnvId) : (g.rename ρ).env e = (g.env e).rename ρ := by
  by_cases he : e < g.envs.size
  · simp [env, rename, he]
  · simp [env, rename, he, default, instInhabitedEnvironment.default, Environment.rename]

/-- A closure that is not there has no function to rename. -/
theorem closure_rename {c : ClosureId} (hc : c < g.closures.size) :
    (g.rename ρ).closure c = (g.closure c).rename ρ := by
  simp [closure, rename, hc]

/-- What has nothing to do with names is the same for all closures. -/
theorem proj_closure_rename {α : Type} {π : Closure → α} (h : ∀ cl, π (cl.rename ρ) = π cl)
    (c : ClosureId) : π ((g.rename ρ).closure c) = π (g.closure c) := by
  by_cases hc : c < g.closures.size
  · rw [closure_rename hc, h]
  · rw [closure_of_le (Nat.le_of_not_lt hc), closure_of_le (by simpa using hc)]

@[simp] theorem captured_rename (c : ClosureId) :
    ((g.rename ρ).closure c).captured = (g.closure c).captured.rename ρ := by
  by_cases hc : c < g.closures.size
  · rw [closure_rename hc]
    rfl
  · rw [closure_of_le (Nat.le_of_not_lt hc), closure_of_le (by simpa using hc)]
    rfl

@[simp] theorem bodyScope_rename (c : ClosureId) :
    ((g.rename ρ).closure c).body = (g.closure c).body := proj_closure_rename (fun _ => rfl) c

@[simp] theorem host_rename (c : ClosureId) :
    ((g.rename ρ).closure c).host = (g.closure c).host := proj_closure_rename (fun _ => rfl) c

@[simp] theorem dependencies_rename (c : ClosureId) :
    ((g.rename ρ).closure c).dependencies = (g.closure c).dependencies :=
  proj_closure_rename (fun _ => rfl) c

/-! ## Changes -/

theorem map_modify {α : Type} {f r : α → α} {k : α → α} (h : ∀ a, k (r a) = r (f a))
    (xs : Array α) (i : Nat) : (xs.map r).modify i k = (xs.modify i f).map r := by
  apply Array.ext
  · simp
  · intro j h₁ h₂
    simp only [Array.getElem_modify, Array.getElem_map]
    split
    · exact h _
    · rfl

theorem modifyScope_rename {s : ScopeId} {f f' : Scope → Scope}
    (h : ∀ sc, f' (sc.rename ρ) = (f sc).rename ρ) :
    (g.rename ρ).modifyScope s f' = (g.modifyScope s f).rename ρ := by
  simp only [modifyScope, rename, map_modify h]

theorem modifyClosure_rename {c : ClosureId} {f f' : Closure → Closure}
    (h : ∀ cl, f' (cl.rename ρ) = (f cl).rename ρ) :
    (g.rename ρ).modifyClosure c f' = (g.modifyClosure c f).rename ρ := by
  simp only [modifyClosure, rename, map_modify h]

theorem modifyEnv_rename {e : EnvId} {f f' : Environment → Environment}
    (h : ∀ env, f' (env.rename ρ) = (f env).rename ρ) :
    (g.rename ρ).modifyEnv e f' = (g.modifyEnv e f).rename ρ := by
  simp only [modifyEnv, rename, map_modify h]

theorem mapClosures_rename {f f' : Closure → Closure}
    (h : ∀ cl, f' (cl.rename ρ) = (f cl).rename ρ) :
    { g.rename ρ with closures := (g.rename ρ).closures.map f' } =
      { g with closures := g.closures.map f }.rename ρ := by
  simp only [rename, Array.map_map, Function.comp_def, h]

theorem pushScope_rename (kind : ScopeKind) (p : Option ScopeId) (b : Option Block) :
    (g.rename ρ).pushScope kind p (b.map (·.mapSymbols ρ.symbols)) =
      (g.pushScope kind p b).rename ρ := by
  cases p with
  | none =>
    simp only [pushScope, rename, Array.map_push]
    rfl
  | some p =>
    simp only [pushScope, size_scopes_rename, scope_rename]
    rw [modifyScope_rename (f := fun s => { s with children := s.children ++ [g.scopes.size] })
      fun _ => rfl]
    simp only [rename, Array.map_push]
    rfl

theorem pushClosure_rename (f : NestedFunction) (s : ScopeId) :
    (g.rename ρ).pushClosure (f.rename ρ) s = (g.pushClosure f s).rename ρ := by
  let cl : Closure := { function := f, home := s, isDelegate := f.isDelegate }
  have hpush : { g.rename ρ with closures := (g.rename ρ).closures.push (cl.rename ρ) } =
      { g with closures := g.closures.push cl }.rename ρ := by
    simp only [rename, Array.map_push]
  have hcl : cl.rename ρ = { function := f.rename ρ, home := s, isDelegate := f.isDelegate } := rfl
  rw [pushClosure, size_closures_rename, show (f.rename ρ).isDelegate = f.isDelegate from rfl,
    ← hcl, hpush]
  exact modifyScope_rename fun _ => rfl

theorem setBody_rename (c : ClosureId) (s : ScopeId) :
    (g.rename ρ).setBody c s = (g.setBody c s).rename ρ := by
  rw [setBody, modifyScope_rename (f := fun sc => { sc with owner := some c }) fun _ => rfl]
  exact modifyClosure_rename fun _ => rfl

theorem pushEnv_rename (s : ScopeId) (kind : EnvKind) :
    (g.rename ρ).pushEnv s kind = (g.pushEnv s kind).rename ρ := by
  have hpush : { g.rename ρ with envs := (g.rename ρ).envs.push { scope := s, kind } } =
      { g with envs := g.envs.push { scope := s, kind } }.rename ρ := by
    simp only [rename, Array.map_push]
    rfl
  simp only [pushEnv, hpush, size_envs_rename]
  exact modifyScope_rename fun _ => rfl

/-! ## Looking things up -/

@[simp] theorem declaringScope_rename (v : Variable) :
    (g.rename ρ).declaringScope? (v.rename ρ) = g.declaringScope? v := by
  simp only [declaringScope?, rename, Array.findIdx?_map, Function.comp_def, Scope.rename,
    OrderedSet.mem_rename]

@[simp] theorem scopeOf_rename (b : BlockId) : (g.rename ρ).scopeOf? b = g.scopeOf? b := by
  simp only [scopeOf?, rename, Array.findIdx?_map, Function.comp_def, Scope.rename,
    Option.any_map, Block.id_mapSymbols]

@[simp] theorem closureOf_rename (f : NestedFunction) :
    (g.rename ρ).closureOf? (f.rename ρ) = g.closureOf? f := by
  have hfind {l : List ClosureId} (hl : ∀ c ∈ l, c < g.closures.size) :
      l.find? (fun c => ((g.rename ρ).closure c).function = f.rename ρ) =
        l.find? fun c => (g.closure c).function = f := by
    induction l with
    | nil => rfl
    | cons c l ih =>
      have hfun : ((g.rename ρ).closure c).function = f.rename ρ ↔ (g.closure c).function = f := by
        rw [closure_rename (hl c List.mem_cons_self)]
        exact NestedFunction.rename_inj
      simp only [List.find?_cons, hfun, ih fun d hd => hl d (List.mem_cons_of_mem c hd)]
  simp only [closureOf?, size_closures_rename]
  exact hfind fun c hc => by simpa using hc

theorem declare_rename (s : ScopeId) (v : Variable) :
    (g.rename ρ).declare? s (v.rename ρ) = (g.declare? s v).map (·.rename ρ) := by
  simp only [declare?, declaringScope_rename]
  cases g.declaringScope? v with
  | some t => rfl
  | none =>
    refine congrArg some (modifyScope_rename fun sc => ?_)
    simp only [Scope.rename, OrderedSet.rename_insert]

@[simp] theorem bodyLoc_rename (c : ClosureId) : (g.rename ρ).bodyLoc c = g.bodyLoc c := by
  simp only [bodyLoc, bodyScope_rename, scope_rename, Scope.rename]
  cases (g.scope (g.closure c).body).block <;> simp

/-! ## Nesting -/

@[simp] theorem ancestors_rename (s : ScopeId) : (g.rename ρ).ancestors s = g.ancestors s := by
  induction s using Nat.strongRecOn with
  | _ s ih =>
    have hparent : ((g.rename ρ).scope s).parent = (g.scope s).parent := by
      rw [scope_rename]
      rfl
    rw [ancestors, ancestors, hparent]
    cases (g.scope s).parent with
    | none => rfl
    | some p =>
      simp only
      split
      · rename_i hp
        rw [ih p hp]
      · rfl

theorem findAtDepth_rename (a : ScopeId) (l : List ScopeId) :
    (g.rename ρ).findAtDepth a l = g.findAtDepth a l := by
  induction l with
  | nil => rfl
  | cons s l ih => simp only [findAtDepth, scope_rename, Scope.rename, ih]

@[simp] theorem encloses_rename (a s : ScopeId) :
    (g.rename ρ).encloses a s = g.encloses a s := by
  rw [encloses, ancestors_rename, findAtDepth_rename]
  rfl

@[simp] theorem bodyDeclares_rename (c : ClosureId) (v : Variable) :
    (g.rename ρ).bodyDeclares c (v.rename ρ) = g.bodyDeclares c v := by
  simp only [bodyDeclares, declaringScope_rename, bodyScope_rename, encloses_rename]

@[simp] theorem liveReferenceEnv_rename (s : ScopeId) :
    (g.rename ρ).liveReferenceEnv? s = g.liveReferenceEnv? s := by
  simp only [liveReferenceEnv?, scope_rename, env_rename, Scope.rename,
    Environment.isLiveReference_rename]

theorem surroundingEnv_rename (l : List ScopeId) :
    (g.rename ρ).surroundingEnv? l = g.surroundingEnv? l := by
  induction l with
  | nil => rfl
  | cons s l ih =>
    cases l with
    | nil => simp [surroundingEnv?, Scope.rename]
    | cons p l =>
      rw [surroundingEnv?.eq_def, surroundingEnv?.eq_def g]
      simp only [scope_rename, Scope.rename, host_rename, liveReferenceEnv_rename, ih]

@[simp] theorem runtimeParent_rename (e : EnvId) :
    (g.rename ρ).runtimeParent? e = g.runtimeParent? e := by
  simp only [runtimeParent?, env_rename, Environment.rename, ancestors_rename,
    surroundingEnv_rename]

@[simp] theorem envOf_rename (v : Variable) : (g.rename ρ).envOf? (v.rename ρ) = g.envOf? v := by
  simp only [envOf?, declaringScope_rename, scope_rename, env_rename, Scope.rename,
    Environment.rename, OrderedSet.mem_rename]

@[simp] theorem receiverEnv_rename : (g.rename ρ).receiverEnv? = g.receiverEnv? := by
  simp only [receiverEnv?, receiver_rename]
  cases g.receiver <;> simp

@[simp] theorem preorder_rename : (g.rename ρ).preorder = g.preorder := by
  have hvisit (fuel : Nat) (stack : List ScopeId) :
      (g.rename ρ).visitScopes fuel stack = g.visitScopes fuel stack := by
    induction fuel generalizing stack with
    | zero => rfl
    | succ fuel ih =>
      cases stack with
      | nil => rfl
      | cons s stack => simp only [visitScopes, scope_rename, Scope.rename, ih]
  have hempty : (g.rename ρ).scopes.isEmpty = g.scopes.isEmpty := by
    rw [Array.isEmpty, size_scopes_rename, Array.isEmpty]
  rw [preorder, preorder, hempty, hvisit, size_scopes_rename]

end Graph

end Unnest
