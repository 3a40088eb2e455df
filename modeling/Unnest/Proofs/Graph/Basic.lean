import Mathlib.Data.List.Basic
import Unnest.Graph.Nesting

/-!
# Reading and changing a graph

What each change of a graph does to its tables, entry by entry. The entries are read with `scope`,
`closure` and `env`, which are total: outside a table they give an entry that holds nothing.

Most changes leave the nesting alone. `Graph.shape` is what is left of a graph when everything that
the analysis finds out later is dropped, and every question about nesting is answered by the shape.
-/

namespace Unnest

namespace Graph

variable {g g' : Graph}

/-! ## Entries -/

theorem scope_of_le {s : ScopeId} (h : g.scopes.size ≤ s) : g.scope s = default := by
  simp [scope, h]

theorem closure_of_le {c : ClosureId} (h : g.closures.size ≤ c) : g.closure c = default := by
  simp [closure, h]

theorem env_of_le {e : EnvId} (h : g.envs.size ≤ e) : g.env e = default := by
  simp [env, h]

/-- A scope of which something is known is in the table. -/
theorem lt_of_scope {α : Type} {s : ScopeId} {a : α} (proj : Scope → α)
    (h : proj (g.scope s) = a) (ha : proj default ≠ a) : s < g.scopes.size := by
  by_contra hs
  rw [scope_of_le (Nat.le_of_not_lt hs)] at h
  exact ha h

@[simp] theorem vars_default : (default : Scope).vars = ∅ := rfl

theorem lt_of_mem_vars {s : ScopeId} {v : Variable} (h : v ∈ (g.scope s).vars) :
    s < g.scopes.size := by
  by_contra hs
  rw [scope_of_le (Nat.le_of_not_lt hs), vars_default] at h
  exact OrderedSet.not_mem_empty v h

/-! ## Changes of one entry -/

private theorem getD_modify {α : Type} [Inhabited α] (a : Array α) (i j : Nat) (f : α → α) :
    (a.modify i f).getD j default =
      if i = j ∧ j < a.size then f (a.getD j default) else a.getD j default := by
  by_cases hj : j < a.size <;> by_cases hij : i = j <;> simp [hj, hij, Array.getElem_modify]

theorem scope_modifyScope (g : Graph) (s t : ScopeId) (f : Scope → Scope) :
    (g.modifyScope s f).scope t = if s = t ∧ t < g.scopes.size then f (g.scope t) else g.scope t :=
  getD_modify g.scopes s t f

theorem closure_modifyClosure (g : Graph) (c d : ClosureId) (f : Closure → Closure) :
    (g.modifyClosure c f).closure d =
      if c = d ∧ d < g.closures.size then f (g.closure d) else g.closure d :=
  getD_modify g.closures c d f

theorem env_modifyEnv (g : Graph) (e i : EnvId) (f : Environment → Environment) :
    (g.modifyEnv e f).env i = if e = i ∧ i < g.envs.size then f (g.env i) else g.env i :=
  getD_modify g.envs e i f

@[simp] theorem closure_modifyScope (g : Graph) (s : ScopeId) (f : Scope → Scope) (c : ClosureId) :
    (g.modifyScope s f).closure c = g.closure c := rfl

@[simp] theorem env_modifyScope (g : Graph) (s : ScopeId) (f : Scope → Scope) (e : EnvId) :
    (g.modifyScope s f).env e = g.env e := rfl

@[simp] theorem scope_modifyClosure (g : Graph) (c : ClosureId) (f : Closure → Closure)
    (s : ScopeId) : (g.modifyClosure c f).scope s = g.scope s := rfl

@[simp] theorem env_modifyClosure (g : Graph) (c : ClosureId) (f : Closure → Closure) (e : EnvId) :
    (g.modifyClosure c f).env e = g.env e := rfl

@[simp] theorem scope_modifyEnv (g : Graph) (e : EnvId) (f : Environment → Environment)
    (s : ScopeId) : (g.modifyEnv e f).scope s = g.scope s := rfl

@[simp] theorem closure_modifyEnv (g : Graph) (e : EnvId) (f : Environment → Environment)
    (c : ClosureId) : (g.modifyEnv e f).closure c = g.closure c := rfl

@[simp] theorem size_scopes_modifyScope (g : Graph) (s : ScopeId) (f : Scope → Scope) :
    (g.modifyScope s f).scopes.size = g.scopes.size := by simp [modifyScope]

@[simp] theorem size_closures_modifyClosure (g : Graph) (c : ClosureId) (f : Closure → Closure) :
    (g.modifyClosure c f).closures.size = g.closures.size := by simp [modifyClosure]

@[simp] theorem size_envs_modifyEnv (g : Graph) (e : EnvId) (f : Environment → Environment) :
    (g.modifyEnv e f).envs.size = g.envs.size := by simp [modifyEnv]

/-- A change that a field survives does not show in it, whether or not the entry exists. -/
theorem proj_closure_modifyClosure {α : Type} (proj : Closure → α) {f : Closure → Closure}
    (hf : ∀ cl, proj (f cl) = proj cl) (g : Graph) (c d : ClosureId) :
    proj ((g.modifyClosure c f).closure d) = proj (g.closure d) := by
  rw [closure_modifyClosure]
  split
  · exact hf _
  · rfl

/-! ## New entries -/

private theorem getD_push {α : Type} [Inhabited α] (a : Array α) (x : α) (j : Nat) :
    (a.push x).getD j default = if j = a.size then x else a.getD j default := by
  by_cases hj : j < a.size
  · simp [hj, Nat.lt_succ_of_lt hj, Array.getElem_push, Nat.ne_of_lt hj]
  · by_cases he : j = a.size
    · simp [he]
    · have : ¬ j < a.size + 1 := by omega
      simp [hj, he, this]

theorem scope_pushScope_none (g : Graph) (kind : ScopeKind) (block : Option Block) (t : ScopeId) :
    (g.pushScope kind none block).scope t =
      if t = g.scopes.size then { kind, parent := none, block } else g.scope t :=
  getD_push g.scopes _ t

/-- A parent outside the table gets no child. -/
theorem scope_pushScope_some (g : Graph) (kind : ScopeKind) (p : ScopeId) (block : Option Block)
    (t : ScopeId) : (g.pushScope kind (some p) block).scope t =
      if t = g.scopes.size then
        { kind, parent := some p, block, depth := (g.scope p).depth + 1 }
      else if p = t ∧ t < g.scopes.size then
        { g.scope t with children := (g.scope t).children ++ [g.scopes.size] }
      else g.scope t := by
  have hpush := getD_push (g.modifyScope p fun s =>
    { s with children := s.children ++ [g.scopes.size] }).scopes
    { kind, parent := some p, block, depth := (g.scope p).depth + 1 } t
  rw [size_scopes_modifyScope] at hpush
  refine hpush.trans ?_
  split
  · rfl
  · exact scope_modifyScope g p t _

theorem scope_pushScope (g : Graph) (kind : ScopeKind) {p : ScopeId} (block : Option Block)
    (hp : p < g.scopes.size) (t : ScopeId) :
    (g.pushScope kind (some p) block).scope t =
      if t = g.scopes.size then
        { kind, parent := some p, block, depth := (g.scope p).depth + 1 }
      else if t = p then { g.scope p with children := (g.scope p).children ++ [g.scopes.size] }
      else g.scope t := by
  rw [scope_pushScope_some]
  by_cases ht : t = p
  · subst ht; simp [hp]
  · simp [ht, Ne.symm ht]

@[simp] theorem closure_pushScope (g : Graph) (kind : ScopeKind) (p : Option ScopeId)
    (block : Option Block) (c : ClosureId) :
    (g.pushScope kind p block).closure c = g.closure c := by
  cases p <;> rfl

@[simp] theorem size_scopes_pushScope (g : Graph) (kind : ScopeKind) (p : Option ScopeId)
    (block : Option Block) : (g.pushScope kind p block).scopes.size = g.scopes.size + 1 := by
  cases p <;> simp [pushScope]

@[simp] theorem closures_pushScope (g : Graph) (kind : ScopeKind) (p : Option ScopeId)
    (block : Option Block) : (g.pushScope kind p block).closures = g.closures := by
  cases p <;> rfl

@[simp] theorem envs_pushScope (g : Graph) (kind : ScopeKind) (p : Option ScopeId)
    (block : Option Block) : (g.pushScope kind p block).envs = g.envs := by
  cases p <;> rfl

@[simp] theorem body_pushScope (g : Graph) (kind : ScopeKind) (p : Option ScopeId)
    (block : Option Block) : (g.pushScope kind p block).body = g.body := by
  cases p <;> rfl

theorem closure_pushClosure (g : Graph) (f : NestedFunction) (s : ScopeId) (c : ClosureId) :
    (g.pushClosure f s).closure c =
      if c = g.closures.size then { function := f, home := s, isDelegate := f.isDelegate }
      else g.closure c :=
  getD_push g.closures _ c

theorem scope_pushClosure (g : Graph) (f : NestedFunction) (s t : ScopeId) :
    (g.pushClosure f s).scope t =
      if s = t ∧ t < g.scopes.size then
        { g.scope t with closures := (g.scope t).closures ++ [g.closures.size] }
      else g.scope t :=
  scope_modifyScope _ s t _

theorem env_pushEnv (g : Graph) (s : ScopeId) (kind : EnvKind) (e : EnvId) :
    (g.pushEnv s kind).env e =
      if e = g.envs.size then { scope := s, kind } else g.env e :=
  getD_push g.envs _ e

/-! ## Look-ups -/

theorem mem_of_declaringScope {v : Variable} {s : ScopeId} (h : g.declaringScope? v = some s) :
    v ∈ (g.scope s).vars := by
  obtain ⟨hs, hv, -⟩ := Array.findIdx?_eq_some_iff_getElem.mp h
  simpa [scope, hs] using hv

theorem declaringScope_eq_none {v : Variable} :
    g.declaringScope? v = none ↔ ∀ s, v ∉ (g.scope s).vars := by
  rw [declaringScope?, Array.findIdx?_eq_none_iff]
  constructor
  · intro h s hv
    have hs := lt_of_mem_vars hv
    have hmem : g.scope s ∈ g.scopes := by simp [scope, hs]
    exact of_decide_eq_false (h _ hmem) hv
  · intro h sc hsc
    obtain ⟨s, hs, rfl⟩ := Array.mem_iff_getElem.mp hsc
    simpa [scope, hs] using h s

theorem lt_of_closureOf {f : NestedFunction} {c : ClosureId} (h : g.closureOf? f = some c) :
    c < g.closures.size := by
  simpa using List.mem_of_find?_eq_some h

theorem function_of_closureOf {f : NestedFunction} {c : ClosureId} (h : g.closureOf? f = some c) :
    (g.closure c).function = f := by
  simpa using List.find?_some h

theorem closureOf_eq_none {f : NestedFunction} :
    g.closureOf? f = none ↔ ∀ c < g.closures.size, (g.closure c).function ≠ f := by
  simp [closureOf?]

/-! ## Shapes -/

end Graph

/-- A scope without its environment. -/
def Scope.shape (s : Scope) : Scope := { s with env := none }

/-- A closure as it is when it has just got its body. -/
def Closure.shape (c : Closure) : Closure :=
  { function := c.function, home := c.home, body := c.body }

namespace Graph

variable {g g' : Graph}

/-- The nesting of scopes and closures, without captures and environments. -/
def shape (g : Graph) : Graph :=
  { body := g.body, scopes := g.scopes.map Scope.shape, closures := g.closures.map Closure.shape }

@[simp] theorem size_scopes_shape (g : Graph) : g.shape.scopes.size = g.scopes.size := by
  simp [shape]

@[simp] theorem size_closures_shape (g : Graph) : g.shape.closures.size = g.closures.size := by
  simp [shape]

@[simp] theorem scope_shape (g : Graph) (s : ScopeId) : g.shape.scope s = (g.scope s).shape := by
  by_cases hs : s < g.scopes.size
  · simp [shape, scope, hs]
  · simp [shape, scope, hs]
    rfl

@[simp] theorem closure_shape (g : Graph) (c : ClosureId) :
    g.shape.closure c = (g.closure c).shape := by
  by_cases hc : c < g.closures.size
  · simp [shape, closure, hc]
  · simp [shape, closure, hc]
    rfl

@[simp] theorem ancestors_shape (g : Graph) (s : ScopeId) :
    g.shape.ancestors s = g.ancestors s := by
  induction s using Nat.strongRecOn with
  | ind s ih =>
    rw [ancestors, ancestors, scope_shape]
    rw [show (g.scope s).shape.parent = (g.scope s).parent from rfl]
    cases hp : (g.scope s).parent with
    | none => rfl
    | some p =>
      by_cases hlt : p < s
      · simp [hlt, ih p hlt]
      · simp [hlt]

@[simp] theorem declaringScope_shape (g : Graph) (v : Variable) :
    g.shape.declaringScope? v = g.declaringScope? v := by
  simp only [declaringScope?, shape, Array.findIdx?_map]
  rfl

@[simp] theorem closureOf_shape (g : Graph) (f : NestedFunction) :
    g.shape.closureOf? f = g.closureOf? f := by
  simp only [closureOf?, size_closures_shape, closure_shape]
  rfl

@[simp] theorem findAtDepth_shape (g : Graph) (a : ScopeId) (chain : List ScopeId) :
    g.shape.findAtDepth a chain = g.findAtDepth a chain := by
  induction chain with
  | nil => rfl
  | cons s outer ih => simp only [findAtDepth, scope_shape, ih, Scope.shape]

@[simp] theorem encloses_shape (g : Graph) (a s : ScopeId) :
    g.shape.encloses a s = g.encloses a s := by
  simp [encloses]

@[simp] theorem bodyDeclares_shape (g : Graph) (c : ClosureId) (v : Variable) :
    g.shape.bodyDeclares c v = g.bodyDeclares c v := by
  simp only [bodyDeclares, declaringScope_shape, closure_shape, encloses_shape, Closure.shape]

@[simp] theorem preorder_shape (g : Graph) : g.shape.preorder = g.preorder := by
  have hvisit (fuel : Nat) (stack : List ScopeId) :
      g.shape.visitScopes fuel stack = g.visitScopes fuel stack := by
    induction fuel generalizing stack with
    | zero => rfl
    | succ fuel ih =>
      cases stack with
      | nil => rfl
      | cons s stack => simp only [visitScopes, scope_shape, ih, Scope.shape]
  have hempty : g.shape.scopes.isEmpty = g.scopes.isEmpty := by simp [shape, Array.isEmpty]
  simp only [preorder, hempty, hvisit, size_scopes_shape]

/-- Graphs of one size have one shape if their entries have. -/
theorem shape_of_entries (hbody : g'.body = g.body) (hscopes : g'.scopes.size = g.scopes.size)
    (hscope : ∀ s, (g'.scope s).shape = (g.scope s).shape)
    (hclosures : g'.closures.size = g.closures.size)
    (hclosure : ∀ c, (g'.closure c).shape = (g.closure c).shape) : g'.shape = g.shape := by
  have hs : g'.scopes.map Scope.shape = g.scopes.map Scope.shape := by
    refine Array.ext (by simpa using hscopes) fun i h₁ h₂ => ?_
    simp only [Array.size_map] at h₁ h₂
    simpa [scope, h₁, h₂] using hscope i
  have hc : g'.closures.map Closure.shape = g.closures.map Closure.shape := by
    refine Array.ext (by simpa using hclosures) fun i h₁ h₂ => ?_
    simp only [Array.size_map] at h₁ h₂
    simpa [closure, h₁, h₂] using hclosure i
  simp only [shape, hbody, hs, hc]

/-- A change of one closure that leaves its function, home and body alone keeps the shape. -/
theorem shape_modifyClosure (g : Graph) (c : ClosureId) {f : Closure → Closure}
    (hf : ∀ cl, (f cl).shape = cl.shape) : (g.modifyClosure c f).shape = g.shape :=
  shape_of_entries rfl rfl (fun _ => rfl) (by simp) fun d =>
    proj_closure_modifyClosure Closure.shape hf g c d

/-! ### Graphs of one shape -/

section SameShape

variable (h : g'.shape = g.shape)

include h

theorem body_of_shape : g'.body = g.body :=
  show g'.shape.body = g.shape.body by rw [h]

theorem receiver_of_shape : g'.receiver = g.receiver :=
  congrArg MethodBody.receiver (body_of_shape h)

theorem size_scopes_of_shape : g'.scopes.size = g.scopes.size := by
  rw [← size_scopes_shape, h, size_scopes_shape]

theorem size_closures_of_shape : g'.closures.size = g.closures.size := by
  rw [← size_closures_shape, h, size_closures_shape]

/-- What can be read off the shape of a scope is the same. -/
theorem scope_of_shape {α : Type} (proj : Scope → α) (hproj : ∀ s, proj s.shape = proj s)
    (s : ScopeId) : proj (g'.scope s) = proj (g.scope s) := by
  rw [← hproj, ← scope_shape, h, scope_shape, hproj]

/-- What can be read off the shape of a closure is the same. -/
theorem closure_of_shape {α : Type} (proj : Closure → α) (hproj : ∀ c, proj c.shape = proj c)
    (c : ClosureId) : proj (g'.closure c) = proj (g.closure c) := by
  rw [← hproj, ← closure_shape, h, closure_shape, hproj]

theorem parent_of_shape (s : ScopeId) : (g'.scope s).parent = (g.scope s).parent :=
  scope_of_shape h Scope.parent (fun _ => rfl) s

theorem children_of_shape (s : ScopeId) : (g'.scope s).children = (g.scope s).children :=
  scope_of_shape h Scope.children (fun _ => rfl) s

theorem vars_of_shape (s : ScopeId) : (g'.scope s).vars = (g.scope s).vars :=
  scope_of_shape h Scope.vars (fun _ => rfl) s

theorem owner_of_shape (s : ScopeId) : (g'.scope s).owner = (g.scope s).owner :=
  scope_of_shape h Scope.owner (fun _ => rfl) s

theorem block_of_shape (s : ScopeId) : (g'.scope s).block = (g.scope s).block :=
  scope_of_shape h Scope.block (fun _ => rfl) s

theorem depth_of_shape (s : ScopeId) : (g'.scope s).depth = (g.scope s).depth :=
  scope_of_shape h Scope.depth (fun _ => rfl) s

theorem function_of_shape (c : ClosureId) : (g'.closure c).function = (g.closure c).function :=
  closure_of_shape h Closure.function (fun _ => rfl) c

theorem home_of_shape (c : ClosureId) : (g'.closure c).home = (g.closure c).home :=
  closure_of_shape h Closure.home (fun _ => rfl) c

theorem bodyScope_of_shape (c : ClosureId) : (g'.closure c).body = (g.closure c).body :=
  closure_of_shape h Closure.body (fun _ => rfl) c

theorem ancestors_of_shape (s : ScopeId) : g'.ancestors s = g.ancestors s := by
  rw [← ancestors_shape, h, ancestors_shape]

theorem declaringScope_of_shape (v : Variable) : g'.declaringScope? v = g.declaringScope? v := by
  rw [← declaringScope_shape, h, declaringScope_shape]

theorem closureOf_of_shape (f : NestedFunction) : g'.closureOf? f = g.closureOf? f := by
  rw [← closureOf_shape, h, closureOf_shape]

theorem encloses_of_shape (a s : ScopeId) : g'.encloses a s = g.encloses a s := by
  rw [← encloses_shape, h, encloses_shape]

theorem bodyDeclares_of_shape (c : ClosureId) (v : Variable) :
    g'.bodyDeclares c v = g.bodyDeclares c v := by
  rw [← bodyDeclares_shape, h, bodyDeclares_shape]

end SameShape

end Graph

end Unnest
