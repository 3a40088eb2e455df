import Unnest.Environments.Allocate
import Unnest.Proofs.Captures.Nesting

/-!
# Where captured variables live

After allocation the scopes that declare a captured variable are exactly those with an environment,
which holds all of them in the order of their declarations. A closure reads from the environments
that hold something it captures. `Graph.Placed` says this in a way that also holds when environments
are removed later.

## Main statements

* `Graph.placed_of_allocate` : allocation places every captured variable.
-/

namespace Unnest

theorem Closure.readsAny_iff {cl : Closure} {vs : List Variable} :
    cl.readsAny vs = true ↔ ∃ v ∈ vs, v ∈ cl.captured := by
  simp [Closure.readsAny]

namespace Graph

variable {g g' g₀ : Graph} {m : MethodBody} {s : ScopeId} {c : ClosureId} {e : EnvId} {v : Variable}

/-! ## What decides about environments -/

theorem closures_any (g : Graph) (P : Closure → Bool) :
    g.closures.any P = true ↔ ∃ c < g.closures.size, P (g.closure c) = true := by
  rw [Array.any_eq_true]
  refine exists_congr fun c => ?_
  constructor
  · rintro ⟨hc, h⟩
    exact ⟨hc, by simpa [closure, hc] using h⟩
  · rintro ⟨hc, h⟩
    exact ⟨hc, by simpa [closure, hc] using h⟩

theorem closures_all (g : Graph) (P : Closure → Bool) :
    g.closures.all P = true ↔ ∀ c < g.closures.size, P (g.closure c) = true := by
  rw [Array.all_eq_true]
  refine forall_congr' fun c => forall_congr' fun hc => ?_
  simp [closure, hc]

theorem mem_hoistedVariables :
    v ∈ g.hoistedVariables s ↔ v ∈ (g.scope s).vars ∧ ∃ c, v ∈ (g.closure c).captured := by
  rw [hoistedVariables, List.mem_filter, closures_any]
  refine and_congr_right fun _ => exists_congr fun c => ?_
  rw [decide_eq_true_iff]
  exact ⟨And.right, fun hv => ⟨lt_of_mem_captured hv, hv⟩⟩

/-- Two graphs agree on what decides about environments: the shape and the captures. -/
structure SameCaptures (g g' : Graph) : Prop where
  shape : g'.shape = g.shape
  captured : ∀ c, (g'.closure c).captured = (g.closure c).captured
  capturesReceiver : ∀ c, (g'.closure c).capturesReceiver = (g.closure c).capturesReceiver
  isDelegate : ∀ c, (g'.closure c).isDelegate = (g.closure c).isDelegate

namespace SameCaptures

theorem refl (g : Graph) : SameCaptures g g := ⟨rfl, fun _ => rfl, fun _ => rfl, fun _ => rfl⟩

theorem trans {g'' : Graph} (h : SameCaptures g g') (h' : SameCaptures g' g'') :
    SameCaptures g g'' where
  shape := h'.shape.trans h.shape
  captured c := (h'.captured c).trans (h.captured c)
  capturesReceiver c := (h'.capturesReceiver c).trans (h.capturesReceiver c)
  isDelegate c := (h'.isDelegate c).trans (h.isDelegate c)

variable (h : SameCaptures g g')

include h

theorem exact (he : g.Exact m) : g'.Exact m :=
  he.of_closures h.shape h.captured h.capturesReceiver h.isDelegate

theorem readsAny (c : ClosureId) (vs : List Variable) :
    (g'.closure c).readsAny vs = (g.closure c).readsAny vs := by
  simp only [Closure.readsAny, h.captured]

theorem takesReferences (c : ClosureId) :
    (g'.closure c).takesReferences = (g.closure c).takesReferences := by
  simp only [Closure.takesReferences, h.isDelegate, function_of_shape h.shape]

theorem hoistedVariables (s : ScopeId) : g'.hoistedVariables s = g.hoistedVariables s := by
  simp only [Graph.hoistedVariables, vars_of_shape h.shape]
  refine List.filter_congr fun v _ => Bool.eq_iff_iff.mpr ?_
  rw [closures_any, closures_any, size_closures_of_shape h.shape]
  simp only [h.captured]

theorem envKindFor (vs : List Variable) : g'.envKindFor vs = g.envKindFor vs := by
  have hall : (g'.closures.all fun c => !c.readsAny vs || c.takesReferences) =
      g.closures.all fun c => !c.readsAny vs || c.takesReferences := by
    refine Bool.eq_iff_iff.mpr ?_
    rw [closures_all, closures_all, size_closures_of_shape h.shape]
    simp only [h.readsAny, h.takesReferences]
  simp only [Graph.envKindFor, hall]

end SameCaptures

/-! ## Placed variables -/

/-- Every scope that declares a captured variable has an environment, which holds all of them,
unless the environment has been removed. -/
structure Placed (g : Graph) : Prop where
  scope_env : ∀ s e, (g.scope s).env = some e ↔
    e < g.envs.size ∧ (g.env e).scope = s ∧ (g.env e).removed = false
  vars : ∀ e < g.envs.size, (g.env e).vars.toList = g.hoistedVariables (g.env e).scope
  kind : ∀ e < g.envs.size, (g.env e).kind = g.envKindFor (g.env e).vars.toList
  nonempty : ∀ e < g.envs.size, g.hoistedVariables (g.env e).scope ≠ []
  hoisted : ∀ s, g.hoistedVariables s ≠ [] → ∃ e < g.envs.size, (g.env e).scope = s
  ordered : ∀ d e, d < e → e < g.envs.size → (g.env d).scope < (g.env e).scope
  closure_envs : ∀ c e, e ∈ (g.closure c).envs ↔
    e < g.envs.size ∧ (g.env e).removed = false ∧
      (g.closure c).readsAny (g.env e).vars.toList = true

/-- The part of the environments of graph `g` made for the scopes before `k`, when no other stage
has touched them. -/
structure AllocatedTo (k : Nat) (g g' : Graph) : Prop where
  captures : SameCaptures g g'
  host : ∀ c, (g'.closure c).host = (g.closure c).host
  scope_env : ∀ s e, (g'.scope s).env = some e ↔ e < g'.envs.size ∧ (g'.env e).scope = s
  env : ∀ e < g'.envs.size, ∃ s vars, s < k ∧ g.hoistedVariables s ≠ [] ∧
    vars.toList = g.hoistedVariables s ∧
    g'.env e = { scope := s, kind := g.envKindFor (g.hoistedVariables s), vars }
  hoisted : ∀ s < k, g.hoistedVariables s ≠ [] → ∃ e < g'.envs.size, (g'.env e).scope = s
  ordered : ∀ d e, d < e → e < g'.envs.size → (g'.env d).scope < (g'.env e).scope
  closure_envs : ∀ c e, e ∈ (g'.closure c).envs ↔
    e < g'.envs.size ∧ (g.closure c).readsAny (g'.env e).vars.toList = true

/-! ## One scope -/

section AllocateScope

variable (hne : g.hoistedVariables s ≠ [])

include hne

/-- The graph in which scope `s` has its environment, spelled out. -/
theorem allocateScope_eq : g.allocateScope s =
    { ((g.pushEnv s (g.envKindFor (g.hoistedVariables s))).modifyEnv g.envs.size
        fun env => { env with vars := env.vars.insertAll (g.hoistedVariables s) }) with
      closures := g.closures.map fun c =>
        if c.readsAny (g.hoistedVariables s) then { c with envs := c.envs.insert g.envs.size }
        else c } := by
  have hempty : (g.hoistedVariables s).isEmpty = false := by simpa using hne
  simp only [allocateScope, hempty, Bool.false_eq_true, if_false]
  rfl

theorem size_envs_allocateScope : (g.allocateScope s).envs.size = g.envs.size + 1 := by
  simp [allocateScope_eq hne, pushEnv, modifyScope, modifyEnv]

theorem env_allocateScope (e : EnvId) : (g.allocateScope s).env e =
    if e = g.envs.size then
      { scope := s, kind := g.envKindFor (g.hoistedVariables s)
        vars := (∅ : OrderedSet Variable).insertAll (g.hoistedVariables s) }
    else g.env e := by
  rw [allocateScope_eq hne]
  change ((g.pushEnv s _).modifyEnv _ _).env e = _
  rw [env_modifyEnv, env_pushEnv]
  have hsize : (g.pushEnv s (g.envKindFor (g.hoistedVariables s))).envs.size = g.envs.size + 1 := by
    simp [pushEnv, modifyScope]
  rw [hsize]
  by_cases he : e = g.envs.size
  · subst he
    simp
  · simp [he, Ne.symm he]

/-- An environment was there before or is the one of scope `s`. -/
theorem env_allocateScope_cases (he : e < (g.allocateScope s).envs.size) :
    e < g.envs.size ∧ (g.allocateScope s).env e = g.env e ∨ e = g.envs.size := by
  rw [size_envs_allocateScope hne] at he
  obtain he | rfl := Nat.lt_succ_iff_lt_or_eq.mp he
  · exact .inl ⟨he, by rw [env_allocateScope hne, if_neg (Nat.ne_of_lt he)]⟩
  · exact .inr rfl

theorem env_allocateScope_of_lt (he : e < g.envs.size) :
    e < (g.allocateScope s).envs.size ∧ (g.allocateScope s).env e = g.env e := by
  rw [size_envs_allocateScope hne, env_allocateScope hne, if_neg (Nat.ne_of_lt he)]
  exact ⟨Nat.lt_succ_of_lt he, rfl⟩

theorem scope_allocateScope (hs : s < g.scopes.size) (t : ScopeId) :
    (g.allocateScope s).scope t =
      if t = s then { g.scope t with env := some g.envs.size } else g.scope t := by
  rw [allocateScope_eq hne]
  change (g.pushEnv s _).scope t = _
  rw [pushEnv, scope_modifyScope]
  by_cases ht : t = s
  · subst ht
    rw [if_pos ⟨rfl, hs⟩, if_pos rfl]
    rfl
  · rw [if_neg (fun h => ht h.1.symm), if_neg ht]
    rfl

theorem closure_allocateScope (c : ClosureId) : (g.allocateScope s).closure c =
    if (g.closure c).readsAny (g.hoistedVariables s) then
      { g.closure c with envs := (g.closure c).envs.insert g.envs.size }
    else g.closure c := by
  rw [allocateScope_eq hne]
  by_cases hc : c < g.closures.size
  · simp [closure, hc]
  · have hdefault : g.closure c = default := closure_of_le (Nat.le_of_not_lt hc)
    have hreads : (default : Closure).readsAny (g.hoistedVariables s) = false := by
      simp [Closure.readsAny, show (default : Closure).captured = ∅ from rfl]
    rw [hdefault, hreads]
    simp [closure, hc]

theorem mem_envs_allocateScope : e ∈ ((g.allocateScope s).closure c).envs ↔
    e ∈ (g.closure c).envs ∨
      e = g.envs.size ∧ (g.closure c).readsAny (g.hoistedVariables s) = true := by
  rw [closure_allocateScope hne]
  split <;> simp [*]

theorem sameCaptures_allocateScope : SameCaptures g (g.allocateScope s) := by
  have hproj {α : Type} (proj : Closure → α)
      (hproj : ∀ cl es, proj { cl with envs := es } = proj cl) (c : ClosureId) :
      proj ((g.allocateScope s).closure c) = proj (g.closure c) := by
    rw [closure_allocateScope hne]
    split
    · exact hproj _ _
    · rfl
  refine ⟨?_, fun c => hproj _ (fun _ _ => rfl) c, fun c => hproj _ (fun _ _ => rfl) c,
    fun c => hproj _ (fun _ _ => rfl) c⟩
  have hscopes : (g.scopes.modify s fun sc => { sc with env := some g.envs.size }).map Scope.shape =
      g.scopes.map Scope.shape := by
    refine Array.ext (by simp) fun i _ _ => ?_
    simp only [Array.getElem_map, Array.getElem_modify]
    split <;> rfl
  have hclosures : (g.closures.map fun c =>
      if c.readsAny (g.hoistedVariables s) then { c with envs := c.envs.insert g.envs.size }
      else c).map Closure.shape = g.closures.map Closure.shape := by
    rw [Array.map_map]
    refine Array.map_congr_left fun c _ => ?_
    simp only [Function.comp]
    split <;> rfl
  rw [allocateScope_eq hne]
  simp only [shape, modifyEnv, pushEnv, modifyScope, hscopes, hclosures]

end AllocateScope

/-! ## All scopes -/

/-- Inserting distinct elements one after the other lists them in their order. -/
theorem toList_insertAll_empty {vs : List Variable} (h : vs.Nodup) :
    ((∅ : OrderedSet Variable).insertAll vs).toList = vs := by
  have hgen (s : OrderedSet Variable) (vs : List Variable) (h : (s.toList ++ vs).Nodup) :
      (s.insertAll vs).toList = s.toList ++ vs := by
    induction vs generalizing s with
    | nil => simp [OrderedSet.insertAll]
    | cons v vs ih =>
      have hv : v ∉ s := fun hv => (List.nodup_append.mp h).2.2 v hv v (by simp) rfl
      have hlist : (s.insert v).toList = s.toList ++ [v] := by simp [hv]
      have := ih (s.insert v) (by rw [hlist]; simpa using h)
      rw [hlist] at this
      simpa [OrderedSet.insertAll] using this
  simpa using hgen ∅ vs (by simpa using h)

theorem nodup_hoistedVariables (g : Graph) (s : ScopeId) : (g.hoistedVariables s).Nodup :=
  (g.scope s).vars.nodup.filter _

namespace AllocatedTo

theorem zero (hscope : ∀ s, (g.scope s).env = none) (henvs : g.envs = #[])
    (hclosure : ∀ c, (g.closure c).envs = ∅) : AllocatedTo 0 g g where
  captures := .refl g
  host _ := rfl
  scope_env s e := by simp [hscope, henvs]
  env e he := by simp [henvs] at he
  hoisted s hs := absurd hs (Nat.not_lt_zero s)
  ordered d e _ he := by simp [henvs] at he
  closure_envs c e := by simp [hclosure, henvs]

section Step

variable {k : Nat} (h : AllocatedTo k g g')

include h

/-- Nothing changes at a scope that hoists nothing. -/
theorem of_hoistedVariables_eq_nil (hempty : g.hoistedVariables k = []) :
    AllocatedTo (k + 1) g g' := by
  refine ⟨h.captures, h.host, h.scope_env, fun e he => ?_, fun s hs hne => ?_, h.ordered,
    h.closure_envs⟩
  · obtain ⟨s, vars, hs, rest⟩ := h.env e he
    exact ⟨s, vars, Nat.lt_succ_of_lt hs, rest⟩
  · refine h.hoisted s (Nat.lt_of_le_of_ne (Nat.le_of_lt_succ hs) ?_) hne
    rintro rfl
    exact hne hempty

variable (hne : g.hoistedVariables k ≠ [])

include hne

theorem hoistedVariables_ne_nil : g'.hoistedVariables k ≠ [] := by
  rwa [h.captures.hoistedVariables]

theorem size_envs_step : g'.envs.size < (g'.allocateScope k).envs.size := by
  rw [size_envs_allocateScope (h.hoistedVariables_ne_nil hne)]
  exact Nat.lt_succ_self _

/-- The new environment holds what the scope hoists. -/
theorem exists_env_step : ∃ vars, vars.toList = g.hoistedVariables k ∧
    (g'.allocateScope k).env g'.envs.size =
      { scope := k, kind := g.envKindFor (g.hoistedVariables k), vars } := by
  refine ⟨_, toList_insertAll_empty (nodup_hoistedVariables g k), ?_⟩
  rw [env_allocateScope (h.hoistedVariables_ne_nil hne), if_pos rfl, h.captures.hoistedVariables,
    h.captures.envKindFor]

theorem scope_env_step (hk : k < g.scopes.size) (s : ScopeId) (e : EnvId) :
    ((g'.allocateScope k).scope s).env = some e ↔
      e < (g'.allocateScope k).envs.size ∧ ((g'.allocateScope k).env e).scope = s := by
  have hne' := h.hoistedVariables_ne_nil hne
  have hk' : k < g'.scopes.size := by rwa [size_scopes_of_shape h.captures.shape]
  obtain ⟨vars, -, hnew⟩ := h.exists_env_step hne
  rw [scope_allocateScope hne' hk']
  by_cases hs : s = k
  · subst hs
    simp only [if_true, Option.some.injEq]
    constructor
    · rintro rfl
      exact ⟨h.size_envs_step hne, by rw [hnew]⟩
    · rintro ⟨he, heq⟩
      obtain ⟨he, hold⟩ | rfl := env_allocateScope_cases hne' he
      · -- the environments so far belong to the scopes before
        obtain ⟨t, vars, ht, -, -, heq'⟩ := h.env e he
        rw [hold, heq'] at heq
        exact absurd heq (Nat.ne_of_lt ht)
      · rfl
  · rw [if_neg hs, h.scope_env]
    constructor
    · rintro ⟨he, heq⟩
      obtain ⟨hlt, hold⟩ := env_allocateScope_of_lt hne' he
      exact ⟨hlt, by rw [hold, heq]⟩
    · rintro ⟨he, heq⟩
      obtain ⟨he, hold⟩ | rfl := env_allocateScope_cases hne' he
      · exact ⟨he, hold ▸ heq⟩
      · rw [hnew] at heq
        exact absurd heq.symm hs

theorem closure_envs_step (c : ClosureId) (e : EnvId) :
    e ∈ ((g'.allocateScope k).closure c).envs ↔ e < (g'.allocateScope k).envs.size ∧
      (g.closure c).readsAny ((g'.allocateScope k).env e).vars.toList = true := by
  have hne' := h.hoistedVariables_ne_nil hne
  obtain ⟨vars, hvars, hnew⟩ := h.exists_env_step hne
  rw [mem_envs_allocateScope hne', h.closure_envs, h.captures.hoistedVariables,
    h.captures.readsAny]
  constructor
  · rintro (⟨he, hr⟩ | ⟨rfl, hr⟩)
    · obtain ⟨hlt, hold⟩ := env_allocateScope_of_lt hne' he
      exact ⟨hlt, by rwa [hold]⟩
    · refine ⟨h.size_envs_step hne, ?_⟩
      rw [hnew]
      rwa [← hvars] at hr
  · rintro ⟨he, hr⟩
    obtain ⟨he, hold⟩ | rfl := env_allocateScope_cases hne' he
    · exact .inl ⟨he, hold ▸ hr⟩
    · rw [hnew] at hr
      exact .inr ⟨rfl, hvars ▸ hr⟩

omit hne in
/-- Allocation in the next scope. -/
theorem step (hk : k < g.scopes.size) : AllocatedTo (k + 1) g (g'.allocateScope k) := by
  by_cases hempty : g.hoistedVariables k = []
  · have hsame : g'.allocateScope k = g' := by
      simp [allocateScope, h.captures.hoistedVariables k, hempty]
    rw [hsame]
    exact h.of_hoistedVariables_eq_nil hempty
  have hne := h.hoistedVariables_ne_nil hempty
  obtain ⟨vars, hvars, hnew⟩ := h.exists_env_step hempty
  constructor
  case captures => exact h.captures.trans (sameCaptures_allocateScope hne)
  case host =>
    intro c
    rw [← h.host c, closure_allocateScope hne]
    split <;> rfl
  case scope_env => exact h.scope_env_step hempty hk
  case env =>
    intro e he
    obtain ⟨he, hold⟩ | rfl := env_allocateScope_cases hne he
    · obtain ⟨s, vars, hs, rest⟩ := h.env e he
      exact ⟨s, vars, Nat.lt_succ_of_lt hs, hold ▸ rest⟩
    · exact ⟨k, vars, Nat.lt_succ_self k, hempty, hvars, hnew⟩
  case hoisted =>
    intro s hs hs'
    obtain hs | rfl := Nat.lt_succ_iff_lt_or_eq.mp hs
    · obtain ⟨e, he, heq⟩ := h.hoisted s hs hs'
      obtain ⟨hlt, hold⟩ := env_allocateScope_of_lt hne he
      exact ⟨e, hlt, by rw [hold, heq]⟩
    · exact ⟨g'.envs.size, h.size_envs_step hempty, by rw [hnew]⟩
  case ordered =>
    intro d e hde he
    obtain ⟨he, hold⟩ | rfl := env_allocateScope_cases hne he
    · rw [hold, (env_allocateScope_of_lt hne (Nat.lt_trans hde he)).2]
      exact h.ordered d e hde he
    · rw [hnew, (env_allocateScope_of_lt hne hde).2]
      obtain ⟨s, vars, hs, -, -, heq⟩ := h.env d hde
      rwa [heq]
  case closure_envs => exact h.closure_envs_step hempty

end Step

theorem foldl {k : Nat} (hk : k ≤ g.scopes.size) (h : AllocatedTo 0 g g) :
    AllocatedTo k g ((List.range k).foldl allocateScope g) := by
  induction k with
  | zero => exact h
  | succ k ih =>
    rw [List.range_succ, List.foldl_append]
    exact (ih (Nat.le_of_succ_le hk)).step hk

theorem placed {k : Nat} (hk : g.scopes.size ≤ k) (h : AllocatedTo k g g') : g'.Placed := by
  have hremoved {e : EnvId} (he : e < g'.envs.size) : (g'.env e).removed = false := by
    obtain ⟨s, vars, -, -, -, heq⟩ := h.env e he
    rw [heq]
  constructor
  case scope_env =>
    intro s e
    rw [h.scope_env]
    exact ⟨fun ⟨he, hs⟩ => ⟨he, hs, hremoved he⟩, fun ⟨he, hs, _⟩ => ⟨he, hs⟩⟩
  case vars =>
    intro e he
    obtain ⟨s, vars, -, -, hvars, heq⟩ := h.env e he
    rw [h.captures.hoistedVariables, heq, hvars]
  case kind =>
    intro e he
    obtain ⟨s, vars, -, -, hvars, heq⟩ := h.env e he
    rw [h.captures.envKindFor, heq, hvars]
  case nonempty =>
    intro e he
    obtain ⟨s, vars, -, hne, -, heq⟩ := h.env e he
    rwa [h.captures.hoistedVariables, heq]
  case hoisted =>
    intro s hne
    rw [h.captures.hoistedVariables] at hne
    obtain ⟨v, hv⟩ := List.exists_mem_of_ne_nil _ hne
    have hs := lt_of_mem_vars (mem_hoistedVariables.mp hv).1
    exact h.hoisted s (Nat.lt_of_lt_of_le hs hk) hne
  case ordered => exact h.ordered
  case closure_envs =>
    intro c e
    rw [h.closure_envs, h.captures.readsAny]
    exact ⟨fun ⟨he, hr⟩ => ⟨he, hremoved he, hr⟩, fun ⟨he, _, hr⟩ => ⟨he, hr⟩⟩

end AllocatedTo

/-- No closure has a host yet, and no environment is linked or removed. -/
structure Unhosted (g : Graph) : Prop where
  host : ∀ c, (g.closure c).host = none
  env : ∀ e, (g.env e).needsParent = false ∧ (g.env e).closures = [] ∧
    (g.env e).removed = false

/-- Allocation places every captured variable. -/
theorem placed_of_allocate (h : g.Analysed m) :
    ∃ g', g.allocate = .ok g' ∧ SameCaptures g g' ∧ g'.Placed ∧ g'.Unhosted := by
  have hempty : g.envs.isEmpty = true := by simp [h.envs]
  have hall := AllocatedTo.foldl (Nat.le_refl _)
    (AllocatedTo.zero h.scope_env h.envs h.closure_envs)
  rw [← h.holds.preorder_eq] at hall
  refine ⟨_, by rw [allocate, if_pos hempty], hall.captures, hall.placed (Nat.le_refl _), ?_, ?_⟩
  · intro c
    rw [hall.host, h.host]
  · intro e
    by_cases he : e < (g.preorder.foldl allocateScope g).envs.size
    · obtain ⟨s, vars, -, -, -, heq⟩ := hall.env e he
      simp [heq]
    · rw [env_of_le (Nat.le_of_not_lt he)]
      exact ⟨rfl, rfl, rfl⟩

end Graph

end Unnest
