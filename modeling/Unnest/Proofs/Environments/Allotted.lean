import Mathlib.Data.List.Sort
import Unnest.Proofs.Environments.Chain

/-!
# Allocation is exact

Allocation makes exactly the environments that the captures of an accepted body call for: one for
each scope that declares a captured variable, in preorder. It holds the captured variables of its
scope in the order of their declarations, and lives on the heap exactly if one of its readers cannot
be handed a reference. `Graph.Allots` says this of the graphs before and after allocation.

## Main statements

* `Graph.Placed.scopes_envs` : which environments there are, and in which order.
* `Graph.Placed.kind_iff` : which of them live on the heap.
* `MethodBody.allocate_exact` : allocation is exact.
-/

namespace Unnest

namespace Graph

variable {g g' : Graph} {m : MethodBody} {s : ScopeId} {c : ClosureId} {e : EnvId} {v : Variable}

/-- Some closure captures the variable. -/
def IsCaptured (g : Graph) (v : Variable) : Prop := ∃ c, v ∈ (g.closure c).captured

theorem any_captured_iff : (g.closures.any (v ∈ ·.captured)) = true ↔ g.IsCaptured v := by
  rw [closures_any]
  refine exists_congr fun c => ?_
  rw [decide_eq_true_iff]
  exact ⟨And.right, fun hv => ⟨lt_of_mem_captured hv, hv⟩⟩

instance (g : Graph) : DecidablePred g.IsCaptured := fun _ => decidable_of_iff _ any_captured_iff

theorem hoistedVariables_eq (g : Graph) (s : ScopeId) :
    g.hoistedVariables s = (g.scope s).vars.toList.filter g.IsCaptured := by
  refine List.filter_congr fun v _ => Bool.eq_iff_iff.mpr ?_
  rw [any_captured_iff, decide_eq_true_iff]

theorem hoistedVariables_ne_nil :
    g.hoistedVariables s ≠ [] ↔ ∃ v ∈ (g.scope s).vars.toList, g.IsCaptured v := by
  rw [hoistedVariables_eq, ne_eq, List.filter_eq_nil_iff]
  simp

theorem SameCaptures.isCaptured (h : SameCaptures g g') (v : Variable) :
    g'.IsCaptured v ↔ g.IsCaptured v := by
  simp only [IsCaptured, h.captured]

/-! ## What placed environments are -/

namespace Placed

variable (hp : g.Placed)

include hp

/-- The scopes with an environment are those that declare a captured variable. -/
theorem mem_scopes_envs : s ∈ g.envs.toList.map (·.scope) ↔
    ∃ v ∈ (g.scope s).vars.toList, g.IsCaptured v := by
  rw [← hoistedVariables_ne_nil, List.mem_map]
  constructor
  · rintro ⟨env, henv, rfl⟩
    obtain ⟨e, he, rfl⟩ := Array.mem_iff_getElem.mp (Array.mem_toList_iff.mp henv)
    simpa [env, he] using hp.nonempty e he
  · intro hne
    obtain ⟨e, he, rfl⟩ := hp.hoisted s hne
    exact ⟨g.env e, by simp [env, he], rfl⟩

/-- One environment for each scope that declares a captured variable, in the order of the scopes. -/
theorem scopes_envs (hh : g.Holds m) : g.envs.toList.map (·.scope) =
    g.preorder.filter fun s => ∃ v ∈ (g.scope s).vars.toList, g.IsCaptured v := by
  have hsorted : (g.envs.toList.map (·.scope)).Pairwise (· < ·) := by
    rw [List.pairwise_map, List.pairwise_iff_getElem]
    intro d e hd he hlt
    simp only [Array.length_toList] at hd he
    simpa [env, hd, he] using hp.ordered d e hlt he
  rw [hh.preorder_eq]
  refine hsorted.eq_of_mem_iff (List.pairwise_lt_range.filter _) fun s => ?_
  rw [hp.mem_scopes_envs, List.mem_filter, decide_eq_true_iff, List.mem_range]
  refine ⟨fun h => ⟨?_, h⟩, And.right⟩
  obtain ⟨v, hv, -⟩ := h
  exact lt_of_mem_vars hv

/-- An environment lives on the heap exactly if one of its readers cannot be handed a reference. -/
theorem kind_iff (he : e < g.envs.size) : (g.env e).kind = .reference ↔
    ∃ c, (∃ v ∈ (g.env e).vars, v ∈ (g.closure c).captured) ∧
      (g.closure c).takesReferences = false := by
  have hall : (g.closures.all fun c => !c.readsAny (g.env e).vars.toList || c.takesReferences) =
      false ↔ ∃ c, (∃ v ∈ (g.env e).vars, v ∈ (g.closure c).captured) ∧
        (g.closure c).takesReferences = false := by
    rw [← Bool.not_eq_true, closures_all]
    push Not
    refine exists_congr fun c => ?_
    simp only [ne_eq, Bool.or_eq_true, Bool.not_eq_true', not_or, Bool.not_eq_false,
      Bool.not_eq_true, Closure.readsAny_iff]
    refine ⟨And.right, fun h => ⟨?_, h⟩⟩
    obtain ⟨⟨v, -, hv⟩, -⟩ := h
    exact lt_of_mem_captured hv
  rw [hp.kind e he, envKindFor, ← hall]
  split <;> simp [*]

/-- A captured variable is in exactly one environment. -/
theorem existsUnique_env (hx : g.Exact m) (hv : g.IsCaptured v) :
    ∃! e, e < g.envs.size ∧ v ∈ (g.env e).vars := by
  obtain ⟨c, hc⟩ := hv
  obtain ⟨s, hs⟩ := hx.exists_scope_of_captured hc
  obtain ⟨e, he, rfl, hve⟩ := hp.exists_env hs hc
  refine ⟨e, ⟨he, hve⟩, ?_⟩
  rintro d ⟨hd, hvd⟩
  apply hp.scope_inj hd he
  exact hx.holds.tidy.vars_unique _ _ v ((hp.mem_vars_iff hd).mp hvd).1 hs

end Placed

/-! ## Before and after -/

/-- The environments of `g'` are those that the captures of `g` call for. -/
structure Allots (g g' : Graph) : Prop where
  /-- There is one for each scope that declares a captured variable, in preorder. -/
  scopes : g'.envs.toList.map (·.scope) =
    g.preorder.filter fun s => ∃ v ∈ (g.scope s).vars.toList, g.IsCaptured v
  /-- It is the environment of that scope and of no other. -/
  scope_env : ∀ s e, (g'.scope s).env = some e ↔ e < g'.envs.size ∧ (g'.env e).scope = s
  /-- It holds the captured variables of the scope in the order of their declarations. -/
  vars : ∀ e < g'.envs.size, (g'.env e).vars.toList =
    (g.scope (g'.env e).scope).vars.toList.filter g.IsCaptured
  unique : ∀ v, g.IsCaptured v → ∃! e, e < g'.envs.size ∧ v ∈ (g'.env e).vars
  envOf : ∀ v e, g'.envOf? v = some e ↔ e < g'.envs.size ∧ v ∈ (g'.env e).vars
  captured : ∀ c, (g'.closure c).captured = (g.closure c).captured
  /-- A closure reads from the environments of the variables it captures. -/
  envs : ∀ c e, e ∈ (g'.closure c).envs ↔ ∃ v ∈ (g.closure c).captured, g'.envOf? v = some e
  /-- It lives on the heap exactly if a closure reads from it that takes no references. -/
  kind : ∀ e < g'.envs.size, (g'.env e).kind = .reference ↔
    ∃ c, (∃ v ∈ (g'.env e).vars, v ∈ (g.closure c).captured) ∧
      (g.closure c).takesReferences = false

theorem Placed.allots (hp : g'.Placed) (hx : g'.Exact m) (hcap : SameCaptures g g')
    (hlive : ∀ e, (g'.env e).removed = false) : g.Allots g' := by
  have henvOf (v : Variable) (e : EnvId) :
      g'.envOf? v = some e ↔ e < g'.envs.size ∧ v ∈ (g'.env e).vars := by
    rw [hp.envOf_eq_some hx.holds]
    simp [hlive e]
  constructor
  case scopes =>
    rw [hp.scopes_envs hx.holds, ← preorder_shape, hcap.shape, preorder_shape]
    simp only [vars_of_shape hcap.shape, hcap.isCaptured]
  case scope_env =>
    intro s e
    rw [hp.scope_env]
    simp [hlive e]
  case vars =>
    intro e he
    rw [hp.vars e he, hcap.hoistedVariables, hoistedVariables_eq]
  case unique =>
    intro v hv
    exact hp.existsUnique_env hx ((hcap.isCaptured v).mpr hv)
  case envOf => exact henvOf
  case captured => exact hcap.captured
  case envs =>
    intro c e
    rw [hp.closure_envs, Closure.readsAny_iff, hcap.captured]
    simp only [henvOf, hlive e]
    grind [OrderedSet.mem_def]
  case kind =>
    intro e he
    rw [hp.kind_iff he]
    simp only [hcap.captured, hcap.takesReferences]

end Graph

/-- On an accepted body allocation succeeds, and makes exactly the environments that its captures
call for. -/
theorem MethodBody.allocate_exact {m : MethodBody} (h : m.Accepted) :
    ∃ g, m.captured.graph.allocate = .ok g ∧ m.captured.graph.Allots g := by
  obtain ⟨g, hg, hcap, hp, hu⟩ := Graph.placed_of_allocate h.analysed
  have hx := hcap.exact h.analysed.toExact
  exact ⟨g, hg, hp.allots hx hcap fun e => (hu.env e).2.2⟩

open Counter in
/-- `Count` and `next` get an environment each. That of `Count` holds the receiver and `step`, and
lives on the heap because a lambda reads from it. -/
theorem MethodBody.allots_count : count.Accepted ∧ ∃ g, count.captured.graph.allocate = .ok g ∧
    g.envs.toList.map (·.scope) = [0, 1] ∧ (g.env 0).vars.toList = [widget, step] ∧
    (g.env 0).kind = .reference ∧ g.envOf? step = some 0 := by
  obtain ⟨g, hg, hallots⟩ := allocate_exact accepted_count
  have hscopes : g.envs.toList.map (·.scope) = [0, 1] := by
    rw [hallots.scopes]
    decide +kernel
  have hsize : g.envs.size = 2 := by simpa using congrArg List.length hscopes
  have hlt : 0 < g.envs.size := by omega
  have hroot : (g.env 0).scope = 0 := by
    have hhead := congrArg (fun l => l[0]?) hscopes
    rw [List.getElem?_map, Array.getElem?_toList, Array.getElem?_eq_getElem hlt] at hhead
    simpa [Graph.env, hlt] using hhead
  have hvars : (g.env 0).vars.toList = [widget, step] := by
    rw [hallots.vars 0 hlt, hroot]
    decide +kernel
  have hstep : step ∈ (g.env 0).vars := by
    rw [OrderedSet.mem_def, hvars]
    decide
  refine ⟨accepted_count, g, hg, hscopes, hvars,
    (hallots.kind 0 hlt).mpr ⟨1, ⟨step, hstep, ?_⟩, ?_⟩,
    (hallots.envOf step 0).mpr ⟨hlt, hstep⟩⟩ <;> decide +kernel

end Unnest
