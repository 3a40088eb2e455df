import Mathlib.Logic.Relation
import Mathlib.Order.Preorder.Chain
import Unnest.Proofs.Graph.Basic

/-!
# Forests of scopes

Scopes are pushed one after the other, each outermost or inside a scope that is already there. So a
parent has a smaller number than its children and a smaller depth. This is all that the search for
an enclosing scope rests on: it gives up at the first scope that is no deeper than the one it looks
for, and it finds exactly the scopes that the parent links lead to.

Nothing is assumed here of a body. Closures, environments and variables may be entered in between,
and any number of scopes may be outermost.

## Main definitions

* `Graph.Planted` : the scopes of a graph were pushed in this way.
* `Graph.Ranked` : parents come before their children, in number and in depth.

## Main statements

* `Graph.Planted.ranked` : scopes that were pushed in this way are ranked.
* `Graph.Ranked.encloses_iff` : the search for an enclosing scope follows the parent links.
* `Graph.Planted.encloses_order` : enclosing is a partial order, and the scopes around a scope are a
  chain in it.
-/

namespace Unnest

/-- What a scope says about its place among the others. -/
def Scope.place (s : Scope) : Option ScopeId × List ScopeId × Nat := (s.parent, s.children, s.depth)

namespace Graph

variable {g g' : Graph} {a b p s t : ScopeId}

/-- Scope `s` is directly inside scope `p`. -/
def Inside (g : Graph) (s p : ScopeId) : Prop := (g.scope s).parent = some p

/-- Scope `s` is listed as a child of scope `p`. -/
def HasChild (g : Graph) (p s : ScopeId) : Prop := s ∈ (g.scope p).children

/-- The scopes were pushed one after the other, each without a parent or inside one of those before
it. Whatever else was done in between left their places alone. -/
inductive Planted : Graph → Prop where
  | bare {g : Graph} (h : g.scopes = #[]) : Planted g
  | pushScope {g : Graph} (hg : Planted g) (kind : ScopeKind) (parent : Option ScopeId)
      (block : Option Block) (hparent : ∀ p ∈ parent, p < g.scopes.size) :
      Planted (g.pushScope kind parent block)
  | elsewhere {g g' : Graph} (hg : Planted g)
      (h : g'.scopes.map Scope.place = g.scopes.map Scope.place) : Planted g'

/-! ## Chains -/

theorem ancestors_suffix (h : a ∈ g.ancestors s) :
    g.ancestors a <:+ g.ancestors s := by
  induction s using Nat.strongRecOn with
  | ind s ih =>
    rw [ancestors, List.mem_cons] at h
    obtain rfl | h := h
    · exact List.suffix_rfl
    · rw [ancestors.eq_def g s]
      split at h
      · rename_i p hp
        split at h
        · rename_i hlt
          simp only [hlt, dite_true]
          exact (ih p hlt h).trans (List.suffix_cons _ _)
        · simp at h
      · simp at h

theorem self_mem_ancestors (g : Graph) (s : ScopeId) : s ∈ g.ancestors s := by
  rw [ancestors]
  exact List.mem_cons_self

/-- Two scopes around a third one are nested. -/
theorem mem_ancestors_or (ha : a ∈ g.ancestors t) (hb : b ∈ g.ancestors t) :
    a ∈ g.ancestors b ∨ b ∈ g.ancestors a := by
  rcases List.suffix_or_suffix_of_suffix (ancestors_suffix ha) (ancestors_suffix hb) with h | h
  · exact .inl (h.subset (g.self_mem_ancestors a))
  · exact .inr (h.subset (g.self_mem_ancestors b))

theorem mem_ancestors_trans (ha : a ∈ g.ancestors b) (hb : b ∈ g.ancestors t) :
    a ∈ g.ancestors t := (ancestors_suffix hb).subset ha

theorem le_of_mem_ancestors (h : a ∈ g.ancestors s) : a ≤ s := by
  induction s using Nat.strongRecOn with
  | ind s ih =>
    rw [ancestors, List.mem_cons] at h
    obtain rfl | h := h
    · exact Nat.le_refl a
    · split at h
      · rename_i p hp
        split at h
        · rename_i hlt
          exact Nat.le_trans (ih p hlt h) (Nat.le_of_lt hlt)
        · simp at h
      · simp at h

theorem ancestors_antisymm (hab : a ∈ g.ancestors b) (hba : b ∈ g.ancestors a) : a = b :=
  Nat.le_antisymm (le_of_mem_ancestors hab) (le_of_mem_ancestors hba)

/-! ## Places -/

theorem place_of_map (h : g'.scopes.map Scope.place = g.scopes.map Scope.place) (s : ScopeId) :
    (g'.scope s).place = (g.scope s).place := by
  have hsize : g'.scopes.size = g.scopes.size := by simpa using congrArg Array.size h
  by_cases hs : s < g.scopes.size
  · have hget : (g'.scopes.map Scope.place)[s]? = (g.scopes.map Scope.place)[s]? := by rw [h]
    simpa [scope, hs, hsize] using hget
  · rw [scope_of_le (Nat.le_of_not_lt hs), scope_of_le (hsize ▸ Nat.le_of_not_lt hs)]

/-- A change that is not about places. -/
theorem map_place_modifyScope (g : Graph) (s : ScopeId) {f : Scope → Scope}
    (hf : ∀ sc, (f sc).place = sc.place) :
    (g.modifyScope s f).scopes.map Scope.place = g.scopes.map Scope.place := by
  refine Array.ext (by simp [modifyScope]) fun i _ _ => ?_
  simp only [modifyScope, Array.getElem_map, Array.getElem_modify]
  split
  · exact hf _
  · rfl

theorem inside_of_map (h : g'.scopes.map Scope.place = g.scopes.map Scope.place) :
    g'.Inside s p ↔ g.Inside s p := by
  rw [Inside, Inside, show (g'.scope s).parent = _ from congrArg Prod.fst (place_of_map h s)]
  rfl

theorem lt_of_inside (h : g.Inside s p) : s < g.scopes.size :=
  lt_of_scope Scope.parent h nofun

section PushScope

variable {kind : ScopeKind} {parent : Option ScopeId} {block : Option Block}

theorem inside_pushScope : (g.pushScope kind parent block).Inside s p ↔
    if s = g.scopes.size then parent = some p else g.Inside s p := by
  cases parent with
  | none =>
    rw [Inside, scope_pushScope_none]
    split_ifs <;> rfl
  | some q =>
    rw [Inside, scope_pushScope_some]
    split_ifs <;> rfl

theorem depth_pushScope (t : ScopeId) : ((g.pushScope kind parent block).scope t).depth =
    if t = g.scopes.size then parent.elim 0 fun p => (g.scope p).depth + 1
    else (g.scope t).depth := by
  cases parent with
  | none =>
    rw [scope_pushScope_none]
    split_ifs <;> rfl
  | some p =>
    rw [scope_pushScope_some]
    split_ifs <;> rfl

theorem hasChild_pushScope (hparent : ∀ p ∈ parent, p < g.scopes.size) :
    (g.pushScope kind parent block).HasChild p s ↔
      g.HasChild p s ∨ parent = some p ∧ s = g.scopes.size := by
  have hnew : (g.scope g.scopes.size).children = [] := by rw [scope_of_le (Nat.le_refl _)]; rfl
  cases parent with
  | none =>
    rw [HasChild, scope_pushScope_none, HasChild]
    split_ifs with hp <;> simp_all
  | some q =>
    rw [HasChild, scope_pushScope_some, HasChild]
    have hq := hparent q rfl
    split_ifs with hp hq' <;> grind

end PushScope

/-! ## Ranks -/

/-- Parents come before their children, in number and in depth. -/
structure Ranked (g : Graph) : Prop where
  lt : ∀ s p, g.Inside s p → p < s
  depth : ∀ s p, g.Inside s p → (g.scope p).depth < (g.scope s).depth

theorem Ranked.pushScope (h : g.Ranked) (kind : ScopeKind) (parent : Option ScopeId)
    (block : Option Block) (hparent : ∀ p ∈ parent, p < g.scopes.size) :
    (g.pushScope kind parent block).Ranked where
  lt s p hs := by
    rw [inside_pushScope] at hs
    split_ifs at hs with hnew
    · exact hnew ▸ hparent p hs
    · exact h.lt s p hs
  depth s p hs := by
    rw [inside_pushScope] at hs
    split_ifs at hs with hnew
    · have hp := hparent p hs
      subst hnew hs
      rw [depth_pushScope, depth_pushScope, if_neg (Nat.ne_of_lt hp), if_pos rfl]
      exact Nat.lt_succ_self _
    · have hp := Nat.lt_trans (h.lt s p hs) (lt_of_inside hs)
      rw [depth_pushScope, depth_pushScope, if_neg (Nat.ne_of_lt hp), if_neg hnew]
      exact h.depth s p hs

/-- Scopes that were pushed one inside the other are ranked. -/
theorem Planted.ranked (h : g.Planted) : g.Ranked := by
  induction h with
  | @bare g h =>
    have hnone (s p : ScopeId) : ¬ g.Inside s p := fun hs => by simpa [h] using lt_of_inside hs
    exact ⟨fun s p hs => absurd hs (hnone s p), fun s p hs => absurd hs (hnone s p)⟩
  | pushScope _ kind parent block hparent ih => exact ih.pushScope kind parent block hparent
  | elsewhere _ hplace ih =>
    have hdepth (s : ScopeId) := congrArg (·.2.2) (place_of_map hplace s)
    refine ⟨fun s p hs => ih.lt s p ((inside_of_map hplace).mp hs), fun s p hs => ?_⟩
    have := ih.depth s p ((inside_of_map hplace).mp hs)
    simp only [Scope.place] at hdepth
    rwa [hdepth, hdepth]

/-- The children of a scope are the scopes directly inside it. -/
theorem Planted.hasChild_iff (h : g.Planted) : g.HasChild p s ↔ g.Inside s p := by
  induction h generalizing p s with
  | @bare g h =>
    have hempty : g.scope p = default := scope_of_le (by simp [h])
    refine iff_of_false ?_ fun hs => by simpa [h] using lt_of_inside hs
    rw [HasChild, hempty]
    exact List.not_mem_nil
  | @pushScope g _ kind parent block hparent ih =>
    rw [hasChild_pushScope hparent, inside_pushScope, ih]
    split_ifs with hs
    · have hnot : ¬ g.Inside s p := fun h => Nat.ne_of_lt (lt_of_inside h) hs
      rw [or_iff_right hnot, and_iff_left hs]
    · rw [or_iff_left fun hnew => hs hnew.2]
  | elsewhere _ hplace ih =>
    have hchildren (s : ScopeId) := congrArg (·.2.1) (place_of_map hplace s)
    simp only [Scope.place] at hchildren
    rw [HasChild, hchildren, inside_of_map hplace]
    exact ih

namespace Ranked

variable (h : g.Ranked)

include h

theorem ancestors_of_inside (hp : g.Inside s p) : g.ancestors s = s :: g.ancestors p := by
  rw [ancestors, show (g.scope s).parent = some p from hp]
  exact congrArg (s :: ·) (dif_pos (h.lt s p hp))

/-- The scopes around a scope are those that the parent links lead to. -/
theorem mem_ancestors : a ∈ g.ancestors s ↔ Relation.ReflTransGen g.Inside s a := by
  induction s using Nat.strongRecOn with
  | ind s ih =>
    rw [Relation.ReflTransGen.cases_head_iff]
    cases hp : (g.scope s).parent with
    | none =>
      have hnot : ¬ ∃ p, g.Inside s p ∧ Relation.ReflTransGen g.Inside p a := by
        rintro ⟨p, hp', -⟩
        cases hp.symm.trans hp'
      rw [ancestors, hp, or_iff_left hnot, List.mem_singleton, eq_comm]
    | some p =>
      rw [h.ancestors_of_inside hp, List.mem_cons, ih p (h.lt s p hp), eq_comm]
      refine or_congr_right ⟨fun ha => ⟨p, hp, ha⟩, ?_⟩
      rintro ⟨q, hq, ha⟩
      rwa [Option.some.inj (hp.symm.trans hq)]

theorem depth_lt (ha : a ∈ g.ancestors s) (hne : a ≠ s) :
    (g.scope a).depth < (g.scope s).depth := by
  rw [h.mem_ancestors] at ha
  induction ha with
  | refl => exact absurd rfl hne
  | @tail b c hb hc ih =>
    by_cases hbs : b = s
    · exact hbs ▸ h.depth b c hc
    · exact Nat.lt_trans (h.depth b c hc) (ih hbs)

/-- The search for an enclosing scope may stop at the first scope that is no deeper. -/
theorem encloses_iff_mem : g.encloses a s = true ↔ a ∈ g.ancestors s := by
  induction s using Nat.strongRecOn with
  | ind s ih =>
    have hcut (hne : s ≠ a) (hdepth : (g.scope s).depth ≤ (g.scope a).depth) :
        a ∉ g.ancestors s := fun ha =>
      Nat.not_lt.mpr hdepth (h.depth_lt ha (Ne.symm hne))
    cases hp : (g.scope s).parent with
    | none =>
      have hroot : g.ancestors s = [s] := by rw [ancestors, hp]
      rw [encloses, hroot]
      simp only [findAtDepth, List.mem_singleton]
      split_ifs <;> grind
    | some p =>
      have houter := h.ancestors_of_inside hp
      have ihp : g.findAtDepth a (g.ancestors p) = true ↔ a ∈ g.ancestors p := ih p (h.lt s p hp)
      rw [encloses, houter, findAtDepth]
      split_ifs <;> grind

theorem encloses_iff : g.encloses a s = true ↔ Relation.ReflTransGen g.Inside s a :=
  h.encloses_iff_mem.trans h.mem_ancestors

theorem isPartialOrder_encloses : IsPartialOrder ScopeId fun a s => g.encloses a s = true where
  refl s := h.encloses_iff_mem.mpr (g.self_mem_ancestors s)
  trans _ _ _ hab hbs := h.encloses_iff_mem.mpr
    (mem_ancestors_trans (h.encloses_iff_mem.mp hab) (h.encloses_iff_mem.mp hbs))
  antisymm _ _ hab hba :=
    ancestors_antisymm (h.encloses_iff_mem.mp hab) (h.encloses_iff_mem.mp hba)

theorem isChain_encloses (s : ScopeId) :
    IsChain (fun a b => g.encloses a b = true) {a | g.encloses a s = true} := by
  intro a ha b hb _
  have hor := mem_ancestors_or (h.encloses_iff_mem.mp ha) (h.encloses_iff_mem.mp hb)
  exact hor.imp h.encloses_iff_mem.mpr h.encloses_iff_mem.mpr

end Ranked

/-! ## Scopes and what is entered in them -/

namespace Planted

variable (h : g.Planted)

include h

theorem hasChild_swap : Function.swap g.HasChild = g.Inside := by
  funext s p
  exact propext h.hasChild_iff

/-- A variable is declared in the body of a closure if its scope is in the tree below the body. -/
theorem bodyDeclares_iff {c : ClosureId} {v : Variable} : g.bodyDeclares c v = true ↔
    ∃ s, g.declaringScope? v = some s ∧
      Relation.ReflTransGen g.HasChild (g.closure c).body s := by
  have hiff (s : ScopeId) : g.encloses (g.closure c).body s = true ↔
      Relation.ReflTransGen g.HasChild (g.closure c).body s := by
    rw [h.ranked.encloses_iff, ← h.hasChild_swap, Relation.reflTransGen_swap]
  rw [bodyDeclares]
  split
  · rename_i s hs
    rw [hiff, hs]
    simp
  · rename_i hs
    simp [hs]

theorem pushClosure (f : NestedFunction) (s : ScopeId) : (g.pushClosure f s).Planted := by
  refine h.elsewhere (map_place_modifyScope _ s ?_)
  exact fun _ => rfl

theorem setBody (c : ClosureId) (s : ScopeId) : (g.setBody c s).Planted :=
  h.elsewhere (map_place_modifyScope g s (f := fun sc => { sc with owner := some c }) fun _ => rfl)

theorem pushEnv (s : ScopeId) (kind : EnvKind) : (g.pushEnv s kind).Planted := by
  refine h.elsewhere (map_place_modifyScope _ s ?_)
  exact fun _ => rfl

theorem declare {s : ScopeId} {v : Variable} (hv : g.declare? s v = some g') : g'.Planted := by
  rw [declare?] at hv
  split at hv
  · cases hv
  · obtain rfl := Option.some.inj hv
    exact h.elsewhere (map_place_modifyScope g s fun _ => rfl)

end Planted

/-! ## Main statement -/

/-- However the scopes were pushed, one encloses another if the parent links lead to it. This is a
partial order, the scopes around a scope are a chain in it, and a variable is declared in the body
of a closure if the scope that declares it is in the tree below that body. -/
theorem Planted.encloses_order (h : g.Planted) :
    (∀ a s, g.encloses a s = true ↔ Relation.ReflTransGen g.Inside s a) ∧
      IsPartialOrder ScopeId (fun a s => g.encloses a s = true) ∧
      (∀ s, IsChain (fun a b => g.encloses a b = true) {a | g.encloses a s = true}) ∧
      ∀ c v, g.bodyDeclares c v = true ↔ ∃ s, g.declaringScope? v = some s ∧
        Relation.ReflTransGen g.HasChild (g.closure c).body s :=
  ⟨fun _ _ => h.ranked.encloses_iff, h.ranked.isPartialOrder_encloses,
    h.ranked.isChain_encloses, fun _ _ => h.bodyDeclares_iff⟩

/-- Two trees of scopes. In the first a function has a block in its body, which declares `x`, and
one beside it. The second is a path of three scopes, and the innermost declares `y`. -/
def twoTrees (x y : Variable) : Option Graph :=
  let g := (ofBody default).pushScope .methodBody none none
  let g := ((g.pushClosure default 0).pushScope .lambdaBody (some 0) none).setBody 0 1
  let g := (g.pushScope .block (some 1) none).pushEnv 2 .reference
  let g := (g.pushScope .methodBody none none).pushScope .block (some 3) none
  let g := (g.pushScope .block (some 4) none).pushScope .block (some 0) none
  (g.declare? 2 x).bind (·.declare? 5 y)

theorem planted_twoTrees {x y : Variable} (hg : g ∈ twoTrees x y) : g.Planted := by
  have hroot : ((ofBody default).pushScope .methodBody none none).Planted :=
    (Planted.bare rfl).pushScope _ _ _ nofun
  have hbody := hroot.pushClosure default 0 |>.pushScope .lambdaBody (some 0) none (by decide)
    |>.setBody 0 1
  have hfirst := hbody.pushScope .block (some 1) none (by decide) |>.pushEnv 2 .reference
  have hsecond := hfirst.pushScope .methodBody none none nofun
    |>.pushScope .block (some 3) none (by decide)
  have htwo := hsecond.pushScope .block (some 4) none (by decide)
    |>.pushScope .block (some 0) none (by decide)
  obtain ⟨g', hx, hy⟩ := Option.bind_eq_some_iff.mp hg
  exact (htwo.declare hx).declare hy

/-- What is in the second tree is not in the body of the function, however deep it is. -/
theorem Planted.encloses_order_twoTrees : ∃ x y, ∃ g ∈ twoTrees x y, g.Planted ∧
    Relation.ReflTransGen g.Inside 2 0 ∧ ¬ Relation.ReflTransGen g.Inside 5 1 ∧
      (∃ s, g.declaringScope? x = some s ∧ Relation.ReflTransGen g.HasChild 1 s) ∧
      ∃ s, g.declaringScope? y = some s ∧ ¬ Relation.ReflTransGen g.HasChild 1 s := by
  let x : Variable := default
  let y : Variable := { x with name := "y" }
  have hrun : (twoTrees x y).any (fun g => (g.closure 0).body = 1 && g.encloses 0 2 &&
      !g.encloses 1 5 && g.bodyDeclares 0 x && g.declaringScope? y = some 5 &&
        !g.bodyDeclares 0 y) = true := by decide +kernel
  obtain ⟨g, hg, hrun⟩ := (Option.any_eq_true _ _).mp hrun
  simp only [Bool.and_eq_true, decide_eq_true_eq, Bool.not_eq_true'] at hrun
  obtain ⟨⟨⟨⟨⟨hbody, h02⟩, h15⟩, hx⟩, hscope⟩, hy⟩ := hrun
  have hplanted := planted_twoTrees hg
  obtain ⟨hiff, -, -, hdeclares⟩ := encloses_order hplanted
  refine ⟨x, y, g, hg, hplanted, (hiff 0 2).mp h02, fun h => ?_, hbody ▸ (hdeclares 0 x).mp hx,
    5, hscope, fun h => ?_⟩
  · exact nomatch h15.symm.trans ((hiff 1 5).mpr h)
  · exact nomatch hy.symm.trans ((hdeclares 0 y).mpr ⟨5, hscope, hbody.symm ▸ h⟩)

end Graph

end Unnest
