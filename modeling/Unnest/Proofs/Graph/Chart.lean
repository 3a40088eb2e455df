import Unnest.Proofs.Captures.Nesting

/-!
# The graph as a chart of the body

What building a graph gives, said as a whole. The scopes are the blocks of the body in reading
order, so the number of a scope is its place in the text and the visit of the scopes in preorder
counts upwards. Parents, children, owners and the three lookups agree with each other and with where
things stand in the body.

## Main definitions

* `MethodBody.blocks` : the blocks of a body in reading order.
* `Graph.Charts` : a graph agrees with a body in all of this.

## Main statements

* `MethodBody.build_charts` : a body that is built without a failure is charted by its graph.
-/

namespace Unnest

/-- The blocks of a body in reading order: the outermost one, then every block opened inside. -/
def MethodBody.blocks (m : MethodBody) : List Block :=
  m.block.toList ++ m.sites.filterMap fun s => s.2.opened?

namespace Graph

variable {g : Graph} {m : MethodBody}

/-! ## Children -/

/-- The children of a scope are the later scopes it is the parent of, in order. -/
def Listed (g : Graph) : Prop :=
  ∀ s, (g.scope s).children =
    (List.range g.scopes.size).filter fun t => (g.scope t).parent = some s ∧ s < t

namespace Listed

variable (h : g.Listed)

include h

theorem modifyScope (s : ScopeId) {f : Scope → Scope} (hparent : ∀ sc, (f sc).parent = sc.parent)
    (hchildren : ∀ sc, (f sc).children = sc.children) : (g.modifyScope s f).Listed := by
  have hp (t : ScopeId) : ((g.modifyScope s f).scope t).parent = (g.scope t).parent := by
    rw [scope_modifyScope]
    split
    · exact hparent _
    · rfl
  have hc (t : ScopeId) : ((g.modifyScope s f).scope t).children = (g.scope t).children := by
    rw [scope_modifyScope]
    split
    · exact hchildren _
    · rfl
  intro t
  simp only [hp, hc, size_scopes_modifyScope]
  exact h t

theorem pushScope (kind : ScopeKind) (p : ScopeId) (b : Option Block) :
    (g.pushScope kind (some p) b).Listed := by
  have hparent (t : ScopeId) : ((g.pushScope kind (some p) b).scope t).parent =
      if t = g.scopes.size then some p else (g.scope t).parent := by
    rw [scope_pushScope_some]
    split_ifs <;> rfl
  intro s
  have hbefore : (List.range g.scopes.size).filter (fun t =>
      ((g.pushScope kind (some p) b).scope t).parent = some s ∧ s < t) = (g.scope s).children := by
    rw [h s]
    refine List.filter_congr fun t ht => ?_
    rw [hparent, if_neg (Nat.ne_of_lt (List.mem_range.mp ht))]
  have hlast : [g.scopes.size].filter (fun t =>
      ((g.pushScope kind (some p) b).scope t).parent = some s ∧ s < t) =
        if p = s ∧ s < g.scopes.size then [g.scopes.size] else [] := by
    simp [List.filter_singleton, hparent]
  rw [size_scopes_pushScope, List.range_succ, List.filter_append, hbefore, hlast,
    scope_pushScope_some]
  by_cases hs : s = g.scopes.size
  · rw [if_pos hs, if_neg (by lia), scope_of_le (Nat.le_of_eq hs.symm)]
    rfl
  · rw [if_neg hs]
    split <;> simp

theorem openBody (f : NestedFunction) (s : ScopeId) (kind : ScopeKind) (b : Block) :
    (g.openBody f s kind b).Listed := by
  have hclosure : (g.pushClosure f s).Listed :=
    modifyScope (g := { g with closures := _ }) h s (fun _ => rfl) fun _ => rfl
  exact (hclosure.pushScope kind s (some b)).modifyScope g.scopes.size (fun _ => rfl) fun _ => rfl

omit h in
theorem kept : Kept Listed where
  declare _ s _ h := h.modifyScope s (fun _ => rfl) fun _ => rfl
  pushScope _ s b h := h.pushScope .block s (some b)
  openBody _ f s kind b h := h.openBody f s kind b

omit h in
theorem build (m : MethodBody) : (Draft.build { graph := .ofBody m }).graph.Listed := by
  refine kept.build (fun s => rfl) fun b s => ?_
  have hscope : ((ofBody m).pushScope .methodBody none (some b)).scope s =
      if s = root then { kind := .methodBody, parent := none, block := some b } else default :=
    scope_pushScope_none ..
  rw [hscope]
  split <;> rfl

end Listed

/-! ## A graph and its body -/

/-- A graph whose scopes, closures and lookups are those of a body. -/
structure Charts (g : Graph) (m : MethodBody) : Prop where
  /-- There is one scope for each block, and their order is reading order. -/
  blocks : g.scopes.toList.map Scope.block = m.numbered.blocks.map some
  /-- There is one closure for each nested function, and their order is reading order. -/
  functions : g.closures.toList.map Closure.function =
    m.numbered.sites.filterMap fun s => s.2.function?
  preorder : g.preorder = List.range g.scopes.size
  /-- The parent of a scope is the innermost block around its block. -/
  opened : ∀ p n b, (p, n) ∈ m.numbered.sites → n.opened? = some b →
    (g.scope b.id).block = some b ∧ (g.scope b.id).parent = some p.scope
  root : (g.scope root).parent = none ∧ (g.scope root).depth = 0
  parent : ∀ s p, (g.scope s).parent = some p →
    p < s ∧ (g.scope s).depth = (g.scope p).depth + 1 ∧ (g.scope p).children.count s = 1
  children : ∀ s, (g.scope s).children =
    (List.range g.scopes.size).filter fun t => (g.scope t).parent = some s
  /-- A nested function stands in the home of its closure and has the scope of its block as body. -/
  nested : ∀ p n f b, (p, n) ∈ m.numbered.sites → n.nested? = some (some f, b) →
    ∃ c, g.closureOf? f = some c ∧ (g.closure c).home = p.scope ∧ (g.closure c).body = b.id
  body_parent : ∀ c < g.closures.size,
    (g.scope (g.closure c).body).parent = some (g.closure c).home
  owner : ∀ c < g.closures.size, ∀ s, (g.scope s).owner = some c ↔ s = (g.closure c).body
  enclosing : ∀ c < g.closures.size, ∀ d < g.closures.size,
    (g.closure d).body ∈ g.ancestors (g.closure c).home → d < c
  /-- A variable is declared in the scope of the innermost block around its declaration, and in no
  other. -/
  declares : ∀ p v, m.Declares p v →
    g.declaringScope? v = some p.scope ∧ ∀ s, v ∈ (g.scope s).vars ↔ s = p.scope
  declared : ∀ v s, g.declaringScope? v = some s → ∃ p, m.Declares p v ∧ p.scope = s
  scopeOf : ∀ b s, g.scopeOf? b = some s ↔ ∃ block, (g.scope s).block = some block ∧ block.id = b
  closureOf : ∀ f c, g.closureOf? f = some c ↔ c < g.closures.size ∧ (g.closure c).function = f

namespace Holds

variable (h : g.Holds m)

include h

theorem blocks_scopes : g.scopes.toList.map Scope.block = m.numbered.blocks.map some := by
  obtain ⟨method, block, -, hblock, hroot, -⟩ := h.complete
  have hcons : m.numbered.blocks = block :: m.numbered.sites.filterMap fun s => s.2.opened? := by
    simp [MethodBody.blocks, hblock]
  have hids : m.numbered.blocks.map Block.id = List.range g.scopes.size := by
    rw [hcons, List.map_cons, MethodBody.id_block hblock, List.map_filterMap, m.sites_numbered,
      List.filterMap_flatMap]
    simp only [Node.filterMap_opened_sites]
    rw [h.numbered, h.size, Nat.add_comm, List.range_succ_eq_map, List.range'_eq_map_range]
    simp [Nat.add_comm, root]
  have hscope : ∀ b ∈ m.numbered.blocks, (g.scope b.id).block = some b := by
    intro b hb
    rw [hcons, List.mem_cons, List.mem_filterMap] at hb
    obtain rfl | ⟨⟨p, n⟩, hn, hb⟩ := hb
    · rw [MethodBody.id_block hblock]
      exact hroot
    · exact ((h.lays p n hn).scope b hb).block
  calc g.scopes.toList.map Scope.block
      = (List.range g.scopes.size).map fun s => (g.scope s).block := by
        refine List.ext_getElem (by simp) fun s hs _ => ?_
        simp [scope, show s < g.scopes.size by simpa using hs]
    _ = m.numbered.blocks.map fun b => (g.scope b.id).block := by
        rw [← hids, List.map_map]
        rfl
    _ = m.numbered.blocks.map some := List.map_congr_left hscope

theorem scopeOf_eq_some {b : BlockId} {s : ScopeId} :
    g.scopeOf? b = some s ↔ ∃ block, (g.scope s).block = some block ∧ block.id = b := by
  constructor
  · intro hb
    obtain ⟨hs, hany, -⟩ := Array.findIdx?_eq_some_iff_getElem.mp hb
    rw [show g.scope s = g.scopes[s] by simp [scope, hs]]
    cases hblock : g.scopes[s].block with
    | none => simp [hblock] at hany
    | some block => exact ⟨block, rfl, by simpa [hblock] using hany⟩
  · rintro ⟨block, hblock, rfl⟩
    have hs : s < g.scopes.size := lt_of_scope Scope.block hblock fun h => by cases h
    obtain ⟨block', hblock', hid⟩ := h.exists_block hs
    rw [hblock] at hblock'
    cases hblock'
    rw [hid]
    exact h.scopeOf_eq hs

/-- Only the parent is asked for: it always comes earlier. -/
theorem children_eq (hlisted : g.Listed) (s : ScopeId) : (g.scope s).children =
    (List.range g.scopes.size).filter fun t => (g.scope t).parent = some s := by
  rw [hlisted s]
  refine List.filter_congr fun t _ => ?_
  rw [decide_eq_decide]
  exact ⟨And.left, fun hp => ⟨hp, (h.parent_lt hp).1⟩⟩

theorem parent_body {c : ClosureId} (hc : c < g.closures.size) :
    (g.scope (g.closure c).body).parent = some (g.closure c).home := by
  obtain ⟨p, n, b, hn, hn', hlays⟩ := h.site_of_closure hc
  rw [hlays.body, hlays.home]
  exact ((h.lays p n hn).scope b (Node.opened_of_nested hn')).parent

theorem charts (hlisted : g.Listed) : g.Charts m where
  blocks := h.blocks_scopes
  functions := by
    rw [m.sites_numbered, List.filterMap_flatMap]
    simp only [Node.filterMap_function_sites]
    exact h.functions
  preorder := h.preorder_eq
  opened p n b hn hb := by
    obtain ⟨-, parent, block, -⟩ := (h.lays p n hn).scope b hb
    exact ⟨block, parent.trans (MethodBody.leads_of_mem_sites hn).head_blocks⟩
  root := ⟨h.root_parent, h.root_depth⟩
  parent s p hp := by
    obtain ⟨hlt, hdepth⟩ := h.parent_lt hp
    have hs : s < g.scopes.size := lt_of_scope Scope.parent hp nofun
    refine ⟨hlt, hdepth, ?_⟩
    rw [h.children_eq hlisted, List.count_filter (by simpa using hp),
      List.count_eq_one_of_mem List.nodup_range (List.mem_range.mpr hs)]
  children := h.children_eq hlisted
  nested p n f b hn hn' := by
    obtain ⟨f', c, hf, hlays⟩ := (h.lays p n hn).function (some f) b hn'
    cases hf
    exact ⟨c, h.closureOf_eq_some.mpr ⟨hlays.lt, hlays.function⟩,
      Option.some.inj (hlays.home.trans (MethodBody.leads_of_mem_sites hn).head_blocks), hlays.body⟩
  body_parent c := h.parent_body
  owner c hc s := h.owner_eq_some.trans ⟨fun hs => hs.2.symm, fun hs => ⟨hc, hs.symm⟩⟩
  enclosing c hc d hd := h.lt_of_body_mem hc hd
  declares p v hv := by
    have hmem := h.mem_vars_of_declares hv
    refine ⟨h.declaringScope_eq_some.mpr hmem, fun s => ⟨fun hs => ?_, fun hs => hs ▸ hmem⟩⟩
    exact h.tidy.vars_unique s p.scope v hs hmem
  declared v s hv := h.declares_of_mem_vars (h.declaringScope_eq_some.mp hv)
  scopeOf b s := h.scopeOf_eq_some
  closureOf f c := h.closureOf_eq_some

end Holds

end Graph

/-- A body that is built without a failure is charted by its graph. -/
theorem MethodBody.build_charts {m : MethodBody} (h : m.built.isOk) : m.built.graph.Charts m :=
  (Draft.holds_of_build h).charts (Graph.Listed.build m)

open Counter in
/-- In `Count` the lambda is inside the local function, which is inside the outermost block. -/
theorem MethodBody.charts_count : count.built.isOk ∧ count.built.graph.Charts count ∧
    count.built.graph.preorder = [0, 1, 2] ∧ (count.built.graph.scope 0).children = [1] ∧
      (count.built.graph.scope 1).children = [2] := by
  have hok : count.built.isOk := accepted_count.built
  have hcharts := build_charts hok
  refine ⟨hok, hcharts, hcharts.preorder.trans ?_, (hcharts.children 0).trans ?_,
    (hcharts.children 1).trans ?_⟩ <;> decide +kernel

end Unnest
