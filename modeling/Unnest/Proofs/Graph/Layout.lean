import Unnest.Proofs.Graph.Basic
import Unnest.Proofs.Graph.Walk
import Unnest.Proofs.Syntax.Numbering

/-!
# What a graph holds about a body

A body that is entered without a failure lies in the graph node by node. `Graph.Lays` says what the
graph holds about one node: a scope for the block it opens, with its variables and children in
order, and a closure for the nested function it is. `Graph.Entered` says what entering some nodes in
a scope does to a graph as a whole; it composes, so a walk is described by the nodes walked over.
-/

namespace Unnest

/-- The parameters of the nested function that a node introduces. -/
def Node.params (n : Node) : List Variable :=
  match n.function? with
  | some f => f.params.reduceOption
  | none => []

/-- The blocks opened at or below some nodes at `p` with no block between. -/
def Node.childBlocks (p : Path) (ns : List Node) : List BlockId :=
  (ns.flatMap (Node.sites p)).filterMap fun s =>
    if s.1.blocks = p.blocks then s.2.opened?.map Block.id else none

theorem Node.childBlocks_append (p : Path) (ns ms : List Node) :
    childBlocks p (ns ++ ms) = childBlocks p ns ++ childBlocks p ms := by
  simp [childBlocks]

theorem Node.childBlocks_of_isNone {n : Node} (hb : n.opened? = none) (p : Path) :
    childBlocks p [n] = childBlocks p n.inner := by
  simp [childBlocks, sites_of_isNone hb, hb]

theorem Node.childBlocks_of_opened {n : Node} {b : Block} (hb : n.opened? = some b) (p : Path) :
    childBlocks p [n] = [b.id] := by
  -- the path of whatever stands inside the block is longer
  have hnone : (n.inner.flatMap (sites (p.into n))).filterMap (fun t =>
      if t.1.blocks = p.blocks then t.2.opened?.map Block.id else none) = [] := by
    rw [List.filterMap_eq_nil_iff]
    intro t ht
    obtain ⟨k, -, ht⟩ := List.mem_flatMap.mp ht
    have hlen := (suffix_of_mem_sites ht).1.length_le
    rw [if_neg]
    intro heq
    simp only [Path.into, hb, heq, Option.map_some, Option.toList_some, List.length_append,
      List.length_singleton] at hlen
    omega
  simp [childBlocks, sites_eq p n, hnone, hb]

namespace Graph

variable {g g' g'' : Graph}

/-- The functions of the closures, in their order. -/
def functions (g : Graph) : List NestedFunction := g.closures.toList.map (·.function)

theorem length_functions (g : Graph) : g.functions.length = g.closures.size := by simp [functions]

theorem functions_getElem (g : Graph) {c : ClosureId} (h : c < g.functions.length) :
    g.functions[c] = (g.closure c).function := by
  have hc : c < g.closures.size := by rwa [length_functions] at h
  simp [functions, closure, hc]

/-! ## Single nodes -/

/-- The scope of the block that a node opens. -/
structure LaysScope (g : Graph) (p : Path) (n : Node) (b : Block) : Prop where
  lt : b.id < g.scopes.size
  parent : (g.scope b.id).parent = p.blocks.head?
  block : (g.scope b.id).block = some b
  depth : (g.scope b.id).depth = p.blocks.length
  vars : (g.scope b.id).vars.toList = n.params ++ n.inner.filterMap Node.declared?
  children : (g.scope b.id).children = Node.childBlocks (p.into n) n.inner
  owner : n.nested? = none → (g.scope b.id).owner = none

/-- The closure of a nested function with body `b`. -/
structure LaysFunction (g : Graph) (p : Path) (f : NestedFunction) (b : Block) (c : ClosureId) :
    Prop where
  lt : c < g.closures.size
  function : (g.closure c).function = f
  home : some (g.closure c).home = p.blocks.head?
  body : (g.closure c).body = b.id
  owner : (g.scope b.id).owner = some c
  params : f.params = f.params.reduceOption.map some

/-- The graph has a scope and a closure for what stands at a node. -/
structure Lays (g : Graph) (p : Path) (n : Node) : Prop where
  scope : ∀ b, n.opened? = some b → g.LaysScope p n b
  function : ∀ fn b, n.nested? = some (fn, b) → ∃ f c, fn = some f ∧ g.LaysFunction p f b c

theorem Lays.of_isNone {p : Path} {n : Node} (h : n.opened? = none) : g.Lays p n where
  scope := by simp [h]
  function fn b hn := by simp [Node.opened_of_nested hn] at h

/-- A node stays laid as long as its scope and the closures stay. -/
theorem Lays.of_eq {p : Path} {n : Node} (h : g.Lays p n)
    (hsize : g.scopes.size ≤ g'.scopes.size)
    (hscope : ∀ b, n.opened? = some b → g'.scope b.id = g.scope b.id)
    (hclosures : g.closures.size ≤ g'.closures.size)
    (hclosure : ∀ c < g.closures.size, g'.closure c = g.closure c) : g'.Lays p n where
  scope b hb := by
    obtain ⟨lt, parent, block, depth, vars, children, owner⟩ := h.scope b hb
    have heq := hscope b hb
    exact ⟨Nat.lt_of_lt_of_le lt hsize, by rw [heq, parent], by rw [heq, block], by rw [heq, depth],
      by rw [heq, vars], by rw [heq, children], fun hn => by rw [heq, owner hn]⟩
  function fn b hn := by
    obtain ⟨f, c, rfl, lt, function, home, body, owner, params⟩ := h.function fn b hn
    have heq := hscope b (Node.opened_of_nested hn)
    have hc := hclosure c lt
    exact ⟨f, c, rfl, Nat.lt_of_lt_of_le lt hclosures, by rw [hc, function], by rw [hc, home],
      by rw [hc, body], by rw [heq, owner], params⟩

/-! ## The graph as a whole -/

/-- No variable is declared in two scopes, no function has two closures, and the bodies of later
closures come later. -/
structure Tidy (g : Graph) : Prop where
  vars_unique : ∀ s t v, v ∈ (g.scope s).vars → v ∈ (g.scope t).vars → s = t
  functions_nodup : g.functions.Nodup
  body_lt : ∀ c < g.closures.size, (g.closure c).body < g.scopes.size
  body_lt_body : ∀ c d, c < d → d < g.closures.size → (g.closure c).body < (g.closure d).body

/-- Path `p` leads to scope `s`. -/
structure At (g : Graph) (p : Path) (s : ScopeId) : Prop where
  head : p.blocks.head? = some s
  lt : s < g.scopes.size
  depth : (g.scope s).depth + 1 = p.blocks.length

/-- The graph `g'` comes from `g` by entering the nodes `ns`, which stand at `p` in scope `s`. -/
structure Entered (p : Path) (s : ScopeId) (ns : List Node) (g g' : Graph) : Prop where
  body : g'.body = g.body
  envs : g'.envs = g.envs
  size : g'.scopes.size = g.scopes.size + (ns.flatMap Node.blockIds).length
  functions : g'.functions = g.functions ++ ns.flatMap Node.functions
  scope_ne : ∀ t < g.scopes.size, t ≠ s → g'.scope t = g.scope t
  scope_eq : ∃ closures vars, g'.scope s =
      { g.scope s with children := (g.scope s).children ++ Node.childBlocks p ns, closures, vars } ∧
    vars.toList = (g.scope s).vars.toList ++ ns.filterMap Node.declared?
  closure_eq : ∀ c < g.closures.size, g'.closure c = g.closure c
  fresh : ∀ q n b, (q, n) ∈ ns.flatMap (Node.sites p) → n.opened? = some b → g.scopes.size ≤ b.id
  lays : ∀ q n, (q, n) ∈ ns.flatMap (Node.sites p) → g'.Lays q n
  tidy : g.Tidy → g'.Tidy

namespace Entered

variable {p : Path} {s : ScopeId} {ns ms : List Node}

theorem size_le (h : Entered p s ns g g') : g.scopes.size ≤ g'.scopes.size := by
  rw [h.size]
  omega

theorem closures_le (h : Entered p s ns g g') : g.closures.size ≤ g'.closures.size := by
  have := congrArg List.length h.functions
  rw [List.length_append, length_functions, length_functions] at this
  omega

theorem place (h : Entered p s ns g g') (hs : g.At p s) : g'.At p s where
  head := hs.head
  lt := Nat.lt_of_lt_of_le hs.lt h.size_le
  depth := by
    obtain ⟨closures, vars, heq, -⟩ := h.scope_eq
    rw [heq]
    exact hs.depth

theorem nil (p : Path) (s : ScopeId) (g : Graph) : Entered p s [] g g where
  body := rfl
  envs := rfl
  size := by simp
  functions := by simp
  scope_ne _ _ _ := rfl
  scope_eq := ⟨(g.scope s).closures, (g.scope s).vars, by simp [Node.childBlocks], by simp⟩
  closure_eq _ _ := rfl
  fresh := by simp
  lays := by simp
  tidy := id

/-- Entering some nodes and then others. -/
theorem append (hs : g.At p s) (h : Entered p s ns g g') (h' : Entered p s ms g' g'') :
    Entered p s (ns ++ ms) g g'' where
  body := h'.body.trans h.body
  envs := h'.envs.trans h.envs
  size := by
    rw [h'.size, h.size, List.flatMap_append, List.length_append]
    omega
  functions := by rw [h'.functions, h.functions, List.flatMap_append, List.append_assoc]
  scope_ne t ht hne := by
    rw [h'.scope_ne t (Nat.lt_of_lt_of_le ht h.size_le) hne, h.scope_ne t ht hne]
  scope_eq := by
    obtain ⟨closures, vars, heq, hvars⟩ := h.scope_eq
    obtain ⟨closures', vars', heq', hvars'⟩ := h'.scope_eq
    refine ⟨closures', vars', ?_, ?_⟩
    · rw [heq', heq, Node.childBlocks_append, List.append_assoc]
    · rw [hvars', heq, hvars, List.filterMap_append, List.append_assoc]
  closure_eq c hc := by
    rw [h'.closure_eq c (Nat.lt_of_lt_of_le hc h.closures_le), h.closure_eq c hc]
  fresh q n b hn hb := by
    rw [List.flatMap_append, List.mem_append] at hn
    rcases hn with hn | hn
    · exact h.fresh q n b hn hb
    · exact Nat.le_trans h.size_le (h'.fresh q n b hn hb)
  lays q n hn := by
    rw [List.flatMap_append, List.mem_append] at hn
    rcases hn with hn | hn
    · -- the scopes opened by `ns` are neither `s` nor touched by `ms`
      refine (h.lays q n hn).of_eq h'.size_le (fun b hb => ?_) h'.closures_le h'.closure_eq
      have hfresh := h.fresh q n b hn hb
      have hlt := ((h.lays q n hn).scope b hb).lt
      have hs := hs.lt
      exact h'.scope_ne b.id hlt (by lia)
    · exact h'.lays q n hn
  tidy hg := h'.tidy (h.tidy hg)

end Entered

end Graph

end Unnest
