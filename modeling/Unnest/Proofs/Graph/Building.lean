import Unnest.Proofs.Graph.Layout

/-!
# The graph of a body

Entering a node without a failure gives a graph in which everything below the node is laid.

## Main statements

* `Node.entered` : what entering a node does to the graph.
-/

namespace Unnest

namespace Graph

variable {g g' g'' : Graph}

/-! ## Declarations -/

/-- The graph `g'` comes from `g` by declaring the variables `vs` in scope `s`, in this order. -/
structure Declared (s : ScopeId) (vs : List Variable) (g g' : Graph) : Prop where
  body : g'.body = g.body
  envs : g'.envs = g.envs
  closures : g'.closures = g.closures
  size : g'.scopes.size = g.scopes.size
  scope_ne : ∀ t, t ≠ s → g'.scope t = g.scope t
  scope_eq : ∃ vars, g'.scope s = { g.scope s with vars } ∧
    vars.toList = (g.scope s).vars.toList ++ vs
  tidy : g.Tidy → g'.Tidy

namespace Declared

variable {s : ScopeId} {vs ws : List Variable}

theorem nil (s : ScopeId) (g : Graph) : Declared s [] g g where
  body := rfl
  envs := rfl
  closures := rfl
  size := rfl
  scope_ne _ _ := rfl
  scope_eq := ⟨(g.scope s).vars, by simp, by simp⟩
  tidy := id

theorem append (h : Declared s vs g g') (h' : Declared s ws g' g'') :
    Declared s (vs ++ ws) g g'' where
  body := h'.body.trans h.body
  envs := h'.envs.trans h.envs
  closures := h'.closures.trans h.closures
  size := h'.size.trans h.size
  scope_ne t ht := (h'.scope_ne t ht).trans (h.scope_ne t ht)
  scope_eq := by
    obtain ⟨vars, heq, hvars⟩ := h.scope_eq
    obtain ⟨vars', heq', hvars'⟩ := h'.scope_eq
    exact ⟨vars', by rw [heq', heq], by rw [hvars', heq, hvars, List.append_assoc]⟩
  tidy hg := h'.tidy (h.tidy hg)

/-- One variable that no scope declares yet. -/
theorem single {v : Variable} (hs : s < g.scopes.size) (hv : g.declaringScope? v = none) :
    Declared s [v] g (g.modifyScope s fun sc => { sc with vars := sc.vars.insert v }) where
  body := rfl
  envs := rfl
  closures := rfl
  size := by simp
  scope_ne t ht := by simp [scope_modifyScope, Ne.symm ht]
  scope_eq := by
    refine ⟨(g.scope s).vars.insert v, by simp [scope_modifyScope, hs], ?_⟩
    rw [OrderedSet.toList_insert, if_neg (declaringScope_eq_none.mp hv s)]
  tidy hg := by
    have hnew : ∀ t w, w ∈ ((g.modifyScope s fun sc =>
        { sc with vars := sc.vars.insert v }).scope t).vars →
        w ∈ (g.scope t).vars ∨ w = v ∧ t = s := by
      intro t w hw
      rw [scope_modifyScope] at hw
      split at hw
      · rename_i ht
        rcases OrderedSet.mem_insert.mp hw with hw | hw
        · exact .inl hw
        · exact .inr ⟨hw, ht.1.symm⟩
      · exact .inl hw
    refine ⟨?_, hg.functions_nodup, ?_, hg.body_lt_body⟩
    · intro t u w ht hu
      rcases hnew t w ht with ht' | ⟨rfl, rfl⟩ <;> rcases hnew u w hu with hu' | ⟨hw, rfl⟩
      · exact hg.vars_unique t u w ht' hu'
      · exact absurd (hw ▸ ht') (declaringScope_eq_none.mp hv t)
      · exact absurd hu' (declaringScope_eq_none.mp hv u)
      · rfl
    · intro c hc
      rw [size_scopes_modifyScope]
      exact hg.body_lt c hc

end Declared

end Graph

namespace Draft

open Unnest.Graph

/-- A declaration without a failure declares a variable. -/
theorem declared_of_isOk {d : Draft} {loc : Loc} {s : ScopeId} {v : Option Variable}
    (hs : s < d.graph.scopes.size) (h : (d.declare loc s v).isOk) :
    ∃ w, v = some w ∧ Declared s [w] d.graph (d.declare loc s v).graph := by
  cases v with
  | none => simp [declare] at h
  | some w =>
    refine ⟨w, rfl, ?_⟩
    cases hw : d.graph.declaringScope? w with
    | some t => simp [declare, declare?, hw] at h
    | none => simpa [declare, declare?, hw] using Declared.single hs hw

/-- Parameters that are declared without a failure are all there. -/
theorem declared_params {d : Draft} {loc : Loc} {s : ScopeId} {ps : List (Option Variable)}
    (hs : s < d.graph.scopes.size)
    (h : (ps.foldl (fun d p => d.declare loc s p) d).isOk) :
    d.isOk ∧ ps = ps.reduceOption.map some ∧
      Declared s ps.reduceOption d.graph (ps.foldl (fun d p => d.declare loc s p) d).graph := by
  induction ps generalizing d with
  | nil => exact ⟨h, rfl, .nil s d.graph⟩
  | cons p ps ih =>
    have hok : (d.declare loc s p).isOk := by
      by_cases hsize : s < (d.declare loc s p).graph.scopes.size
      · exact (ih hsize h).1
      · cases p with
        | none => exact absurd hs hsize
        | some v =>
          refine absurd ?_ hsize
          cases hv : d.graph.declaringScope? v <;> simpa [declare, declare?, hv, fail] using hs
    obtain ⟨w, rfl, hw⟩ := declared_of_isOk hs hok
    obtain ⟨-, hps, hrest⟩ := ih (by rw [hw.size]; exact hs) h
    refine ⟨isOk_of_declare hok, ?_, ?_⟩
    · conv_lhs => rw [hps]
      rfl
    · exact hw.append hrest

end Draft

namespace Graph

variable {g g' g'' : Graph}

/-! ## Opening a scope -/

/-- The graph `g'` comes from `g` by opening block `b` for node `n`, which stands at `p` in scope
`s`, and by declaring its parameters there. -/
structure Opened (p : Path) (s : ScopeId) (n : Node) (b : Block) (g g' : Graph) : Prop where
  body : g'.body = g.body
  envs : g'.envs = g.envs
  size : g'.scopes.size = g.scopes.size + 1
  functions : g'.functions = g.functions ++ n.function?.toList
  scope_ne : ∀ t < g.scopes.size, t ≠ s → g'.scope t = g.scope t
  scope_eq : ∃ closures, g'.scope s =
    { g.scope s with children := (g.scope s).children ++ [g.scopes.size], closures }
  scope_new : ∃ kind vars owner, g'.scope g.scopes.size =
      { kind, parent := some s, vars, owner, block := some b, depth := (g.scope s).depth + 1 } ∧
    vars.toList = n.params ∧ (n.nested? = none → owner = none)
  closure_eq : ∀ c < g.closures.size, g'.closure c = g.closure c
  function : ∀ fn, n.nested? = some (fn, b) → b.id = g.scopes.size →
    ∃ f c, fn = some f ∧ g'.LaysFunction p f b c
  tidy : g.Tidy → g'.Tidy

theorem Opened.closures_le {p : Path} {s : ScopeId} {n : Node} {b : Block}
    (h : Opened p s n b g g') : g.closures.size ≤ g'.closures.size := by
  have := congrArg List.length h.functions
  rw [List.length_append, length_functions, length_functions] at this
  omega

theorem Opened.place {p : Path} {s : ScopeId} {n : Node} {b : Block} (h : Opened p s n b g g')
    (hs : g.At p s) (hb : n.opened? = some b) (hid : b.id = g.scopes.size) :
    g'.At (p.into n) b.id where
  head := by simp [Path.into, hb]
  lt := by rw [h.size, hid]; lia
  depth := by
    obtain ⟨kind, vars, owner, heq, -, -⟩ := h.scope_new
    rw [hid, heq]
    simp [Path.into, hb, hs.depth]

/-- A block that is opened, and what is entered in it, are laid out. -/
theorem Opened.lays {p : Path} {s : ScopeId} {n : Node} {b : Block} (hs : g.At p s)
    (hb : n.opened? = some b) (hid : b.id = g.scopes.size) (h : Opened p s n b g g')
    (h' : Entered (p.into n) b.id n.inner g' g'') : g''.Lays p n := by
  obtain ⟨kind, vars, owner, hnew, hvars, howner⟩ := h.scope_new
  obtain ⟨closures', vars', heq', hvars'⟩ := h'.scope_eq
  rw [hid, hnew] at heq' hvars'
  constructor
  case scope =>
    intro b' hb'
    obtain rfl : b' = b := by simpa [hb] using hb'.symm
    constructor
    case lt =>
      have hsize := h.size
      rw [hid]
      exact Nat.lt_of_lt_of_le (by omega) h'.size_le
    case parent => rw [hid, heq', hs.head]
    case block => rw [hid, heq']
    case depth => rw [hid, heq', ← hs.depth]
    case vars =>
      rw [hid, heq']
      exact hvars'.trans (by rw [hvars])
    case children =>
      rw [hid, heq']
      rfl
    case owner =>
      rw [hid, heq']
      exact howner
  case function =>
    intro fn b' hn
    obtain rfl : b' = b := by simpa [hb] using (Node.opened_of_nested hn).symm
    obtain ⟨f, c, rfl, lt, function, home, body, owner', params⟩ := h.function fn hn hid
    have hc := h'.closure_eq c lt
    have hclosures := h'.closures_le
    refine ⟨f, c, rfl, by lia, by rw [hc, function], by rw [hc, home], by rw [hc, body], ?_,
      params⟩
    rw [hid, heq']
    rw [hid, hnew] at owner'
    exact owner'

/-- A block, and what is entered in it. -/
theorem Opened.entered {p : Path} {s : ScopeId} {n : Node} {b : Block} (hs : g.At p s)
    (hb : n.opened? = some b) (hid : b.id = g.scopes.size) (h : Opened p s n b g g')
    (h' : Entered (p.into n) b.id n.inner g' g'') : Entered p s [n] g g'' := by
  have hsize := h.size
  have hlt := hs.lt
  have hchildren := Node.childBlocks_of_opened hb p
  have hdecl : n.declared? = none := by
    cases n with
    | expr e => rfl
    | stmt st => cases st <;> simp_all [Node.opened?, Node.declared?]
    | block b => rfl
  constructor
  case body => exact h'.body.trans h.body
  case envs => exact h'.envs.trans h.envs
  case size =>
    rw [h'.size, hsize, List.flatMap_singleton, Node.blockIds_eq, hb]
    simp
    omega
  case functions =>
    rw [h'.functions, h.functions, List.flatMap_singleton, Node.functions_eq, List.append_assoc]
  case scope_ne =>
    intro t ht hne
    rw [h'.scope_ne t (by omega) (by lia), h.scope_ne t ht hne]
  case scope_eq =>
    obtain ⟨closures, heq⟩ := h.scope_eq
    refine ⟨closures, (g.scope s).vars, ?_, by simp [hdecl]⟩
    rw [h'.scope_ne s (by lia) (by lia), heq, hchildren, hid]
  case closure_eq =>
    intro c hc
    rw [h'.closure_eq c (Nat.lt_of_lt_of_le hc h.closures_le), h.closure_eq c hc]
  case fresh =>
    intro q m b' hm hb'
    rw [List.flatMap_singleton] at hm
    obtain heq | ⟨k, hk, hm⟩ := Node.mem_sites.mp hm
    · obtain ⟨rfl, rfl⟩ := Prod.mk.inj heq
      obtain rfl : b' = b := by simpa [hb] using hb'.symm
      exact Nat.le_of_eq hid.symm
    · have := h'.fresh q m b' (List.mem_flatMap.mpr ⟨k, hk, hm⟩) hb'
      lia
  case lays =>
    intro q m hm
    rw [List.flatMap_singleton] at hm
    obtain heq | ⟨k, hk, hm⟩ := Node.mem_sites.mp hm
    · obtain ⟨rfl, rfl⟩ := Prod.mk.inj heq
      exact h.lays hs hb hid h'
    · exact h'.lays q m (List.mem_flatMap.mpr ⟨k, hk, hm⟩)
  case tidy => exact fun hg => h'.tidy (h.tidy hg)

theorem functions_pushScope (g : Graph) (kind : ScopeKind) (p : Option ScopeId)
    (block : Option Block) : (g.pushScope kind p block).functions = g.functions := by
  rw [functions, closures_pushScope, functions]

theorem Opened.pushScope {p : Path} {s : ScopeId} {n : Node} {b : Block} (hs : s < g.scopes.size)
    (hn : n.nested? = none) : Opened p s n b g (g.pushScope .block (some s) (some b)) where
  body := by simp
  envs := by simp
  size := by simp
  functions := by
    rw [functions_pushScope, Node.function?, hn, Option.bind_none, Option.toList_none,
      List.append_nil]
  scope_ne t ht hne := by
    rw [scope_pushScope _ _ _ hs, if_neg (Nat.ne_of_lt ht), if_neg hne]
  scope_eq := by
    refine ⟨(g.scope s).closures, ?_⟩
    rw [scope_pushScope _ _ _ hs, if_neg (by lia), if_pos rfl]
  scope_new := by
    refine ⟨.block, ∅, none, by rw [scope_pushScope _ _ _ hs, if_pos rfl], ?_, fun _ => rfl⟩
    simp [Node.params, Node.function?, hn]
  closure_eq := by simp
  function fn h := by simp [hn] at h
  tidy hg := by
    have hvars : ∀ t v, v ∈ ((g.pushScope .block (some s) (some b)).scope t).vars →
        v ∈ (g.scope t).vars := by
      intro t v hv
      rw [scope_pushScope _ _ _ hs] at hv
      split at hv
      · exact absurd hv (OrderedSet.not_mem_empty v)
      · split at hv
        · rename_i ht; exact ht ▸ hv
        · exact hv
    refine ⟨fun t u v ht hu => hg.vars_unique t u v (hvars t v ht) (hvars u v hu), ?_, ?_, ?_⟩
    · rw [functions_pushScope]
      exact hg.functions_nodup
    · intro c hc
      rw [closures_pushScope] at hc
      rw [closure_pushScope, size_scopes_pushScope]
      exact Nat.lt_succ_of_lt (hg.body_lt c hc)
    · intro c c' hcc hc'
      rw [closures_pushScope] at hc'
      rw [closure_pushScope, closure_pushScope]
      exact hg.body_lt_body c c' hcc hc'

/-- The graph in which function `f`, found in scope `s`, has a closure and a scope for its body. -/
def openBody (g : Graph) (f : NestedFunction) (s : ScopeId) (kind : ScopeKind) (b : Block) :
    Graph :=
  ((g.pushClosure f s).pushScope kind (some s) (some b)).setBody g.closures.size g.scopes.size

section OpenBody

variable {f : NestedFunction} {s : ScopeId} {kind : ScopeKind} {b : Block}

theorem size_scopes_openBody : (g.openBody f s kind b).scopes.size = g.scopes.size + 1 := by
  simp [openBody, setBody, modifyScope, modifyClosure, pushScope, pushClosure]

theorem size_closures_openBody : (g.openBody f s kind b).closures.size = g.closures.size + 1 := by
  simp [openBody, setBody, modifyScope, modifyClosure, pushScope, pushClosure]

theorem scope_openBody (hs : s < g.scopes.size) (t : ScopeId) :
    (g.openBody f s kind b).scope t =
      if t = g.scopes.size then
        { kind, parent := some s, owner := some g.closures.size, block := some b,
          depth := (g.scope s).depth + 1 }
      else if t = s then
        { g.scope s with
          children := (g.scope s).children ++ [g.scopes.size]
          closures := (g.scope s).closures ++ [g.closures.size] }
      else g.scope t := by
  have hsize : (g.pushClosure f s).scopes.size = g.scopes.size := by simp [pushClosure]
  rw [openBody, setBody, scope_modifyClosure, scope_modifyScope, size_scopes_pushScope, hsize,
    scope_pushScope _ _ _ (by rw [hsize]; exact hs), hsize, scope_pushClosure, scope_pushClosure]
  by_cases ht : t = g.scopes.size
  · subst ht
    simp [hs]
  · by_cases hts : t = s
    · subst hts
      simp [hs, Nat.ne_of_lt hs, Ne.symm (Nat.ne_of_lt hs)]
    · simp [ht, hts, Ne.symm ht, Ne.symm hts]

theorem closure_openBody (c : ClosureId) :
    (g.openBody f s kind b).closure c =
      if c = g.closures.size then
        { function := f, home := s, body := g.scopes.size, isDelegate := f.isDelegate }
      else g.closure c := by
  rw [openBody, setBody, closure_modifyClosure, closure_modifyScope, closure_pushScope,
    closure_pushClosure]
  by_cases hc : c = g.closures.size
  · subst hc
    rw [if_pos ⟨rfl, by simp [modifyScope, pushClosure]⟩, if_pos rfl, if_pos rfl]
  · rw [if_neg fun h => hc h.1.symm, if_neg hc, if_neg hc]

theorem functions_openBody : (g.openBody f s kind b).functions = g.functions ++ [f] := by
  apply List.ext_getElem
  · simp [length_functions, size_closures_openBody]
  · intro c h₁ h₂
    rw [functions_getElem, closure_openBody]
    by_cases hc : c = g.closures.size
    · subst hc
      simp [List.getElem_append_right, length_functions]
    · have hlt : c < g.functions.length := by
        rw [length_functions, size_closures_openBody] at h₁
        rw [length_functions]
        omega
      rw [if_neg hc, List.getElem_append_left hlt, functions_getElem]

/-- A function with no closure yet is opened tidily. -/
theorem Tidy.openBody (hg : g.Tidy) (hs : s < g.scopes.size) (hf : g.closureOf? f = none) :
    (g.openBody f s kind b).Tidy where
  vars_unique := by
    have hvars : ∀ t v, v ∈ ((g.openBody f s kind b).scope t).vars → v ∈ (g.scope t).vars := by
      intro t v hv
      rw [scope_openBody hs] at hv
      split at hv
      · exact absurd hv (OrderedSet.not_mem_empty v)
      · split at hv
        · rename_i ht; exact ht ▸ hv
        · exact hv
    exact fun t u v ht hu => hg.vars_unique t u v (hvars t v ht) (hvars u v hu)
  functions_nodup := by
    rw [functions_openBody]
    refine List.nodup_append.mpr ⟨hg.functions_nodup, by simp, ?_⟩
    intro f₁ h₁ f₂ h₂ heq
    obtain rfl : f₂ = f := by simpa using h₂
    obtain ⟨c, hc, hfc⟩ := List.mem_iff_getElem.mp (heq ▸ h₁)
    rw [functions_getElem] at hfc
    exact closureOf_eq_none.mp hf c (by rwa [length_functions] at hc) hfc
  body_lt c hc := by
    rw [closure_openBody, size_scopes_openBody]
    rw [size_closures_openBody] at hc
    split
    · exact Nat.lt_succ_self _
    · exact Nat.lt_succ_of_lt (hg.body_lt c (by lia))
  body_lt_body c d hcd hd := by
    rw [size_closures_openBody] at hd
    rw [closure_openBody, closure_openBody, if_neg (by lia)]
    split
    · exact hg.body_lt c (by lia)
    · exact hg.body_lt_body c d hcd (by lia)

end OpenBody

/-- A nested function with a body, whose parameters are declared. -/
theorem Opened.openBody {p : Path} {s : ScopeId} {n : Node} {f : NestedFunction}
    {kind : ScopeKind} {b : Block} (hs : g.At p s) (hn : n.nested? = some (some f, b))
    (hf : g.closureOf? f = none) (hparams : f.params = f.params.reduceOption.map some)
    (h : Declared g.scopes.size f.params.reduceOption (g.openBody f s kind b) g') :
    Opened p s n b g g' := by
  have hlt := hs.lt
  have hfn : n.function? = some f := by simp [Node.function?, hn]
  obtain ⟨vars, heq, hvars⟩ := h.scope_eq
  rw [scope_openBody hlt, if_pos rfl] at heq hvars
  have hclosure : ∀ c, g'.closure c = (g.openBody f s kind b).closure c := by
    intro c
    rw [closure, h.closures, closure]
  constructor
  case body => rw [h.body]; simp [Graph.openBody, setBody, modifyScope, modifyClosure, pushClosure]
  case envs => rw [h.envs]; simp [Graph.openBody, setBody, modifyScope, modifyClosure, pushClosure]
  case size => rw [h.size, size_scopes_openBody]
  case functions =>
    rw [Graph.functions, h.closures]
    exact functions_openBody.trans (by rw [hfn, Option.toList_some])
  case scope_ne =>
    intro t ht hne
    rw [h.scope_ne t (Nat.ne_of_lt ht), scope_openBody hlt, if_neg (Nat.ne_of_lt ht), if_neg hne]
  case scope_eq =>
    refine ⟨(g.scope s).closures ++ [g.closures.size], ?_⟩
    rw [h.scope_ne s (Nat.ne_of_lt hlt), scope_openBody hlt, if_neg (Nat.ne_of_lt hlt), if_pos rfl]
  case scope_new =>
    refine ⟨kind, vars, some g.closures.size, heq, ?_, by simp [hn]⟩
    simpa [Node.params, hfn] using hvars
  case closure_eq =>
    intro c hc
    rw [hclosure, closure_openBody, if_neg (Nat.ne_of_lt hc)]
  case function =>
    intro fn hn' hid
    obtain rfl : some f = fn := by simpa [hn] using hn'
    have hc : g'.closure g.closures.size = _ :=
      (hclosure _).trans ((closure_openBody _).trans (if_pos rfl))
    refine ⟨f, g.closures.size, rfl, ?_, ?_, ?_, ?_, ?_, hparams⟩
    · rw [h.closures, size_closures_openBody]
      exact Nat.lt_succ_self _
    · rw [hc]
    · rw [hc, hs.head]
    · rw [hc, hid]
    · rw [hid, heq]
  case tidy => exact fun hg => h.tidy (hg.openBody hlt hf)

end Graph

/-! ## Whole nodes -/

namespace Draft

open Unnest.Graph

theorem opened_of_openFunction {d d' : Draft} {p : Path} {s inner : ScopeId} {n : Node}
    {kind : ScopeKind} {loc : Loc} {fn : Option NestedFunction} {b : Block} (hs : d.graph.At p s)
    (hn : n.nested? = some (fn, b)) (h : d.openFunction s kind loc fn b = (d', some inner))
    (hok : d'.isOk) : inner = d.graph.scopes.size ∧ Opened p s n b d.graph d'.graph := by
  have hd : d.isOk := isOk_of_openFunction (by rw [h]; exact hok)
  cases fn with
  | none => simp [openFunction, hd] at h
  | some f =>
    cases hf : d.graph.closureOf? f with
    | some c => simp [openFunction, hd, hf] at h
    | none =>
      simp only [openFunction, hd, hf, if_true, Prod.mk.injEq, Option.some.injEq] at h
      obtain ⟨rfl, rfl⟩ := h
      have hsize : d.graph.scopes.size < (d.graph.openBody f s kind b).scopes.size := by
        rw [size_scopes_openBody]
        omega
      obtain ⟨-, hparams, hdecl⟩ :=
        declared_params (d := d.modify (·.openBody f s kind b)) hsize hok
      exact ⟨rfl, .openBody hs hn hf hparams hdecl⟩

/-- A function that is not entered is a failure. -/
theorem not_isOk_of_openFunction {d d' : Draft} {s : ScopeId} {kind : ScopeKind} {loc : Loc}
    {fn : Option NestedFunction} {b : Block}
    (h : d.openFunction s kind loc fn b = (d', none)) : ¬ d'.isOk := by
  intro hok
  have hd : d.isOk := isOk_of_openFunction (by rw [h]; exact hok)
  cases fn with
  | none =>
    simp only [openFunction, hd, if_true, Prod.mk.injEq] at h
    simp [← h.1] at hok
  | some f =>
    cases hf : d.graph.closureOf? f with
    | some c =>
      simp only [openFunction, hd, hf, if_true, Prod.mk.injEq] at h
      simp [← h.1] at hok
    | none => simp [openFunction, hd, hf] at h

end Draft

namespace Node

open Unnest.Graph List

/-- The blocks below some nodes are numbered from `k` on. -/
def NumberedFrom (k : Nat) (ns : List Node) : Prop :=
  ns.flatMap blockIds = range' k (ns.flatMap blockIds).length

theorem NumberedFrom.append {k : Nat} {ns ms : List Node} (h : NumberedFrom k (ns ++ ms)) :
    NumberedFrom k ns ∧ NumberedFrom (k + (ns.flatMap blockIds).length) ms := by
  rw [NumberedFrom, flatMap_append, length_append, ← range'_append_1] at h
  exact append_inj h (by simp)

theorem NumberedFrom.opened {k : Nat} {n : Node} {b : Block} (h : NumberedFrom k [n])
    (hb : n.opened? = some b) : b.id = k ∧ NumberedFrom (k + 1) n.inner := by
  rw [NumberedFrom, flatMap_singleton, blockIds_eq, hb] at h
  simpa [range'_succ, NumberedFrom] using h

theorem NumberedFrom.inner {k : Nat} {n : Node} (h : NumberedFrom k [n])
    (hb : n.opened? = none) : NumberedFrom k n.inner := by
  rw [NumberedFrom, flatMap_singleton, blockIds_eq, hb] at h
  simpa [NumberedFrom] using h

theorem entered_each {p : Path} {s : ScopeId} {ns : List Node}
    (ih : ∀ n ∈ ns, ∀ d : Draft, d.graph.At p s → NumberedFrom d.graph.scopes.size [n] →
      (n.enter s d).isOk → Entered p s [n] d.graph (n.enter s d).graph)
    {d : Draft} (hs : d.graph.At p s) (hnum : NumberedFrom d.graph.scopes.size ns)
    (hok : (enterEach s ns d).isOk) : Entered p s ns d.graph (enterEach s ns d).graph := by
  induction ns generalizing d with
  | nil => exact .nil p s d.graph
  | cons n ns ihs =>
    have hok' : (n.enter s d).isOk := isOk_of_enterEach (fun _ _ _ h => isOk_of_enter h) hok
    obtain ⟨hn, hns⟩ := NumberedFrom.append (show NumberedFrom _ ([n] ++ ns) from hnum)
    have hhead := ih n (by simp) d hs hn hok'
    rw [← hhead.size] at hns
    have htail := ihs (fun m hm => ih m (by simp [hm])) (hhead.place hs) hns hok
    exact hhead.append hs htail

/-- A node that opens nothing contributes what stands inside it, and after that its variable. -/
theorem entered_of_inner {g g' g'' : Graph} {p : Path} {s : ScopeId} {n : Node}
    (hs : g.At p s) (hb : n.opened? = none) (h : Entered p s n.inner g g')
    (h' : Declared s n.declared?.toList g' g'') : Entered p s [n] g g'' := by
  have hids : [n].flatMap blockIds = n.inner.flatMap blockIds := by
    rw [flatMap_singleton, blockIds_eq, hb]
    rfl
  have hfns : [n].flatMap Node.functions = n.inner.flatMap Node.functions := by
    rw [flatMap_singleton, functions_eq, function_of_isNone hb]
    rfl
  have hchildren := childBlocks_of_isNone hb p
  have hdecl : n.inner.filterMap declared? = [] := by
    rw [filterMap_eq_nil_iff]
    exact fun m hm => declared_inner hb hm
  have hdecl' : [n].filterMap declared? = n.declared?.toList := by
    cases h : n.declared? <;> simp [h]
  have hsite : ∀ q m, (q, m) ∈ [n].flatMap (sites p) →
      (q, m) = (p, n) ∨ (q, m) ∈ n.inner.flatMap (sites p) := by
    intro q m hm
    rwa [flatMap_singleton, sites_of_isNone hb, mem_cons] at hm
  have hclosure : ∀ c, g''.closure c = g'.closure c := by
    intro c
    rw [Graph.closure, h'.closures, Graph.closure]
  obtain ⟨closures, vars, heq, hvars⟩ := h.scope_eq
  obtain ⟨vars', heq', hvars'⟩ := h'.scope_eq
  constructor
  case body => exact h'.body.trans h.body
  case envs => exact h'.envs.trans h.envs
  case size => rw [h'.size, h.size, hids]
  case functions =>
    rw [hfns, ← h.functions, Graph.functions, h'.closures, Graph.functions]
  case scope_ne =>
    intro t ht hne
    rw [h'.scope_ne t hne, h.scope_ne t ht hne]
  case scope_eq =>
    refine ⟨closures, vars', by rw [heq', heq, hchildren], ?_⟩
    rw [hvars', heq, hvars, hdecl, hdecl', append_nil]
  case closure_eq => exact fun c hc => (hclosure c).trans (h.closure_eq c hc)
  case fresh =>
    intro q m b hm hb'
    rcases hsite q m hm with heq | hm
    · rw [(Prod.mk.inj heq).2, hb] at hb'
      exact absurd hb' (by simp)
    · exact h.fresh q m b hm hb'
  case lays =>
    intro q m hm
    rcases hsite q m hm with heq | hm
    · rw [(Prod.mk.inj heq).2]
      exact .of_isNone hb
    · refine (h.lays q m hm).of_eq (Nat.le_of_eq h'.size.symm) (fun b hb' => ?_)
        (Nat.le_of_eq (by rw [h'.closures])) (fun c _ => hclosure c)
      have hfresh := h.fresh q m b hm hb'
      have hlt := hs.lt
      exact h'.scope_ne b.id (by lia)
  case tidy => exact fun hg => h'.tidy (h.tidy hg)

/-- Entering a node without a failure lays everything below it. -/
theorem entered {n : Node} {p : Path} {s : ScopeId} {d : Draft} (hs : d.graph.At p s)
    (hnum : NumberedFrom d.graph.scopes.size [n]) (hok : (n.enter s d).isOk) :
    Entered p s [n] d.graph (n.enter s d).graph := by
  induction n using Node.induction generalizing p s d with
  | step n ih =>
    have hinner {p : Path} {s : ScopeId} {d : Draft} (hs : d.graph.At p s)
        (hnum : NumberedFrom d.graph.scopes.size n.inner) (hok : (enterEach s n.inner d).isOk) :
        Entered p s n.inner d.graph (enterEach s n.inner d).graph :=
      entered_each (fun m hm d hs hnum hok => ih m hm hs hnum hok) hs hnum hok
    obtain hplain | ⟨loc, target, init, rfl⟩ | ⟨b, hb, hn⟩ | ⟨fn, b, hn⟩ := n.isPlain_or
    · rw [enter_of_isPlain hplain] at hok ⊢
      have hdecl : n.declared? = none := by
        cases n with
        | stmt st => cases st with
          | declare loc target init => exact absurd rfl (hplain.2 loc target init)
          | _ => rfl
        | _ => rfl
      refine entered_of_inner hs hplain.1 (hinner hs (hnum.inner hplain.1) hok) ?_
      rw [hdecl]
      exact .nil _ _
    · cases target with
      | none => simp [enter, Stmt.enter] at hok
      | some v =>
        rw [enter_declare] at hok ⊢
        have h := hinner hs (hnum.inner rfl) (Draft.isOk_of_declare hok)
        obtain ⟨w, hw, hdecl⟩ := Draft.declared_of_isOk (h.place hs).lt hok
        obtain rfl : v = w := by simpa using hw
        exact entered_of_inner hs rfl h hdecl
    · obtain ⟨hid, hnum'⟩ := hnum.opened hb
      rw [enter_block hb hn] at hok ⊢
      have heach := enterAll_of_isOk hok
      rw [← inner_of_opened hb] at heach
      rw [heach] at hok ⊢
      have hopen : Opened p s n b d.graph
          (d.modify (·.pushScope .block (some s) (some b))).graph := .pushScope hs.lt hn
      rw [← hid] at hok ⊢
      refine hopen.entered hs hb hid (hinner (hopen.place hs hb hid) ?_ hok)
      rwa [hopen.size]
    · obtain ⟨kind, loc, he⟩ := enter_nested hn s d
      have hb := opened_of_nested hn
      obtain ⟨hid, hnum'⟩ := hnum.opened hb
      rw [he] at hok ⊢
      split at hok
      · rename_i d' inner heq
        have heach := enterAll_of_isOk hok
        rw [← inner_of_opened hb] at heach
        have hd' : d'.isOk := isOk_of_enterAll hok
        rw [heach] at hok ⊢
        obtain ⟨rfl, hopen⟩ := Draft.opened_of_openFunction hs hn heq hd'
        rw [← hid] at hok ⊢
        refine hopen.entered hs hb hid (hinner (hopen.place hs hb hid) ?_ hok)
        rwa [hopen.size]
      · rename_i d' heq
        exact absurd hok (Draft.not_isOk_of_openFunction heq)

end Node

end Unnest
