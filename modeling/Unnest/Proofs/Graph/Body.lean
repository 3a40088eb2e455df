import Unnest.Proofs.Graph.Building

/-!
# The scopes of a body

`Graph.Holds` is what a graph says about the body it was built from: every node is laid, scopes and
closures are numbered in reading order, and nothing is declared twice. It speaks about the shape of
the graph only, so it holds throughout the analysis.

## Main statements

* `Draft.holds_of_build` : a body that is built without a failure is held by its graph.
* `Graph.Holds.of_shape` : what a graph says about its body depends on its shape only.
-/

namespace Unnest

open List (range')

/-- The path of the outermost nodes of a body. -/
def Path.outermost : Path := ⟨[Graph.root], []⟩

/-- The statements of a body as nodes, with their blocks numbered. -/
def MethodBody.topNodes (m : MethodBody) : List Node :=
  match m.numbered.block with
  | some b => b.stmts.map .stmt
  | none => []

namespace Graph

/-- What a graph says about the body it was built from. -/
structure Holds (g : Graph) (m : MethodBody) : Prop where
  body : g.body = m.numbered
  complete : ∃ method block, m.method = some method ∧ m.numbered.block = some block ∧
    (g.scope root).block = some block ∧ method.params = method.params.reduceOption.map some ∧
    (g.scope root).vars.toList = m.receiver.toList ++ method.params.reduceOption ++
      m.topNodes.filterMap Node.declared?
  root_lt : root < g.scopes.size
  root_parent : (g.scope root).parent = none
  root_owner : (g.scope root).owner = none
  root_depth : (g.scope root).depth = 0
  root_children : (g.scope root).children = Node.childBlocks .outermost m.topNodes
  size : g.scopes.size = 1 + (m.topNodes.flatMap Node.blockIds).length
  functions : g.functions = m.topNodes.flatMap Node.functions
  numbered : Node.NumberedFrom 1 m.topNodes
  lays : ∀ q n, (q, n) ∈ m.numbered.sites → g.Lays q n
  tidy : g.Tidy

/-- What a graph says about its body depends on its shape only. -/
theorem Holds.of_shape {g g' : Graph} {m : MethodBody} (h : g.Holds m)
    (hshape : g'.shape = g.shape) : g'.Holds m := by
  have hsize := size_scopes_of_shape hshape
  have hclosures := size_closures_of_shape hshape
  have hparent := parent_of_shape hshape
  have howner := owner_of_shape hshape
  have hdepth := depth_of_shape hshape
  have hchildren := children_of_shape hshape
  have hblock := block_of_shape hshape
  have hvars := vars_of_shape hshape
  have hbody := bodyScope_of_shape hshape
  have hfunctions : g'.functions = g.functions := by
    refine List.ext_getElem (by simp [length_functions, hclosures]) fun c h h' => ?_
    rw [functions_getElem, functions_getElem]
    exact function_of_shape hshape c
  obtain ⟨method, block, hm, hb, hrootBlock, hparams, hrootVars⟩ := h.complete
  constructor
  case body => exact (body_of_shape hshape).trans h.body
  case complete =>
    exact ⟨method, block, hm, hb, (hblock _).trans hrootBlock, hparams, hvars root ▸ hrootVars⟩
  case root_lt => exact hsize ▸ h.root_lt
  case root_parent => exact (hparent _).trans h.root_parent
  case root_owner => exact (howner _).trans h.root_owner
  case root_depth => exact (hdepth _).trans h.root_depth
  case root_children => exact (hchildren _).trans h.root_children
  case size => exact hsize.trans h.size
  case functions => exact hfunctions.trans h.functions
  case numbered => exact h.numbered
  case lays =>
    intro q n hn
    have hlays := h.lays q n hn
    constructor
    · intro b hb
      obtain ⟨lt, parent, block, depth, vars, children, owner⟩ := hlays.scope b hb
      exact ⟨hsize ▸ lt, (hparent _).trans parent, (hblock _).trans block, (hdepth _).trans depth,
        hvars b.id ▸ vars, (hchildren _).trans children, fun hn => (howner _).trans (owner hn)⟩
    · intro fn b hb
      obtain ⟨f, c, rfl, lt, function, home, body, owner, params⟩ := hlays.function fn b hb
      exact ⟨f, c, rfl, hclosures ▸ lt, (function_of_shape hshape c).trans function,
        (congrArg some (home_of_shape hshape c)).trans home, (hbody c).trans body,
        (howner _).trans owner, params⟩
  case tidy =>
    refine ⟨?_, hfunctions ▸ h.tidy.functions_nodup, ?_, ?_⟩
    · intro s t v hs ht
      rw [hvars] at hs ht
      exact h.tidy.vars_unique s t v hs ht
    · intro c hc
      rw [hbody, hsize]
      exact h.tidy.body_lt c (hclosures ▸ hc)
    · intro c d hcd hd
      rw [hbody, hbody]
      exact h.tidy.body_lt_body c d hcd (hclosures ▸ hd)

end Graph

theorem Block.id_number (b : Block) (n : Nat) : (b.number n).id = n := by cases b; rfl

theorem MethodBody.id_block {m : MethodBody} {b : Block} (h : m.numbered.block = some b) :
    b.id = Graph.root := by
  obtain ⟨b₀, -, rfl⟩ := Option.map_eq_some_iff.mp h
  exact b₀.id_number 0

theorem MethodBody.sites_numbered (m : MethodBody) :
    m.numbered.sites = m.topNodes.flatMap (Node.sites .outermost) := by
  cases hb : m.block with
  | none => simp [sites, topNodes, numbered, hb]
  | some b => simp [sites, topNodes, numbered, hb, Block.id_number, Path.outermost, Graph.root]

theorem MethodBody.numberedFrom_topNodes (m : MethodBody) : Node.NumberedFrom 1 m.topNodes := by
  cases hb : m.block with
  | none => simp [topNodes, numbered, hb, Node.NumberedFrom]
  | some b =>
    have h := b.blockIds_stmts_number 0
    cases b with
    | mk id loc stmts =>
      simp only [Block.blockCount, List.range'_succ, List.singleton_append, List.cons.injEq] at h
      simp only [topNodes, numbered, hb, Option.map_some, Node.NumberedFrom, h.2,
        List.length_range']

/-! ## A graph without captures -/

/-- Nothing is known yet about what closures capture and where it is kept. -/
structure Graph.Blank (g : Graph) : Prop where
  scope : ∀ s, (g.scope s).env = none
  closure : ∀ c < g.closures.size, g.closure c =
    { (g.closure c).shape with isDelegate := (g.closure c).function.isDelegate }
  envs : g.envs = #[]

namespace Graph.Blank

variable {g : Graph} (h : g.Blank)

include h

theorem modifyScope (s : ScopeId) {f : Scope → Scope} (hf : ∀ sc, (f sc).env = sc.env) :
    (g.modifyScope s f).Blank where
  scope t := by
    rw [scope_modifyScope]
    split
    · rw [hf, h.scope]
    · exact h.scope t
  closure := h.closure
  envs := h.envs

theorem pushScope (kind : ScopeKind) (p : Option ScopeId) (b : Option Block) :
    (g.pushScope kind p b).Blank := by
  refine ⟨fun t => ?_, fun c hc => ?_, by rw [envs_pushScope, h.envs]⟩
  · cases p with
    | none =>
      rw [scope_pushScope_none]
      split
      · rfl
      · exact h.scope t
    | some p =>
      rw [scope_pushScope_some]
      split_ifs
      · rfl
      · exact h.scope t
      · exact h.scope t
  · rw [closure_pushScope]
    exact h.closure c (by rwa [closures_pushScope] at hc)

theorem openBody (f : NestedFunction) (s : ScopeId) (kind : ScopeKind) (b : Block) :
    (g.openBody f s kind b).Blank := by
  have hpush : (g.pushClosure f s).Blank := by
    refine ⟨fun t => ?_, fun c hc => ?_, h.envs⟩
    · rw [scope_pushClosure]
      split <;> exact h.scope t
    · rw [closure_pushClosure]
      split
      · rfl
      · rename_i hne
        have hsize : (g.pushClosure f s).closures.size = g.closures.size + 1 := by
          simp [pushClosure, Graph.modifyScope]
        exact h.closure c (by lia)
  have hopen := (hpush.pushScope kind (some s) (some b)).modifyScope g.scopes.size
    (f := fun sc => { sc with owner := some g.closures.size }) fun _ => rfl
  refine ⟨hopen.scope, fun c hc => ?_, hopen.envs⟩
  rw [Graph.openBody, setBody, closure_modifyClosure]
  split
  · rw [hopen.closure c (by rename_i hlt; exact hlt.2)]
    rfl
  · exact hopen.closure c (by simpa [Graph.openBody, setBody] using hc)

end Graph.Blank

/-! ## What building keeps -/

/-- What every change of a graph under construction keeps. -/
structure Graph.Kept (P : Graph → Prop) : Prop where
  declare : ∀ g s v, P g → P (g.modifyScope s fun sc => { sc with vars := sc.vars.insert v })
  pushScope : ∀ g s b, P g → P (g.pushScope .block (some s) (some b))
  openBody : ∀ g f s kind b, P g → P (g.openBody f s kind b)

namespace Graph.Kept

variable {P : Graph → Prop} {d : Draft} {s : ScopeId} (h : Kept P)

include h

theorem declare_draft (loc : Loc) (v : Option Variable) (hd : P d.graph) :
    P (d.declare loc s v).graph := by
  cases v with
  | none => exact hd
  | some v =>
    cases hv : d.graph.declaringScope? v with
    | none => simpa [Draft.declare, Graph.declare?, hv] using h.declare _ s v hd
    | some t => simpa [Draft.declare, Graph.declare?, hv, Draft.fail] using hd

theorem params (loc : Loc) {ps : List (Option Variable)} (hd : P d.graph) :
    P (ps.foldl (fun d p => d.declare loc s p) d).graph := by
  induction ps generalizing d with
  | nil => exact hd
  | cons p ps ih => exact ih (h.declare_draft loc p hd)

theorem openFunction (kind : ScopeKind) (loc : Loc) (fn : Option NestedFunction) (b : Block)
    (hd : P d.graph) : P (d.openFunction s kind loc fn b).1.graph := by
  unfold Draft.openFunction
  split
  · split
    · exact hd
    · split
      · exact hd
      · rename_i f _ _
        exact h.params loc (d := d.modify (·.openBody f s kind b)) (h.openBody _ f s kind b hd)
  · exact hd

theorem enter {n : Node} (hd : P d.graph) : P (n.enter s d).graph :=
  Node.keeps_enter (P := fun d => P d.graph) (fun _ loc _ v => h.declare_draft loc v)
    (fun _ _ hd => hd) (fun _ s b => h.pushScope _ s b)
    (fun _ _ kind loc fn b => h.openFunction kind loc fn b) hd

theorem enterAll {ss : List Stmt} (hd : P d.graph) : P (Stmt.enterAll s ss d).graph := by
  induction ss generalizing d with
  | nil => exact hd
  | cons st ss ih =>
    rw [Stmt.enterAll]
    split
    · exact ih (h.enter (n := .stmt st) hd)
    · exact hd

/-- What holds of a graph with nothing or only its root and is kept holds of what is built. -/
theorem build {m : MethodBody} (hempty : P (.ofBody m))
    (hroot : ∀ b, P ((ofBody m).pushScope .methodBody none (some b))) :
    P (Draft.build { graph := .ofBody m }).graph := by
  unfold Draft.build
  split
  · split
    · rename_i method b _ _
      refine h.enterAll (h.params b.loc ?_)
      split
      · exact h.declare_draft b.loc _ (d := Draft.modify _ _) (hroot b)
      · exact hroot b
    · exact hempty
  · exact hempty

end Graph.Kept

theorem Graph.Blank.kept : Graph.Kept Graph.Blank where
  declare _ s _ h := h.modifyScope s fun _ => rfl
  pushScope _ s b h := h.pushScope .block (some s) (some b)
  openBody _ f s kind b h := h.openBody f s kind b

/-! ## The whole body -/

namespace Draft

open Unnest.Graph

theorem isOk_build {d : Draft} (h : d.build.isOk) :
    ∃ m b, d.graph.body.method = some m ∧ d.graph.body.block = some b ∧
      d.build = d.enterMethod m b ∧ d.graph.scopes = #[] := by
  unfold build at h ⊢
  split at h
  · rename_i hempty
    rw [if_pos hempty]
    cases hm : d.graph.body.method with
    | none => simp [hm] at h
    | some m =>
      cases hb : d.graph.body.block with
      | none => simp [hm, hb] at h
      | some b => exact ⟨m, b, rfl, rfl, rfl, by simpa using hempty⟩
  · simp at h

theorem vars_pushRoot {g : Graph} (hs : g.scopes = #[]) (b : Option Block) (s : ScopeId) :
    ((g.pushScope .methodBody none b).scope s).vars = ∅ := by
  by_cases h : s = 0
  · subst h; simp [pushScope, scope, hs]
  · rw [scope_of_le (by rw [size_scopes_pushScope, hs]; exact Nat.one_le_iff_ne_zero.mpr h)]
    rfl

/-- The graph of a body with nothing but the scope of the outermost block. -/
theorem tidy_pushRoot {g : Graph} (hs : g.scopes = #[]) (hc : g.closures = #[])
    (b : Option Block) : (g.pushScope .methodBody none b).Tidy where
  vars_unique s t v hsv _ := by
    rw [vars_pushRoot hs] at hsv
    exact absurd hsv (OrderedSet.not_mem_empty v)
  functions_nodup := by simp [functions, hc]
  body_lt c h := by simp [hc] at h
  body_lt_body c d _ h := by simp [hc] at h

/-- The draft after the receiver and the parameters of the method are declared. -/
def declareHead (d : Draft) (loc : Loc) (params : List (Option Variable)) : Draft :=
  params.foldl (fun d p => d.declare loc root p)
    (match d.graph.receiver with
      | some r => d.declare loc root (some r)
      | none => d)

theorem declareHead_eq (d : Draft) (loc : Loc) (params : List (Option Variable)) :
    d.declareHead loc params = (d.graph.receiver.toList.map some ++ params).foldl
      (fun d p => d.declare loc root p) d := by
  rw [declareHead]
  cases d.graph.receiver <;> rfl

theorem declared_head {d : Draft} {loc : Loc} {params : List (Option Variable)}
    (hs : root < d.graph.scopes.size) (h : (d.declareHead loc params).isOk) :
    params = params.reduceOption.map some ∧
      Declared root (d.graph.receiver.toList ++ params.reduceOption) d.graph
        (d.declareHead loc params).graph := by
  unfold declareHead at h ⊢
  cases hr : d.graph.receiver with
  | none =>
    simp only [hr] at h ⊢
    exact (declared_params hs h).2
  | some r =>
    simp only [hr] at h ⊢
    have hsize : (d.declare loc root (some r)).graph.scopes.size = d.graph.scopes.size := by
      cases hv : d.graph.declaringScope? r <;> simp [declare, declare?, hv, fail]
    obtain ⟨hok, hps, hparams⟩ := declared_params (by rwa [hsize]) h
    obtain ⟨w, hw, hrec⟩ := declared_of_isOk hs hok
    obtain rfl : r = w := by simpa using hw
    exact ⟨hps, hrec.append hparams⟩

/-- A body that is built without a failure is held by its graph. -/
theorem holds_of_build {m : MethodBody} (h : (build { graph := .ofBody m }).isOk) :
    (build { graph := .ofBody m }).graph.Holds m := by
  obtain ⟨method, b, hm, hb, heq, -⟩ := isOk_build h
  rw [heq] at h ⊢
  have hnode : m.topNodes = b.stmts.map .stmt := by
    simp [MethodBody.topNodes, show m.numbered.block = some b from hb]
  set d : Draft := modify { graph := .ofBody m } (·.pushScope .methodBody none (some b)) with hd
  have hscope : d.graph.scope root = { kind := .methodBody, parent := none, block := some b } :=
    rfl
  have henter : enterMethod { graph := .ofBody m } method b =
    Stmt.enterAll root b.stmts (d.declareHead b.loc method.params) := rfl
  rw [henter] at h ⊢
  obtain ⟨hparams, hdecl⟩ := declared_head (show root < d.graph.scopes.size from Nat.one_pos)
    (Node.isOk_of_enterAll h)
  have heach := Node.enterAll_of_isOk h
  rw [← hnode] at heach
  rw [heach] at h ⊢
  set d' := d.declareHead b.loc method.params
  obtain ⟨vars, hroot, hvars⟩ := hdecl.scope_eq
  rw [hscope] at hroot hvars
  have hat : d'.graph.At .outermost root := by
    refine ⟨rfl, by rw [hdecl.size]; exact Nat.one_pos, ?_⟩
    rw [hroot]
    rfl
  have hentered : Entered .outermost root m.topNodes d'.graph _ :=
    Node.entered_each (fun n _ d hs hnum hok => Node.entered hs hnum hok) hat
      (by rw [hdecl.size]; exact m.numberedFrom_topNodes) h
  obtain ⟨closures, vars', hroot', hvars'⟩ := hentered.scope_eq
  rw [hroot] at hroot' hvars'
  constructor
  case body => rw [hentered.body, hdecl.body]; rfl
  case complete =>
    refine ⟨method, b, hm, hb, by rw [hroot'], hparams, ?_⟩
    rw [hroot']
    exact hvars'.trans (by rw [hvars]; rfl)
  case root_lt => exact (hentered.place hat).lt
  case root_parent => rw [hroot']
  case root_owner => rw [hroot']
  case root_depth => rw [hroot']
  case root_children => rw [hroot']; rfl
  case size => rw [hentered.size, hdecl.size]; rfl
  case functions =>
    rw [hentered.functions, functions, hdecl.closures]
    rfl
  case numbered => exact m.numberedFrom_topNodes
  case lays => rw [m.sites_numbered]; exact hentered.lays
  case tidy => exact hentered.tidy (hdecl.tidy (tidy_pushRoot rfl rfl _))

/-- Building a graph makes no captures and no environments. -/
theorem blank_build (m : MethodBody) : (build { graph := .ofBody m }).graph.Blank := by
  have hblank : (Graph.ofBody m).Blank :=
    ⟨fun s => rfl, fun c hc => absurd hc (Nat.not_lt_zero c), rfl⟩
  exact Graph.Blank.kept.build hblank fun b => hblank.pushScope .methodBody none (some b)

end Draft

end Unnest
