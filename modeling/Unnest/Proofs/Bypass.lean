import Unnest.Conversion
import Unnest.Proofs.Captures.Closed
import Unnest.Proofs.Captures.Contract
import Unnest.Proofs.Lowered.Run

/-!
# Bodies with nothing to convert

A body without nested functions may be passed over, because converting it would not change it:
nothing is captured, so nothing is hoisted and nothing is made, and the walk over the trees writes
every node as it was read. Only mentions of the receiver are spelled anew, with the type that the
method belongs to.

## Main definitions

* `MethodBody.withOwner` : the body in which every mention of the receiver has the given type.
* `LoweringContext.Idle` : nothing is left to convert.

## Main statements

* `MethodBody.hasNestedFunctions_iff` : a body has nested functions if and only if it declares some.
* `Node.stays` : where nothing is left to convert, every node is written as it was read.
* `MethodBody.run_bypassed` : converting a body without nested functions gives it back.
-/

namespace Unnest

/-! ## Mentions of the receiver -/

mutual

/-- The expression in which every mention of the receiver has type `owner`. -/
def Expr.withOwner (owner : String) : Expr → Expr
  | .self loc _ => .self loc owner
  | .literal loc value type => .literal loc value type
  | .ref loc target => .ref loc target
  | .assign loc target value => .assign loc (target.withOwner owner) (value.withOwner owner)
  | .binary loc op lhs rhs => .binary loc op (lhs.withOwner owner) (rhs.withOwner owner)
  | .lambda loc fn body => .lambda loc fn (body.withOwner owner)
  | .functionRef loc fn => .functionRef loc fn
  | .localCall loc fn args => .localCall loc fn (Expr.withOwnerAll owner args)
  | .call loc method receiver args =>
    .call loc method
      (match receiver with
        | some e => some (e.withOwner owner)
        | none => none)
      (Expr.withOwnerAll owner args)
  | .invoke loc callee args => .invoke loc (callee.withOwner owner) (Expr.withOwnerAll owner args)
  | .field loc receiver f => .field loc (receiver.withOwner owner) f
  | .newEnv loc type => .newEnv loc type
  | .zero loc type => .zero loc type
  | .delegate loc receiver method =>
    .delegate loc
      (match receiver with
        | some e => some (e.withOwner owner)
        | none => none)
      method

def Expr.withOwnerAll (owner : String) : List Expr → List Expr
  | [] => []
  | e :: es => e.withOwner owner :: Expr.withOwnerAll owner es

def Stmt.withOwner (owner : String) : Stmt → Stmt
  | .block b => .block (b.withOwner owner)
  | .declare loc target init =>
    .declare loc target
      (match init with
        | some e => some (e.withOwner owner)
        | none => none)
  | .expr loc value => .expr loc (value.withOwner owner)
  | .ret loc value =>
    .ret loc
      (match value with
        | some e => some (e.withOwner owner)
        | none => none)
  | .cond loc test thenBlock elseBlock =>
    .cond loc (test.withOwner owner) (thenBlock.withOwner owner)
      (match elseBlock with
        | some b => some (b.withOwner owner)
        | none => none)
  | .loop loc test body => .loop loc (test.withOwner owner) (body.withOwner owner)
  | .localFunction loc fn body => .localFunction loc fn (body.withOwner owner)

def Stmt.withOwnerAll (owner : String) : List Stmt → List Stmt
  | [] => []
  | s :: ss => s.withOwner owner :: Stmt.withOwnerAll owner ss

def Block.withOwner (owner : String) : Block → Block
  | .mk id loc stmts => .mk id loc (Stmt.withOwnerAll owner stmts)

end

/-- The body in which every mention of the receiver has type `owner`. -/
def MethodBody.withOwner (owner : String) (m : MethodBody) : MethodBody :=
  { m with block := m.block.map (·.withOwner owner) }

/-! ## Bodies with nested functions -/

namespace Node

theorem any_nodes_eq (n : Node) : n.nodes.any isNestedFunction =
    (n.nested?.isSome || (n.inner.flatMap nodes).any isNestedFunction) := by
  rw [nodes_eq, List.any_append]
  congr 1
  cases n with
  | expr e => cases e <;> rfl
  | stmt s => cases s <;> rfl
  | block => rfl

/-- A nested function is listed below a node if and only if the node declares one. -/
theorem any_nodes_iff (n : Node) :
    n.nodes.any isNestedFunction = true ↔ n.gather heading ≠ [] := by
  induction n using Node.induction with
  | step n ih =>
    have hown : n.nested?.isSome = true ↔ n.heading ≠ [] := by
      rw [heading]
      cases n.nested? <;> simp
    have hinner : (n.inner.flatMap nodes).any isNestedFunction = true ↔
        n.inner.flatMap (gather heading) ≠ [] := by
      simp only [List.any_flatMap, List.any_eq_true, ne_eq, List.flatMap_eq_nil_iff, not_forall]
      constructor
      · rintro ⟨k, hk, h⟩
        exact ⟨k, hk, (ih k hk).mp (List.any_eq_true.mpr h)⟩
      · rintro ⟨k, hk, h⟩
        exact ⟨k, hk, List.any_eq_true.mp ((ih k hk).mpr h)⟩
    rw [any_nodes_eq, gather_eq, Bool.or_eq_true, hown, hinner]
    simp only [ne_eq, List.append_eq_nil_iff, not_and_or]

theorem heading_number (n : Node) (k : Nat) : (n.number k).heading = n.heading := by
  cases n with
  | expr e =>
    cases e with
    | call loc method receiver args => cases receiver <;> rfl
    | delegate loc receiver method => cases receiver <;> rfl
    | _ => rfl
  | stmt s =>
    cases s with
    | declare loc target init => cases init <;> rfl
    | ret loc value => cases value <;> rfl
    | cond loc test thenBlock elseBlock => cases elseBlock <;> rfl
    | _ => rfl
  | block b => rfl

end Node

namespace MethodBody

variable {m : MethodBody} {g : Graph}

/-- A body has nested functions if and only if it declares some. -/
theorem hasNestedFunctions_iff (m : MethodBody) :
    m.hasNestedFunctions = true ↔ m.headings ≠ [] := by
  cases hb : m.block with
  | none => simp [hasNestedFunctions, headings, topNodes, numbered, hb]
  | some b =>
    rw [headings, flatMap_topNodes hb Node.heading_number rfl, ← Node.any_nodes_iff,
      hasNestedFunctions, hb]
    rfl

theorem headings_eq (m : MethodBody) :
    m.headings = m.numbered.sites.flatMap fun s => s.2.heading := by
  rw [headings, sites_numbered, List.flatMap_assoc]
  exact List.flatMap_congr fun n _ => (Node.gather_sites Node.heading _ n).symm

/-- A body has nested functions if and only if its graph has closures. -/
theorem hasNestedFunctions_iff_closures (h : g.Holds m) :
    m.hasNestedFunctions = true ↔ 0 < g.closures.size := by
  rw [hasNestedFunctions_iff, headings_eq, ne_eq, List.flatMap_eq_nil_iff, not_forall]
  constructor
  · rintro ⟨⟨p, n⟩, hn⟩
    obtain ⟨hn, hne⟩ := Classical.not_imp.mp hn
    cases hnested : n.nested? with
    | none => exact absurd (by rw [Node.heading, hnested]; rfl) hne
    | some x =>
      obtain ⟨_, _, _, hlays⟩ := (h.lays p n hn).function x.1 x.2 hnested
      exact Nat.zero_lt_of_lt hlays.lt
  · intro hpos
    obtain ⟨p, n, b, hn, hnested, -⟩ := h.site_of_closure hpos
    exact ⟨(p, n), fun hnil => by simp [Node.heading, hnested] at hnil; exact hnil hn⟩

end MethodBody

/-! ## Nothing to lower -/

namespace LoweringContext

/-- The context comes from a body without nested functions, in which nothing is hoisted. -/
structure Idle (ctx : LoweringContext) (m : MethodBody) : Prop where
  holds : ctx.graph.Holds m
  resolved : ∀ s ∈ m.numbered.sites, ctx.graph.Resolved s
  closures : ctx.graph.closures.size = 0
  env : ∀ s, (ctx.graph.scope s).env = none
  declarations : ctx.declarations.methods = []

/-- The place of the method being converted. -/
def outerSite (ctx : LoweringContext) (loc : Loc) : Site :=
  { frame := { isStatic := ctx.method.isStatic }, loc }

@[simp] theorem locate_outerSite (ctx : LoweringContext) (loc loc' : Loc) :
    (ctx.outerSite loc).locate loc' = ctx.outerSite (if loc'.isKnown then loc' else loc) := by
  unfold Site.locate
  split <;> rfl

variable {ctx : LoweringContext} {m : MethodBody} {p : Path} {n : Node} {loc : Loc}

@[simp] theorem spell_outerSite (ctx : LoweringContext) (loc : Loc) (type : String) :
    ctx.spell (ctx.outerSite loc).frame type = type := rfl

namespace Idle

variable (h : ctx.Idle m)

include h

theorem envOf (v : Variable) : ctx.graph.envOf? v = none := by
  unfold Graph.envOf?
  split
  · rw [h.env]
    rfl
  · rfl

theorem closureOf (f : NestedFunction) : ctx.graph.closureOf? f = none :=
  Graph.closureOf_eq_none.mpr fun c hc => absurd hc (by simp [h.closures])

theorem nested (hn : (p, n) ∈ m.numbered.sites) : n.nested? = none := by
  cases hnested : n.nested? with
  | none => rfl
  | some x =>
    obtain ⟨_, _, _, hlays⟩ := (h.holds.lays p n hn).function x.1 x.2 hnested
    exact absurd hlays.lt (by simp [h.closures])

theorem use (hn : (p, n) ∈ m.numbered.sites) : n.use? = none := by
  cases huse : n.use? with
  | none => rfl
  | some t =>
    obtain ⟨f, c, -, hc⟩ := (h.resolved _ hn).use t huse
    exact nomatch (h.closureOf f).symm.trans hc

theorem variableRef (v : Variable) :
    ctx.variableRef (ctx.outerSite loc) [] v = .ok (.ref {} (some v)) := by
  rw [LoweringContext.variableRef, h.envOf]
  rfl

theorem receiverRef {type : String} (hn : (p, .expr (.self loc type)) ∈ m.numbered.sites)
    (loc' : Loc) : ctx.receiverRef (ctx.outerSite loc') = .ok (.self {} ctx.method.owner) := by
  obtain ⟨v, -, hv, -⟩ := (h.resolved _ hn).reference _ rfl
  rw [LoweringContext.receiverRef, hv]
  rfl

theorem openScope (s : ScopeId) (st : LoweringState) :
    ctx.openScope (ctx.outerSite loc) s st = (some ([], ctx.outerSite loc), st) := by
  rw [LoweringContext.openScope, h.env]
  rfl

theorem lowerDeclaration (loc' : Loc) (v : Variable) (init : Option Expr) (st : LoweringState) :
    ctx.lowerDeclaration (ctx.outerSite loc) loc' v init st =
      (some (.declare loc' (some v) init), st) := by
  simp only [LoweringContext.lowerDeclaration, h.envOf, spell_outerSite, if_true]
  rfl

end Idle

end LoweringContext

open LoweringContext Lower

variable {ctx : LoweringContext} {m : MethodBody} {p : Path}
  {enter : ClosureId → Loc → Lower Unit} {loc : Loc} {st : LoweringState}

/-- Wherever the node stands in the body, it is written as it was read, and nothing is made. -/
def Node.Stays (ctx : LoweringContext) (m : MethodBody) (n : Node) : Prop :=
  ∀ p enter loc st, (p, n) ∈ m.numbered.sites → st.aliases = [] → st.failure = none →
    match n with
    | .expr e =>
      e.lower ctx enter (ctx.outerSite loc) st = (some (e.withOwner ctx.method.owner), st)
    | .stmt s =>
      s.lower ctx enter (ctx.outerSite loc) st = (some (s.withOwner ctx.method.owner), st)
    | .block b =>
      b.lower ctx enter (ctx.outerSite loc) st = (some (b.withOwner ctx.method.owner), st)

section Stays

variable (halias : st.aliases = []) (hst : st.failure = none)

include halias hst

theorem Expr.lowerAll_of_stays {es : List Expr}
    (hes : ∀ e ∈ es, (Node.expr e).Stays ctx m ∧ (p, .expr e) ∈ m.numbered.sites) :
    Expr.lowerAll ctx enter (ctx.outerSite loc) es st =
      (some (Expr.withOwnerAll ctx.method.owner es), st) := by
  induction es with
  | nil => rw [Expr.lowerAll]; rfl
  | cons e es ih =>
    obtain ⟨he, hsite⟩ := hes e List.mem_cons_self
    rw [Expr.lowerAll, bind_run (he p enter loc st hsite halias hst),
      bind_run (ih fun x hx => hes x (List.mem_cons_of_mem e hx))]
    rfl

theorem Stmt.lowerAll_of_stays {ss : List Stmt}
    (hss : ∀ s ∈ ss, (Node.stmt s).Stays ctx m ∧ (p, .stmt s) ∈ m.numbered.sites) :
    Stmt.lowerAll ctx enter (ctx.outerSite loc) ss st =
      (some (Stmt.withOwnerAll ctx.method.owner ss), st) := by
  induction ss with
  | nil => rw [Stmt.lowerAll]; rfl
  | cons s ss ih =>
    obtain ⟨hs, hsite⟩ := hss s List.mem_cons_self
    rw [Stmt.lowerAll, bind_run (hs p enter loc st hsite halias hst), bind_run (failed_run hst)]
    simp only [Bool.false_eq_true, if_false]
    rw [bind_run (ih fun x hx => hss x (List.mem_cons_of_mem s hx))]
    rfl

theorem LoweringContext.Idle.lowerScope (h : ctx.Idle m) (s : ScopeId) {b : Block}
    (hss : ∀ s ∈ b.stmts, (Node.stmt s).Stays ctx m ∧ (p, .stmt s) ∈ m.numbered.sites)
    (enter : ClosureId → Loc → Lower Unit) (loc : Loc) :
    ctx.lowerScope enter (ctx.outerSite loc) s b st =
      (some (b.withOwner ctx.method.owner), st) := by
  cases b with
  | mk id loc' stmts =>
    rw [LoweringContext.lowerScope, bind_run (h.openScope s st)]
    exact (bind_run (Stmt.lowerAll_of_stays halias hst hss)).trans rfl

/-- A block inside a scope is written as it was read if its statements are. -/
theorem Block.lower_of_stays (h : ctx.Idle m) {n : Node} {b : Block}
    (hn : (p, n) ∈ m.numbered.sites) (hb : n.opened? = some b)
    (ih : ∀ k ∈ n.inner, k.Stays ctx m) :
    b.lower ctx enter (ctx.outerSite loc) st = (some (b.withOwner ctx.method.owner), st) := by
  have hscope := h.holds.scopeOf_eq ((h.holds.lays p n hn).scope b hb).lt
  have hrun := h.lowerScope halias hst b.id (p := p.into n) (fun s hs => by
    have hs := Node.inner_of_opened hb ▸ List.mem_map_of_mem hs
    exact ⟨ih (.stmt s) hs, MethodBody.mem_sites_of_inner hn hs⟩) enter loc
  cases b with
  | mk id loc' stmts =>
    rw [Block.lower, show ctx.graph.scopeOf? id = some id from hscope]
    exact hrun

end Stays

section Idle

variable (h : ctx.Idle m)

include h

theorem Expr.stays_of_inner (e : Expr) (ih : ∀ k ∈ (Node.expr e).inner, k.Stays ctx m) :
    (Node.expr e).Stays ctx m := by
  intro p enter loc st hn halias hst
  have hnested := h.nested hn
  have huse := h.use hn
  -- an operand stands at the same path
  have hop (hnone : (Node.expr e).opened? = none) (x : Expr) (hx : x ∈ e.operands) :
      (Node.expr x).Stays ctx m ∧ (p, .expr x) ∈ m.numbered.sites :=
    have ⟨hmem, hsite⟩ := MethodBody.mem_sites_of_operand hn hnone hx
    ⟨ih _ hmem, hsite⟩
  have hrun (hnone : (Node.expr e).opened? = none) (x : Expr) (hx : x ∈ e.operands) (loc : Loc) :
      x.lower ctx enter (ctx.outerSite loc) st = (some (x.withOwner ctx.method.owner), st) :=
    (hop hnone x hx).1 p enter loc st (hop hnone x hx).2 halias hst
  have hall (hnone : (Node.expr e).opened? = none) (es : List Expr) (hes : es ⊆ e.operands)
      (loc : Loc) : Expr.lowerAll ctx enter (ctx.outerSite loc) es st =
        (some (Expr.withOwnerAll ctx.method.owner es), st) :=
    Expr.lowerAll_of_stays halias hst fun x hx => hop hnone x (hes hx)
  cases e with
  | literal | newEnv | zero =>
    simp only [Expr.lower]
    rfl
  | ref loc' target =>
    obtain ⟨v, -, rfl, -⟩ := (h.resolved _ hn).reference target rfl
    have href : ctx.lowerRef (ctx.outerSite loc |>.locate loc') (some v) st =
        (some (.ref {} (some v)), st) := by
      rw [locate_outerSite]
      exact attempt_ok (by rw [halias]; exact h.variableRef v) _ st
    simp only
    rw [Expr.lower, bind_run href]
    rfl
  | self loc' type =>
    have href := h.receiverRef hn (if loc'.isKnown then loc' else loc)
    simp only
    rw [Expr.lower]
    simp only [locate_outerSite]
    rw [bind_run (attempt_ok href _ st)]
    rfl
  | assign loc' target value =>
    simp only [Expr.lower, locate_outerSite]
    rw [bind_run (hrun rfl target (by simp [Expr.operands]) _),
      bind_run (hrun rfl value (by simp [Expr.operands]) _)]
    rfl
  | binary loc' op lhs rhs =>
    simp only [Expr.lower, locate_outerSite]
    rw [bind_run (hrun rfl lhs (by simp [Expr.operands]) _),
      bind_run (hrun rfl rhs (by simp [Expr.operands]) _)]
    rfl
  | lambda => cases hnested
  | functionRef => cases huse
  | localCall => cases huse
  | call loc' method receiver args =>
    have hargs := hall rfl args (by simp [Expr.operands])
    cases receiver with
    | none =>
      simp only [Expr.lower, locate_outerSite]
      rw [bind_run (hargs _)]
      rfl
    | some x =>
      simp only [Expr.lower, locate_outerSite]
      rw [bind_run (hrun rfl x (by simp [Expr.operands]) _), bind_run (hargs _)]
      rfl
  | invoke loc' callee args =>
    simp only [Expr.lower, locate_outerSite]
    rw [bind_run (hrun rfl callee (by simp [Expr.operands]) _),
      bind_run (hall rfl args (by simp [Expr.operands]) _)]
    rfl
  | field loc' receiver f =>
    simp only [Expr.lower, locate_outerSite]
    rw [bind_run (hrun rfl receiver (by simp [Expr.operands]) _)]
    rfl
  | delegate loc' receiver method =>
    cases receiver with
    | none =>
      simp only [Expr.lower]
      rfl
    | some x =>
      simp only [Expr.lower, locate_outerSite]
      rw [bind_run (hrun rfl x (by simp [Expr.operands]) _)]
      rfl

theorem Stmt.stays_of_inner (s : Stmt) (ih : ∀ k ∈ (Node.stmt s).inner, k.Stays ctx m) :
    (Node.stmt s).Stays ctx m := by
  intro p enter loc st hn halias hst
  have hnested := h.nested hn
  have hsite (hnone : (Node.stmt s).opened? = none) (k : Node) (hk : k ∈ (Node.stmt s).inner) :=
    MethodBody.mem_sites_of_isNone hn hnone hk
  have hexpr (hnone : (Node.stmt s).opened? = none) (x : Expr)
      (hx : .expr x ∈ (Node.stmt s).inner) (loc : Loc) :
      x.lower ctx enter (ctx.outerSite loc) st = (some (x.withOwner ctx.method.owner), st) :=
    ih _ hx p enter loc st (hsite hnone _ hx) halias hst
  have hblock (hnone : (Node.stmt s).opened? = none) (b : Block)
      (hb : .block b ∈ (Node.stmt s).inner) (loc : Loc) :
      b.lower ctx enter (ctx.outerSite loc) st = (some (b.withOwner ctx.method.owner), st) :=
    ih _ hb p enter loc st (hsite hnone _ hb) halias hst
  cases s with
  | block b =>
    simp only [Stmt.lower, locate_outerSite]
    rw [bind_run (Block.lower_of_stays halias hst h hn rfl ih)]
    rfl
  | declare loc' target init =>
    cases init with
    | none =>
      simp only [Stmt.lower, locate_outerSite]
      cases target with
      | none => rfl
      | some v => exact h.lowerDeclaration loc' v none st
    | some x =>
      simp only [Stmt.lower, locate_outerSite]
      rw [bind_run (hexpr rfl x (by simp [Node.inner]) _)]
      cases target with
      | none => rfl
      | some v => exact h.lowerDeclaration loc' v _ st
  | expr loc' value =>
    simp only [Stmt.lower, locate_outerSite]
    rw [bind_run (hexpr rfl value (by simp [Node.inner]) _)]
    rfl
  | ret loc' value =>
    cases value with
    | none =>
      simp only [Stmt.lower]
      rfl
    | some x =>
      simp only [Stmt.lower, locate_outerSite]
      rw [bind_run (hexpr rfl x (by simp [Node.inner]) _)]
      rfl
  | cond loc' test thenBlock elseBlock =>
    cases elseBlock with
    | none =>
      simp only [Stmt.lower, locate_outerSite]
      rw [bind_run (hexpr rfl test (by simp [Node.inner]) _),
        bind_run (hblock rfl thenBlock (by simp [Node.inner]) _)]
      rfl
    | some b =>
      simp only [Stmt.lower, locate_outerSite]
      rw [bind_run (hexpr rfl test (by simp [Node.inner]) _),
        bind_run (hblock rfl thenBlock (by simp [Node.inner]) _),
        bind_run (hblock rfl b (by simp [Node.inner]) _)]
      rfl
  | loop loc' test body =>
    simp only [Stmt.lower, locate_outerSite]
    rw [bind_run (hexpr rfl test (by simp [Node.inner]) _),
      bind_run (hblock rfl body (by simp [Node.inner]) _)]
    rfl
  | localFunction => cases hnested

/-- Every node is written as it was read. -/
theorem Node.stays (n : Node) : n.Stays ctx m := by
  induction n using Node.induction with
  | step n ih =>
    cases n with
    | expr e => exact Expr.stays_of_inner h e ih
    | stmt s => exact Stmt.stays_of_inner h s ih
    | block b =>
      intro p enter loc st hn halias hst
      exact Block.lower_of_stays halias hst h hn rfl ih

/-- So is the whole body. -/
theorem LoweringContext.Idle.lowerMethod {block : Block} (hblock : m.numbered.block = some block)
    (halias : st.aliases = []) (hst : st.failure = none) :
    ctx.lowerMethod block st = (some (m.numbered.withOwner ctx.method.owner), st) := by
  have htop : m.topNodes = block.stmts.map Node.stmt := by simp [MethodBody.topNodes, hblock]
  have hrun := h.lowerScope halias hst Graph.root (b := block) (p := .outermost) (fun s hs => by
    refine ⟨Node.stays h (.stmt s), MethodBody.mem_sites_of_topNodes ?_⟩
    rw [htop]
    exact List.mem_map_of_mem hs) (ctx.lowerClosure ctx.nestingDepth) {}
  rw [LoweringContext.lowerMethod]
  refine (bind_run hrun).trans ?_
  rw [bind_run (failed_run hst)]
  simp only [Bool.false_eq_true, if_false]
  rw [bind_run (show (get : Lower LoweringState) st = (st, st) from rfl), h.declarations,
    List.find?_nil, h.holds.body, MethodBody.withOwner, hblock]
  rfl

end Idle

/-! ## Conversions -/

namespace Graph

variable {g : Graph}

/-- Without closures nothing is hoisted. -/
theorem allocate_of_isEmpty (henvs : g.envs = #[]) (hclosures : g.closures.size = 0) :
    g.allocate = .ok g := by
  have hscope (s : ScopeId) : g.allocateScope s = g := by
    have hvars : g.hoistedVariables s = [] := by
      rw [hoistedVariables, Array.eq_empty_of_size_eq_zero hclosures]
      simp
    rw [allocateScope, hvars]
    rfl
  have hfold (l : List ScopeId) : l.foldl allocateScope g = g := by
    induction l with
    | nil => rfl
    | cons s l ih => rw [List.foldl_cons, hscope, ih]
  rw [allocate, henvs, hfold]
  rfl

theorem assignHosts_of_isEmpty (hclosures : g.closures.size = 0) : g.assignHosts = (g, none) := by
  rw [assignHosts, hclosures]
  rfl

theorem prune_of_isEmpty (henvs : g.envs = #[]) : g.prune = (g, 0) := by
  rw [prune, henvs]
  rfl

theorem liveEnvs_of_isEmpty (henvs : g.envs = #[]) : g.liveEnvs = [] := by
  rw [liveEnvs, henvs]
  rfl

end Graph

namespace MethodBody

/-- The analysis of a body without closures ends with the captures. -/
theorem analysis_of_isEmpty (h : m.Accepted) (hclosures : m.captured.graph.closures.size = 0)
    (o : ConversionSettings) : ∃ a, Analysis.run o m = (a, none) ∧ a.graph = m.captured.graph := by
  have henvs := h.analysed.envs
  have hbuilt : Analysis.buildStage (Graph.ofBody m) = (m.built.graph, none) :=
    Prod.ext rfl (Option.isNone_iff_eq_none.mp h.built)
  have hcaptured : Analysis.captureStage m.built.graph = (m.captured.graph, none) :=
    Prod.ext rfl (Option.isNone_iff_eq_none.mp h.captured)
  have hallocated : Analysis.allocateStage m.captured.graph = (m.captured.graph, none) := by
    rw [Analysis.allocateStage, Graph.allocate_of_isEmpty henvs hclosures]
  have hhosted := Graph.assignHosts_of_isEmpty hclosures
  simp only [Analysis.run, Analysis.stages, List.cons_append, List.nil_append, Analysis.steps,
    Analysis.step, hbuilt, hcaptured, hallocated, hhosted]
  cases o.prune with
  | true => exact ⟨_, rfl, congrArg (·.1) (Graph.prune_of_isEmpty henvs)⟩
  | false => exact ⟨_, rfl, rfl⟩

/-- Converting a body without closures gives it back. -/
theorem run_of_isEmpty (h : m.Accepted) (hclosures : m.captured.graph.closures.size = 0)
    {method : Method} (hm : m.method = some method) (o : ConversionSettings) :
    (Conversion.run o m).outcome = .ok
      { body := m.numbered.withOwner method.owner, declarations := {}, supply := {} } := by
  obtain ⟨a, ha, hgraph⟩ := m.analysis_of_isEmpty h hclosures o
  have hx := h.analysed
  set g := m.captured.graph
  obtain ⟨-, block, -, hblock, -⟩ := hx.holds.complete
  have hmethod : g.body.method = some method := by rw [hx.holds.body]; exact hm
  have hblock' : g.body.block = some block := by rw [hx.holds.body]; exact hblock
  have hlive := Graph.liveEnvs_of_isEmpty hx.envs
  have htypes : g.envTypes method = [] := by rw [Graph.envTypes, hlive]; rfl
  have hdeclare : DeclarationDraft.declareAll { graph := g } = ({ graph := g }, none) := by
    simp only [DeclarationDraft.declareAll, hmethod, htypes, hclosures]
    rfl
  have hdefect : ({} : Declarations).defect? g = none := by
    simp only [Declarations.defect?, hlive, hclosures]
    rfl
  have hidle : LoweringContext.Idle ⟨g, {}, method⟩ m :=
    ⟨hx.holds, hx.resolved, hclosures, hx.scope_env, rfl⟩
  have hrun : StateT.run (LoweringContext.lowerMethod ⟨g, {}, method⟩ block) {} =
      (some (m.numbered.withOwner method.owner), {}) := hidle.lowerMethod hblock rfl rfl
  have hfinish : (DeclarationDraft.finish o g).2 = .ok
      { body := m.numbered.withOwner method.owner, declarations := {}, supply := {} } := by
    have hdraft : DeclarationDraft.lower { graph := g } none =
        (some (m.numbered.withOwner method.owner), { graph := g }, none) := by
      simp only [DeclarationDraft.lower, hmethod, hblock', List.map_nil, hrun]
      rfl
    simp only [DeclarationDraft.finish, hdeclare, hdefect, ite_self, hdraft]
  simp only [Conversion.run, ha, hgraph, hfinish]

/-- A body that is not accepted is refused as malformed, whatever the settings. -/
theorem run_of_not_accepted (h : ¬ m.Accepted) (o : ConversionSettings) :
    ∃ f, (Conversion.run o m).outcome = .error f ∧ f.failure.kind = .malformedInput := by
  cases hbuilt : m.built.failure with
  | some f =>
    have hstage : Analysis.buildStage (Graph.ofBody m) = (m.built.graph, some f) :=
      Prod.ext rfl hbuilt
    refine ⟨⟨.scoping, f⟩, ?_, m.malformed_built f hbuilt⟩
    simp only [Conversion.run, Analysis.run, Analysis.stages, List.cons_append, Analysis.steps,
      Analysis.step, hstage]
  | none =>
    have hstage : Analysis.buildStage (Graph.ofBody m) = (m.built.graph, none) :=
      Prod.ext rfl hbuilt
    cases hcaptured : m.captured.failure with
    | some f =>
      have hstage' : Analysis.captureStage m.built.graph = (m.captured.graph, some f) :=
        Prod.ext rfl hcaptured
      refine ⟨⟨.captures, f⟩, ?_, m.malformed_captured f hcaptured⟩
      simp only [Conversion.run, Analysis.run, Analysis.stages, List.cons_append, Analysis.steps,
        Analysis.step, hstage, hstage']
    | none => exact absurd ⟨Option.isNone_iff_eq_none.mpr hbuilt,
        Option.isNone_iff_eq_none.mpr hcaptured⟩ h

/-- Passing a body over agrees with converting it. A body without nested functions is either refused
as malformed, or comes back with the same method, receiver and nodes, where only mentions of the
receiver are given the type of the method; no type, no method and no variable is made. And a body
whose scopes are built has nested functions if and only if its graph has closures. -/
theorem run_bypassed (m : MethodBody) (o : ConversionSettings) :
    (∀ method b, m.method = some method → m.block = some b → m.hasNestedFunctions = false →
      (¬ m.Accepted ∧ ∃ f, (Conversion.run o m).outcome = .error f ∧
        f.failure.kind = .malformedInput) ∨
      (m.Accepted ∧ ∃ r, (Conversion.run o m).outcome = .ok r ∧ r.declarations.types = [] ∧
        r.declarations.methods = [] ∧ r.supply.vars = 0 ∧
        r.body = m.numbered.withOwner method.owner)) ∧
    (m.built.isOk = true → (m.hasNestedFunctions = true ↔ 0 < m.built.graph.closures.size)) := by
  refine ⟨fun method b hm hb hnone => ?_, fun hok => ?_⟩
  · by_cases h : m.Accepted
    · have hsize : ¬ 0 < m.captured.graph.closures.size := by
        rw [← hasNestedFunctions_iff_closures h.analysed.holds, hnone]
        exact Bool.false_ne_true
      have hrun := run_of_isEmpty h (Nat.eq_zero_of_not_pos hsize) hm o
      exact .inr ⟨h, _, hrun, rfl, rfl, rfl, rfl⟩
    · exact .inl ⟨h, run_of_not_accepted h o⟩
  · exact hasNestedFunctions_iff_closures (Draft.holds_of_build hok)

end MethodBody

namespace Counter

/-- A method that keeps its receiver in a variable. The binder gave the receiver no type. -/
def keep : MethodBody where
  method := count.method
  receiver := some widget
  block := some (.mk 0 {} [.declare ⟨1, 1⟩ (some step) (some (.self ⟨1, 9⟩ "")),
    .ret ⟨2, 1⟩ (some (.ref ⟨2, 8⟩ (some step)))])

end Counter

open Counter in
/-- A method without nested functions comes back with its receiver typed, one that is malformed is
refused, and `Count` has closures. -/
theorem MethodBody.bypassed_keep :
    keep.hasNestedFunctions = false ∧ stray.hasNestedFunctions = false ∧
    (∃ r, (Conversion.run {} keep).outcome = .ok r ∧
      r.body = keep.numbered.withOwner "Widget" ∧ r.declarations.methods = []) ∧
    (∃ f, (Conversion.run {} stray).outcome = .error f ∧ f.failure.kind = .malformedInput) ∧
    count.hasNestedFunctions = true ∧ 0 < count.built.graph.closures.size := by
  have hkeep : keep.hasNestedFunctions = false := by decide +kernel
  have hstray : stray.hasNestedFunctions = false := by decide +kernel
  have hcount : count.hasNestedFunctions = true := by decide +kernel
  refine ⟨hkeep, hstray, ?_, ?_, hcount, ((run_bypassed count {}).2 accepted_count.built).mp hcount⟩
  · rcases (run_bypassed keep {}).1 _ _ rfl rfl hkeep with
      ⟨hnot, -⟩ | ⟨-, r, hr, -, hnone, -, hbody⟩
    · exact absurd ⟨by decide +kernel, by decide +kernel⟩ hnot
    · exact ⟨r, hr, hbody, hnone⟩
  · rcases (run_bypassed stray {}).1 _ _ rfl rfl hstray with ⟨-, hf⟩ | ⟨h, -⟩
    · exact hf
    · exact absurd h not_accepted_stray

end Unnest
