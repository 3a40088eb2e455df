import Mathlib.Algebra.GroupWithZero.Nat
import Unnest.Proofs.Lowered.Frames
import Unnest.Proofs.Lowered.Referents

/-!
# Counting in lowered trees

How often variables come up in a lowered tree is known from the tree it comes from. What stands for
a plain variable comes up as often as the variable does; what is written in place of the rest
mentions only the holders of environments; and where an environment is created, its holder is
declared and the parameters hoisted into it are referred to.

`Graph.Weighs` relates a property of mentions to weights on both sides, and
`LoweredBody.Written.tally_eq` adds them up over a converted body.
-/

namespace Unnest

/-- How many of the nodes mention a variable in the way of `P`. -/
def tally (P : Mention → Bool) (ns : List Node) : Nat := (ns.filterMap Node.mention?).countP P

section Tally

variable {P : Mention → Bool} {n : Node} {ns : List Node}

theorem tally_nil : tally P [] = 0 := rfl

theorem tally_append (ns ms : List Node) : tally P (ns ++ ms) = tally P ns + tally P ms := by
  simp [tally]

theorem tally_cons (n : Node) (ns : List Node) :
    tally P (n :: ns) = n.mention?.toList.countP P + tally P ns := by
  cases h : n.mention? with
  | none => simp [tally, h]
  | some a => simp [tally, h, List.countP_cons, Nat.add_comm]

theorem tally_eq_zero : tally P ns = 0 ↔ ∀ n ∈ ns, ∀ a, n.mention? = some a → P a = false := by
  simp only [tally, List.countP_eq_zero, List.mem_filterMap, Bool.not_eq_true]
  grind

end Tally

namespace Node

/-- What the variables and the blocks of a node weigh, without those in nested functions. -/
def cost (W : Mention → Nat) (K : BlockId → Nat) (n : Node) : Nat :=
  (n.mentions.map W).sum + (n.ownBlocks.map K).sum

variable {W : Mention → Nat} {K : BlockId → Nat} {n : Node}

theorem cost_of_nested (hn : n.nested?.isSome) : n.cost W K = 0 := by
  rw [cost, mentions_of_nested hn, ownBlocks_of_nested hn]
  rfl

theorem cost_of_inner (hn : n.nested? = none) : n.cost W K =
    (n.mention?.map W).getD 0 + (n.opened?.map fun b => K b.id).getD 0 +
      (n.inner.map (cost W K)).sum := by
  have hsum (l : List Node) : (l.map (cost W K)).sum =
      ((l.flatMap mentions).map W).sum + ((l.flatMap ownBlocks).map K).sum := by
    induction l with
    | nil => rfl
    | cons k l ih =>
      simp only [List.map_cons, List.sum_cons, ih, cost, List.flatMap_cons, List.map_append,
        List.sum_append]
      omega
  rw [cost, mentions_of_inner hn, ownBlocks_of_inner hn, hsum]
  cases n.mention? <;> cases n.opened? <;> simp <;> omega

/-- A block that is a statement weighs what it does by itself. -/
theorem cost_block (b : Block) : (Node.stmt (.block b)).cost W K = (Node.block b).cost W K := by
  rw [cost_of_inner rfl, cost_of_inner rfl]
  rfl

end Node

/-! ## Rules -/

/-- What is written in the places that change mentions no variable in the way of `P`, except where
environment `e` is created: there `K e` times. -/
def LoweringRules.counting (P : Mention → Bool) (K : EnvId → Nat) : LoweringRules where
  hoisted _ _ _ x := tally P x.nodes = 0
  receiver _ x := tally P x.nodes = 0
  delegate _ _ r := ∀ x ∈ r, tally P x.nodes = 0
  call _ _ r _ _ rest := (∀ x ∈ r, tally P x.nodes = 0) ∧ ∀ x ∈ rest, tally P x.nodes = 0
  create _ e _ stmts := tally P (Stmt.nodesAll stmts) = K e

namespace Graph

/-- In the way of `P`, what stands for a plain variable comes up as `W` weighs the variable. -/
structure Weighs (g : Graph) (m : MethodBody) (P : Mention → Bool) (W : Mention → Nat) :
    Prop where
  hoisted : ∀ v e, g.envOf? v = some e → W (.reference v) = 0 ∧ W (.declaration v) = 0
  reference : ∀ v ∈ m.declared, g.envOf? v = none → ∀ w : Variable, w.StandsFor v →
    (if P (.reference w) then 1 else 0) = W (.reference v)
  declaration : ∀ v ∈ m.declared, g.envOf? v = none → ∀ w : Variable, w.StandsFor v →
    (if P (.declaration w) then 1 else 0) = W (.declaration v)

/-- What the environment of a scope weighs. -/
def scopeWeight (g : Graph) (K : EnvId → Nat) (s : ScopeId) : Nat :=
  ((g.scope s).env.map K).getD 0

end Graph

section LowersBy

variable {ctx : LoweringContext} {m : MethodBody} {P : Mention → Bool} {W : Mention → Nat}
  {K : EnvId → Nat} {view : View}

theorem tally_nodes {e : Expr} (hnone : (Node.expr e).opened? = none) :
    tally P e.nodes =
      (Node.expr e).mention?.toList.countP P + tally P (Expr.nodesAll e.operands) := by
  rw [Expr.nodes_eq hnone, tally_cons]

theorem tally_nodesAll_append (es es' : List Expr) : tally P (Expr.nodesAll (es ++ es')) =
    tally P (Expr.nodesAll es) + tally P (Expr.nodesAll es') := by
  rw [Expr.nodesAll_append, tally_append]

theorem tally_nodesAll_eq_zero {es : List Expr} (h : ∀ x ∈ es, tally P x.nodes = 0) :
    tally P (Expr.nodesAll es) = 0 := by
  induction es with
  | nil => rfl
  | cons e es ih =>
    rw [Expr.nodesAll, tally_append, h e List.mem_cons_self,
      ih fun x hx => h x (List.mem_cons_of_mem e hx)]

theorem tally_withLoc (e : Expr) (loc : Loc) : tally P (e.withLoc loc).nodes = tally P e.nodes := by
  cases e with
  | lambda => simp [Expr.withLoc, Expr.nodes, tally_cons, Node.mention?]
  | _ => rw [tally_nodes rfl, tally_nodes rfl]; rfl

theorem Node.cost_expr {e : Expr} {B : BlockId → Nat} (hnone : (Node.expr e).opened? = none) :
    (Node.expr e).cost W B = ((Node.expr e).mention?.map W).getD 0 +
      ((e.operands.map Node.expr).map (cost W B)).sum := by
  have hnested : (Node.expr e).nested? = none := by
    cases e <;> first | rfl | exact nomatch hnone
  rw [cost_of_inner hnested, hnone, Node.inner_expr hnone]
  rfl

mutual

theorem Expr.LowersBy.tally_eq {e e' : Expr} (h : Expr.LowersBy ctx (.counting P K) view e e')
    (hx : ctx.graph.Exact m) (hw : ctx.graph.Weighs m P W) (hm : m.Has (.expr e)) :
    tally P e'.nodes = (Node.expr e).cost W (ctx.graph.scopeWeight K) := by
  cases h with
  | literal | newEnv | zero =>
    rw [tally_nodes rfl, Node.cost_expr rfl]
    rfl
  | @plain loc v w he hstands =>
    rw [tally_nodes rfl, Node.cost_expr rfl]
    simpa [Node.mention?, operands, nodesAll, tally_nil] using
      hw.reference v (hx.mem_declared hm) he w hstands
  | @hoisted loc v e x he hplace =>
    rw [tally_withLoc, Node.cost_expr rfl]
    have hplace : tally P x.nodes = 0 := hplace
    simp [Node.mention?, operands, (hw.hoisted v e he).1, hplace]
  | self hplace =>
    rw [tally_withLoc, Node.cost_expr rfl]
    exact hplace
  | lambda _ _ hr =>
    rw [tally_nodes rfl, Node.cost_of_nested rfl]
    have hr := tally_nodesAll_eq_zero fun x hx => hr x (Option.mem_toList.mp hx)
    simp [Node.mention?, operands, hr]
  | functionRef _ _ hr =>
    rw [tally_nodes rfl, Node.cost_expr rfl]
    have hr := tally_nodesAll_eq_zero fun x hx => hr x (Option.mem_toList.mp hx)
    simp [Node.mention?, operands, hr]
  | assign ht hv =>
    have ht := ht.tally_eq hx hw (hm.operand rfl (by simp [operands]))
    have hv := hv.tally_eq hx hw (hm.operand rfl (by simp [operands]))
    rw [tally_nodes rfl, Node.cost_expr rfl]
    simp [Node.mention?, operands, nodesAll, tally_append, ht, hv]
  | binary ht hv =>
    have ht := ht.tally_eq hx hw (hm.operand rfl (by simp [operands]))
    have hv := hv.tally_eq hx hw (hm.operand rfl (by simp [operands]))
    rw [tally_nodes rfl, Node.cost_expr rfl]
    simp [Node.mention?, operands, nodesAll, tally_append, ht, hv]
  | localCall _ _ ha hr =>
    have ha := ha.tally_eq hx hw fun x hx => hm.operand rfl hx
    have hself := tally_nodesAll_eq_zero fun x hx => hr.1 x (Option.mem_toList.mp hx)
    have hrest := tally_nodesAll_eq_zero hr.2
    rw [tally_nodes rfl, Node.cost_expr rfl]
    simp [Node.mention?, operands, tally_nodesAll_append, ha, hself, hrest]
  | call hr ha =>
    have hr := hr.tally_eq hx hw fun x hx => hm.operand rfl (List.mem_append_left _ hx)
    have ha := ha.tally_eq hx hw fun x hx => hm.operand rfl (List.mem_append_right _ hx)
    rw [tally_nodes rfl, Node.cost_expr rfl]
    simp [Node.mention?, operands, tally_nodesAll_append, ha, hr]
  | invoke hc ha =>
    have hc := hc.tally_eq hx hw (hm.operand rfl List.mem_cons_self)
    have ha := ha.tally_eq hx hw fun x hx => hm.operand rfl (List.mem_cons_of_mem _ hx)
    rw [tally_nodes rfl, Node.cost_expr rfl]
    simp [Node.mention?, operands, nodesAll, tally_append, ha, hc]
  | field hr =>
    have hr := hr.tally_eq hx hw (hm.operand rfl List.mem_cons_self)
    rw [tally_nodes rfl, Node.cost_expr rfl]
    simp [Node.mention?, operands, nodesAll, hr]
  | delegate hr =>
    have hr := hr.tally_eq hx hw fun x hx => hm.operand rfl hx
    rw [tally_nodes rfl, Node.cost_expr rfl]
    simp [Node.mention?, operands, hr]

theorem Expr.OptLowersBy.tally_eq {e e' : Option Expr}
    (h : Expr.OptLowersBy ctx (.counting P K) view e e') (hx : ctx.graph.Exact m)
    (hw : ctx.graph.Weighs m P W) (hm : ∀ x ∈ e.toList, m.Has (.expr x)) :
    tally P (Expr.nodesAll e'.toList) =
      ((e.toList.map Node.expr).map (Node.cost W (ctx.graph.scopeWeight K))).sum := by
  cases h with
  | none => rfl
  | some h =>
    have h := h.tally_eq hx hw (hm _ List.mem_cons_self)
    simp [nodesAll, h]

theorem Expr.AllLowerBy.tally_eq {es es' : List Expr}
    (h : Expr.AllLowerBy ctx (.counting P K) view es es') (hx : ctx.graph.Exact m)
    (hw : ctx.graph.Weighs m P W) (hm : ∀ x ∈ es, m.Has (.expr x)) :
    tally P (Expr.nodesAll es') =
      ((es.map Node.expr).map (Node.cost W (ctx.graph.scopeWeight K))).sum := by
  cases h with
  | nil => rfl
  | cons h hs =>
    have h := h.tally_eq hx hw (hm _ List.mem_cons_self)
    have hs := hs.tally_eq hx hw fun x hx => hm x (List.mem_cons_of_mem _ hx)
    simp [nodesAll, tally_append, h, hs]

end

theorem tally_stmts_append (ss ss' : List Stmt) : tally P (Stmt.nodesAll (ss ++ ss')) =
    tally P (Stmt.nodesAll ss) + tally P (Stmt.nodesAll ss') := by
  induction ss with
  | nil => simp [Stmt.nodesAll, tally_nil]
  | cons s ss ih => simp [Stmt.nodesAll, tally_append, ih, Nat.add_assoc]

theorem tally_block (b : Block) : tally P b.nodes = tally P (Stmt.nodesAll b.stmts) := by
  cases b with
  | mk id loc stmts =>
    rw [Block.nodes, tally_cons]
    exact Nat.zero_add _

theorem tally_declare (loc : Loc) (v : Option Variable) (init : Option Expr) :
    tally P (Stmt.declare loc v init).nodes =
      (v.map .declaration).toList.countP P + tally P (Expr.nodesAll init.toList) := by
  cases init <;> simp [Stmt.nodes, tally_cons, Node.mention?, Expr.nodesAll]

theorem LoweringContext.OpensBy.tally_eq {s : ScopeId} {created : List Stmt} {view' : View}
    (h : ctx.OpensBy (.counting P K) view s created view') :
    tally P (Stmt.nodesAll created) = ctx.graph.scopeWeight K s := by
  cases h with
  | bare hs => simp [Graph.scopeWeight, hs, Stmt.nodesAll, tally_nil]
  | env hs _ hcreate =>
    rw [Graph.scopeWeight, hs]
    exact hcreate

theorem LoweringContext.DeclaresBy.tally_eq (hw : ctx.graph.Weighs m P W) {loc : Loc} {v : Variable}
    {init : Option Expr} {s : Option Stmt} (hv : v ∈ m.declared)
    (h : ctx.DeclaresBy (.counting P K) view loc v init s) : tally P (Stmt.nodesAll s.toList) =
      W (.declaration v) + tally P (Expr.nodesAll init.toList) := by
  cases h with
  | hoisted he =>
    rw [(hw.hoisted v _ he).2]
    rfl
  | @hoistedInit e x target he ht =>
    have ht : tally P target.nodes = 0 := ht
    simp [Stmt.nodesAll, Stmt.nodes, Expr.nodes, Expr.nodesAll, tally_cons, tally_append,
      Node.mention?, (hw.hoisted v e he).2, ht]
  | @plain w _ he hstands =>
    have hone := hw.declaration v hv he w hstands
    simp [Stmt.nodesAll, tally_declare, hone]

theorem tally_ret (loc : Loc) (value : Option Expr) :
    tally P (Stmt.ret loc value).nodes = tally P (Expr.nodesAll value.toList) := by
  cases value <;> simp [Stmt.nodes, tally_cons, Node.mention?, Expr.nodesAll]

theorem tally_cond (loc : Loc) (test : Expr) (b : Block) (b' : Option Block) :
    tally P (Stmt.cond loc test b b').nodes =
      tally P test.nodes + (tally P b.nodes + tally P (b'.toList.flatMap Block.nodes)) := by
  cases b' <;> simp [Stmt.nodes, tally_cons, tally_append, tally_nil, Node.mention?]

mutual

theorem Stmt.LowersBy.tally_eq {view : View} {s : Stmt} {s' : Option Stmt}
    (h : Stmt.LowersBy ctx (.counting P K) view s s') (hx : ctx.graph.Exact m)
    (hw : ctx.graph.Weighs m P W) (hm : m.Has (.stmt s)) :
    tally P (Stmt.nodesAll s'.toList) = (Node.stmt s).cost W (ctx.graph.scopeWeight K) := by
  cases h with
  | @block _ b b' hb =>
    have hb := hb.tally_eq hx hw fun s hs => hm.inner (List.mem_map_of_mem hs)
    rw [Node.cost_block, ← hb]
    simp [Stmt.nodesAll, Stmt.nodes]
  | @declare _ loc v init _ _ hi hd =>
    have hi := hi.tally_eq hx hw fun x hx => hm.inner (List.mem_map_of_mem hx)
    obtain ⟨p, hn⟩ := hm
    have hv := MethodBody.mem_declared.mpr ⟨p, .statement hn rfl⟩
    rw [hd.tally_eq hw hv, hi, Node.cost_of_inner rfl]
    rfl
  | declareNothing hi =>
    have hi := hi.tally_eq hx hw fun x hx => hm.inner (List.mem_map_of_mem hx)
    rw [Node.cost_of_inner rfl]
    simp [Stmt.nodesAll, tally_declare, hi, Node.mention?, Node.opened?, Node.inner]
  | expr hv =>
    have hv := hv.tally_eq hx hw (hm.inner (by simp [Node.inner]))
    rw [Node.cost_of_inner rfl]
    simp [Stmt.nodesAll, Stmt.nodes, tally_cons, hv, Node.mention?, Node.opened?, Node.inner]
  | ret hv =>
    have hv := hv.tally_eq hx hw fun x hx => hm.inner (List.mem_map_of_mem hx)
    rw [Node.cost_of_inner rfl]
    simp [Stmt.nodesAll, tally_ret, hv, Node.mention?, Node.opened?, Node.inner]
  | @cond _ loc test _ b _ b₁ _ ht hb he =>
    have hin {k : Block} (hk : .block k ∈ (Node.stmt (.cond loc test b b₁)).inner) (s : Stmt)
        (hs : s ∈ k.stmts) : m.Has (.stmt s) := (hm.inner hk).inner (List.mem_map_of_mem hs)
    have ht := ht.tally_eq hx hw (hm.inner (by simp [Node.inner]))
    have hb := hb.tally_eq hx hw (hin (by simp [Node.inner]))
    have he := he.tally_eq hx hw fun k hk => hin (by simp [Node.inner, Option.mem_toList.mp hk])
    rw [Node.cost_of_inner rfl]
    simp [Stmt.nodesAll, tally_cond, ht, hb, he, Node.mention?, Node.opened?, Node.inner]
  | @loop _ loc test _ b _ ht hb =>
    have ht := ht.tally_eq hx hw (hm.inner (by simp [Node.inner]))
    have hbody : m.Has (.block b) := hm.inner (by simp [Node.inner])
    have hb := hb.tally_eq hx hw fun s hs => hbody.inner (List.mem_map_of_mem hs)
    rw [Node.cost_of_inner rfl]
    simp [Stmt.nodesAll, Stmt.nodes, tally_cons, tally_append, ht, hb, Node.mention?, Node.opened?,
      Node.inner]
  | localFunction =>
    rw [Node.cost_of_nested rfl]
    rfl

theorem Stmt.AllLowerBy.tally_eq {view : View} {ss ss' : List Stmt}
    (h : Stmt.AllLowerBy ctx (.counting P K) view ss ss') (hx : ctx.graph.Exact m)
    (hw : ctx.graph.Weighs m P W) (hm : ∀ s ∈ ss, m.Has (.stmt s)) :
    tally P (Stmt.nodesAll ss') =
      ((ss.map Node.stmt).map (Node.cost W (ctx.graph.scopeWeight K))).sum := by
  cases h with
  | nil => rfl
  | cons h hs =>
    have h := h.tally_eq hx hw (hm _ List.mem_cons_self)
    have hs := hs.tally_eq hx hw fun s hs => hm s (List.mem_cons_of_mem _ hs)
    simp [tally_stmts_append, h, hs]

theorem Block.LowersBy.tally_eq {view : View} {b b' : Block}
    (h : Block.LowersBy ctx (.counting P K) view b b') (hx : ctx.graph.Exact m)
    (hw : ctx.graph.Weighs m P W) (hm : ∀ s ∈ b.stmts, m.Has (.stmt s)) :
    tally P b'.nodes = (Node.block b).cost W (ctx.graph.scopeWeight K) := by
  cases h with
  | mk ho hs =>
    have hs := hs.tally_eq hx hw hm
    rw [Node.cost_of_inner rfl, tally_block]
    simp only [Block.stmts, tally_stmts_append, ho.tally_eq, hs]
    simp [Node.mention?, Node.opened?, Node.inner, Block.id, Block.stmts]

theorem Block.OptLowersBy.tally_eq {view : View} {b b' : Option Block}
    (h : Block.OptLowersBy ctx (.counting P K) view b b') (hx : ctx.graph.Exact m)
    (hw : ctx.graph.Weighs m P W) (hm : ∀ x ∈ b.toList, ∀ s ∈ x.stmts, m.Has (.stmt s)) :
    tally P (b'.toList.flatMap Block.nodes) =
      ((b.toList.map Node.block).map (Node.cost W (ctx.graph.scopeWeight K))).sum := by
  cases h with
  | none => rfl
  | some h =>
    have h := h.tally_eq hx hw (hm _ List.mem_cons_self)
    simpa using h

end

end LowersBy

/-! ## Keeping count -/

namespace LoweringContext

/-- In the way of `P`, holders are not referred to, and creating environment `e` comes to `K e`. -/
structure Charges (ctx : LoweringContext) (P : Mention → Bool) (K : EnvId → Nat) : Prop where
  holder : ∀ w : Variable, (∃ k e, w.id = .holder k e) → P (.reference w) = false
  create : ∀ {e t} {w : Variable} {names : Names}, ctx.declarations.typeOf? e = some t →
    (∃ k, w.id = .holder k e) → names.Made →
    (if P (.declaration w) then 1 else 0) + (ctx.graph.env e).vars.toList.countP (fun v =>
      decide (v.role = .parameter) && (t.field? v).isSome &&
        P (.reference (names.standIn v))) = K e

variable {ctx : LoweringContext} {m : MethodBody} {P : Mention → Bool} {K : EnvId → Nat}
  {site : Site} {e : EnvId} {t : EnvType} {holder : Variable}

theorem Charges.tally_denotes (hc : ctx.Charges P K) {d : Declarations} {view : View} {x : Expr}
    {rf : Referent} (hview : view.Held) (h : x.Denotes ctx.graph d view rf) :
    tally P x.nodes = 0 := by
  induction h with
  | @created loc e v hv =>
    obtain ⟨k, hk⟩ := hview.locals _ hv
    simp [Expr.nodes, tally, Node.mention?, hc.holder v ⟨k, e, hk⟩]
  | @param loc e v hv =>
    obtain ⟨k, hk⟩ := hview.params _ hv
    simp [Expr.nodes, tally, Node.mention?, hc.holder v ⟨k, e, hk⟩]
  | host | self => simp [Expr.nodes, tally, Node.mention?]
  | parent _ _ _ ih | held _ _ _ _ _ ih =>
    rw [Expr.nodes, tally_cons, ih]
    rfl

theorem Charges.tally_store (hc : ctx.Charges P K) (hid : ∃ k, holder.id = .holder k e)
    (f : Field) (x : Expr) : tally P (store holder f x).nodes = tally P x.nodes := by
  obtain ⟨k, hk⟩ := hid
  have hP := hc.holder holder ⟨k, e, hk⟩
  simp [store, Stmt.nodes, Expr.nodes, tally_cons, Node.mention?, hP]

theorem Charges.tally_storeVariables (hc : ctx.Charges P K) (hs : ctx.Suits m)
    (hview : site.view.Held) (hid : ∃ k, holder.id = .holder k e) {names : Names}
    {vs : List Variable} {stores : List (List Stmt)}
    (h : List.Forall₂ (fun v ss => ctx.storeVariable site names.aliases t holder v = .ok ss)
      vs stores) :
    tally P (Stmt.nodesAll stores.flatten) = vs.countP fun v =>
      decide (v.role = .parameter) && (t.field? v).isSome &&
        P (.reference (names.standIn v)) := by
  induction h with
  | nil => rfl
  | @cons v ss vs stores hv _ ih =>
    rw [List.flatten_cons, tally_stmts_append, ih, List.countP_cons, Nat.add_comm]
    congr 1
    obtain ⟨rfl, hrole | hfield⟩ | ⟨f, x, hf, rfl, ⟨hr, hx⟩ | ⟨hr, rfl⟩⟩ := storeVariable_inv hv
    · simp [Stmt.nodesAll, tally_nil, hrole]
    · simp [Stmt.nodesAll, tally_nil, hfield]
    · simp [Stmt.nodesAll, hc.tally_store hid, hr,
        hc.tally_denotes hview (hs.receiverRef_denotes hx)]
    · simp [Stmt.nodesAll, hc.tally_store hid, hr, hf, Expr.nodes, tally_cons, tally_nil,
        Node.mention?, Names.standIn]

theorem Charges.tally_create (hc : ctx.Charges P K) (hs : ctx.Suits m) (hview : site.view.Held)
    {names : Names} (hm : names.Made) (ht : ctx.declarations.typeOf? e = some t)
    (hid : ∃ k, holder.id = .holder k e) {created : List Stmt} {site' : Site}
    (h : ctx.createEnv site names.aliases e t holder = .ok (created, site')) :
    tally P (Stmt.nodesAll created) = K e := by
  obtain ⟨-, init, parent, stores, rfl, hinit, hparent, hstores⟩ := ctx.createEnv_inv h
  have hlink : tally P (Stmt.nodesAll parent) = 0 := by
    obtain ⟨-, rfl⟩ | ⟨link, x, -, rfl, ⟨p, -, hx⟩ | ⟨-, hx⟩⟩ := storeParent_inv hparent
    · rfl
    · simp [Stmt.nodesAll, hc.tally_store hid, hc.tally_denotes hview (envRef_denotes hx)]
    · simp [Stmt.nodesAll, hc.tally_store hid,
        hc.tally_denotes hview (hs.receiverRef_denotes hx)]
  have hzero : tally P init.nodes = 0 := by
    rw [hinit]
    split <;> rfl
  have hvars := hc.tally_storeVariables hs hview hid (forall₂_of_mapM_ok hstores)
  rw [← hc.create ht hid hm, ← hvars, List.cons_append, Stmt.nodesAll, tally_append,
    tally_stmts_append, hlink, tally_declare]
  simp [Expr.nodesAll, hzero]

end LoweringContext

theorem LoweredBody.Written.keeps_counting {r : LoweredBody} {ctx : LoweringContext}
    {m : MethodBody} {P : Mention → Bool} {K : EnvId → Nat} (h : r.Written ctx m)
    (hc : ctx.Charges P K) : ctx.Keeps m r.declarations (.counting P K) := by
  have hreceiver {site : Site} {c : ClosureId} {lm : LoweredMethod} {x : Option Expr}
      (hview : site.view.Held) (hlm : r.declarations.methodOf? c = some lm)
      (hx : ctx.callReceiver site lm = .ok x) : ∀ y ∈ x, tally P y.nodes = 0 := by
    rintro y rfl
    obtain ⟨rf, hy⟩ := (h.receivedBy hlm hx).exists_denotes
    exact hc.tally_denotes hview hy
  constructor
  case methods => exact h.methodOf_eq
  case hoisted =>
    intro site aliases e v x hview he hx
    obtain ⟨t, f, y, -, -, rfl, hy⟩ := LoweringContext.Suits.variableRef_denotes he hx
    change tally P (Expr.field {} y f).nodes = 0
    rw [Expr.nodes, tally_cons, hc.tally_denotes hview hy]
    rfl
  case receiver =>
    intro site x hview hx
    exact hc.tally_denotes hview (h.suits.receiverRef_denotes hx)
  case lambda => exact fun hview _ _ hlm hx => hreceiver hview hlm hx
  case functionRef => exact fun hview _ _ hlm hx => hreceiver hview hlm hx
  case call =>
    intro site c lm x es args args' hview hlm hx hes _
    refine ⟨hreceiver hview hlm hx, fun y hy => ?_⟩
    obtain ⟨q, -, hq⟩ := (exists_mem_of_forall₂ (forall₂_of_mapM_ok hes)).2 y hy
    exact hc.tally_denotes hview (LoweringContext.envRef_denotes hq)
  case create =>
    intro site s e t holder created site' names hview hm _ ht hid hcreate
    exact hc.tally_create h.suits hview hm ht hid hcreate

/-! ## Adding up -/

namespace LoweredBody

/-- What a frame has become. -/
def blockOf? (r : LoweredBody) : Option ClosureId → Option Block
  | none => r.body.block
  | some c => (r.declarations.methodOf? c).bind (·.body)

/-- The blocks of a converted body: that of the method, and those of the lowered methods. -/
def blocks (r : LoweredBody) : List Block :=
  r.body.block.toList ++ r.declarations.methods.filterMap (·.body)

namespace Written

variable {r : LoweredBody} {ctx : LoweringContext} {m : MethodBody} (h : r.Written ctx m)

include h

theorem blocks_eq : r.blocks = ctx.graph.frames.filterMap r.blockOf? := by
  have hmap : (List.range ctx.graph.closures.size).map r.declarations.methodOf? =
      r.declarations.methods.map some := by
    rw [← h.length]
    exact List.ext_getElem (by simp) (by simp [Declarations.methodOf?])
  have hmethods : r.declarations.methods.filterMap (·.body) =
      (List.range ctx.graph.closures.size).filterMap fun c => r.blockOf? (some c) := by
    have := congrArg (List.filterMap fun o => o.bind LoweredMethod.body) hmap
    rw [List.filterMap_map, List.filterMap_map] at this
    exact this.symm
  rw [blocks, hmethods, Graph.frames, List.filterMap_cons, List.filterMap_map]
  cases hb : r.blockOf? none with
  | none => simp [show r.body.block = none from hb]
  | some b => simp [show r.body.block = some b from hb]

/-- What a frame has become keeps to the rules. -/
theorem frame_lowersBy {R : LoweringRules} (hR : ctx.Keeps m r.declarations R)
    {fr : Option ClosureId} (hfr : fr ∈ ctx.graph.frames) :
    ∃ b b', (ctx.graph.scope (ctx.graph.entry fr)).block = some b ∧ r.blockOf? fr = some b' ∧
      b.LowersBy { ctx with declarations := r.declarations } R
        { frame := LoweringContext.frameAt { ctx with declarations := r.declarations } fr } b' := by
  have hholds := h.suits.seated.exact.holds
  have hby := h.lowersBy hR
  cases fr with
  | none =>
    obtain ⟨-, b, -, hb, hblock, -⟩ := hholds.complete
    obtain ⟨b₁, b', hb₁, hbody, hl⟩ := hby.body
    obtain rfl : b₁ = b := Option.some.inj (hb₁.symm.trans hb)
    exact ⟨b₁, b', hblock, by rw [blockOf?, hbody], hl⟩
  | some c =>
    obtain ⟨lm₀, b₀, hlm₀, -, hlm⟩ := h.methods c (Graph.mem_frames.mp hfr c rfl)
    obtain ⟨p, n, f, b, b', hn, hnested, hclosure, hbody, hl⟩ :=
      hby.methods _ (List.mem_of_getElem? hlm)
    obtain rfl : b' = b₀ := (Option.some.inj hbody).symm
    have hcl : lm₀.closure = c := (h.suits.declared.declared c lm₀ hlm₀).closure
    obtain ⟨f', c', hf', hlays⟩ := (hholds.lays p n hn).function _ _ hnested
    obtain rfl := Option.some.inj hf'
    have hc' := hholds.closureOf_eq_some.mpr ⟨hlays.lt, hlays.function⟩
    obtain rfl : c' = c := by
      rw [← hcl]
      exact Option.some.inj (hc'.symm.trans hclosure)
    refine ⟨b, b', ?_, ?_, ?_⟩
    · rw [Graph.entry, hlays.body]
      exact ((hholds.lays p n hn).scope b (Node.opened_of_nested hnested)).block
    · rw [blockOf?, hlm]
      rfl
    · rw [LoweringContext.frameAt, show Declarations.methodOf? _ c' = _ from hlm]
      exact hl

variable {P : Mention → Bool} {W : Mention → Nat} {K : EnvId → Nat}

/-- What a frame has become mentions variables as often as the frame weighs. -/
theorem tally_frame (hw : ctx.graph.Weighs m P W) (hc : ctx.Charges P K)
    {fr : Option ClosureId} (hfr : fr ∈ ctx.graph.frames) :
    ∃ b b', (ctx.graph.scope (ctx.graph.entry fr)).block = some b ∧ r.blockOf? fr = some b' ∧
      tally P b'.nodes = (Node.block b).cost W (ctx.graph.scopeWeight K) := by
  have hexact := h.suits.seated.exact
  obtain ⟨b, b', hb, hb', hl⟩ := h.frame_lowersBy (h.keeps_counting hc) hfr
  refine ⟨b, b', hb, hb', hl.tally_eq hexact hw fun s hs => ?_⟩
  obtain ⟨p, b₁, hb₁, -, -, hstmts, -⟩ := hexact.holds.frame_block hfr
  obtain rfl : b₁ = b := Option.some.inj (hb₁.symm.trans hb)
  exact ⟨p, hstmts s hs⟩

end Written

end LoweredBody

/-- Scopes weigh what the live environments do. -/
theorem Graph.Placed.sum_scopeWeight {g : Graph} (hp : g.Placed) (K : EnvId → Nat) :
    ((List.range g.scopes.size).map (g.scopeWeight K)).sum = (g.liveEnvs.map K).sum := by
  have hperm : ((List.range g.scopes.size).filterMap fun s => (g.scope s).env).Perm g.liveEnvs := by
    refine (List.perm_ext_iff_of_nodup ?_ ?_).mpr fun e => ?_
    · refine List.nodup_range.filterMap fun s t e hs ht => ?_
      rw [← ((hp.scope_env s e).mp hs).2.1, ← ((hp.scope_env t e).mp ht).2.1]
    · exact List.nodup_range.filter _
    · rw [List.mem_filterMap, mem_liveEnvs]
      constructor
      · rintro ⟨s, -, hs⟩
        obtain ⟨hlt, -, hrem⟩ := (hp.scope_env s e).mp hs
        exact ⟨hlt, hrem⟩
      · rintro ⟨hlt, hrem⟩
        have hs := (hp.scope_env _ e).mpr ⟨hlt, rfl, hrem⟩
        exact ⟨_, List.mem_range.mpr (lt_of_scope Scope.env hs nofun), hs⟩
  rw [← (hperm.map K).sum_nat]
  induction List.range g.scopes.size with
  | nil => rfl
  | cons s l ih =>
    rw [List.map_cons, List.sum_cons, ih, scopeWeight, List.filterMap_cons]
    cases (g.scope s).env <;> simp

/-- If only the creation of environments counts, a converted body comes to what the live
environments weigh. -/
theorem LoweredBody.Written.tally_blocks {r : LoweredBody} {ctx : LoweringContext} {m : MethodBody}
    {P : Mention → Bool} {K : EnvId → Nat} (h : r.Written ctx m)
    (hw : ctx.graph.Weighs m P fun _ => 0) (hc : ctx.Charges P K) :
    (r.blocks.map fun b => tally P b.nodes).sum = (ctx.graph.liveEnvs.map K).sum := by
  have hholds := h.suits.seated.exact.holds
  have hperm := (hholds.frameBlocks_perm.map (ctx.graph.scopeWeight K)).sum_nat
  rw [← h.suits.seated.placed.sum_scopeWeight K, ← hperm, h.blocks_eq]
  have hframe : ∀ fr ∈ ctx.graph.frames, ∃ b', r.blockOf? fr = some b' ∧
      tally P b'.nodes = ((ctx.graph.frameBlocks fr).map (ctx.graph.scopeWeight K)).sum := by
    intro fr hfr
    obtain ⟨b, b', hb, hb', htally⟩ := h.tally_frame hw hc hfr
    refine ⟨b', hb', ?_⟩
    rw [htally, Graph.frameBlocks, hb, Node.cost]
    simp
  revert hframe
  induction ctx.graph.frames with
  | nil => exact fun _ => rfl
  | cons fr l ih =>
    intro hframe
    obtain ⟨b', hb', htally⟩ := hframe fr List.mem_cons_self
    rw [List.filterMap_cons, hb', List.map_cons, List.sum_cons, htally, List.flatMap_cons,
      List.map_append, List.sum_append, ih fun fr hfr => hframe fr (List.mem_cons_of_mem _ hfr)]

end Unnest
