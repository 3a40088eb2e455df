import Mathlib.Data.List.Forall2
import Unnest.Proofs.Lowered.Tallies

/-!
# Blocks of lowered trees

Every scope is rewritten once, in the frame it belongs to, and its environment is created there: the
first statement of the block declares a local for it. The parent link is set next, then the
environment is given what its variables already hold, and the statements of the scope follow.

## Main definitions

* `LoweringContext.Rewrites` : a block is what a scope has become in a frame.
* `LoweringContext.CreatesIn` : a block begins by creating an environment.

## Main statements

* `Expr.LowersBy.emits` : what is called or bound in a lowered expression comes from the source.
* `LoweredBody.Written.rewrites` : the blocks of a frame are rewritten one after the other.
* `LoweredBody.Written.exists_createsIn` : every live environment is created.
-/

namespace Unnest

/-! ## Blocks in a tree -/

/-- The block that the node is. -/
def Node.block? : Node → Option Block
  | .block b => some b
  | .expr _ | .stmt _ => none

/-- The blocks among nodes. -/
def blocksIn (ns : List Node) : List Block := ns.filterMap Node.block?

@[simp] theorem blocksIn_nil : blocksIn [] = [] := rfl

@[simp] theorem blocksIn_expr (e : Expr) (ns : List Node) :
    blocksIn (.expr e :: ns) = blocksIn ns := rfl

@[simp] theorem blocksIn_stmt (s : Stmt) (ns : List Node) :
    blocksIn (.stmt s :: ns) = blocksIn ns := rfl

theorem mem_blocksIn {ns : List Node} {b : Block} : b ∈ blocksIn ns ↔ .block b ∈ ns := by
  rw [blocksIn, List.mem_filterMap]
  constructor
  · rintro ⟨n, hn, hb⟩
    cases n with
    | block => exact Option.some.inj hb ▸ hn
    | _ => cases hb
  · exact fun hb => ⟨_, hb, rfl⟩

@[simp] theorem blocksIn_append (ns ms : List Node) :
    blocksIn (ns ++ ms) = blocksIn ns ++ blocksIn ms := List.filterMap_append

/-- The node is no block, and if it is an expression `P` holds of it. -/
def Node.Emits (P : Expr → Prop) : Node → Prop
  | .expr x => P x
  | .stmt _ => True
  | .block _ => False

/-- No blocks are listed among such nodes. -/
theorem blocksIn_of_emits {P : Expr → Prop} {ns : List Node} (h : ∀ n ∈ ns, n.Emits P) :
    blocksIn ns = [] := by
  refine List.filterMap_eq_nil_iff.mpr fun n hn => ?_
  have hn := h n hn
  cases n with
  | expr | stmt => rfl
  | block => exact hn.elim

namespace Expr

/-- The method that an expression calls or binds. -/
def method? : Expr → Option Method
  | .call _ method _ _ | .delegate _ _ method => some method
  | _ => none

/-- There are no blocks in the expression, and `P` holds of all expressions in it. -/
def Emits (P : Expr → Prop) (e : Expr) : Prop := ∀ n ∈ e.nodes, n.Emits P

/-- Nothing is called or bound in the expression. -/
def Idle (e : Expr) : Prop := e.Emits fun x => x.method? = none

variable {P : Expr → Prop} {e : Expr}

theorem emits_iff (hnone : (Node.expr e).opened? = none) :
    e.Emits P ↔ P e ∧ ∀ x ∈ e.operands, x.Emits P := by
  rw [Emits, nodes_eq hnone, List.forall_mem_cons, nodesAll_eq, List.forall_mem_flatMap]
  rfl

theorem Emits.self (h : e.Emits P) : P e := by
  cases e with
  | lambda => exact h (.expr _) List.mem_cons_self
  | _ => exact ((emits_iff rfl).mp h).1

theorem Idle.withLoc (h : e.Idle) (loc : Loc) : (e.withLoc loc).Idle := by
  cases e with
  | lambda _ _ body =>
    cases body with
    | mk => exact (h (.block _) (List.mem_cons_of_mem _ List.mem_cons_self)).elim
  | _ => exact (emits_iff rfl).mpr ((emits_iff rfl).mp h)

theorem Idle.emits (h : e.Idle) (S : Expr → Prop) : e.Emits fun x => x.method? = none ∨ S x := by
  intro n hn
  have hn := h n hn
  cases n with
  | expr => exact .inl hn
  | stmt => trivial
  | block => exact hn

end Expr

theorem Stmt.blocksIn_declare (loc : Loc) (v : Option Variable) (init : Option Expr) :
    blocksIn (Stmt.declare loc v init).nodes = blocksIn (Expr.nodesAll init.toList) := by
  rw [nodes_declare, blocksIn_stmt]

theorem Stmt.blocksIn_ret (loc : Loc) (value : Option Expr) :
    blocksIn (Stmt.ret loc value).nodes = blocksIn (Expr.nodesAll value.toList) := by
  rw [nodes_ret, blocksIn_stmt]

theorem Stmt.blocksIn_cond (loc : Loc) {test : Expr} (ht : blocksIn test.nodes = []) (b : Block)
    (b' : Option Block) : blocksIn (Stmt.cond loc test b b').nodes =
      blocksIn b.nodes ++ blocksIn (b'.toList.flatMap Block.nodes) := by
  cases b' <;> simp [nodes, ht]

theorem Stmt.blocksIn_loop (loc : Loc) {test : Expr} (ht : blocksIn test.nodes = []) (b : Block) :
    blocksIn (Stmt.loop loc test b).nodes = blocksIn b.nodes := by
  simp [nodes, ht]

/-! ## Creating environments -/

/-- What is written in the places that change, by what it denotes, and environments as they are
created. -/
def LoweringRules.creating (g : Graph) (d : Declarations) : LoweringRules where
  hoisted := (LoweringRules.referring g d).hoisted
  receiver := (LoweringRules.referring g d).receiver
  delegate view lm r := lm.ReceivedBy g d view r
  call view lm r _ _ rest := lm.ReceivedBy g d view r ∧
    List.Forall₂ (fun p x => x.Denotes g d view (.env p.1)) lm.envParams rest
  create view e holder stmts := ∃ t parent stores, d.typeOf? e = some t ∧
    stmts = .declare {} (some holder) (some (g.newborn e holder.type)) :: (parent ++ stores) ∧
    g.Founds d view e t holder parent stores

theorem LoweredBody.Written.keeps_creating {r : LoweredBody} {ctx : LoweringContext}
    {m : MethodBody} (h : r.Written ctx m) :
    ctx.Keeps m r.declarations (.creating ctx.graph r.declarations) where
  methods := h.methodOf_eq
  hoisted := h.keeps_referring.hoisted
  receiver := h.keeps_referring.receiver
  lambda _ _ _ hlm hr := h.receivedBy hlm hr
  functionRef _ _ _ hlm hr := h.receivedBy hlm hr
  call _ hlm hr hes _ := by
    refine ⟨h.receivedBy hlm hr, (forall₂_of_mapM_ok hes).imp fun p x hx => ?_⟩
    exact (LoweringContext.envRef_denotes hx).of_types h.types
  create _ hm _ ht _ hc := by
    obtain ⟨parent, stores, rfl, hfounds⟩ := h.suits.createEnv_founds hm ht hc
    exact ⟨_, parent, stores, (h.typeOf_eq _).trans ht, rfl, hfounds.of_types h.types⟩

/-! ## What is written in lowered trees -/

section Emits

variable {ctx : LoweringContext} {g : Graph} {d : Declarations} {view : View} {R : LoweringRules}

theorem Expr.Denotes.idle {x : Expr} {rf : Referent} (h : x.Denotes g d view rf) : x.Idle := by
  induction h with
  | created | param | host | self => exact (emits_iff rfl).mpr ⟨rfl, by simp [operands]⟩
  | parent _ _ _ ih | held _ _ _ _ _ ih =>
    exact (emits_iff rfl).mpr ⟨rfl, List.forall_mem_singleton.mpr ih⟩

theorem LoweredMethod.ReceivedBy.idle {lm : LoweredMethod} {r : Option Expr}
    (h : lm.ReceivedBy g d view r) : ∀ x ∈ r.toList, x.Idle := by
  intro x hx
  obtain rfl := Option.mem_toList.mp hx
  obtain ⟨rf, hdenotes⟩ := h.exists_denotes
  exact hdenotes.idle

/-- Nothing is called or bound in what is written in the places that change. -/
structure LoweringRules.Idle (R : LoweringRules) : Prop where
  hoisted : ∀ {view e v x}, R.hoisted view e v x → x.Idle
  receiver : ∀ {view x}, R.receiver view x → x.Idle
  delegate : ∀ {view lm r}, R.delegate view lm r → ∀ x ∈ r.toList, x.Idle
  call : ∀ {view lm r args args' rest}, R.call view lm r args args' rest →
    ∀ x ∈ r.toList ++ rest, x.Idle
  create : ∀ {view e holder stmts}, R.create view e holder stmts →
    ∀ n ∈ Stmt.nodesAll stmts, n.Emits fun x => x.method? = none

theorem LoweringContext.store_idle (holder : Variable) (f : Field) {x : Expr} (hx : x.Idle) :
    ∀ n ∈ (store holder f x).nodes, n.Emits fun x => x.method? = none :=
  List.forall_mem_cons.mpr ⟨trivial, List.forall_mem_cons.mpr ⟨rfl,
    List.forall_mem_cons.mpr ⟨rfl, List.forall_mem_cons.mpr ⟨rfl, hx⟩⟩⟩⟩

theorem Graph.Founds.idle {e : EnvId} {t : EnvType} {holder : Variable}
    {parent stores : List Stmt} (h : g.Founds d view e t holder parent stores) :
    ∀ n ∈ Stmt.nodesAll (parent ++ stores), n.Emits fun x => x.method? = none := by
  intro n hn
  obtain ⟨s, hs, hn⟩ := Stmt.mem_nodesAll.mp hn
  rcases List.mem_append.mp hs with hs | hs
  · cases hl : t.link with
    | none =>
      rw [h.unlinked hl] at hs
      exact nomatch hs
    | some link =>
      obtain ⟨x, rfl, hx⟩ := h.linked link hl
      obtain rfl := List.mem_singleton.mp hs
      exact LoweringContext.store_idle holder link hx.idle n hn
  · obtain ⟨v, -, f, x, -, rfl, hx⟩ := (exists_mem_of_forall₂ h.stores).2 s hs
    refine LoweringContext.store_idle holder f ?_ n hn
    cases hx with
    | receiver _ hx => exact hx.idle
    | parameter => exact (Expr.emits_iff rfl).mpr ⟨rfl, by simp [Expr.operands]⟩

theorem LoweringRules.idle_creating (g : Graph) (d : Declarations) : (creating g d).Idle where
  hoisted h := by
    obtain ⟨t, f, y, -, -, rfl, hy⟩ := h
    exact (Expr.emits_iff rfl).mpr ⟨rfl, List.forall_mem_singleton.mpr hy.idle⟩
  receiver h := Expr.Denotes.idle h
  delegate h := LoweredMethod.ReceivedBy.idle h
  call h := by
    refine List.forall_mem_append.mpr ⟨h.1.idle, fun x hx => ?_⟩
    obtain ⟨p, -, hp⟩ := (exists_mem_of_forall₂ h.2).2 x hx
    exact hp.idle
  create {view e holder stmts} h := by
    obtain ⟨t, parent, stores, -, rfl, hfounds⟩ := h
    have hinit : (g.newborn e holder.type).Idle := by
      rw [Graph.newborn]
      split <;> exact (Expr.emits_iff rfl).mpr ⟨rfl, by simp [Expr.operands]⟩
    rw [Stmt.nodesAll]
    exact List.forall_mem_append.mpr
      ⟨List.forall_mem_cons.mpr ⟨trivial, hinit⟩, hfounds.idle⟩

/-- `H` passes from an expression to its operands, and `S` holds of what it becomes. -/
structure LoweringContext.Passes (ctx : LoweringContext) (R : LoweringRules) (view : View)
    (H S : Expr → Prop) : Prop where
  idle : R.Idle
  operand : ∀ {e x}, H e → (Node.expr e).opened? = none → x ∈ e.operands → H x
  lowered : ∀ {e e'}, H e → e.LowersBy ctx R view e' → S e'

mutual

/-- Lowered expressions have no blocks, since a lambda has become a delegate. What is called or
bound in them is what an expression of the source has become. -/
theorem Expr.LowersBy.emits {H S : Expr → Prop} {e e' : Expr} (h : e.LowersBy ctx R view e')
    (hp : ctx.Passes R view H S) (he : H e) : e'.Emits fun x => x.method? = none ∨ S x := by
  have hself := hp.lowered he h
  cases h with
  | literal | newEnv | zero | plain =>
    exact (emits_iff rfl).mpr ⟨.inl rfl, by simp [operands]⟩
  | hoisted _ hx => exact ((hp.idle.hoisted hx).withLoc _).emits S
  | self hx => exact ((hp.idle.receiver hx).withLoc _).emits S
  | lambda _ _ hr | functionRef _ _ hr =>
    exact (emits_iff rfl).mpr ⟨.inr hself, fun x hx => (hp.idle.delegate hr x hx).emits S⟩
  | assign ht hv | binary ht hv =>
    exact (emits_iff rfl).mpr ⟨.inr hself, List.forall_mem_cons.mpr
      ⟨ht.emits hp (hp.operand he rfl (by simp [operands])),
        List.forall_mem_singleton.mpr (hv.emits hp (hp.operand he rfl (by simp [operands])))⟩⟩
  | localCall _ _ ha hr =>
    obtain ⟨hreceiver, hrest⟩ := List.forall_mem_append.mp (hp.idle.call hr)
    exact (emits_iff rfl).mpr ⟨.inr hself, List.forall_mem_append.mpr
      ⟨fun x hx => (hreceiver x hx).emits S, List.forall_mem_append.mpr
        ⟨ha.emits hp fun x hx => hp.operand he rfl hx, fun x hx => (hrest x hx).emits S⟩⟩⟩
  | call hr ha =>
    exact (emits_iff rfl).mpr ⟨.inr hself, List.forall_mem_append.mpr
      ⟨hr.emits hp fun x hx => hp.operand he rfl (List.mem_append_left _ hx),
        ha.emits hp fun x hx => hp.operand he rfl (List.mem_append_right _ hx)⟩⟩
  | invoke hc ha =>
    exact (emits_iff rfl).mpr ⟨.inr hself, List.forall_mem_cons.mpr
      ⟨hc.emits hp (hp.operand he rfl List.mem_cons_self),
        ha.emits hp fun x hx => hp.operand he rfl (List.mem_cons_of_mem _ hx)⟩⟩
  | field hr =>
    exact (emits_iff rfl).mpr ⟨.inr hself,
      List.forall_mem_singleton.mpr (hr.emits hp (hp.operand he rfl List.mem_cons_self))⟩
  | delegate hr =>
    exact (emits_iff rfl).mpr ⟨.inr hself, hr.emits hp fun x hx => hp.operand he rfl hx⟩

theorem Expr.OptLowersBy.emits {H S : Expr → Prop} {e e' : Option Expr}
    (h : Expr.OptLowersBy ctx R view e e') (hp : ctx.Passes R view H S)
    (he : ∀ x ∈ e.toList, H x) : ∀ x ∈ e'.toList, x.Emits fun x => x.method? = none ∨ S x := by
  cases h with
  | none => simp
  | some h => exact List.forall_mem_singleton.mpr (h.emits hp (he _ List.mem_cons_self))

theorem Expr.AllLowerBy.emits {H S : Expr → Prop} {es es' : List Expr}
    (h : Expr.AllLowerBy ctx R view es es') (hp : ctx.Passes R view H S) (he : ∀ x ∈ es, H x) :
    ∀ x ∈ es', x.Emits fun x => x.method? = none ∨ S x := by
  cases h with
  | nil => simp
  | cons h hs =>
    exact List.forall_mem_cons.mpr ⟨h.emits hp (he _ List.mem_cons_self),
      hs.emits hp fun x hx => he x (List.mem_cons_of_mem _ hx)⟩

end

theorem Expr.LowersBy.blocksIn_eq {e e' : Expr} (h : e.LowersBy ctx (.creating g d) view e') :
    blocksIn e'.nodes = [] :=
  blocksIn_of_emits (h.emits (H := fun _ => True) (S := fun _ => True)
    ⟨LoweringRules.idle_creating g d, fun _ _ _ => trivial, fun _ _ => trivial⟩ trivial)

theorem Expr.OptLowersBy.blocksIn_eq {e e' : Option Expr}
    (h : Expr.OptLowersBy ctx (.creating g d) view e e') :
    blocksIn (nodesAll e'.toList) = [] := by
  cases h with
  | none => rfl
  | some h => simpa [nodesAll] using h.blocksIn_eq

theorem blocksIn_stmts_append (ss ss' : List Stmt) : blocksIn (Stmt.nodesAll (ss ++ ss')) =
    blocksIn (Stmt.nodesAll ss) ++ blocksIn (Stmt.nodesAll ss') := by
  rw [Stmt.nodesAll_append, blocksIn_append]

/-- No block is opened where an environment is created. -/
theorem LoweringContext.OpensBy.blocksIn_eq {s : ScopeId} {created : List Stmt} {view' : View}
    (h : ctx.OpensBy (.creating g d) view s created view') :
    view'.frame = view.frame ∧ blocksIn (Stmt.nodesAll created) = [] := by
  cases h with
  | bare => exact ⟨rfl, rfl⟩
  | env _ _ hcreate =>
    exact ⟨rfl, blocksIn_of_emits ((LoweringRules.idle_creating g d).create hcreate)⟩

theorem LoweringContext.DeclaresBy.blocksIn_eq {loc : Loc} {v : Variable} {init : Option Expr}
    {s : Option Stmt} (hinit : blocksIn (Expr.nodesAll init.toList) = [])
    (h : ctx.DeclaresBy (.creating g d) view loc v init s) :
    blocksIn (Stmt.nodesAll s.toList) = [] := by
  cases h with
  | hoisted => rfl
  | @hoistedInit e x target _ ht =>
    have htarget := blocksIn_of_emits ((LoweringRules.idle_creating g d).hoisted ht)
    simpa [Stmt.nodesAll, Stmt.nodes, Expr.nodes, Expr.nodesAll, htarget] using hinit
  | plain => simpa [Stmt.nodesAll, Stmt.blocksIn_declare] using hinit

end Emits

/-! ## Scopes and what they become -/

/-- The block `k` is what the block of scope `s` has become in a frame. -/
def LoweringContext.Rewrites (ctx : LoweringContext) (R : LoweringRules) (frame : Frame)
    (s : ScopeId) (k : Block) : Prop :=
  ∃ b view, (ctx.graph.scope s).block = some b ∧ b.id = s ∧ view.frame = frame ∧
    b.LowersBy ctx R view k

theorem Block.LowersBy.id_eq {ctx : LoweringContext} {R : LoweringRules} {view : View}
    {b b' : Block} (h : b.LowersBy ctx R view b') : b'.id = b.id := by
  cases h
  rfl

theorem Node.ownBlocks_expr (e : Expr) : (Node.expr e).ownBlocks = [] := by
  generalize hn : Node.expr e = n
  induction n using Node.induction generalizing e with
  | step n ih =>
    subst hn
    cases hnested : (Node.expr e).nested? with
    | some f => exact ownBlocks_of_nested (by rw [hnested]; rfl)
    | none =>
      have hnone : (Node.expr e).opened? = none := by
        cases e <;> first | rfl | exact nomatch hnested
      rw [ownBlocks_of_inner hnested, hnone, inner_expr hnone]
      apply List.flatMap_eq_nil_iff.mpr
      intro k hk
      obtain ⟨x, hx, rfl⟩ := List.mem_map.mp hk
      exact ih _ (inner_expr hnone ▸ hk) x rfl

section Rewrites

variable {ctx : LoweringContext} {m : MethodBody} {g : Graph} {d : Declarations}

theorem MethodBody.Has.block_eq {n : Node} {b : Block} (h : m.Has n) (hx : ctx.graph.Holds m)
    (hb : n.opened? = some b) : (ctx.graph.scope b.id).block = some b := by
  obtain ⟨p, hn⟩ := h
  exact ((hx.lays p n hn).scope b hb).block

mutual

/-- The blocks of a statement are rewritten one after the other. -/
theorem Stmt.LowersBy.rewrites {view : View} {s : Stmt} {s' : Option Stmt}
    (h : Stmt.LowersBy ctx (.creating g d) view s s') (hx : ctx.graph.Holds m)
    (hm : m.Has (.stmt s)) :
    List.Forall₂ (ctx.Rewrites (.creating g d) view.frame) (Node.stmt s).ownBlocks
      (blocksIn (Stmt.nodesAll s'.toList)) := by
  cases h with
  | @block _ b b' hb =>
    have hb := hb.rewrites hx (hm.block_eq hx rfl) fun s hs => hm.inner (List.mem_map_of_mem hs)
    rw [Node.ownBlocks_of_inner rfl] at hb ⊢
    rwa [Option.toList_some, Stmt.nodesAll, Stmt.nodesAll, List.append_nil, Stmt.nodes]
  | declare hi hd =>
    rw [Node.ownBlocks_of_inner rfl, hd.blocksIn_eq hi.blocksIn_eq]
    simp [Node.opened?, Node.inner, Node.ownBlocks_expr]
  | declareNothing hi =>
    rw [Node.ownBlocks_of_inner rfl]
    simp [Stmt.nodesAll, Stmt.blocksIn_declare, hi.blocksIn_eq, Node.opened?, Node.inner,
      Node.ownBlocks_expr]
  | expr hv =>
    rw [Node.ownBlocks_of_inner rfl]
    simp [Stmt.nodesAll, Stmt.nodes, hv.blocksIn_eq, Node.opened?, Node.inner, Node.ownBlocks_expr]
  | ret hv =>
    rw [Node.ownBlocks_of_inner rfl]
    simp [Stmt.nodesAll, Stmt.blocksIn_ret, hv.blocksIn_eq, Node.opened?, Node.inner,
      Node.ownBlocks_expr]
  | @cond _ loc test test' b b' x x' ht hb he =>
    have hin {k : Block} (hk : .block k ∈ (Node.stmt (.cond loc test b x)).inner) :
        m.Has (.block k) := hm.inner hk
    have hthen := hin (k := b) (by simp [Node.inner])
    have hb := hb.rewrites hx (hthen.block_eq hx rfl) fun s hs =>
      hthen.inner (List.mem_map_of_mem hs)
    have he := he.rewrites hx fun k hk => hin (by simp [Node.inner, Option.mem_toList.mp hk])
    have hcond := List.rel_append hb he
    rw [Node.ownBlocks_of_inner rfl, Option.toList_some, Stmt.nodesAll, Stmt.nodesAll,
      List.append_nil, Stmt.blocksIn_cond loc ht.blocksIn_eq]
    simpa [Node.opened?, Node.inner, Node.ownBlocks_expr] using hcond
  | @loop _ loc test test' b b' ht hb =>
    have hbody : m.Has (.block b) := hm.inner (by simp [Node.inner])
    have hb := hb.rewrites hx (hbody.block_eq hx rfl) fun s hs =>
      hbody.inner (List.mem_map_of_mem hs)
    rw [Node.ownBlocks_of_inner rfl, Option.toList_some, Stmt.nodesAll, Stmt.nodesAll,
      List.append_nil, Stmt.blocksIn_loop loc ht.blocksIn_eq]
    simpa [Node.opened?, Node.inner, Node.ownBlocks_expr] using hb
  | localFunction =>
    rw [Node.ownBlocks_of_nested rfl]
    exact .nil

theorem Stmt.AllLowerBy.rewrites {view : View} {ss ss' : List Stmt}
    (h : Stmt.AllLowerBy ctx (.creating g d) view ss ss') (hx : ctx.graph.Holds m)
    (hm : ∀ s ∈ ss, m.Has (.stmt s)) :
    List.Forall₂ (ctx.Rewrites (.creating g d) view.frame)
      ((ss.map Node.stmt).flatMap Node.ownBlocks) (blocksIn (Stmt.nodesAll ss')) := by
  cases h with
  | nil => exact .nil
  | cons h hs =>
    rw [List.map_cons, List.flatMap_cons, blocksIn_stmts_append]
    exact List.rel_append (h.rewrites hx (hm _ List.mem_cons_self))
      (hs.rewrites hx fun s hs => hm s (List.mem_cons_of_mem _ hs))

theorem Block.LowersBy.rewrites {view : View} {b b' : Block}
    (h : b.LowersBy ctx (.creating g d) view b') (hx : ctx.graph.Holds m)
    (hb : (ctx.graph.scope b.id).block = some b) (hm : ∀ s ∈ b.stmts, m.Has (.stmt s)) :
    List.Forall₂ (ctx.Rewrites (.creating g d) view.frame) (Node.block b).ownBlocks
      (blocksIn b'.nodes) := by
  cases h with
  | mk ho hs =>
    obtain ⟨hframe, hcreated⟩ := ho.blocksIn_eq
    have hstmts := hs.rewrites hx hm
    rw [hframe] at hstmts
    rw [Node.ownBlocks_of_inner rfl, Block.nodes]
    refine .cons ⟨_, view, hb, rfl, rfl, .mk ho hs⟩ ?_
    change List.Forall₂ _ _ (blocksIn (Stmt.nodesAll _))
    rw [blocksIn_stmts_append, hcreated]
    exact hstmts

theorem Block.OptLowersBy.rewrites {view : View} {b b' : Option Block}
    (h : Block.OptLowersBy ctx (.creating g d) view b b') (hx : ctx.graph.Holds m)
    (hm : ∀ k ∈ b.toList, m.Has (.block k)) :
    List.Forall₂ (ctx.Rewrites (.creating g d) view.frame)
      ((b.toList.map Node.block).flatMap Node.ownBlocks)
      (blocksIn (b'.toList.flatMap Block.nodes)) := by
  cases h with
  | none => exact .nil
  | @some _ k k' h =>
    have hk := hm k List.mem_cons_self
    have h := h.rewrites hx (hk.block_eq hx rfl) fun s hs => hk.inner (List.mem_map_of_mem hs)
    simpa using h

end

end Rewrites

theorem LoweringContext.Rewrites.id_eq {ctx : LoweringContext} {R : LoweringRules} {frame : Frame}
    {s : ScopeId} {k : Block} (h : ctx.Rewrites R frame s k) : k.id = s := by
  obtain ⟨b, view, -, rfl, -, hl⟩ := h
  exact hl.id_eq

theorem map_id_of_rewrites {ctx : LoweringContext} {R : LoweringRules} {frame : Frame}
    {l : List ScopeId} {ks : List Block} (h : List.Forall₂ (ctx.Rewrites R frame) l ks) :
    ks.map Block.id = l := by
  induction h with
  | nil => rfl
  | cons hk _ ih => rw [List.map_cons, hk.id_eq, ih]

/-- The block begins by creating environment `e`, and goes on with what the statements of its scope
have become. -/
def LoweringContext.CreatesIn (ctx : LoweringContext) (e : EnvId) (k : Block) : Prop :=
  ∃ b view t holder parent stores rest, (ctx.graph.scope k.id).block = some b ∧
    view.frame = ctx.frameAt (ctx.graph.frame? k.id) ∧ ctx.declarations.typeOf? e = some t ∧
    (∃ i, holder.id = .holder i e) ∧
    k.stmts = .declare {} (some holder) (some (ctx.graph.newborn e holder.type)) ::
      (parent ++ stores ++ rest) ∧
    ctx.graph.Founds ctx.declarations view e t holder parent stores ∧
    Stmt.AllLowerBy ctx (.creating ctx.graph ctx.declarations) (view.hold e holder) b.stmts rest

/-- The blocks in a converted body and in the lowered methods. -/
def LoweredBody.scopeBlocks (r : LoweredBody) : List Block :=
  r.blocks.flatMap fun b => blocksIn b.nodes

namespace LoweredBody.Written

variable {r : LoweredBody} {ctx : LoweringContext} {m : MethodBody} (h : r.Written ctx m)

include h

/-- The blocks of a frame are rewritten one after the other. -/
theorem rewrites {fr : Option ClosureId} (hfr : fr ∈ ctx.graph.frames) :
    ∃ b', r.blockOf? fr = some b' ∧ b'.id = ctx.graph.entry fr ∧
      List.Forall₂ (LoweringContext.Rewrites { ctx with declarations := r.declarations }
          (.creating ctx.graph r.declarations)
          (LoweringContext.frameAt { ctx with declarations := r.declarations } fr))
        (ctx.graph.frameBlocks fr) (blocksIn b'.nodes) := by
  have hholds := h.suits.seated.exact.holds
  obtain ⟨b, b', hb, hb', hl⟩ := h.frame_lowersBy h.keeps_creating hfr
  obtain ⟨p, b₁, hb₁, hid, -, hstmts, -⟩ := hholds.frame_block hfr
  obtain rfl : b₁ = b := Option.some.inj (hb₁.symm.trans hb)
  refine ⟨b', hb', hl.id_eq.trans hid, ?_⟩
  rw [Graph.frameBlocks, hb]
  exact hl.rewrites hholds (hid ▸ hb) fun s hs => ⟨p, hstmts s hs⟩

theorem map_id_scopeBlocks :
    r.scopeBlocks.map Block.id = ctx.graph.frames.flatMap ctx.graph.frameBlocks := by
  rw [scopeBlocks, h.blocks_eq, List.map_flatMap]
  have hframe : ∀ fr ∈ ctx.graph.frames, ∃ b', r.blockOf? fr = some b' ∧
      (blocksIn b'.nodes).map Block.id = ctx.graph.frameBlocks fr := by
    intro fr hfr
    obtain ⟨b', hb', -, hall⟩ := h.rewrites hfr
    exact ⟨b', hb', map_id_of_rewrites hall⟩
  revert hframe
  induction ctx.graph.frames with
  | nil => exact fun _ => rfl
  | cons fr l ih =>
    intro hframe
    obtain ⟨b', hb', hids⟩ := hframe fr List.mem_cons_self
    rw [List.filterMap_cons, hb', List.flatMap_cons, List.flatMap_cons, hids,
      ih fun fr hfr => hframe fr (List.mem_cons_of_mem _ hfr)]

/-- Whatever block there is, it is what a scope has become in its frame. -/
theorem rewrites_of_mem {k : Block} (hk : k ∈ r.scopeBlocks) :
    LoweringContext.Rewrites { ctx with declarations := r.declarations }
      (.creating ctx.graph r.declarations)
      (LoweringContext.frameAt { ctx with declarations := r.declarations }
        (ctx.graph.frame? k.id)) k.id k := by
  rw [scopeBlocks, h.blocks_eq, List.mem_flatMap] at hk
  obtain ⟨b', hb', hk⟩ := hk
  obtain ⟨fr, hfr, hb'⟩ := List.mem_filterMap.mp hb'
  obtain ⟨b₁, hb₁, -, hall⟩ := h.rewrites hfr
  obtain rfl : b₁ = b' := Option.some.inj (hb₁.symm.trans hb')
  obtain ⟨s, hs, hrewrites⟩ := (exists_mem_of_forall₂ hall).2 k hk
  obtain rfl := hrewrites.id_eq
  rwa [((h.suits.seated.exact.holds.mem_frameBlocks hfr).mp hs).2]

/-- Every scope is rewritten once. -/
theorem perm_scopeBlocks :
    (r.scopeBlocks.map Block.id).Perm (List.range ctx.graph.scopes.size) :=
  h.map_id_scopeBlocks ▸ h.suits.seated.exact.holds.frameBlocks_perm

theorem createsIn {k : Block} (hk : k ∈ r.scopeBlocks) {e : EnvId}
    (he : (ctx.graph.scope k.id).env = some e) :
    LoweringContext.CreatesIn { ctx with declarations := r.declarations } e k := by
  obtain ⟨b, view, hb, -, hframe, hl⟩ := h.rewrites_of_mem hk
  cases hl with
  | mk ho hs =>
    cases ho with
    | bare hnone => exact nomatch he.symm.trans hnone
    | env hs' hid hcreate =>
      obtain rfl := Option.some.inj (hs'.symm.trans he)
      obtain ⟨t, parent, stores, ht, rfl, hfounds⟩ := hcreate
      exact ⟨_, view, t, _, parent, stores, _, hb, hframe, ht, hid,
        by simp [Block.stmts], hfounds, hs⟩

/-- Every live environment is created in what its scope has become. -/
theorem exists_createsIn {e : EnvId} (he : e ∈ ctx.graph.liveEnvs) :
    ∃ k ∈ r.scopeBlocks, k.id = (ctx.graph.env e).scope ∧
      LoweringContext.CreatesIn { ctx with declarations := r.declarations } e k := by
  obtain ⟨hlt, hlive⟩ := Graph.mem_liveEnvs.mp he
  have henv := (h.suits.seated.placed.scope_env _ e).mpr ⟨hlt, rfl, hlive⟩
  have hmem : (ctx.graph.env e).scope ∈ r.scopeBlocks.map Block.id :=
    h.perm_scopeBlocks.mem_iff.mpr (List.mem_range.mpr (Graph.lt_of_scope Scope.env henv nofun))
  obtain ⟨k, hk, hid⟩ := List.mem_map.mp hmem
  exact ⟨k, hk, hid, h.createsIn hk (hid ▸ henv)⟩

end LoweredBody.Written

end Unnest
