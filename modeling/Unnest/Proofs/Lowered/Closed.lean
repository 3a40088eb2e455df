import Unnest.Proofs.Lowered.Declared

/-!
# Lowered trees are closed

Whatever a lowered tree refers to is at hand where it stands. A variable that is not hoisted is
referred to in the frame that declares it, and its stand-in is declared in a block around; all else
goes through the holder of an environment, through a parameter for one, or through the receiver of
the method. `LoweringContext.Covers` says that all this is in scope at a place, and goes down the
tree with the lowering.

## Main definitions

* `LoweringContext.Covers` : what may be referred to at a place is in scope.

## Main statements

* `Expr.LowersTo.closed`, `Node.closed_of_lowersIn` : lowered trees are closed.
* `LoweringContext.Binds.closed_frame` : so is the block that a frame has become.
-/

namespace Unnest

variable {ctx : LoweringContext} {m : MethodBody} {names : Names} {site site' : Site} {bound : Bool}
  {V W : List Variable} {p : Path} {n : Node} {x : Expr}

/-! ## Environments and receivers -/

/-- What is at hand at a place is in scope: the variables that hold environments are in `V`, and
there is a receiver if the method belongs to an environment, or if the receiver of the converted
method is its own. -/
structure View.Within (view : View) (ctx : LoweringContext) (bound : Bool) (V : List Variable) :
    Prop where
  locals : ∀ q ∈ view.locals, q.2 ∈ V
  params : ∀ q ∈ view.frame.envParams, q.2 ∈ V
  host : view.frame.host ≠ none → bound = true
  receiver : ctx.graph.receiver ≠ none →
    view.frame.closure = none ∨ view.frame.isStatic = false → bound = true

theorem View.Within.mono {view : View} (h : view.Within ctx bound V) (hV : V ⊆ W) :
    view.Within ctx bound W :=
  ⟨fun q hq => hV (h.locals q hq), fun q hq => hV (h.params q hq), h.host, h.receiver⟩

theorem View.Within.hold {view : View} (h : view.Within ctx bound V) {holder : Variable}
    (hv : holder ∈ V) (e : EnvId) : (view.hold e holder).Within ctx bound V where
  locals q hq := by
    rcases List.mem_cons.mp hq with rfl | hq
    · exact hv
    · exact h.locals q hq
  params := h.params
  host := h.host
  receiver := h.receiver

/-- An expression for an environment or for the receiver is closed. -/
theorem Expr.Denotes.closed {g : Graph} {d : Declarations} {view : View} {rf : Referent}
    (h : x.Denotes g d view rf) (hw : view.Within ctx bound V)
    (hr : rf = .receiver → ctx.graph.receiver ≠ none) : (Node.expr x).Closed bound V := by
  induction h with
  | created h => exact .expr rfl ⟨_, hw.locals _ h, rfl⟩ (fun _ => (nomatch ·))
  | param h => exact .expr rfl ⟨_, hw.params _ h, rfl⟩ (fun _ => (nomatch ·))
  | host h => exact .expr rfl (hw.host (by simp [h])) (fun _ => (nomatch ·))
  | self h =>
    exact .expr rfl (hw.receiver (hr rfl) (h.imp_right And.right)) (fun _ => (nomatch ·))
  | parent _ _ _ ih | held _ _ _ _ _ ih =>
    refine .expr rfl trivial fun y hy => ?_
    rw [List.mem_singleton.mp hy]
    exact ih (fun h => nomatch h)

namespace LoweringContext

theorem closed_envRef {e : EnvId} (hx : ctx.envRef site e = .ok x)
    (hw : site.view.Within ctx bound V) : (Node.expr x).Closed bound V :=
  (envRef_denotes hx).closed hw fun h => nomatch h

theorem Suits.closed_receiverRef (hs : ctx.Suits m) (hx : ctx.receiverRef site = .ok x)
    (hw : site.view.Within ctx bound V) : (Node.expr x).Closed bound V := by
  refine (hs.receiverRef_denotes hx).closed hw fun _ hnone => ?_
  simp only [receiverRef, hnone] at hx
  cases hx

theorem Suits.closed_callReceiver (hs : ctx.Suits m) {lm : LoweredMethod} {r : Option Expr}
    (hr : ctx.callReceiver site lm = .ok r) (hw : site.view.Within ctx bound V) (y : Expr)
    (hy : y ∈ r) : (Node.expr y).Closed bound V := by
  obtain rfl := Option.mem_def.mp hy
  rw [callReceiver] at hr
  split at hr
  · obtain ⟨z, hz, heq⟩ := exists_of_map_ok hr
    obtain rfl := Option.some.inj heq
    exact closed_envRef hz hw
  · split at hr
    · cases hr
    · obtain ⟨z, hz, heq⟩ := exists_of_map_ok hr
      obtain rfl := Option.some.inj heq
      exact hs.closed_receiverRef hz hw

/-! ## Expressions -/

/-- What may be referred to at a place in scope `s` is in scope: the stand-ins of the variables of
the frame that are not hoisted, and what leads to the others. -/
structure Covers (ctx : LoweringContext) (m : MethodBody) (names : Names) (bound : Bool)
    (V : List Variable) (s : ScopeId) (site : Site) : Prop where
  plain : ∀ t ∈ ctx.graph.ancestors s, ctx.graph.frame? t = ctx.graph.frame? s →
    ∀ v ∈ (ctx.graph.scope t).vars, m.receiver ≠ some v → ctx.graph.envOf? v = none →
      names.standIn v ∈ V
  view : site.view.Within ctx bound V

theorem Covers.locate {s : ScopeId} (h : ctx.Covers m names bound V s site) (loc : Loc) :
    ctx.Covers m names bound V s (site.locate loc) :=
  ⟨h.plain, by rw [Site.view_locate]; exact h.view⟩

theorem closed_hoisted {aliases : List (Variable × Variable)} {v : Variable} {e : EnvId}
    (he : ctx.graph.envOf? v = some e) (hx : ctx.variableRef site aliases v = .ok x)
    (hw : site.view.Within ctx bound V) : (Node.expr x).Closed bound V := by
  obtain ⟨t, f, y, -, -, rfl, hy⟩ := Suits.variableRef_denotes he hx
  refine .expr rfl trivial fun z hz => ?_
  rw [List.mem_singleton.mp hz]
  exact hy.closed hw fun h => nomatch h

/-- What is written for a variable is closed where the variable is referred to. -/
theorem Binds.closed_variableRef (h : ctx.Binds m) {loc : Loc} {v : Variable}
    (hn : (p, .expr (.ref loc (some v))) ∈ m.numbered.sites)
    (hc : ctx.Covers m names bound V p.scope site)
    (hx : ctx.variableRef site names.aliases v = .ok x) : (Node.expr x).Closed bound V := by
  cases he : ctx.graph.envOf? v with
  | none =>
    simp only [variableRef, he] at hx
    obtain rfl := Except.ok.inj hx
    obtain ⟨t, ht, hv, hne, hframe⟩ := h.exists_scope_of_reference hn
    exact .expr rfl ⟨_, hc.plain t ht (hframe he) v hv hne he, rfl⟩ (fun _ hk => by cases hk)
  | some e => exact closed_hoisted he hx hc.view

end LoweringContext

theorem Expr.AllLowerTo.exists_of_mem {aliases : List (Variable × Variable)} {es es' : List Expr}
    (hl : Expr.AllLowerTo ctx site aliases es es') {y' : Expr} (hy : y' ∈ es') :
    ∃ y ∈ es, y.LowersTo ctx site aliases y' := by
  induction es generalizing es' with
  | nil =>
    cases hl
    exact absurd hy List.not_mem_nil
  | cons e es ih =>
    cases hl with
    | cons h hs =>
      rcases List.mem_cons.mp hy with rfl | hy
      · exact ⟨e, List.mem_cons_self, h⟩
      · obtain ⟨y, hmem, hl⟩ := ih hs hy
        exact ⟨y, List.mem_cons_of_mem e hmem, hl⟩

theorem Expr.OptLowersTo.exists_of_mem {aliases : List (Variable × Variable)} {e e' : Option Expr}
    (hl : Expr.OptLowersTo ctx site aliases e e') {y' : Expr} (hy : y' ∈ e'.toList) :
    ∃ y ∈ e.toList, y.LowersTo ctx site aliases y' := by
  cases hl with
  | none => exact absurd hy List.not_mem_nil
  | some h =>
    obtain rfl := List.mem_singleton.mp hy
    exact ⟨_, List.mem_cons_self, h⟩

/-- Lowered expressions are closed. -/
theorem Expr.LowersTo.closed {e e' : Expr} (h : ctx.Binds m)
    (hn : (p, .expr e) ∈ m.numbered.sites) (hc : ctx.Covers m names bound V p.scope site)
    (hl : e.LowersTo ctx site names.aliases e') : (Node.expr e').Closed bound V := by
  generalize hk : Node.expr e = n at hn
  induction n using Node.induction generalizing e e' site with
  | step n ih =>
    subst hk
    -- the operands are at the same place
    have sub (hnone : (Node.expr e).opened? = none) {loc : Loc} {y y' : Expr} (hy : y ∈ e.operands)
        (hl : y.LowersTo ctx (site.locate loc) names.aliases y') :
        (Node.expr y').Closed bound V := by
      obtain ⟨hmem, hsite⟩ := MethodBody.mem_sites_of_operand hn hnone hy
      exact ih _ hmem (hc.locate loc) hl rfl hsite
    have hview (loc : Loc) := (hc.locate loc).view
    cases hl with
    | literal | newEnv | zero => exact .expr rfl trivial (fun _ => (nomatch ·))
    | ref hx => exact (h.closed_variableRef hn (hc.locate _) hx).withLoc _
    | self hx => exact (h.closed_receiverRef hx (hview _)).withLoc _
    | assign hx hy | binary hx hy =>
      have hx := sub rfl (by simp [operands]) hx
      have hy := sub rfl (by simp [operands]) hy
      exact .expr rfl trivial (by simp [operands, hx, hy])
    | lambda _ _ hr | functionRef _ _ hr =>
      refine .expr rfl trivial fun y hy => ?_
      exact h.closed_callReceiver hr (hview _) y (Option.mem_toList.mp hy)
    | localCall _ _ hr ha hes =>
      refine .expr rfl trivial fun y hy => ?_
      rcases List.mem_append.mp hy with hy | hy
      · exact h.closed_callReceiver hr (hview _) y (Option.mem_toList.mp hy)
      rcases List.mem_append.mp hy with hy | hy
      · obtain ⟨z, hz, hl⟩ := ha.exists_of_mem hy
        exact sub rfl hz hl
      · obtain ⟨q, -, hq⟩ := (exists_mem_of_forall₂ (forall₂_of_mapM_ok hes)).2 y hy
        exact LoweringContext.closed_envRef hq (hview _)
    | call hr ha =>
      refine .expr rfl trivial fun y hy => ?_
      rcases List.mem_append.mp hy with hy | hy
      · obtain ⟨z, hz, hl⟩ := hr.exists_of_mem hy
        exact sub rfl (List.mem_append_left _ hz) hl
      · obtain ⟨z, hz, hl⟩ := ha.exists_of_mem hy
        exact sub rfl (List.mem_append_right _ hz) hl
    | invoke hx ha =>
      refine .expr rfl trivial fun y hy => ?_
      rcases List.mem_cons.mp hy with rfl | hy
      · exact sub rfl List.mem_cons_self hx
      · obtain ⟨z, hz, hl⟩ := ha.exists_of_mem hy
        exact sub rfl (List.mem_cons_of_mem _ hz) hl
    | field hr =>
      have hr := sub rfl List.mem_cons_self hr
      exact .expr rfl trivial (by simp [operands, hr])
    | delegate hr =>
      refine .expr rfl trivial fun y hy => ?_
      obtain ⟨z, hz, hl⟩ := hr.exists_of_mem hy
      exact sub rfl hz hl

/-! ## Statements -/

variable {b b' : Block}

namespace LoweringContext

/-- What may be referred to where block `b` begins is in scope, but for the variables that the block
declares. -/
structure CoversEntry (ctx : LoweringContext) (m : MethodBody) (names : Names) (bound : Bool)
    (V : List Variable) (b : Block) (site : Site) : Prop where
  plain : ∀ t ∈ ctx.graph.ancestors b.id, ctx.graph.frame? t = ctx.graph.frame? b.id →
    ∀ v ∈ (ctx.graph.scope t).vars, m.receiver ≠ some v → ctx.graph.envOf? v = none →
      v ∈ b.declared ∨ names.standIn v ∈ V
  params : ∀ v ∈ (ctx.graph.scope b.id).vars, v.role = .parameter → names.standIn v ∈ V
  view : site.view.Within ctx bound V

/-- A block inside a scope, where it begins. -/
theorem Covers.entry (h : ctx.Binds m) (hc : ctx.Covers m names bound V p.scope site)
    (hn : (p, n) ∈ m.numbered.sites) (hopen : n.opened? = some b) (hnested : n.nested? = none) :
    ctx.CoversEntry m names bound V b site := by
  have hholds := h.seated.exact.holds
  have hframe := hholds.frame_into hn hopen hnested
  -- without a function there are no parameters
  have hvars (v : Variable) (hv : v ∈ (ctx.graph.scope b.id).vars) :
      ∃ k ∈ n.inner, k.declared? = some v := by
    have hparams : n.params = [] := by simp [Node.params, Node.function?, hnested]
    rw [OrderedSet.mem_def, ((hholds.lays p n hn).scope b hopen).vars, hparams] at hv
    exact List.mem_filterMap.mp hv
  refine ⟨?_, ?_, hc.view⟩
  · intro t ht hsame v hv hne hplain
    rw [hholds.ancestors_opened hn hopen] at ht
    rcases List.mem_cons.mp ht with rfl | ht
    · obtain ⟨k, hk, hdecl⟩ := hvars v hv
      rw [Node.inner_of_opened hopen] at hk
      exact .inl (List.mem_filterMap.mpr ⟨k, hk, hdecl⟩)
    · exact .inr (hc.plain t ht (hsame.trans hframe) v hv hne hplain)
  · intro v hv hrole
    obtain ⟨k, hk, hdecl⟩ := hvars v hv
    have := h.inRole.role_declared (MethodBody.mem_sites_of_inner hn hk) hdecl
    cases hrole.symm.trans this

/-- The statements that create an environment are closed once its holder is known. -/
theorem Suits.closed_createEnv (hs : ctx.Suits m) {e : EnvId} {t : EnvType} {holder : Variable}
    {created : List Stmt}
    (hcreate : ctx.createEnv site names.aliases e t holder = .ok (created, site'))
    (hholder : holder ∈ V) (hw : site.view.Within ctx bound V)
    (hparams : ∀ v ∈ (ctx.graph.env e).vars, v.role = .parameter → names.standIn v ∈ V)
    (s : Stmt) (hmem : s ∈ created) : (Node.stmt s).Closed bound V := by
  obtain ⟨init, rest, rfl, hinit, hrest⟩ := createEnv_cases hcreate
  rcases List.mem_cons.mp hmem with rfl | hmem
  · refine .of_isNone rfl (Option.some_ne_none holder) fun k hk => ?_
    obtain rfl : k = .expr init := by simpa [Node.inner] using hk
    rcases hinit with rfl | rfl <;> exact .expr rfl trivial (fun _ => (nomatch ·))
  · obtain ⟨f, y, rfl, hy⟩ := hrest s hmem
    have hvalue : (Node.expr y).Closed bound V := by
      rcases hy with ⟨q, hy⟩ | hy | ⟨v, hv, hrole, rfl⟩
      · exact closed_envRef hy hw
      · exact hs.closed_receiverRef hy hw
      · exact .expr rfl ⟨_, hparams v hv hrole, rfl⟩ (fun _ => (nomatch ·))
    have hfield : (Node.expr (.field {} (.ref {} (some holder)) f)).Closed bound V := by
      refine .expr rfl trivial fun z hz => ?_
      rw [List.mem_singleton.mp hz]
      exact .expr rfl ⟨holder, hholder, rfl⟩ (fun _ => (nomatch ·))
    refine .of_isNone rfl trivial fun k hk => ?_
    rw [List.mem_singleton.mp hk]
    exact .expr rfl trivial (by simp [Expr.operands, hfield, hvalue])

end LoweringContext

theorem Stmt.AllLowerIn.exists_of_mem {ss ss' : List Stmt}
    (hl : Stmt.AllLowerIn ctx names site ss ss') {t : Stmt} (ht : t ∈ ss') :
    ∃ s ∈ ss, s.LowersIn ctx names site (some t) := by
  induction ss generalizing ss' with
  | nil =>
    cases hl
    exact absurd ht List.not_mem_nil
  | cons s ss ih =>
    cases hl with
    | cons h hs =>
      rcases List.mem_append.mp ht with ht | ht
      · exact ⟨s, List.mem_cons_self, Option.mem_toList.mp ht ▸ h⟩
      · obtain ⟨s', hmem, hl⟩ := ih hs ht
        exact ⟨s', List.mem_cons_of_mem s hmem, hl⟩

/-- A lowered block is closed if its statements are. -/
theorem Block.LowersIn.closed_of_stmts (h : ctx.Binds m)
    (ih : ∀ s ∈ b.stmts, ∀ {site V t}, ctx.Covers m names bound V b.id site →
      s.LowersIn ctx names site (some t) → (Node.stmt t).Closed bound V)
    (hc : ctx.CoversEntry m names bound V b site) (hl : b.LowersIn ctx names site b') :
    (Node.block b').Closed bound V := by
  have hdecl (x : Variable) := hl.declared (x := x)
  cases hl with
  | @mk _ id loc stmts created site' stmts' ho hs =>
    obtain ⟨W, hW⟩ : ∃ W, W = (Block.mk id loc (created ++ stmts')).declared ++ V := ⟨_, rfl⟩
    have hsub : V ⊆ W := hW ▸ List.subset_append_right _ _
    have hnew (x : Variable) (hx : x ∈ (Block.mk id loc (created ++ stmts')).declared) : x ∈ W :=
      hW ▸ List.mem_append_left _ hx
    have hopen : (∀ s ∈ created, (Node.stmt s).Closed bound W) ∧
        site'.view.Within ctx bound W := by
      have hview := hc.view.mono hsub
      cases ho with
      | bare => exact ⟨fun _ => (nomatch ·), hview⟩
      | @env e t holder _ _ henv ht hh hcreate =>
        have hholder := hnew _ ((hdecl _).mpr (.inl ⟨e, henv, hh⟩))
        obtain ⟨hlt, hscope, -⟩ := (h.seated.placed.scope_env id e).mp henv
        refine ⟨h.closed_createEnv hcreate hholder hview fun v hv hrole => ?_, ?_⟩
        · have hvars := ((h.seated.placed.mem_vars_iff hlt).mp hv).1
          exact hsub (hc.params v (hscope ▸ hvars) hrole)
        · rw [(ctx.createEnv_inv hcreate).1]
          exact hview.hold hholder e
    have hcovers : ctx.Covers m names bound W id site' := by
      refine ⟨?_, hopen.2⟩
      intro t ht hframe v hv hne hplain
      rcases hc.plain t ht hframe v hv hne hplain with hmem | hmem
      · exact hnew _ ((hdecl _).mpr (.inr ⟨v, hmem, hplain, rfl⟩))
      · exact hsub hmem
    refine .mk trivial fun k hk => ?_
    change k.Closed bound ((Block.mk id loc (created ++ stmts')).declared ++ V)
    rw [← hW]
    obtain ⟨s, hmem, rfl⟩ := List.mem_map.mp hk
    rcases List.mem_append.mp hmem with hmem | hmem
    · exact hopen.1 s hmem
    · obtain ⟨s₀, hs₀, hl⟩ := hs.exists_of_mem hmem
      exact ih s₀ hs₀ hcovers hl

/-- A lowered statement is closed if the statements and blocks inside are. -/
theorem Stmt.LowersIn.closed_of_inner {s t : Stmt} (h : ctx.Binds m) (hbuilt : m.built.isOk)
    (hn : (p, .stmt s) ∈ m.numbered.sites) (hc : ctx.Covers m names bound V p.scope site)
    (ihs : ∀ x, .stmt x ∈ (Node.stmt s).inner → ∀ {site V t},
      ctx.Covers m names bound V (p.into (.stmt s)).scope site →
      x.LowersIn ctx names site (some t) → (Node.stmt t).Closed bound V)
    (ihb : ∀ b, .block b ∈ (Node.stmt s).inner → ∀ {site V b'},
      ctx.Covers m names bound V (p.into (.stmt s)).scope site →
      b.LowersIn ctx names site b' → (Node.block b').Closed bound V)
    (hl : s.LowersIn ctx names site (some t)) : (Node.stmt t).Closed bound V := by
  have hexpr (hnone : (Node.stmt s).opened? = none) {loc : Loc} {x x' : Expr}
      (hx : .expr x ∈ (Node.stmt s).inner)
      (hl : x.LowersTo ctx (site.locate loc) names.aliases x') : (Node.expr x').Closed bound V :=
    hl.closed h (MethodBody.mem_sites_of_isNone hn hnone hx) (hc.locate loc)
  have hblock (hnone : (Node.stmt s).opened? = none) {loc : Loc} {k k' : Block}
      (hk : .block k ∈ (Node.stmt s).inner)
      (hl : k.LowersIn ctx names (site.locate loc) k') : (Node.block k').Closed bound V := by
    refine ihb k hk ?_ hl
    rw [Node.into_of_isNone hnone]
    exact hc.locate loc
  have hopt (hnone : (Node.stmt s).opened? = none) {loc : Loc} {x x' : Option Expr}
      (hx : ∀ y ∈ x.toList, .expr y ∈ (Node.stmt s).inner)
      (hl : Expr.OptLowersTo ctx (site.locate loc) names.aliases x x') (k : Node)
      (hk : k ∈ x'.toList.map Node.expr) : k.Closed bound V := by
    obtain ⟨y', hy', rfl⟩ := List.mem_map.mp hk
    obtain ⟨y, hy, hl⟩ := hl.exists_of_mem hy'
    exact hexpr hnone (hx y hy) hl
  cases hl with
  | @block _ k k' hl =>
    have hentry := (hc.locate k.loc).entry h hn rfl rfl
    have hclosed : (Node.block k').Closed bound V := by
      refine hl.closed_of_stmts h (fun x hx {site V t} hcov hl => ?_) hentry
      refine ihs x (List.mem_map_of_mem hx) ?_ hl
      rwa [Path.scope_into (n := .stmt (.block k)) rfl]
    obtain ⟨own, hinner⟩ := hclosed
    exact .mk trivial hinner
  | @declare _ loc v init init' _ hi hd =>
    have hinit := hopt rfl (by simp [Node.inner]) hi
    cases hd with
    | @hoistedInit e value target he ht =>
      have htarget := LoweringContext.closed_hoisted he ht (hc.locate loc).view
      have hvalue := hinit _ List.mem_cons_self
      refine .of_isNone rfl trivial fun k hk => ?_
      rw [List.mem_singleton.mp hk]
      exact .expr rfl trivial (by simp [Expr.operands, htarget, hvalue])
    | plain => exact .of_isNone rfl (Option.some_ne_none _) hinit
  | @declareNothing _ loc init =>
    exact absurd List.mem_cons_self (MethodBody.targets_of_isOk_built hbuilt hn)
  | expr hx =>
    refine .of_isNone rfl trivial fun k hk => ?_
    rw [List.mem_singleton.mp hk]
    exact hexpr rfl List.mem_cons_self hx
  | ret hx => exact .of_isNone rfl trivial (hopt rfl (by simp [Node.inner]) hx)
  | @cond _ loc test test' thenBlock thenBlock' elseBlock elseBlock' ht hb he =>
    have ht := hexpr rfl (by simp [Node.inner]) ht
    have hb := hblock rfl (by simp [Node.inner]) hb
    refine .of_isNone rfl trivial fun k hk => ?_
    obtain rfl | rfl | ⟨x, hx, rfl⟩ : k = .expr test' ∨ k = .block thenBlock' ∨
        ∃ x, elseBlock' = some x ∧ .block x = k := by simpa [Node.inner] using hk
    · exact ht
    · exact hb
    · subst hx
      cases he with
      | some he => exact hblock rfl (by simp [Node.inner]) he
  | @loop _ loc test test' body body' ht hb =>
    have ht := hexpr rfl (by simp [Node.inner]) ht
    have hb := hblock rfl (by simp [Node.inner]) hb
    refine .of_isNone rfl trivial fun k hk => ?_
    obtain rfl | rfl : k = .expr test' ∨ k = .block body' := by simpa [Node.inner] using hk
    · exact ht
    · exact hb

/-- Lowered statements and blocks are closed. -/
theorem Node.closed_of_lowersIn (n : Node) (h : ctx.Binds m) (hbuilt : m.built.isOk)
    (hn : (p, n) ∈ m.numbered.sites) :
    (∀ s, n = .stmt s → ∀ {site V t}, ctx.Covers m names bound V p.scope site →
      s.LowersIn ctx names site (some t) → (Node.stmt t).Closed bound V) ∧
    ∀ b, n = .block b → ∀ {site V b'}, ctx.Covers m names bound V p.scope site →
      b.LowersIn ctx names site b' → (Node.block b').Closed bound V := by
  induction n using Node.induction generalizing p with
  | step n ih =>
    have hinner (k : Node) (hk : k ∈ n.inner) := ih k hk (MethodBody.mem_sites_of_inner hn hk)
    constructor
    · rintro s rfl site V t hc hl
      exact hl.closed_of_inner h hbuilt hn hc (fun x hx => (hinner _ hx).1 x rfl)
        fun b hb => (hinner _ hb).2 b rfl
    · rintro b rfl site V b' hc hl
      refine hl.closed_of_stmts h (fun s hs {site V t} hcov hl => ?_) (hc.entry h hn rfl rfl)
      refine (hinner _ (List.mem_map_of_mem hs)).1 s rfl ?_ hl
      rwa [Path.scope_into (n := .block b) rfl]

/-! ## Frames -/

namespace LoweringContext.Binds

variable {fr : Option ClosureId} (h : ctx.Binds m) (hfr : fr ∈ ctx.graph.frames)
  (hb : (ctx.graph.scope (ctx.graph.entry fr)).block = some b)

include h hfr hb

/-- Where a frame begins, only the variables of its outermost scope have to be known. -/
theorem coversEntry (hvars : ∀ v ∈ (ctx.graph.scope b.id).vars, m.receiver = some v ∨
      v.role = .parameter ∧ names.standIn v ∈ V ∨ v ∈ b.declared)
    (hview : site.view.Within ctx bound V) : ctx.CoversEntry m names bound V b site := by
  have hholds := h.seated.exact.holds
  obtain ⟨p, b', hb', hid, hp, hstmts, -⟩ := hholds.frame_block hfr
  obtain rfl : b' = b := Option.some.inj (hb'.symm.trans hb)
  refine ⟨?_, ?_, hview⟩
  · intro t ht hframe v hv hne _
    obtain rfl : t = b'.id := by
      rw [hid] at ht hframe ⊢
      exact hholds.eq_entry ht (hframe.trans (hholds.frame_entry hfr))
    grind
  · intro v hv hrole
    rcases hvars v hv with hreceiver | ⟨-, hmem⟩ | hmem
    · exact nomatch hrole.symm.trans (h.inRole.receiver v hreceiver)
    · exact hmem
    · obtain ⟨s, hs, hdecl⟩ := Block.mem_declared.mp hmem
      exact nomatch hrole.symm.trans (h.inRole.role_declared (hstmts s hs) hdecl)

/-- What a frame has become is closed. -/
theorem closed_frame (hbuilt : m.built.isOk) (hc : ctx.CoversEntry m names bound V b site)
    (hl : b.LowersIn ctx names site b') : (Node.block b').Closed bound V := by
  obtain ⟨p, b', hb', -, hp, hstmts, -⟩ := h.seated.exact.holds.frame_block hfr
  obtain rfl : b' = b := Option.some.inj (hb'.symm.trans hb)
  refine hl.closed_of_stmts h (fun s hs {site V t} hcov hl => ?_) hc
  exact (Node.closed_of_lowersIn _ h hbuilt (hstmts s hs)).1 s rfl (hp ▸ hcov) hl

end LoweringContext.Binds

end Unnest
