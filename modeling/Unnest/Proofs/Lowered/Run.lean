import Unnest.Proofs.Lowered.Reach
import Unnest.Proofs.Lowered.Relation

/-!
# Lowering succeeds

The walk over the trees of a body that fits its context meets no failure: every tree is lowered to
what `Expr.LowersTo` and its companions say, and every nested function below it gets its body, once.

## Main statements

* `Node.lowerable` : every node of the body is lowered.
* `LoweringContext.Fits.lowerMethod_eq` : so is the whole body.
-/

namespace Unnest

open LoweringContext Lower

variable {ctx : LoweringContext} {m : MethodBody} {site : Site} {st st₁ st₂ : LoweringState}
  {fs gs : List NestedFunction} {p : Path}

/-! ## One step after the other -/

namespace Lower

variable {α β : Type}

theorem bind_run {x : Lower α} {f : α → Lower β} {a : α} (hx : x st = (a, st₁)) :
    (x >>= f) st = f a st₁ := by
  simp only [bind, StateT.bind, hx]

theorem attempt_ok {x : Except Cause α} {a : α} (hx : x = .ok a) (site : Site)
    (st : LoweringState) : attempt site x st = (some a, st) := by
  rw [hx]
  rfl

theorem failed_run (hst : st.failure = none) : failed st = (false, st) := by
  change (st.failure.isSome, st) = (false, st)
  rw [hst]
  rfl

end Lower

/-! ## Functions that are lowered -/

namespace LoweringContext

/-- Nothing has failed, and the functions `fs` are still to be lowered. -/
structure Ready (ctx : LoweringContext) (fs : List NestedFunction) (st : LoweringState) :
    Prop where
  failure : st.failure = none
  size : st.bodies.size = ctx.graph.closures.size
  nodup : fs.Nodup
  todo : ∀ f ∈ fs, ∀ c, ctx.graph.closureOf? f = some c → st.bodies.getD c none = none

/-- The functions `fs` and no others were lowered between two states. -/
structure Progress (ctx : LoweringContext) (fs : List NestedFunction) (st st' : LoweringState) :
    Prop where
  failure : st'.failure = none
  size : st'.bodies.size = st.bodies.size
  done : ∀ f ∈ fs, ∃ c b, ctx.graph.closureOf? f = some c ∧ st'.bodies.getD c none = some b ∧
    ctx.LowersClosure c b
  other : ∀ c, (∀ f ∈ fs, ctx.graph.closureOf? f ≠ some c) →
    st'.bodies.getD c none = st.bodies.getD c none

theorem Ready.left (h : ctx.Ready (fs ++ gs) st) : ctx.Ready fs st :=
  ⟨h.failure, h.size, (List.nodup_append.mp h.nodup).1,
    fun f hf => h.todo f (List.mem_append_left gs hf)⟩

theorem Ready.of_sublist (h : ctx.Ready fs st) (hs : gs.Sublist fs) : ctx.Ready gs st :=
  ⟨h.failure, h.size, h.nodup.sublist hs, fun f hf => h.todo f (hs.subset hf)⟩

theorem Ready.progress_nil (h : ctx.Ready fs st) : ctx.Progress [] st st :=
  ⟨h.failure, rfl, fun _ hf => absurd hf List.not_mem_nil, fun _ _ => rfl⟩

theorem Progress.of_eq (hp : ctx.Progress fs st st₁) (hb : st₂.bodies = st₁.bodies)
    (hf : st₂.failure = st₁.failure) : ctx.Progress fs st st₂ :=
  ⟨hf.trans hp.failure, hb ▸ hp.size, hb ▸ hp.done, hb ▸ hp.other⟩

section Fits

variable (h : ctx.Fits m)

include h

theorem Fits.closureOf_inj {f f' : NestedFunction} {c : ClosureId}
    (hf : ctx.graph.closureOf? f = some c) (hf' : ctx.graph.closureOf? f' = some c) : f = f' :=
  (h.holds.closureOf_eq_some.mp hf).2.symm.trans (h.holds.closureOf_eq_some.mp hf').2

theorem Ready.right (hr : ctx.Ready (fs ++ gs) st) (hp : ctx.Progress fs st st₁) :
    ctx.Ready gs st₁ where
  failure := hp.failure
  size := hp.size.trans hr.size
  nodup := (List.nodup_append.mp hr.nodup).2.1
  todo f hf c hc := by
    rw [hp.other c fun f' hf' hc' => ?_]
    · exact hr.todo f (List.mem_append_right fs hf) c hc
    · exact (List.nodup_append.mp hr.nodup).2.2 f' hf' f hf (h.closureOf_inj hc' hc)

theorem Progress.append (hr : ctx.Ready (fs ++ gs) st) (hp : ctx.Progress fs st st₁)
    (hp' : ctx.Progress gs st₁ st₂) : ctx.Progress (fs ++ gs) st st₂ where
  failure := hp'.failure
  size := hp'.size.trans hp.size
  done f hf := by
    rcases List.mem_append.mp hf with hf | hf
    · obtain ⟨c, b, hc, hb, hl⟩ := hp.done f hf
      refine ⟨c, b, hc, ?_, hl⟩
      rw [hp'.other c fun f' hf' hc' => ?_, hb]
      exact (List.nodup_append.mp hr.nodup).2.2 f hf f' hf' (h.closureOf_inj hc hc')
    · exact hp'.done f hf
  other c hc := by
    rw [hp'.other c fun f hf => hc f (List.mem_append_right fs hf),
      hp.other c fun f hf => hc f (List.mem_append_left gs hf)]

end Fits

end LoweringContext

/-! ## What it means to be lowered -/

/-- Wherever the expression stands, it is lowered. -/
def Expr.Lowerable (ctx : LoweringContext) (m : MethodBody) (e : Expr) : Prop :=
  ∀ depth p site st, (p, .expr e) ∈ m.numbered.sites → ctx.At p.scope site →
    ctx.Ready (Node.expr e).functions st → (Node.expr e).functions.length ≤ depth →
    ∃ e' st', e.lower ctx (ctx.lowerClosure depth) site st = (some e', st') ∧
      ctx.Progress (Node.expr e).functions st st' ∧ st'.aliases = st.aliases ∧
      e.LowersTo ctx site st.aliases e'

def Stmt.Lowerable (ctx : LoweringContext) (m : MethodBody) (s : Stmt) : Prop :=
  ∀ depth p site st holders, (p, .stmt s) ∈ m.numbered.sites → ctx.At p.scope site →
    ctx.Ready (Node.stmt s).functions st → (Node.stmt s).functions.length ≤ depth →
    ∃ s' st' holders', s.lower ctx (ctx.lowerClosure depth) site st = (s', st') ∧
      ctx.Progress (Node.stmt s).functions st st' ∧
      s.LowersTo ctx site ⟨st.aliases, holders⟩ s' ⟨st'.aliases, holders'⟩

def Block.Lowerable (ctx : LoweringContext) (m : MethodBody) (b : Block) : Prop :=
  ∀ depth p site st holders, (p, .block b) ∈ m.numbered.sites → ctx.At p.scope site →
    ctx.Ready (Node.block b).functions st → (Node.block b).functions.length ≤ depth →
    ∃ b' st' holders', b.lower ctx (ctx.lowerClosure depth) site st = (some b', st') ∧
      ctx.Progress (Node.block b).functions st st' ∧
      b.LowersTo ctx site ⟨st.aliases, holders⟩ b' ⟨st'.aliases, holders'⟩

def Node.Lowerable (ctx : LoweringContext) (m : MethodBody) : Node → Prop
  | .expr e => e.Lowerable ctx m
  | .stmt s => s.Lowerable ctx m
  | .block b => b.Lowerable ctx m

/-! ## Lists -/

section Lists

variable (h : ctx.Fits m)

include h

theorem Expr.lowerAll_eq {es : List Expr} {depth : Nat}
    (hes : ∀ e ∈ es, e.Lowerable ctx m ∧ (p, .expr e) ∈ m.numbered.sites)
    (hat : ctx.At p.scope site)
    (hready : ctx.Ready ((es.map Node.expr).flatMap Node.functions) st)
    (hdepth : ((es.map Node.expr).flatMap Node.functions).length ≤ depth) :
    ∃ es' st', Expr.lowerAll ctx (ctx.lowerClosure depth) site es st = (some es', st') ∧
      ctx.Progress ((es.map Node.expr).flatMap Node.functions) st st' ∧
      st'.aliases = st.aliases ∧ Expr.AllLowerTo ctx site st.aliases es es' := by
  induction es generalizing st with
  | nil =>
    exact ⟨[], st, by rw [Expr.lowerAll]; rfl, hready.progress_nil, rfl, .nil⟩
  | cons e es ih =>
    obtain ⟨he, hsite⟩ := hes e List.mem_cons_self
    rw [List.map_cons, List.flatMap_cons] at hready hdepth ⊢
    rw [List.length_append] at hdepth
    obtain ⟨e', st₁, hrun₁, hp₁, ha₁, hl₁⟩ :=
      he depth p site st hsite hat hready.left (by omega)
    obtain ⟨es', st₂, hrun₂, hp₂, ha₂, hl₂⟩ := ih (fun x hx => hes x (List.mem_cons_of_mem e hx))
      (hready.right h hp₁) (by omega)
    refine ⟨e' :: es', st₂, ?_, hp₁.append h hready hp₂, ha₂.trans ha₁, .cons hl₁ (ha₁ ▸ hl₂)⟩
    rw [Expr.lowerAll, bind_run hrun₁, bind_run hrun₂]
    rfl

theorem Stmt.lowerAll_eq {ss : List Stmt} {depth : Nat} (holders : List (EnvId × Variable))
    (hss : ∀ s ∈ ss, s.Lowerable ctx m ∧ (p, .stmt s) ∈ m.numbered.sites)
    (hat : ctx.At p.scope site)
    (hready : ctx.Ready ((ss.map Node.stmt).flatMap Node.functions) st)
    (hdepth : ((ss.map Node.stmt).flatMap Node.functions).length ≤ depth) :
    ∃ ss' st' holders',
      Stmt.lowerAll ctx (ctx.lowerClosure depth) site ss st = (some ss', st') ∧
      ctx.Progress ((ss.map Node.stmt).flatMap Node.functions) st st' ∧
      Stmt.AllLowerTo ctx site ⟨st.aliases, holders⟩ ss ss' ⟨st'.aliases, holders'⟩ := by
  induction ss generalizing st holders with
  | nil =>
    exact ⟨[], st, holders, by rw [Stmt.lowerAll]; rfl, hready.progress_nil, .nil⟩
  | cons s ss ih =>
    obtain ⟨hs, hsite⟩ := hss s List.mem_cons_self
    rw [List.map_cons, List.flatMap_cons] at hready hdepth ⊢
    rw [List.length_append] at hdepth
    obtain ⟨s', st₁, holders₁, hrun₁, hp₁, hl₁⟩ :=
      hs depth p site st holders hsite hat hready.left (by omega)
    obtain ⟨ss', st₂, holders₂, hrun₂, hp₂, hl₂⟩ := ih holders₁
      (fun x hx => hss x (List.mem_cons_of_mem s hx)) (hready.right h hp₁) (by omega)
    refine ⟨s'.toList ++ ss', st₂, holders₂, ?_, hp₁.append h hready hp₂, .cons hl₁ hl₂⟩
    rw [Stmt.lowerAll, bind_run hrun₁, bind_run (failed_run hp₁.failure)]
    simp only [Bool.false_eq_true, if_false]
    rw [bind_run hrun₂]
    rfl

/-! ## Scopes -/

/-- A scope begins with its environment. -/
theorem LoweringContext.Fits.openScope_eq {s : ScopeId} (hent : ctx.Enters s site)
    (st : LoweringState) (holders : List (EnvId × Variable)) :
    ∃ created site' st' holders', ctx.openScope site s st = (some (created, site'), st') ∧
      ctx.At s site' ∧ st'.aliases = st.aliases ∧ st'.bodies = st.bodies ∧
      st'.failure = st.failure ∧
      ctx.Opens site ⟨st.aliases, holders⟩ s created site' ⟨st'.aliases, holders'⟩ := by
  rw [openScope]
  cases hs : (ctx.graph.scope s).env with
  | none =>
    exact ⟨[], site, st, holders, rfl, h.at_of_enters hent hs, rfl, rfl, rfl, .bare hs⟩
  | some e =>
    obtain ⟨hlt, -, hlive⟩ := (h.chained.placed.scope_env s e).mp hs
    obtain ⟨t, ht, hmem, hte⟩ := h.declared.typed.typeOf hlt hlive
    let holder := (st.supply.holder e (t.reference (ctx.typeArgs site.frame))).1
    obtain ⟨created, site', hcreate, hat⟩ :=
      h.createEnv_ok hent hs hmem hte st.aliases holder
    refine ⟨created, site', { st with
      supply := (st.supply.holder e (t.reference (ctx.typeArgs site.frame))).2 },
      (e, holder) :: holders, ?_, hat, rfl, rfl, rfl, .env hs ht ⟨_, rfl⟩ hcreate rfl⟩
    simp only [ht]
    exact attempt_ok hcreate site _

/-- A block is lowered if its statements are. -/
theorem LoweringContext.Fits.lowerScope_eq {b : Block} {depth : Nat}
    (holders : List (EnvId × Variable)) (hscope : p.scope = b.id)
    (hss : ∀ s ∈ b.stmts, s.Lowerable ctx m ∧ (p, .stmt s) ∈ m.numbered.sites)
    (hent : ctx.Enters b.id site)
    (hready : ctx.Ready ((b.stmts.map Node.stmt).flatMap Node.functions) st)
    (hdepth : ((b.stmts.map Node.stmt).flatMap Node.functions).length ≤ depth) :
    ∃ b' st' holders', ctx.lowerScope (ctx.lowerClosure depth) site b.id b st = (some b', st') ∧
      ctx.Progress ((b.stmts.map Node.stmt).flatMap Node.functions) st st' ∧
      b.LowersTo ctx site ⟨st.aliases, holders⟩ b' ⟨st'.aliases, holders'⟩ := by
  obtain ⟨created, site', st₁, holders₁, hopen, hat, ha, hb, hf, hopens⟩ :=
    h.openScope_eq hent st holders
  have hready₁ : ctx.Ready ((b.stmts.map Node.stmt).flatMap Node.functions) st₁ :=
    ⟨hf.trans hready.failure, hb ▸ hready.size, hready.nodup, hb ▸ hready.todo⟩
  obtain ⟨ss', st₂, holders₂, hrun, hp, hl⟩ := Stmt.lowerAll_eq h holders₁ hss
    (hscope ▸ hat) hready₁ hdepth
  cases b with
  | mk id loc stmts =>
    refine ⟨.mk id loc (created ++ ss'), st₂, holders₂, ?_, ?_, .mk hopens hl⟩
    · rw [lowerScope, bind_run hopen]
      exact (bind_run hrun).trans rfl
    · exact ⟨hp.failure, hb ▸ hp.size, hp.done, hb ▸ hp.other⟩

/-- A nested function is lowered into its method. The variables that stand for others in the
function are forgotten afterwards. -/
theorem LoweringContext.Fits.lowerClosure_eq {n : Node} {f : NestedFunction} {b : Block}
    {depth : Nat} (hn : (p, n) ∈ m.numbered.sites) (hnested : n.nested? = some (some f, b))
    (hss : ∀ s ∈ b.stmts, s.Lowerable ctx m) (hready : ctx.Ready n.functions st)
    (hdepth : n.functions.length ≤ depth) (loc : Loc) :
    ∃ c st', ctx.graph.closureOf? f = some c ∧ ctx.lowerClosure depth c loc st = ((), st') ∧
      ctx.Progress n.functions st st' ∧ st'.aliases = st.aliases := by
  have hb := Node.opened_of_nested hnested
  have hfun : n.function? = some f := by simp [Node.function?, hnested]
  obtain ⟨f', c, hf', hlays⟩ := (h.holds.lays p n hn).function (some f) b hnested
  obtain rfl := Option.some.inj hf'
  have hclosure := h.holds.closureOf_eq_some.mpr ⟨hlays.lt, hlays.function⟩
  have hblock := ((h.holds.lays p n hn).scope b hb).block
  obtain ⟨lm, hlm, -⟩ := h.declared.methodOf hlays.lt
  have hfs : n.functions = f :: (b.stmts.map Node.stmt).flatMap Node.functions := by
    rw [Node.functions_eq, hfun, Node.inner_of_opened hb]
    rfl
  rw [hfs] at hready hdepth ⊢
  obtain ⟨depth, rfl⟩ : ∃ k, depth = k + 1 := ⟨depth - 1, by simp at hdepth; omega⟩
  have hready₁ : ctx.Ready ((b.stmts.map Node.stmt).flatMap Node.functions)
      { st with aliases := lm.copies } :=
    let hr := hready.of_sublist (List.sublist_cons_self f _)
    ⟨hr.failure, hr.size, hr.nodup, hr.todo⟩
  obtain ⟨b', st₁, holders, hrun, hp, hl⟩ := h.lowerScope_eq (p := p.into n) []
    (Path.scope_into hb p) (fun s hs => ⟨hss s hs, MethodBody.mem_sites_of_inner hn (by
      rw [Node.inner_of_opened hb]
      exact List.mem_map_of_mem hs)⟩)
    (hlays.body ▸ h.enters_body hlays.lt hlm loc) hready₁ (by simpa using hdepth)
  refine ⟨c, { st₁ with
    aliases := st.aliases, bodies := st₁.bodies.setIfInBounds c (some b') }, hclosure, ?_, ?_, rfl⟩
  · rw [lowerClosure, hlm, hlays.body, hblock]
    change (ctx.lowerScope (ctx.lowerClosure depth) (ctx.methodSite lm loc) b.id b >>= fun body =>
      modify fun s => { s with
        aliases := st.aliases, bodies := s.bodies.setIfInBounds c body })
      { st with aliases := lm.copies } = _
    rw [bind_run hrun]
    rfl
  · have hsize : c < st₁.bodies.size := by
      rw [hp.size]
      exact hready.size ▸ hlays.lt
    constructor
    case failure => exact hp.failure
    case size => exact (Array.size_setIfInBounds).trans hp.size
    case done =>
      intro g hg
      rcases List.mem_cons.mp hg with rfl | hg
      · refine ⟨c, b', hclosure, by simp [hsize], lm, loc, b, _, hlm, ?_, hl⟩
        rw [hlays.body, hblock]
      · obtain ⟨d, bd, hd, hbd, hld⟩ := hp.done g hg
        refine ⟨d, bd, hd, ?_, hld⟩
        have hne : c ≠ d := by
          rintro rfl
          exact (List.nodup_cons.mp hready.nodup).1 (h.closureOf_inj hclosure hd ▸ hg)
        simpa [hne] using hbd
    case other =>
      intro d hd
      have hne : c ≠ d := by
        rintro rfl
        exact hd f List.mem_cons_self hclosure
      have := hp.other d fun g hg => hd g (List.mem_cons_of_mem f hg)
      simpa [hne] using this

/-- The first and only time, a nested function is lowered where it stands. -/
theorem LoweringContext.Fits.lowerFunction_eq {n : Node} {f : NestedFunction} {b : Block}
    {depth : Nat} (hn : (p, n) ∈ m.numbered.sites) (hnested : n.nested? = some (some f, b))
    (hss : ∀ s ∈ b.stmts, s.Lowerable ctx m) (hready : ctx.Ready n.functions st)
    (hdepth : n.functions.length ≤ depth) (site : Site) :
    ∃ c st', ctx.graph.closureOf? f = some c ∧
      ctx.lowerFunction (ctx.lowerClosure depth) site (some f) st = ((), st') ∧
      ctx.Progress n.functions st st' ∧ st'.aliases = st.aliases := by
  obtain ⟨c, st', hc, hrun, hp, ha⟩ :=
    h.lowerClosure_eq hn hnested hss hready hdepth site.loc
  refine ⟨c, st', hc, ?_, hp, ha⟩
  have hmem : f ∈ n.functions := by
    rw [Node.functions_eq, show n.function? = some f by simp [Node.function?, hnested]]
    exact List.mem_append_left _ (List.mem_singleton.mpr rfl)
  have htodo := hready.todo f hmem c hc
  simp only [lowerFunction, Option.bind_some, hc]
  change (if (st.bodies.getD c none).isSome = true then record site _
    else ctx.lowerClosure depth c site.loc) st = _
  rw [htodo]
  exact hrun

/-- A function becomes a delegate wherever it stands or is named. -/
theorem LoweringContext.Fits.lowerDelegate_eq {n : Node} {f : NestedFunction} {c : ClosureId}
    (hn : (p, n) ∈ m.numbered.sites) (hc : ctx.graph.closureOf? f = some c)
    (hf : n.function? = some f ∨ n.use? = some (some f)) (hat : ctx.At p.scope site)
    (hst : st.failure = none) : ∃ lm r, ctx.declarations.methodOf? c = some lm ∧
      ctx.callReceiver site lm = .ok r ∧
      ctx.lowerDelegate site (some f) st = (some (.delegate {} r lm.symbol), st) := by
  obtain ⟨hlt, rfl⟩ := h.holds.closureOf_eq_some.mp hc
  obtain ⟨lm, hlm, -⟩ := h.declared.methodOf hlt
  obtain ⟨r, hr⟩ := h.callReceiver_ok hn hlt hf hat hlm
  refine ⟨lm, r, hlm, hr, ?_⟩
  rw [lowerDelegate, Option.bind_some, hc, Option.bind_some, hlm]
  simp only
  rw [bind_run (attempt_ok hr site st), bind_run (failed_run hst)]
  rfl

end Lists

/-! ## Expressions -/

section Expressions

variable (h : ctx.Fits m)

include h

theorem Expr.lower_two {x y : Expr} {depth : Nat}
    (hx : x.Lowerable ctx m ∧ (p, .expr x) ∈ m.numbered.sites)
    (hy : y.Lowerable ctx m ∧ (p, .expr y) ∈ m.numbered.sites) (hat : ctx.At p.scope site)
    (hready : ctx.Ready (([x, y].map Node.expr).flatMap Node.functions) st)
    (hdepth : (([x, y].map Node.expr).flatMap Node.functions).length ≤ depth) :
    ∃ x' y' st₁ st₂, x.lower ctx (ctx.lowerClosure depth) site st = (some x', st₁) ∧
      y.lower ctx (ctx.lowerClosure depth) site st₁ = (some y', st₂) ∧
      ctx.Progress (([x, y].map Node.expr).flatMap Node.functions) st st₂ ∧
      st₂.aliases = st.aliases ∧ x.LowersTo ctx site st.aliases x' ∧
      y.LowersTo ctx site st.aliases y' := by
  simp only [List.map_cons, List.map_nil, List.flatMap_cons, List.flatMap_nil,
    List.append_nil, List.length_append] at hready hdepth ⊢
  obtain ⟨x', st₁, hrun₁, hp₁, ha₁, hl₁⟩ := hx.1 depth p site st hx.2 hat hready.left (by omega)
  obtain ⟨y', st₂, hrun₂, hp₂, ha₂, hl₂⟩ :=
    hy.1 depth p site st₁ hy.2 hat (hready.right h hp₁) (by omega)
  exact ⟨x', y', st₁, st₂, hrun₁, hrun₂, hp₁.append h hready hp₂, ha₂.trans ha₁, hl₁, ha₁ ▸ hl₂⟩

theorem Expr.lower_cons {x : Expr} {es : List Expr} {depth : Nat}
    (hes : ∀ e ∈ x :: es, e.Lowerable ctx m ∧ (p, .expr e) ∈ m.numbered.sites)
    (hat : ctx.At p.scope site)
    (hready : ctx.Ready (((x :: es).map Node.expr).flatMap Node.functions) st)
    (hdepth : (((x :: es).map Node.expr).flatMap Node.functions).length ≤ depth) :
    ∃ x' es' st₁ st₂, x.lower ctx (ctx.lowerClosure depth) site st = (some x', st₁) ∧
      Expr.lowerAll ctx (ctx.lowerClosure depth) site es st₁ = (some es', st₂) ∧
      ctx.Progress (((x :: es).map Node.expr).flatMap Node.functions) st st₂ ∧
      st₂.aliases = st.aliases ∧ x.LowersTo ctx site st.aliases x' ∧
      Expr.AllLowerTo ctx site st.aliases es es' := by
  obtain ⟨hx, hsite⟩ := hes x List.mem_cons_self
  rw [List.map_cons, List.flatMap_cons] at hready hdepth ⊢
  rw [List.length_append] at hdepth
  obtain ⟨x', st₁, hrun₁, hp₁, ha₁, hl₁⟩ := hx depth p site st hsite hat hready.left (by omega)
  have hdepth' : ((es.map Node.expr).flatMap Node.functions).length ≤ depth := by omega
  obtain ⟨es', st₂, hrun₂, hp₂, ha₂, hl₂⟩ := Expr.lowerAll_eq h
    (fun e he => hes e (List.mem_cons_of_mem x he)) hat (hready.right h hp₁) hdepth'
  exact ⟨x', es', st₁, st₂, hrun₁, hrun₂, hp₁.append h hready hp₂, ha₂.trans ha₁, hl₁, ha₁ ▸ hl₂⟩

omit h in
/-- The operands of an expression stand where it does, and its functions are theirs. -/
theorem Expr.operands_spec {e : Expr} (hnone : (Node.expr e).opened? = none)
    (ih : ∀ k ∈ (Node.expr e).inner, k.Lowerable ctx m)
    (hn : (p, .expr e) ∈ m.numbered.sites) :
    (∀ x ∈ e.operands, x.Lowerable ctx m ∧ (p, .expr x) ∈ m.numbered.sites) ∧
      (Node.expr e).functions = (e.operands.map Node.expr).flatMap Node.functions := by
  constructor
  · intro x hx
    obtain ⟨hmem, hsite⟩ := MethodBody.mem_sites_of_operand hn hnone hx
    exact ⟨ih (.expr x) hmem, hsite⟩
  · rw [Node.functions_eq, Node.function_of_isNone hnone, Node.inner_expr hnone]
    rfl

omit h in
/-- An expression without operands lowers no function. -/
theorem Expr.progress_leaf {e : Expr} (hnone : (Node.expr e).opened? = none)
    (hops : e.operands = []) (hready : ctx.Ready (Node.expr e).functions st) :
    ctx.Progress (Node.expr e).functions st st := by
  have hinner : (Node.expr e).inner = [] := by
    cases e <;> first | exact congrArg (List.map Node.expr) hops | exact nomatch hnone
  rw [Node.functions_eq, Node.function_of_isNone hnone, hinner]
  exact hready.progress_nil

theorem Expr.lowerable_of_inner (e : Expr) (ih : ∀ k ∈ (Node.expr e).inner, k.Lowerable ctx m) :
    e.Lowerable ctx m := by
  intro depth p site st hn hat hready hdepth
  cases e with
  | literal loc value type =>
    exact ⟨_, st, by rw [Expr.lower]; rfl, Expr.progress_leaf rfl rfl hready, rfl, .literal⟩
  | newEnv loc type =>
    exact ⟨_, st, by rw [Expr.lower]; rfl, Expr.progress_leaf rfl rfl hready, rfl, .newEnv⟩
  | zero loc type =>
    exact ⟨_, st, by rw [Expr.lower]; rfl, Expr.progress_leaf rfl rfl hready, rfl, .zero⟩
  | ref loc target =>
    obtain ⟨v, -, rfl, -⟩ := (h.chained.exact.resolved _ hn).reference target rfl
    obtain ⟨e', he⟩ := h.variableRef_ok hn (hat.locate loc) st.aliases
    refine ⟨e'.withLoc loc, st, ?_, Expr.progress_leaf rfl rfl hready, rfl, .ref he⟩
    have hrun : ctx.lowerRef (site.locate loc) (some v) st = (some e', st) := attempt_ok he _ st
    rw [Expr.lower, bind_run hrun]
    rfl
  | self loc type =>
    obtain ⟨e', he⟩ := h.receiverRef_of_self hn (hat.locate loc)
    refine ⟨e'.withLoc loc, st, ?_, Expr.progress_leaf rfl rfl hready, rfl, .self he⟩
    rw [Expr.lower, bind_run (attempt_ok he _ st)]
    rfl
  | assign loc target value =>
    obtain ⟨hops, hfs⟩ := Expr.operands_spec rfl ih hn
    rw [hfs] at hready hdepth ⊢
    obtain ⟨x, y, st₁, st₂, hx, hy, hp, ha, hlx, hly⟩ := Expr.lower_two h
      (hops target List.mem_cons_self) (hops value (List.mem_cons_of_mem _ List.mem_cons_self))
      (hat.locate loc) hready hdepth
    refine ⟨.assign loc x y, st₂, ?_, hp, ha, .assign hlx hly⟩
    rw [Expr.lower, bind_run hx, bind_run hy]
    rfl
  | binary loc op lhs rhs =>
    obtain ⟨hops, hfs⟩ := Expr.operands_spec rfl ih hn
    rw [hfs] at hready hdepth ⊢
    obtain ⟨x, y, st₁, st₂, hx, hy, hp, ha, hlx, hly⟩ := Expr.lower_two h
      (hops lhs List.mem_cons_self) (hops rhs (List.mem_cons_of_mem _ List.mem_cons_self))
      (hat.locate loc) hready hdepth
    refine ⟨.binary loc op x y, st₂, ?_, hp, ha, .binary hlx hly⟩
    rw [Expr.lower, bind_run hx, bind_run hy]
    rfl
  | lambda loc fn body =>
    obtain ⟨f, -, rfl, -⟩ := (h.holds.lays _ _ hn).function fn body rfl
    obtain ⟨c, st₁, hc, hrun, hp, ha⟩ := h.lowerFunction_eq hn rfl
      (fun s hs => ih (.stmt s) (List.mem_map_of_mem hs)) hready hdepth (site.locate loc)
    obtain ⟨lm, r, hlm, hr, hdel⟩ :=
      h.lowerDelegate_eq hn hc (.inl rfl) (hat.locate loc) hp.failure
    refine ⟨.delegate loc r lm.symbol, st₁, ?_, hp, ha, .lambda hc hlm hr⟩
    rw [Expr.lower, bind_run hrun, bind_run (failed_run hp.failure)]
    simp only [Bool.false_eq_true, if_false]
    rw [bind_run hdel]
    rfl
  | functionRef loc fn =>
    obtain ⟨f, c, rfl, hc⟩ := (h.chained.exact.resolved _ hn).use fn rfl
    obtain ⟨lm, r, hlm, hr, hdel⟩ :=
      h.lowerDelegate_eq hn hc (.inr rfl) (hat.locate loc) hready.failure
    refine ⟨.delegate loc r lm.symbol, st, ?_, Expr.progress_leaf rfl rfl hready, rfl,
      .functionRef hc hlm hr⟩
    rw [Expr.lower, bind_run hdel]
    rfl
  | localCall loc f args =>
    obtain ⟨f', c, hf', hc⟩ := (h.chained.exact.resolved _ hn).use (some f) rfl
    obtain rfl := Option.some.inj hf'
    obtain ⟨hlt, rfl⟩ := h.holds.closureOf_eq_some.mp hc
    obtain ⟨lm, hlm, -⟩ := h.declared.methodOf hlt
    obtain ⟨r, hr⟩ := h.callReceiver_ok hn hlt (.inr rfl) (hat.locate loc) hlm
    obtain ⟨es, hes⟩ := h.envArgs_ok hn hlt (.inr rfl) (hat.locate loc) hlm
    obtain ⟨hops, hfs⟩ := Expr.operands_spec rfl ih hn
    rw [hfs] at hready hdepth ⊢
    obtain ⟨args', st₁, hrun, hp, ha, hl⟩ :=
      Expr.lowerAll_eq h hops (hat.locate loc) hready hdepth
    refine ⟨.call loc lm.symbol r (args' ++ es), st₁, ?_, hp, ha, .localCall hc hlm hr hl hes⟩
    rw [Expr.lower, hc, Option.bind_some, hlm]
    simp only
    rw [bind_run (attempt_ok hr _ st), bind_run (failed_run hready.failure)]
    simp only [Bool.false_eq_true, if_false]
    change Expr.lowerAll ctx _ _ args st = _ at hrun
    rw [bind_run hrun, bind_run (attempt_ok hes _ st₁)]
    rfl
  | call loc method receiver args =>
    obtain ⟨hops, hfs⟩ := Expr.operands_spec rfl ih hn
    rw [hfs] at hready hdepth ⊢
    cases receiver with
    | none =>
      obtain ⟨args', st₁, hrun, hp, ha, hl⟩ :=
        Expr.lowerAll_eq h hops (hat.locate loc) hready hdepth
      refine ⟨.call loc method none args', st₁, ?_, hp, ha, .call .none hl⟩
      change Expr.lowerAll ctx _ _ args st = _ at hrun
      rw [Expr.lower, bind_run hrun]
      rfl
    | some x =>
      obtain ⟨x', args', st₁, st₂, hx, hrun, hp, ha, hlx, hl⟩ :=
        Expr.lower_cons h hops (hat.locate loc) hready hdepth
      refine ⟨.call loc method (some x') args', st₂, ?_, hp, ha, .call (.some hlx) hl⟩
      change Expr.lowerAll ctx _ _ args st₁ = _ at hrun
      rw [Expr.lower, bind_run hx, bind_run hrun]
      rfl
  | invoke loc callee args =>
    obtain ⟨hops, hfs⟩ := Expr.operands_spec rfl ih hn
    rw [hfs] at hready hdepth ⊢
    obtain ⟨x', args', st₁, st₂, hx, hrun, hp, ha, hlx, hl⟩ :=
      Expr.lower_cons h hops (hat.locate loc) hready hdepth
    refine ⟨.invoke loc x' args', st₂, ?_, hp, ha, .invoke hlx hl⟩
    rw [Expr.lower, bind_run hx, bind_run hrun]
    rfl
  | field loc receiver f =>
    obtain ⟨hops, hfs⟩ := Expr.operands_spec rfl ih hn
    obtain ⟨hx, hsite⟩ := hops receiver List.mem_cons_self
    rw [show (Node.expr (.field loc receiver f)).functions = (Node.expr receiver).functions from
      hfs.trans (List.append_nil _)] at hready hdepth ⊢
    obtain ⟨x', st₁, hrun, hp, ha, hl⟩ :=
      hx depth p (site.locate loc) st hsite (hat.locate loc) hready hdepth
    refine ⟨.field loc x' f, st₁, ?_, hp, ha, .field hl⟩
    rw [Expr.lower, bind_run hrun]
    rfl
  | delegate loc receiver method =>
    obtain ⟨hops, hfs⟩ := Expr.operands_spec rfl ih hn
    cases receiver with
    | none =>
      exact ⟨_, st, by rw [Expr.lower]; rfl, Expr.progress_leaf rfl rfl hready, rfl,
        .delegate .none⟩
    | some x =>
      obtain ⟨hx, hsite⟩ := hops x List.mem_cons_self
      rw [show (Node.expr (.delegate loc (some x) method)).functions = (Node.expr x).functions from
        hfs.trans (List.append_nil _)] at hready hdepth ⊢
      obtain ⟨x', st₁, hrun, hp, ha, hl⟩ :=
        hx depth p (site.locate loc) st hsite (hat.locate loc) hready hdepth
      refine ⟨.delegate loc (some x') method, st₁, ?_, hp, ha, .delegate (.some hl)⟩
      rw [Expr.lower, bind_run hrun]
      rfl

end Expressions

/-! ## Statements -/

section Statements

variable (h : ctx.Fits m) {n : Node} {depth : Nat}

include h

/-- A block inside a scope is lowered if its statements are. -/
theorem Block.lower_eq {b : Block} (hn : (p, n) ∈ m.numbered.sites) (hb : n.opened? = some b)
    (hnested : n.nested? = none) (ih : ∀ k ∈ n.inner, k.Lowerable ctx m)
    (hat : ctx.At p.scope site) (hready : ctx.Ready n.functions st)
    (hdepth : n.functions.length ≤ depth) (holders : List (EnvId × Variable)) :
    ∃ b' st' holders', b.lower ctx (ctx.lowerClosure depth) site st = (some b', st') ∧
      ctx.Progress n.functions st st' ∧
      b.LowersTo ctx site ⟨st.aliases, holders⟩ b' ⟨st'.aliases, holders'⟩ := by
  have hinner := Node.inner_of_opened hb
  have hfs : n.functions = (b.stmts.map Node.stmt).flatMap Node.functions := by
    rw [Node.functions_eq, show n.function? = none by simp [Node.function?, hnested], hinner]
    rfl
  rw [hfs] at hready hdepth ⊢
  obtain ⟨b', st', holders', hrun, hp, hl⟩ := h.lowerScope_eq (p := p.into n) holders
    (Path.scope_into hb p) (fun s hs => by
      have hs := hinner ▸ List.mem_map_of_mem hs
      exact ⟨ih (.stmt s) hs, MethodBody.mem_sites_of_inner hn hs⟩)
    (h.enters_block hn hb hnested hat) hready hdepth
  refine ⟨b', st', holders', ?_, hp, hl⟩
  have hscope := h.holds.scopeOf_eq ((h.holds.lays p n hn).scope b hb).lt
  cases b with
  | mk id loc stmts =>
    rw [Block.lower, show ctx.graph.scopeOf? id = some id from hscope]
    exact hrun

/-- A declaration is lowered once its initial value is. -/
theorem LoweringContext.Fits.lowerDeclaration_eq {v : Variable} (hn : (p, n) ∈ m.numbered.sites)
    (hv : n.declared? = some v) (hat : ctx.At p.scope site) (loc : Loc) (init : Option Expr)
    (st : LoweringState) (holders : List (EnvId × Variable)) :
    ∃ s' st', ctx.lowerDeclaration site loc v init st = (s', st') ∧ st'.failure = st.failure ∧
      st'.bodies = st.bodies ∧
      ctx.LowersDeclaration site ⟨st.aliases, holders⟩ loc v init s' ⟨st'.aliases, holders⟩ := by
  cases he : ctx.graph.envOf? v with
  | some e =>
    cases init with
    | none => exact ⟨none, st, by simp only [lowerDeclaration, he]; rfl, rfl, rfl, .hoisted he⟩
    | some x =>
      obtain ⟨target, ht⟩ := h.variableRef_of_declared hn hv hat st.aliases
      refine ⟨some (.expr loc (.assign {} target x)), st, ?_, rfl, rfl, .hoistedInit he ht⟩
      simp only [lowerDeclaration, he]
      rw [bind_run (show (get : Lower LoweringState) st = (st, st) from rfl),
        bind_run (attempt_ok ht site st)]
      rfl
  | none =>
    by_cases hs : ctx.spell site.frame v.type = v.type
    · refine ⟨_, st, ?_, rfl, rfl, .same he hs⟩
      simp only [lowerDeclaration, he, hs, if_true]
      rfl
    · refine ⟨_, { st with
        supply := (st.supply.copy v .declared (ctx.spell site.frame v.type)).2
        aliases :=
          (v, (st.supply.copy v .declared (ctx.spell site.frame v.type)).1) :: st.aliases },
        ?_, rfl, rfl, .copy he hs ⟨_, rfl⟩ rfl⟩
      simp only [lowerDeclaration, he, hs, if_false]
      rfl

theorem Stmt.lowerable_of_inner (s : Stmt) (ih : ∀ k ∈ (Node.stmt s).inner, k.Lowerable ctx m) :
    s.Lowerable ctx m := by
  intro depth p site st holders hn hat hready hdepth
  have hsites (hnone : (Node.stmt s).opened? = none) (k : Node) (hk : k ∈ (Node.stmt s).inner) :=
    MethodBody.mem_sites_of_isNone hn hnone hk
  have hfs (hnone : (Node.stmt s).opened? = none) :
      (Node.stmt s).functions = (Node.stmt s).inner.flatMap Node.functions := by
    rw [Node.functions_eq, Node.function_of_isNone hnone]
    rfl
  cases s with
  | block b =>
    obtain ⟨b', st', holders', hrun, hp, hl⟩ :=
      Block.lower_eq h hn rfl rfl ih (hat.locate b.loc) hready hdepth holders
    refine ⟨some (.block b'), st', holders', ?_, hp, .block hl⟩
    rw [Stmt.lower, bind_run hrun]
    rfl
  | declare loc target init =>
    cases init with
    | none =>
      have hp : ctx.Progress (Node.stmt (.declare loc target none)).functions st st := by
        rw [hfs rfl]
        exact hready.progress_nil
      cases target with
      | none => exact ⟨_, st, holders, by rw [Stmt.lower]; rfl, hp, .declareNothing .none⟩
      | some v =>
        obtain ⟨s', st', hrun, hf, hb, hl⟩ :=
          h.lowerDeclaration_eq hn rfl (hat.locate loc) loc none st holders
        refine ⟨s', st', holders, ?_, hp.of_eq hb hf, .declare .none hl⟩
        rw [Stmt.lower]
        exact hrun
    | some value =>
      have hfs : (Node.stmt (.declare loc target (some value))).functions =
          (Node.expr value).functions := (hfs rfl).trans (List.append_nil _)
      rw [hfs] at hready hdepth ⊢
      obtain ⟨e', st₁, hrun₁, hp, ha, hl⟩ := ih (.expr value) List.mem_cons_self depth p
        (site.locate loc) st (hsites rfl _ List.mem_cons_self) (hat.locate loc) hready hdepth
      cases target with
      | none =>
        refine ⟨_, st₁, holders, ?_, hp, by rw [ha]; exact .declareNothing (.some hl)⟩
        rw [Stmt.lower, bind_run hrun₁]
        rfl
      | some v =>
        obtain ⟨s', st₂, hrun₂, hf, hb, hl₂⟩ :=
          h.lowerDeclaration_eq hn rfl (hat.locate loc) loc (some e') st₁ holders
        rw [ha] at hl₂
        refine ⟨s', st₂, holders, ?_, hp.of_eq hb hf, .declare (.some hl) hl₂⟩
        rw [Stmt.lower, bind_run hrun₁]
        exact hrun₂
  | expr loc value =>
    have hfs : (Node.stmt (.expr loc value)).functions = (Node.expr value).functions :=
      (hfs rfl).trans (List.append_nil _)
    rw [hfs] at hready hdepth ⊢
    obtain ⟨e', st', hrun, hp, ha, hl⟩ := ih (.expr value) List.mem_cons_self depth p
      (site.locate loc) st (hsites rfl _ List.mem_cons_self) (hat.locate loc) hready hdepth
    refine ⟨some (.expr loc e'), st', holders, ?_, hp, by rw [ha]; exact .expr hl⟩
    rw [Stmt.lower, bind_run hrun]
    rfl
  | ret loc value =>
    cases value with
    | none =>
      refine ⟨_, st, holders, by rw [Stmt.lower]; rfl, ?_, .ret .none⟩
      rw [hfs rfl]
      exact hready.progress_nil
    | some value =>
      have hfs : (Node.stmt (.ret loc (some value))).functions = (Node.expr value).functions :=
        (hfs rfl).trans (List.append_nil _)
      rw [hfs] at hready hdepth ⊢
      obtain ⟨e', st', hrun, hp, ha, hl⟩ := ih (.expr value) List.mem_cons_self depth p
        (site.locate loc) st (hsites rfl _ List.mem_cons_self) (hat.locate loc) hready hdepth
      refine ⟨some (.ret loc (some e')), st', holders, ?_, hp,
        by rw [ha]; exact .ret (.some hl)⟩
      rw [Stmt.lower, bind_run hrun]
      rfl
  | cond loc test thenBlock elseBlock =>
    have hfs : (Node.stmt (.cond loc test thenBlock elseBlock)).functions =
        (Node.expr test).functions ++ ((Node.block thenBlock).functions ++
          (elseBlock.toList.map Node.block).flatMap Node.functions) := by
      rw [hfs rfl]
      simp [Node.inner]
    rw [hfs] at hready hdepth ⊢
    rw [List.length_append, List.length_append] at hdepth
    obtain ⟨e', st₁, hrun₁, hp₁, ha, hl₁⟩ := ih (.expr test) List.mem_cons_self depth p
      (site.locate loc) st (hsites rfl _ List.mem_cons_self) (hat.locate loc) hready.left (by omega)
    have hready₁ := hready.right h hp₁
    obtain ⟨b', st₂, holders₂, hrun₂, hp₂, hl₂⟩ := ih (.block thenBlock) (by simp [Node.inner])
      depth p (site.locate loc) st₁ holders (hsites rfl _ (by simp [Node.inner])) (hat.locate loc)
      hready₁.left (by omega)
    have hready₂ := hready₁.right h hp₂
    rw [ha] at hl₂
    cases elseBlock with
    | none =>
      refine ⟨some (.cond loc e' b' none), st₂, holders₂, ?_,
        hp₁.append h hready (hp₂.append h hready₁ hready₂.progress_nil), .cond hl₁ hl₂ .none⟩
      rw [Stmt.lower, bind_run hrun₁, bind_run hrun₂]
      rfl
    | some b =>
      have hfs' : ([b].map Node.block).flatMap Node.functions = (Node.block b).functions :=
        List.append_nil _
      change ctx.Ready (([b].map Node.block).flatMap Node.functions) st₂ at hready₂
      change _ + (_ + (([b].map Node.block).flatMap Node.functions).length) ≤ _ at hdepth
      rw [hfs'] at hready₂ hdepth
      obtain ⟨b₂', st₃, holders₃, hrun₃, hp₃, hl₃⟩ := ih (.block b) (by simp [Node.inner])
        depth p (site.locate loc) st₂ holders₂ (hsites rfl _ (by simp [Node.inner]))
        (hat.locate loc) hready₂ (by omega)
      rw [← hfs'] at hp₃
      refine ⟨some (.cond loc e' b' (some b₂')), st₃, holders₃, ?_,
        hp₁.append h hready (hp₂.append h hready₁ hp₃), .cond hl₁ hl₂ (.some hl₃)⟩
      rw [Stmt.lower, bind_run hrun₁, bind_run hrun₂]
      simp only
      rw [bind_run hrun₃]
      rfl
  | loop loc test body =>
    have hfs : (Node.stmt (.loop loc test body)).functions =
        (Node.expr test).functions ++ (Node.block body).functions := by
      rw [hfs rfl]
      simp [Node.inner]
    rw [hfs] at hready hdepth ⊢
    rw [List.length_append] at hdepth
    obtain ⟨e', st₁, hrun₁, hp₁, ha, hl₁⟩ := ih (.expr test) List.mem_cons_self depth p
      (site.locate loc) st (hsites rfl _ List.mem_cons_self) (hat.locate loc) hready.left (by omega)
    obtain ⟨b', st₂, holders₂, hrun₂, hp₂, hl₂⟩ := ih (.block body) (by simp [Node.inner]) depth p
      (site.locate loc) st₁ holders (hsites rfl _ (by simp [Node.inner])) (hat.locate loc)
      (hready.right h hp₁) (by omega)
    rw [ha] at hl₂
    refine ⟨some (.loop loc e' b'), st₂, holders₂, ?_, hp₁.append h hready hp₂, .loop hl₁ hl₂⟩
    rw [Stmt.lower, bind_run hrun₁, bind_run hrun₂]
    rfl
  | localFunction loc fn body =>
    obtain ⟨f, -, rfl, -⟩ := (h.holds.lays _ _ hn).function fn body rfl
    obtain ⟨c, st₁, hc, hrun, hp, ha⟩ := h.lowerFunction_eq hn rfl
      (fun s hs => ih (.stmt s) (List.mem_map_of_mem hs)) hready hdepth (site.locate loc)
    refine ⟨none, st₁, holders, ?_, hp, ha ▸ .localFunction⟩
    rw [Stmt.lower, bind_run hrun]
    rfl

/-- Every node of the body is lowered. -/
theorem Node.lowerable (n : Node) : n.Lowerable ctx m := by
  induction n using Node.induction with
  | step n ih =>
    cases n with
    | expr e => exact Expr.lowerable_of_inner h e ih
    | stmt s => exact Stmt.lowerable_of_inner h s ih
    | block b =>
      intro depth p site st holders hn hat hready hdepth
      exact Block.lower_eq h hn rfl rfl ih hat hready hdepth holders

/-- The whole body is lowered, and every method gets its body. -/
theorem LoweringContext.Fits.lowerMethod_eq {block : Block} (st : LoweringState)
    (hblock : ctx.graph.body.block = some block) (hst : st.failure = none)
    (halias : st.aliases = []) (hsize : st.bodies.size = ctx.graph.closures.size)
    (hnone : ∀ c, st.bodies.getD c none = none) :
    ∃ block' names st',
      ctx.lowerMethod block st = (some { ctx.graph.body with block := some block' }, st') ∧
      st'.failure = none ∧ st'.bodies.size = ctx.graph.closures.size ∧
      block.LowersTo ctx { frame := { isStatic := ctx.method.isStatic } } {} block' names ∧
      ∀ c < ctx.graph.closures.size, ∃ b, st'.bodies.getD c none = some b ∧
        ctx.LowersClosure c b := by
  have hnum : m.numbered.block = some block := by rw [← h.holds.body]; exact hblock
  have htop : m.topNodes = block.stmts.map Node.stmt := by simp [MethodBody.topNodes, hnum]
  have hid := (MethodBody.id_block hnum).symm
  have hfs : (block.stmts.map Node.stmt).flatMap Node.functions = ctx.graph.functions := by
    rw [h.holds.functions, htop]
  have hready : ctx.Ready ((block.stmts.map Node.stmt).flatMap Node.functions) st :=
    ⟨hst, hsize, hfs ▸ h.holds.tidy.functions_nodup, fun _ _ c _ => hnone c⟩
  have hdepth : ((block.stmts.map Node.stmt).flatMap Node.functions).length ≤ ctx.nestingDepth := by
    rw [hfs, Graph.length_functions, nestingDepth]
    omega
  obtain ⟨b', st', holders, hrun, hp, hl⟩ := h.lowerScope_eq (p := .outermost) [] hid
    (fun s hs => by
      refine ⟨Node.lowerable h (.stmt s), MethodBody.mem_sites_of_topNodes ?_⟩
      rw [htop]
      exact List.mem_map_of_mem hs)
    (hid ▸ h.enters_root) hready hdepth
  have hdone (c : ClosureId) (hc : c < ctx.graph.closures.size) :
      ∃ b, st'.bodies.getD c none = some b ∧ ctx.LowersClosure c b := by
    have hmem : (ctx.graph.closure c).function ∈
        (block.stmts.map Node.stmt).flatMap Node.functions := by
      rw [hfs, Graph.functions]
      refine List.mem_map.mpr ⟨_, Array.getElem_mem_toList hc, ?_⟩
      simp [Graph.closure, hc]
    obtain ⟨d, b, hd, hb, hlb⟩ := hp.done _ hmem
    obtain ⟨hdlt, hfun⟩ := h.holds.closureOf_eq_some.mp hd
    obtain rfl := h.holds.closure_inj hdlt hc hfun
    exact ⟨b, hb, hlb⟩
  rw [halias] at hl
  refine ⟨b', _, st', ?_, hp.failure, hp.size.trans hsize, hl, hdone⟩
  rw [← hid] at hrun
  rw [lowerMethod, bind_run hrun, bind_run (failed_run hp.failure)]
  have hfind : (ctx.declarations.methods.find? fun lm =>
      (st'.bodies.getD lm.closure none).isNone) = none := by
    refine List.find?_eq_none.mpr fun lm hlm => ?_
    obtain ⟨c, hc, rfl⟩ := List.mem_iff_getElem.mp hlm
    have hdecl := h.declared.declared c _ (List.getElem?_eq_getElem hc)
    obtain ⟨b, hb, -⟩ := hdone c (h.declared.length ▸ hc)
    rw [hdecl.closure, hb]
    simp
  simp only [Bool.false_eq_true, if_false]
  rw [bind_run (show (get : Lower LoweringState) st' = (st', st') from rfl), hfind]
  rfl

end Statements

end Unnest
