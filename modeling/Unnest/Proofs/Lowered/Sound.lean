import Unnest.Proofs.Checked
import Unnest.Proofs.Lowered.Relation

/-!
# Walks without a failure

Whatever body is lowered, if the walk over its trees ends without a failure, then every tree has
become what `Expr.LowersTo` and its companions say, and every nested function has its body. The
first failure is kept, so that none at the end means that none came up on the way.

## Main statements

* `Node.sound` : a node at which nothing fails is lowered.
* `LoweringContext.Suits.of_lowerMethod` : so is a whole body.
* `LoweredBody.written_of_run` : what a conversion gives is lowered tree by tree.
-/

namespace Unnest

open LoweringContext Lower

variable {ctx : LoweringContext} {m : MethodBody} {site : Site} {st st₁ st₂ st' : LoweringState}
  {p : Path} {enter : ClosureId → Loc → Lower Unit}

/-! ## One step after the other -/

namespace Lower

variable {α β : Type}

theorem bind_inv {x : Lower α} {f : α → Lower β} {b : β} (h : (x >>= f) st = (b, st')) :
    ∃ a st₁, x st = (a, st₁) ∧ f a st₁ = (b, st') := ⟨(x st).1, (x st).2, rfl, h⟩

theorem pure_inv {a b : α} (h : (pure a : Lower α) st = (b, st')) : b = a ∧ st' = st :=
  ⟨(congrArg Prod.fst h).symm, (congrArg Prod.snd h).symm⟩

/-- After a recorded failure there is one. -/
theorem record_inv {cause : Cause} {u : Unit} (h : record site cause st = (u, st')) :
    st'.failure ≠ none := by
  obtain rfl : _ = st' := congrArg Prod.snd h
  change (st.failure <|> some _) ≠ none
  cases st.failure <;> simp

theorem fail_inv {cause : Cause} {r : Option α} (h : fail site cause st = (r, st')) :
    st'.failure ≠ none := by
  obtain ⟨u, st₁, hrec, hret⟩ := bind_inv h
  rw [(pure_inv hret).2]
  exact record_inv hrec

theorem attempt_inv {x : Except Cause α} {r : Option α} (h : attempt site x st = (r, st'))
    (hst' : st'.failure = none) : ∃ a, x = .ok a ∧ r = some a ∧ st' = st := by
  cases x with
  | ok a => exact ⟨a, rfl, pure_inv h⟩
  | error cause => exact absurd hst' (fail_inv h)

theorem failed_inv {b : Bool} (h : failed st = (b, st')) : b = st.failure.isSome ∧ st' = st :=
  pure_inv h

/-- A computation that goes on only without a failure has gone on if there is none. -/
theorem unless_failed_inv {x : Lower (Option α)} {r : Option α}
    (h : (do if ← failed then return none else x) st = (r, st')) (hst' : st'.failure = none) :
    st.failure = none ∧ x st = (r, st') := by
  obtain ⟨b, st₁, hfailed, h⟩ := bind_inv h
  obtain ⟨rfl, rfl⟩ := failed_inv hfailed
  cases hf : st₁.failure with
  | none =>
    rw [hf] at h
    exact ⟨rfl, h⟩
  | some f =>
    rw [hf] at h
    rw [(pure_inv h).2, hf] at hst'
    exact nomatch hst'

end Lower

/-! ## States without a failure -/

namespace LoweringContext

/-- Nothing has failed up to `st`, and between it and `st'` nested functions get only bodies that
they are lowered to. -/
structure Clean (ctx : LoweringContext) (st st' : LoweringState) : Prop where
  failure : st.failure = none
  bodies : (∀ c b, st.bodies.getD c none = some b → ctx.LowersClosure c b) →
    ∀ c b, st'.bodies.getD c none = some b → ctx.LowersClosure c b

theorem Clean.refl (h : st.failure = none) : ctx.Clean st st := ⟨h, id⟩

theorem Clean.trans (h : ctx.Clean st st₁) (h' : ctx.Clean st₁ st₂) : ctx.Clean st st₂ :=
  ⟨h.failure, h'.bodies ∘ h.bodies⟩

theorem Clean.of_eq (h : st.failure = none) (hb : st'.bodies = st.bodies) : ctx.Clean st st' :=
  ⟨h, fun hs => hb ▸ hs⟩

/-- Entering a nested function without a failure gives it a body that it is lowered to, and keeps
the names of the frame at hand. -/
def Faithful (ctx : LoweringContext) (enter : ClosureId → Loc → Lower Unit) : Prop :=
  ∀ c loc st st', enter c loc st = ((), st') → st'.failure = none →
    ctx.Clean st st' ∧ st'.aliases = st.aliases

end LoweringContext

/-- Wherever the expression stands, it is lowered if nothing fails. -/
def Expr.Sound (ctx : LoweringContext) (m : MethodBody) (e : Expr) : Prop :=
  ∀ enter p site st x st', ctx.Faithful enter → (p, .expr e) ∈ m.numbered.sites →
    e.lower ctx enter site st = (x, st') → st'.failure = none →
    ctx.Clean st st' ∧ st'.aliases = st.aliases ∧
      ∃ e', x = some e' ∧ e.LowersTo ctx site st.aliases e'

def Stmt.Sound (ctx : LoweringContext) (m : MethodBody) (s : Stmt) : Prop :=
  ∀ enter p site st x st' holders, ctx.Faithful enter → (p, .stmt s) ∈ m.numbered.sites →
    s.lower ctx enter site st = (x, st') → st'.failure = none →
    ctx.Clean st st' ∧
      ∃ holders', s.LowersTo ctx site ⟨st.aliases, holders⟩ x ⟨st'.aliases, holders'⟩

def Block.Sound (ctx : LoweringContext) (m : MethodBody) (b : Block) : Prop :=
  ∀ enter p site st x st' holders, ctx.Faithful enter → (p, .block b) ∈ m.numbered.sites →
    b.lower ctx enter site st = (x, st') → st'.failure = none →
    ctx.Clean st st' ∧ ∃ b' holders', x = some b' ∧
      b.LowersTo ctx site ⟨st.aliases, holders⟩ b' ⟨st'.aliases, holders'⟩

def Node.Sound (ctx : LoweringContext) (m : MethodBody) : Node → Prop
  | .expr e => e.Sound ctx m
  | .stmt s => s.Sound ctx m
  | .block b => b.Sound ctx m

/-! ## Lists -/

theorem Expr.sound_all {es : List Expr} (henter : ctx.Faithful enter)
    (hes : ∀ e ∈ es, e.Sound ctx m ∧ (p, .expr e) ∈ m.numbered.sites) {x : Option (List Expr)}
    (hrun : Expr.lowerAll ctx enter site es st = (x, st')) (hst' : st'.failure = none) :
    ctx.Clean st st' ∧ st'.aliases = st.aliases ∧
      ∃ es', x = some es' ∧ Expr.AllLowerTo ctx site st.aliases es es' := by
  induction es generalizing st x with
  | nil =>
    obtain ⟨rfl, rfl⟩ := pure_inv hrun
    exact ⟨.refl hst', rfl, [], rfl, .nil⟩
  | cons e es ih =>
    rw [Expr.lowerAll] at hrun
    obtain ⟨y, st₁, hy, hrun⟩ := bind_inv hrun
    obtain ⟨ys, st₂, hys, hrun⟩ := bind_inv hrun
    obtain ⟨rfl, rfl⟩ := pure_inv hrun
    obtain ⟨hclean₂, ha₂, es', rfl, hl₂⟩ := ih (fun e he => hes e (List.mem_cons_of_mem _ he)) hys
    obtain ⟨hsound, hsite⟩ := hes e List.mem_cons_self
    obtain ⟨hclean₁, ha₁, e', rfl, hl₁⟩ :=
      hsound enter p site st y st₁ henter hsite hy hclean₂.failure
    exact ⟨hclean₁.trans hclean₂, ha₂.trans ha₁, e' :: es', rfl, .cons hl₁ (ha₁ ▸ hl₂)⟩

theorem Stmt.sound_all {ss : List Stmt} (henter : ctx.Faithful enter)
    (hss : ∀ s ∈ ss, s.Sound ctx m ∧ (p, .stmt s) ∈ m.numbered.sites) {x : Option (List Stmt)}
    (hrun : Stmt.lowerAll ctx enter site ss st = (x, st')) (hst' : st'.failure = none)
    (holders : List (EnvId × Variable)) :
    ctx.Clean st st' ∧ ∃ ss' holders', x = some ss' ∧
      Stmt.AllLowerTo ctx site ⟨st.aliases, holders⟩ ss ss' ⟨st'.aliases, holders'⟩ := by
  induction ss generalizing st x holders with
  | nil =>
    obtain ⟨rfl, rfl⟩ := pure_inv hrun
    exact ⟨.refl hst', [], holders, rfl, .nil⟩
  | cons s ss ih =>
    rw [Stmt.lowerAll] at hrun
    obtain ⟨y, st₁, hy, hrun⟩ := bind_inv hrun
    obtain ⟨hst₁, hrun⟩ := unless_failed_inv hrun hst'
    obtain ⟨ys, st₂, hys, hrun⟩ := bind_inv hrun
    obtain ⟨rfl, rfl⟩ := pure_inv hrun
    obtain ⟨hsound, hsite⟩ := hss s List.mem_cons_self
    obtain ⟨hclean₁, holders₁, hl₁⟩ :=
      hsound enter p site st y st₁ holders henter hsite hy hst₁
    obtain ⟨hclean₂, ss', holders₂, rfl, hl₂⟩ :=
      ih (fun s hs => hss s (List.mem_cons_of_mem _ hs)) hys holders₁
    exact ⟨hclean₁.trans hclean₂, y.toList ++ ss', holders₂, rfl, .cons hl₁ hl₂⟩

/-! ## Scopes -/

namespace LoweringContext

theorem openScope_inv {s : ScopeId} {x : Option (List Stmt × Site)}
    (hrun : ctx.openScope site s st = (x, st')) (hst' : st'.failure = none)
    (holders : List (EnvId × Variable)) :
    ctx.Clean st st' ∧ st'.aliases = st.aliases ∧ ∃ created site' holders',
      x = some (created, site') ∧
      ctx.Opens site ⟨st.aliases, holders⟩ s created site' ⟨st'.aliases, holders'⟩ := by
  cases henv : (ctx.graph.scope s).env with
  | none =>
    simp only [openScope, henv] at hrun
    obtain ⟨rfl, rfl⟩ := pure_inv hrun
    exact ⟨.refl hst', rfl, [], site, holders, rfl, .bare henv⟩
  | some e =>
    cases ht : ctx.declarations.typeOf? e with
    | none =>
      simp only [openScope, henv, ht] at hrun
      exact absurd hst' (fail_inv hrun)
    | some t =>
      simp only [openScope, henv, ht] at hrun
      obtain ⟨holder, st₁, hholder, hrun⟩ := bind_inv hrun
      obtain ⟨⟨created, site'⟩, hcreate, rfl, rfl⟩ := attempt_inv hrun hst'
      obtain ⟨rfl, rfl⟩ := Prod.mk.inj hholder
      exact ⟨.of_eq hst' rfl, rfl, created, site', (e, _) :: holders, rfl,
        .env henv ht ⟨_, rfl⟩ hcreate rfl⟩

/-- A block at whose statements nothing fails is lowered. -/
theorem lowerScope_inv {b : Block} {x : Option Block} (henter : ctx.Faithful enter)
    (hss : ∀ s ∈ b.stmts, s.Sound ctx m ∧ (p, .stmt s) ∈ m.numbered.sites)
    (hrun : ctx.lowerScope enter site b.id b st = (x, st')) (hst' : st'.failure = none)
    (holders : List (EnvId × Variable)) :
    ctx.Clean st st' ∧ ∃ b' holders', x = some b' ∧
      b.LowersTo ctx site ⟨st.aliases, holders⟩ b' ⟨st'.aliases, holders'⟩ := by
  rw [lowerScope] at hrun
  obtain ⟨opened, st₁, hopen, hrun⟩ := bind_inv hrun
  have hst₁ : st₁.failure = none := by
    cases opened with
    | none => rwa [(pure_inv hrun).2] at hst'
    | some o =>
      obtain ⟨ys, st₂, hys, hrun⟩ := bind_inv hrun
      rw [(pure_inv hrun).2] at hst'
      exact (Stmt.sound_all henter hss hys hst' []).1.failure
  obtain ⟨hclean, ha, created, site', holders₁, rfl, hopens⟩ := openScope_inv hopen hst₁ holders
  obtain ⟨ys, st₂, hys, hrun⟩ := bind_inv hrun
  obtain ⟨rfl, rfl⟩ := pure_inv hrun
  obtain ⟨hclean', ss', holders₂, rfl, hl⟩ := Stmt.sound_all henter hss hys hst' holders₁
  cases b with
  | mk id loc stmts =>
    exact ⟨hclean.trans hclean', .mk id loc (created ++ ss'), holders₂, rfl, .mk hopens hl⟩

/-! ## Functions -/

theorem lowerFunction_inv (henter : ctx.Faithful enter) {fn : Option NestedFunction} {u : Unit}
    (hrun : ctx.lowerFunction enter site fn st = (u, st')) (hst' : st'.failure = none) :
    ctx.Clean st st' ∧ st'.aliases = st.aliases := by
  cases fn with
  | none => exact absurd hst' (record_inv hrun)
  | some f =>
    cases hc : ctx.graph.closureOf? f with
    | none =>
      simp only [lowerFunction, Option.bind_some, hc] at hrun
      exact absurd hst' (record_inv hrun)
    | some c =>
      simp only [lowerFunction, Option.bind_some, hc] at hrun
      change (if (st.bodies.getD c none).isSome = true then record site _
        else enter c site.loc) st = _ at hrun
      split at hrun
      · exact absurd hst' (record_inv hrun)
      · exact henter c site.loc st st' hrun hst'

theorem lowerDelegate_inv {fn : Option NestedFunction} {x : Option Expr}
    (hrun : ctx.lowerDelegate site fn st = (x, st')) (hst' : st'.failure = none) :
    st' = st ∧ ∃ f c lm r, fn = some f ∧ ctx.graph.closureOf? f = some c ∧
      ctx.declarations.methodOf? c = some lm ∧ ctx.callReceiver site lm = .ok r ∧
      x = some (.delegate {} r lm.symbol) := by
  cases hlm : (fn.bind ctx.graph.closureOf?).bind ctx.declarations.methodOf? with
  | none =>
    simp only [lowerDelegate, hlm] at hrun
    exact absurd hst' (fail_inv hrun)
  | some lm =>
    simp only [lowerDelegate, hlm] at hrun
    obtain ⟨c, hfn, hmethod⟩ := Option.bind_eq_some_iff.mp hlm
    obtain ⟨f, rfl, hc⟩ := Option.bind_eq_some_iff.mp hfn
    obtain ⟨x, st₁, hx, hrun⟩ := bind_inv hrun
    obtain ⟨hst₁, hrun⟩ := unless_failed_inv hrun hst'
    obtain ⟨rfl, rfl⟩ := pure_inv hrun
    obtain ⟨r, hr, rfl, rfl⟩ := attempt_inv hx hst₁
    exact ⟨rfl, f, c, lm, r, rfl, hc, hmethod, hr, rfl⟩

theorem lowerDeclaration_inv {loc : Loc} {v : Variable} {init : Option Expr} {x : Option Stmt}
    (hrun : ctx.lowerDeclaration site loc v init st = (x, st')) (hst' : st'.failure = none)
    (holders : List (EnvId × Variable)) :
    ctx.Clean st st' ∧
      ctx.LowersDeclaration site ⟨st.aliases, holders⟩ loc v init x ⟨st'.aliases, holders⟩ := by
  cases he : ctx.graph.envOf? v with
  | some e =>
    cases init with
    | none =>
      simp only [lowerDeclaration, he] at hrun
      obtain ⟨rfl, rfl⟩ := pure_inv hrun
      exact ⟨.refl hst', .hoisted he⟩
    | some init =>
      simp only [lowerDeclaration, he] at hrun
      obtain ⟨_, _, hget, hrun⟩ := bind_inv hrun
      obtain ⟨rfl, rfl⟩ := Prod.mk.inj hget
      obtain ⟨y, st₁, hy, hrun⟩ := bind_inv hrun
      obtain ⟨rfl, rfl⟩ := pure_inv hrun
      obtain ⟨target, ht, rfl, rfl⟩ := attempt_inv hy hst'
      exact ⟨.refl hst', .hoistedInit he ht⟩
  | none =>
    simp only [lowerDeclaration, he] at hrun
    split at hrun
    · rename_i hs
      obtain ⟨rfl, rfl⟩ := pure_inv hrun
      exact ⟨.refl hst', .same he hs⟩
    · rename_i hs
      obtain ⟨copy, st₁, hcopy, hrun⟩ := bind_inv hrun
      obtain ⟨rfl, rfl⟩ := pure_inv hrun
      obtain ⟨rfl, rfl⟩ := Prod.mk.inj hcopy
      exact ⟨.of_eq hst' rfl, .copy he hs ⟨_, rfl⟩ rfl⟩

/-- What is declared for a body whose closures are on their hosts. -/
structure Suits (ctx : LoweringContext) (m : MethodBody) : Prop where
  method : m.method = some ctx.method
  seated : ctx.graph.Seated m
  declared : ctx.declarations.Declared ctx.graph ctx.method

end LoweringContext

/-! ## Expressions -/

section Nodes

variable (h : ctx.Suits m)

include h

theorem Expr.sound_of_inner (e : Expr) (ih : ∀ k ∈ (Node.expr e).inner, k.Sound ctx m) :
    e.Sound ctx m := by
  intro enter p site st x st' henter hn hrun hst'
  -- the operands stand where the expression does, unless it is a lambda
  have hops (hnone : (Node.expr e).opened? = none) (y : Expr) (hy : y ∈ e.operands) :
      y.Sound ctx m ∧ (p, .expr y) ∈ m.numbered.sites := by
    obtain ⟨hmem, hsite⟩ := MethodBody.mem_sites_of_operand hn hnone hy
    exact ⟨ih (.expr y) hmem, hsite⟩
  have hop (y : Expr) (hy : y.Sound ctx m ∧ (p, .expr y) ∈ m.numbered.sites) (site : Site)
      {st x st'} (hrun : y.lower ctx enter site st = (x, st')) (hst' : st'.failure = none) :
      ctx.Clean st st' ∧ st'.aliases = st.aliases ∧
        ∃ y', x = some y' ∧ y.LowersTo ctx site st.aliases y' :=
    hy.1 enter p site st x st' henter hy.2 hrun hst'
  cases e with
  | literal loc value type =>
    rw [Expr.lower] at hrun
    obtain ⟨rfl, rfl⟩ := pure_inv hrun
    exact ⟨.refl hst', rfl, _, rfl, .literal⟩
  | newEnv loc type =>
    rw [Expr.lower] at hrun
    obtain ⟨rfl, rfl⟩ := pure_inv hrun
    exact ⟨.refl hst', rfl, _, rfl, .newEnv⟩
  | zero loc type =>
    rw [Expr.lower] at hrun
    obtain ⟨rfl, rfl⟩ := pure_inv hrun
    exact ⟨.refl hst', rfl, _, rfl, .zero⟩
  | ref loc target =>
    obtain ⟨v, -, rfl, -⟩ := (h.seated.exact.resolved _ hn).reference target rfl
    rw [Expr.lower] at hrun
    obtain ⟨y, st₁, hy, hrun⟩ := bind_inv hrun
    obtain ⟨rfl, rfl⟩ := pure_inv hrun
    obtain ⟨e', he, rfl, rfl⟩ := attempt_inv hy hst'
    exact ⟨.refl hst', rfl, _, rfl, .ref he⟩
  | self loc type =>
    rw [Expr.lower] at hrun
    obtain ⟨y, st₁, hy, hrun⟩ := bind_inv hrun
    obtain ⟨rfl, rfl⟩ := pure_inv hrun
    obtain ⟨e', he, rfl, rfl⟩ := attempt_inv hy hst'
    exact ⟨.refl hst', rfl, _, rfl, .self he⟩
  | assign loc target value =>
    rw [Expr.lower] at hrun
    obtain ⟨y, st₁, hy, hrun⟩ := bind_inv hrun
    obtain ⟨z, st₂, hz, hrun⟩ := bind_inv hrun
    obtain ⟨rfl, rfl⟩ := pure_inv hrun
    obtain ⟨hclean₂, ha₂, z', rfl, hl₂⟩ :=
      hop value (hops rfl _ (by simp [Expr.operands])) _ hz hst'
    obtain ⟨hclean₁, ha₁, y', rfl, hl₁⟩ :=
      hop target (hops rfl _ (by simp [Expr.operands])) _ hy hclean₂.failure
    exact ⟨hclean₁.trans hclean₂, ha₂.trans ha₁, _, rfl, .assign hl₁ (ha₁ ▸ hl₂)⟩
  | binary loc op lhs rhs =>
    rw [Expr.lower] at hrun
    obtain ⟨y, st₁, hy, hrun⟩ := bind_inv hrun
    obtain ⟨z, st₂, hz, hrun⟩ := bind_inv hrun
    obtain ⟨rfl, rfl⟩ := pure_inv hrun
    obtain ⟨hclean₂, ha₂, z', rfl, hl₂⟩ := hop rhs (hops rfl _ (by simp [Expr.operands])) _ hz hst'
    obtain ⟨hclean₁, ha₁, y', rfl, hl₁⟩ :=
      hop lhs (hops rfl _ (by simp [Expr.operands])) _ hy hclean₂.failure
    exact ⟨hclean₁.trans hclean₂, ha₂.trans ha₁, _, rfl, .binary hl₁ (ha₁ ▸ hl₂)⟩
  | lambda loc fn body =>
    rw [Expr.lower] at hrun
    obtain ⟨u, st₁, hu, hrun⟩ := bind_inv hrun
    obtain ⟨hst₁, hrun⟩ := unless_failed_inv hrun hst'
    obtain ⟨y, st₂, hy, hrun⟩ := bind_inv hrun
    obtain ⟨rfl, rfl⟩ := pure_inv hrun
    obtain ⟨hclean, ha⟩ := lowerFunction_inv henter hu hst₁
    obtain ⟨rfl, f, c, lm, r, rfl, hc, hlm, hr, rfl⟩ := lowerDelegate_inv hy hst'
    exact ⟨hclean, ha, _, rfl, .lambda hc hlm hr⟩
  | functionRef loc fn =>
    rw [Expr.lower] at hrun
    obtain ⟨y, st₁, hy, hrun⟩ := bind_inv hrun
    obtain ⟨rfl, rfl⟩ := pure_inv hrun
    obtain ⟨rfl, f, c, lm, r, rfl, hc, hlm, hr, rfl⟩ := lowerDelegate_inv hy hst'
    exact ⟨.refl hst', rfl, _, rfl, .functionRef hc hlm hr⟩
  | localCall loc f args =>
    cases hlm : (ctx.graph.closureOf? f).bind ctx.declarations.methodOf? with
    | none =>
      simp only [Expr.lower, hlm] at hrun
      exact absurd hst' (fail_inv hrun)
    | some lm =>
      simp only [Expr.lower, hlm] at hrun
      obtain ⟨c, hc, hmethod⟩ := Option.bind_eq_some_iff.mp hlm
      obtain ⟨x, st₁, hx, hrun⟩ := bind_inv hrun
      obtain ⟨hst₁, hrun⟩ := unless_failed_inv hrun hst'
      obtain ⟨ys, st₂, hys, hrun⟩ := bind_inv hrun
      obtain ⟨zs, st₃, hzs, hrun⟩ := bind_inv hrun
      obtain ⟨rfl, rfl⟩ := pure_inv hrun
      obtain ⟨r, hr, rfl, rfl⟩ := attempt_inv hx hst₁
      obtain ⟨es, hes, rfl, rfl⟩ := attempt_inv hzs hst'
      obtain ⟨hclean, ha, args', rfl, hl⟩ := Expr.sound_all henter (hops rfl) hys hst'
      exact ⟨hclean, ha, _, rfl, .localCall hc hmethod hr hl hes⟩
  | call loc method receiver args =>
    cases receiver with
    | none =>
      rw [Expr.lower] at hrun
      obtain ⟨ys, st₁, hys, hrun⟩ := bind_inv hrun
      obtain ⟨rfl, rfl⟩ := pure_inv hrun
      obtain ⟨hclean, ha, args', rfl, hl⟩ := Expr.sound_all henter (hops rfl) hys hst'
      exact ⟨hclean, ha, _, rfl, .call .none hl⟩
    | some e =>
      rw [Expr.lower] at hrun
      obtain ⟨y, st₁, hy, hrun⟩ := bind_inv hrun
      obtain ⟨ys, st₂, hys, hrun⟩ := bind_inv hrun
      obtain ⟨rfl, rfl⟩ := pure_inv hrun
      obtain ⟨hclean₂, ha₂, args', rfl, hl₂⟩ :=
        Expr.sound_all henter (fun y hy => hops rfl y (List.mem_cons_of_mem e hy)) hys hst'
      obtain ⟨hclean₁, ha₁, e', rfl, hl₁⟩ :=
        hop e (hops rfl e List.mem_cons_self) _ hy hclean₂.failure
      exact ⟨hclean₁.trans hclean₂, ha₂.trans ha₁, _, rfl, .call (.some hl₁) (ha₁ ▸ hl₂)⟩
  | invoke loc callee args =>
    rw [Expr.lower] at hrun
    obtain ⟨y, st₁, hy, hrun⟩ := bind_inv hrun
    obtain ⟨ys, st₂, hys, hrun⟩ := bind_inv hrun
    obtain ⟨rfl, rfl⟩ := pure_inv hrun
    obtain ⟨hclean₂, ha₂, args', rfl, hl₂⟩ :=
      Expr.sound_all henter (fun y hy => hops rfl y (List.mem_cons_of_mem callee hy)) hys hst'
    obtain ⟨hclean₁, ha₁, e', rfl, hl₁⟩ :=
      hop callee (hops rfl callee List.mem_cons_self) _ hy hclean₂.failure
    exact ⟨hclean₁.trans hclean₂, ha₂.trans ha₁, _, rfl, .invoke hl₁ (ha₁ ▸ hl₂)⟩
  | field loc receiver f =>
    rw [Expr.lower] at hrun
    obtain ⟨y, st₁, hy, hrun⟩ := bind_inv hrun
    obtain ⟨rfl, rfl⟩ := pure_inv hrun
    obtain ⟨hclean, ha, e', rfl, hl⟩ := hop receiver (hops rfl _ List.mem_cons_self) _ hy hst'
    exact ⟨hclean, ha, _, rfl, .field hl⟩
  | delegate loc receiver method =>
    cases receiver with
    | none =>
      rw [Expr.lower] at hrun
      obtain ⟨rfl, rfl⟩ := pure_inv hrun
      exact ⟨.refl hst', rfl, _, rfl, .delegate .none⟩
    | some e =>
      rw [Expr.lower] at hrun
      obtain ⟨y, st₁, hy, hrun⟩ := bind_inv hrun
      obtain ⟨rfl, rfl⟩ := pure_inv hrun
      obtain ⟨hclean, ha, e', rfl, hl⟩ := hop e (hops rfl e List.mem_cons_self) _ hy hst'
      exact ⟨hclean, ha, _, rfl, .delegate (.some hl)⟩

/-! ## Statements -/

/-- A block inside a scope is lowered if its statements are. -/
theorem Block.sound_of_inner {n : Node} {b : Block} {x : Option Block} (henter : ctx.Faithful enter)
    (hn : (p, n) ∈ m.numbered.sites) (hb : n.opened? = some b)
    (ih : ∀ k ∈ n.inner, k.Sound ctx m) (hrun : b.lower ctx enter site st = (x, st'))
    (hst' : st'.failure = none) (holders : List (EnvId × Variable)) :
    ctx.Clean st st' ∧ ∃ b' holders', x = some b' ∧
      b.LowersTo ctx site ⟨st.aliases, holders⟩ b' ⟨st'.aliases, holders'⟩ := by
  have hinner := Node.inner_of_opened hb
  have hscope := h.seated.exact.holds.scopeOf_eq ((h.seated.exact.holds.lays p n hn).scope b hb).lt
  refine lowerScope_inv (m := m) (p := p.into n) henter (fun s hs => ?_) ?_ hst' holders
  · have hs := hinner ▸ List.mem_map_of_mem hs
    exact ⟨ih (.stmt s) hs, MethodBody.mem_sites_of_inner hn hs⟩
  · cases b with
    | mk id loc stmts =>
      rw [Block.lower, show ctx.graph.scopeOf? id = some id from hscope] at hrun
      exact hrun

theorem Stmt.sound_of_inner (s : Stmt) (ih : ∀ k ∈ (Node.stmt s).inner, k.Sound ctx m) :
    s.Sound ctx m := by
  intro enter p site st x st' holders henter hn hrun hst'
  have hsites (hnone : (Node.stmt s).opened? = none) (k : Node) (hk : k ∈ (Node.stmt s).inner) :=
    MethodBody.mem_sites_of_isNone hn hnone hk
  cases s with
  | block b =>
    rw [Stmt.lower] at hrun
    obtain ⟨y, st₁, hy, hrun⟩ := bind_inv hrun
    obtain ⟨rfl, rfl⟩ := pure_inv hrun
    obtain ⟨hclean, b', holders', rfl, hl⟩ :=
      Block.sound_of_inner h henter hn rfl ih hy hst' holders
    exact ⟨hclean, holders', .block hl⟩
  | declare loc target init =>
    cases init with
    | none =>
      cases target with
      | none =>
        rw [Stmt.lower] at hrun
        obtain ⟨rfl, rfl⟩ := pure_inv hrun
        exact ⟨.refl hst', holders, .declareNothing .none⟩
      | some v =>
        rw [Stmt.lower] at hrun
        obtain ⟨hclean, hl⟩ := lowerDeclaration_inv hrun hst' holders
        exact ⟨hclean, holders, .declare .none hl⟩
    | some value =>
      rw [Stmt.lower] at hrun
      obtain ⟨y, st₁, hy, hrun⟩ := bind_inv hrun
      have hvalue := ih (.expr value) List.mem_cons_self enter p (site.locate loc) st y st₁ henter
        (hsites rfl _ List.mem_cons_self) hy
      have hst₁ : st₁.failure = none := by
        rcases y with _ | y
        · rwa [(pure_inv hrun).2] at hst'
        rcases target with _ | v
        · rwa [(pure_inv hrun).2] at hst'
        · exact (lowerDeclaration_inv hrun hst' []).1.failure
      obtain ⟨hclean, ha, e', rfl, hl⟩ := hvalue hst₁
      cases target with
      | none =>
        obtain ⟨rfl, rfl⟩ := pure_inv hrun
        exact ⟨hclean, holders, by rw [ha]; exact .declareNothing (.some hl)⟩
      | some v =>
        obtain ⟨hclean', hl'⟩ := lowerDeclaration_inv hrun hst' holders
        rw [ha] at hl'
        exact ⟨hclean.trans hclean', holders, .declare (.some hl) hl'⟩
  | expr loc value =>
    rw [Stmt.lower] at hrun
    obtain ⟨y, st₁, hy, hrun⟩ := bind_inv hrun
    obtain ⟨rfl, rfl⟩ := pure_inv hrun
    obtain ⟨hclean, ha, e', rfl, hl⟩ := ih (.expr value) List.mem_cons_self enter p
      (site.locate loc) st y st' henter (hsites rfl _ List.mem_cons_self) hy hst'
    exact ⟨hclean, holders, by rw [ha]; exact .expr hl⟩
  | ret loc value =>
    cases value with
    | none =>
      rw [Stmt.lower] at hrun
      obtain ⟨rfl, rfl⟩ := pure_inv hrun
      exact ⟨.refl hst', holders, .ret .none⟩
    | some value =>
      rw [Stmt.lower] at hrun
      obtain ⟨y, st₁, hy, hrun⟩ := bind_inv hrun
      obtain ⟨rfl, rfl⟩ := pure_inv hrun
      obtain ⟨hclean, ha, e', rfl, hl⟩ := ih (.expr value) List.mem_cons_self enter p
        (site.locate loc) st y st' henter (hsites rfl _ List.mem_cons_self) hy hst'
      exact ⟨hclean, holders, by rw [ha]; exact .ret (.some hl)⟩
  | cond loc test thenBlock elseBlock =>
    have hthen {st y st'} := ih (.block thenBlock) (by simp [Node.inner]) enter p
      (site.locate loc) st y st'
    rw [Stmt.lower] at hrun
    obtain ⟨y, st₁, hy, hrun⟩ := bind_inv hrun
    have htest := ih (.expr test) List.mem_cons_self enter p (site.locate loc) st y st₁ henter
      (hsites rfl _ List.mem_cons_self) hy
    obtain ⟨z, st₂, hz, hrun⟩ := bind_inv hrun
    cases elseBlock with
    | none =>
      obtain ⟨rfl, rfl⟩ := pure_inv hrun
      obtain ⟨hclean₂, b', holders₂, rfl, hl₂⟩ :=
        hthen holders henter (hsites rfl _ (by simp [Node.inner])) hz hst'
      obtain ⟨hclean₁, ha, e', rfl, hl₁⟩ := htest hclean₂.failure
      rw [ha] at hl₂
      exact ⟨hclean₁.trans hclean₂, holders₂, .cond hl₁ hl₂ .none⟩
    | some b =>
      obtain ⟨w, st₃, hw, hrun⟩ := bind_inv hrun
      obtain ⟨rfl, rfl⟩ := pure_inv hrun
      have helse := fun holders => ih (.block b) (by simp [Node.inner]) enter p (site.locate loc)
        st₂ w st' holders henter (hsites rfl _ (by simp [Node.inner])) hw hst'
      obtain ⟨hclean₂, b', holders₂, rfl, hl₂⟩ :=
        hthen holders henter (hsites rfl _ (by simp [Node.inner])) hz (helse []).1.failure
      obtain ⟨hclean₃, b₂', holders₃, rfl, hl₃⟩ := helse holders₂
      obtain ⟨hclean₁, ha, e', rfl, hl₁⟩ := htest hclean₂.failure
      rw [ha] at hl₂
      exact ⟨(hclean₁.trans hclean₂).trans hclean₃, holders₃, .cond hl₁ hl₂ (.some hl₃)⟩
  | loop loc test body =>
    rw [Stmt.lower] at hrun
    obtain ⟨y, st₁, hy, hrun⟩ := bind_inv hrun
    obtain ⟨z, st₂, hz, hrun⟩ := bind_inv hrun
    obtain ⟨rfl, rfl⟩ := pure_inv hrun
    obtain ⟨hclean₂, b', holders₂, rfl, hl₂⟩ := ih (.block body) (by simp [Node.inner]) enter p
      (site.locate loc) st₁ z st' holders henter (hsites rfl _ (by simp [Node.inner])) hz hst'
    obtain ⟨hclean₁, ha, e', rfl, hl₁⟩ := ih (.expr test) List.mem_cons_self enter p
      (site.locate loc) st y st₁ henter (hsites rfl _ List.mem_cons_self) hy hclean₂.failure
    rw [ha] at hl₂
    exact ⟨hclean₁.trans hclean₂, holders₂, .loop hl₁ hl₂⟩
  | localFunction loc fn body =>
    obtain ⟨f, -, rfl, -⟩ := (h.seated.exact.holds.lays _ _ hn).function fn body rfl
    rw [Stmt.lower] at hrun
    obtain ⟨u, st₁, hu, hrun⟩ := bind_inv hrun
    obtain ⟨rfl, rfl⟩ := pure_inv hrun
    obtain ⟨hclean, ha⟩ := lowerFunction_inv henter hu hst'
    exact ⟨hclean, holders, ha ▸ .localFunction⟩

/-- A node at which nothing fails is lowered. -/
theorem Node.sound (n : Node) : n.Sound ctx m := by
  induction n using Node.induction with
  | step n ih =>
    cases n with
    | expr e => exact Expr.sound_of_inner h e ih
    | stmt s => exact Stmt.sound_of_inner h s ih
    | block b =>
      intro enter p site st x st' holders henter hn hrun hst'
      exact Block.sound_of_inner h henter hn rfl ih hrun hst' holders

/-! ## Whole bodies -/

namespace LoweringContext.Suits

/-- Entering a nested function to any depth is faithful. -/
theorem faithful (depth : Nat) : ctx.Faithful (ctx.lowerClosure depth) := by
  induction depth with
  | zero =>
    intro c loc st st' hrun hst'
    obtain ⟨-, rfl⟩ := pure_inv hrun
    exact ⟨.refl hst', rfl⟩
  | succ depth ih =>
    intro c loc st st' hrun hst'
    cases hlm : ctx.declarations.methodOf? c with
    | none =>
      simp only [lowerClosure, hlm] at hrun
      obtain ⟨-, rfl⟩ := pure_inv hrun
      exact ⟨.refl hst', rfl⟩
    | some lm =>
      have hlt : c < ctx.graph.closures.size := by
        rw [← h.declared.length]
        exact (List.getElem?_eq_some_iff.mp hlm).1
      obtain ⟨p, n, b, hn, hnested, hlays⟩ := h.seated.exact.holds.site_of_closure hlt
      have hb := Node.opened_of_nested hnested
      have hblock := ((h.seated.exact.holds.lays p n hn).scope b hb).block
      simp only [lowerClosure, hlm, hlays.body, hblock] at hrun
      change (ctx.lowerScope (ctx.lowerClosure depth) (ctx.methodSite lm loc) b.id b >>= fun body =>
        modify fun s => { s with
          aliases := st.aliases, bodies := s.bodies.setIfInBounds c body })
        { st with aliases := lm.copies } = _ at hrun
      obtain ⟨x, st₁, hx, hrun⟩ := bind_inv hrun
      obtain ⟨-, rfl⟩ := Prod.mk.inj hrun
      have hstmts (s : Stmt) (hs : s ∈ b.stmts) := by
        have hs := Node.inner_of_opened hb ▸ List.mem_map_of_mem hs
        exact And.intro (Node.sound h (.stmt s)) (MethodBody.mem_sites_of_inner hn hs)
      obtain ⟨hclean, b', holders, rfl, hl⟩ := lowerScope_inv ih hstmts hx hst' []
      refine ⟨⟨hclean.failure, fun hbodies d body hd => ?_⟩, rfl⟩
      by_cases hcd : c = d ∧ c < st₁.bodies.size
      · obtain ⟨rfl, hsize⟩ := hcd
        obtain rfl : b' = body := by simpa [hsize] using hd
        exact ⟨lm, loc, b, _, hlm, by rw [hlays.body, hblock], hl⟩
      · refine hclean.bodies hbodies d body ?_
        rw [← hd]
        by_cases hne : c = d
        · subst hne
          simp [show ¬ c < st₁.bodies.size from fun hs => hcd ⟨rfl, hs⟩]
        · simp [hne]

/-- If nothing fails, the whole body is lowered, and every method has its body. -/
theorem of_lowerMethod {block : Block} {x : Option MethodBody}
    (hblock : ctx.graph.body.block = some block) (hst : st.aliases = [])
    (hnone : ∀ c, st.bodies.getD c none = none)
    (hrun : ctx.lowerMethod block st = (x, st')) (hst' : st'.failure = none) :
    ∃ block' names, x = some { ctx.graph.body with block := some block' } ∧
      block.LowersTo ctx { frame := { isStatic := ctx.method.isStatic } } {} block' names ∧
      ∀ c < ctx.graph.closures.size, ∃ b, st'.bodies.getD c none = some b ∧
        ctx.LowersClosure c b := by
  have hnum : m.numbered.block = some block := by rw [← h.seated.exact.holds.body]; exact hblock
  have htop : m.topNodes = block.stmts.map Node.stmt := by simp [MethodBody.topNodes, hnum]
  have hid : Graph.root = block.id := by
    obtain ⟨b, -, rfl⟩ := Option.map_eq_some_iff.mp hnum
    cases b
    rfl
  rw [lowerMethod, hid] at hrun
  obtain ⟨body, st₁, hbody, hrun⟩ := bind_inv hrun
  obtain ⟨hst₁, hrun⟩ := unless_failed_inv hrun hst'
  obtain ⟨hclean, block', holders, rfl, hl⟩ := lowerScope_inv (m := m) (p := .outermost)
    (h.faithful _) (fun s hs => by
      refine ⟨Node.sound h (.stmt s), MethodBody.mem_sites_of_topNodes ?_⟩
      rw [htop]
      exact List.mem_map_of_mem hs) hbody hst₁ []
  obtain ⟨_, _, hget, hrun⟩ := bind_inv hrun
  obtain ⟨rfl, rfl⟩ := Prod.mk.inj hget
  cases hfind : ctx.declarations.methods.find? fun lm =>
      (st₁.bodies.getD lm.closure none).isNone with
  | some lm =>
    simp only [hfind] at hrun
    exact absurd hst' (fail_inv hrun)
  | none =>
    simp only [hfind] at hrun
    obtain ⟨rfl, rfl⟩ := pure_inv hrun
    rw [hst] at hl
    refine ⟨block', _, rfl, hl, fun c hc => ?_⟩
    obtain ⟨lm, hlm, hdecl⟩ := h.declared.methodOf hc
    have hsome := List.find?_eq_none.mp hfind lm (List.mem_of_getElem? hlm)
    rw [hdecl.closure, Option.isNone_iff_eq_none, ← ne_eq, Option.ne_none_iff_exists'] at hsome
    obtain ⟨b, hb⟩ := hsome
    exact ⟨b, hb, hclean.bodies (fun d body hd => by rw [hnone d] at hd; cases hd) c b hb⟩

end LoweringContext.Suits

end Nodes

/-! ## Conversions -/

/-- The conversion `r` of a body is what the lowering in context `ctx` gives. -/
structure LoweredBody.Written (r : LoweredBody) (ctx : LoweringContext) (m : MethodBody) :
    Prop where
  suits : ctx.Suits m
  body : ∃ block block' names, m.numbered.block = some block ∧
    r.body = { m.numbered with block := some block' } ∧
    block.LowersTo ctx { frame := { isStatic := ctx.method.isStatic } } {} block' names
  types : r.declarations.types = ctx.declarations.types
  length : r.declarations.methods.length = ctx.graph.closures.size
  methods : ∀ c < ctx.graph.closures.size, ∃ lm b, ctx.declarations.methodOf? c = some lm ∧
    ctx.LowersClosure c b ∧ r.declarations.methodOf? c = some { lm with body := some b }

/-- No method has a body when it is declared. -/
theorem Declarations.Declared.bodies_eq_none {d : Declarations} {g : Graph} {method : Method}
    (h : d.Declared g method) (c : ClosureId) :
    (d.methods.map (·.body)).toArray.getD c none = none := by
  by_cases hc : c < d.methods.length
  · have := (h.declared c _ (List.getElem?_eq_getElem hc)).body
    simpa [hc] using this
  · simp [hc]

theorem DeclarationDraft.written_of_lower {s s' : DeclarationDraft} {method : Method}
    {x : Option MethodBody} (h : LoweringContext.Suits ⟨s.graph, s.declarations, method⟩ m)
    (hlower : s.lower none = (x, s', none)) :
    ∃ body, x = some body ∧ s'.graph = s.graph ∧
      LoweredBody.Written ⟨body, s'.declarations, s'.supply⟩ ⟨s.graph, s.declarations, method⟩
        m := by
  have hholds := h.seated.exact.holds
  obtain ⟨method', block, hm, hblock, -⟩ := hholds.complete
  obtain rfl : method' = method := Option.some.inj (hm.symm.trans h.method)
  have hbody : s.graph.body.method = some method' := by rw [hholds.body]; exact hm
  have hblock' : s.graph.body.block = some block := by rw [hholds.body]; exact hblock
  simp only [DeclarationDraft.lower, hbody, hblock'] at hlower
  obtain ⟨rfl, hrest⟩ := Prod.mk.inj hlower
  obtain ⟨rfl, hfail⟩ := Prod.mk.inj hrest
  obtain ⟨block', names, hx, hl, hclosures⟩ := 
    h.of_lowerMethod hblock' rfl h.declared.bodies_eq_none rfl hfail
  refine ⟨_, hx, rfl, h, ⟨block, block', names, hblock, ?_, hl⟩, rfl, ?_, fun c hc => ?_⟩
  · rw [← hholds.body]
  · simp [h.declared.length]
  · obtain ⟨b, hb, hlb⟩ := hclosures c hc
    obtain ⟨lm, hlm, -⟩ := h.declared.methodOf hc
    refine ⟨lm, b, hlm, hlb, ?_⟩
    have hlm : s.declarations.methods[c]? = some lm := hlm
    simp only [Declarations.methodOf?, List.getElem?_mapIdx, hlm, Option.map_some]
    exact congrArg (fun x => some { lm with body := x }) hb

theorem DeclarationDraft.graph_lower (s : DeclarationDraft) (failure : Option Failure) :
    (s.lower failure).2.1.graph = s.graph := by
  rw [DeclarationDraft.lower]
  split <;> rfl

/-- A conversion that succeeds went through all its stages. -/
theorem Conversion.stages_of_ok {o : ConversionSettings} {r : LoweredBody}
    (h : (Conversion.run o m).outcome = .ok r) :
    ∃ a s s' method, Analysis.run o m = (a, none) ∧
      DeclarationDraft.declareAll { graph := a.graph } = (s, none) ∧
      LoweringContext.Suits ⟨s.graph, s.declarations, method⟩ m ∧
      s.declarations.storedValueEnv? = none ∧ s.lower none = (some r.body, s', none) ∧
      r = ⟨r.body, s'.declarations, s'.supply⟩ ∧ (Conversion.run o m).graph = s.graph := by
  rcases ha : Analysis.run o m with ⟨a, _ | f⟩
  · obtain ⟨-, hseated⟩ := MethodBody.seated_of_analysis ha
    simp only [Conversion.run, ha] at h ⊢
    rcases hs : DeclarationDraft.declareAll { graph := a.graph } with ⟨s, _ | f⟩
    · obtain ⟨method, hm, hseated', hdeclared, hstored⟩ := hseated.declared_of_declareAll hs
      have hdefect := hdeclared.defect_eq_none hseated' hstored
      simp only [DeclarationDraft.finish, hs, hdefect, ite_self] at h ⊢
      rcases hl : s.lower none with ⟨_ | body, s', _ | f⟩
      all_goals simp only [hl] at h ⊢
      case none.none | none.some | some.some => cases h
      case some.none =>
        have hgraph := s.graph_lower none
        rw [hl] at hgraph
        obtain rfl := Except.ok.inj h
        exact ⟨a, s, s', method, rfl, hs, ⟨hm, hseated', hdeclared⟩, hstored, hl, rfl, hgraph⟩
    · simp only [DeclarationDraft.finish, hs] at h
      cases h
  · simp only [Conversion.run, ha] at h
    cases h

/-- What a conversion gives is written tree by tree. -/
theorem LoweredBody.written_of_run {o : ConversionSettings} {r : LoweredBody}
    (h : (Conversion.run o m).outcome = .ok r) :
    ∃ ctx : LoweringContext, ctx.graph = (Conversion.run o m).graph ∧ r.Written ctx m ∧
      ctx.declarations.storedValueEnv? = none := by
  obtain ⟨a, s, s', method, -, -, hsuits, hstored, hlower, hr, hgraph⟩ := Conversion.stages_of_ok h
  obtain ⟨body, hbody, -, hwritten⟩ := DeclarationDraft.written_of_lower hsuits hlower
  obtain rfl := Option.some.inj hbody
  rw [hr, hgraph]
  exact ⟨_, rfl, hwritten, hstored⟩

/-- What is converted is accepted. -/
theorem MethodBody.accepted_of_run {o : ConversionSettings} {r : LoweredBody}
    (h : (Conversion.run o m).outcome = .ok r) : m.Accepted := by
  obtain ⟨a, -, -, -, ha, -⟩ := Conversion.stages_of_ok h
  exact (seated_of_analysis ha).1

end Unnest
