import Unnest.Proofs.Lowered.Blocks

/-!
# Calls of lowered methods

Where a nested function is called or used as a value, its method is called or bound instead: on the
receiver that the method has, with the lowered arguments and then the values that it takes. The
method of a function that is used as a value takes none. Nothing else calls or binds the methods of
nested functions.

## Main definitions

* `LoweringRules.calling` : what is handed over to a method.
* `LoweredBody.CallsAgree` : methods are called and bound as they are declared.

## Main statements

* `LoweredBody.Written.exists_source` : what is called or bound in a frame comes from the source.
* `MethodBody.run_calls` : whatever is converted, methods are called as they are declared.
-/

namespace Unnest

/-! ## Rules -/

/-- Calls and delegates, by what is handed over. In the other places stands what denotes the
variable or the receiver, and environments are created. -/
def LoweringRules.calling (g : Graph) (d : Declarations) : LoweringRules where
  hoisted := (creating g d).hoisted
  receiver := (creating g d).receiver
  delegate view lm r := lm.ReceivedBy g d view r ∧ lm.envParams = []
  call view lm r args args' rest := lm.ReceivedBy g d view r ∧ args'.length = args.length ∧
    List.Forall₂ (fun p x => x.Denotes g d view (.env p.1)) lm.envParams rest ∧
    (args.length = (g.closure lm.closure).function.params.length →
      (args' ++ rest).length = lm.symbol.params.length)
  create := (creating g d).create

theorem LoweringRules.idle_calling (g : Graph) (d : Declarations) : (calling g d).Idle where
  hoisted := (idle_creating g d).hoisted
  receiver := (idle_creating g d).receiver
  delegate h := (idle_creating g d).delegate h.1
  call {_ _ _ args args' _} h :=
    (idle_creating g d).call (show (creating g d).call _ _ _ args args' _ from ⟨h.1, h.2.2.1⟩)
  create := (idle_creating g d).create

/-- A lambda has the symbol of one. -/
def Node.LambdaAgrees : Node → Prop
  | .expr (.lambda _ (some f) _) => f.form = .lambda
  | _ => True

instance (n : Node) : Decidable n.LambdaAgrees := by
  unfold Node.LambdaAgrees
  split <;> infer_instance

/-- Lambdas have the symbols of lambdas. -/
def MethodBody.LambdasAgree (m : MethodBody) : Prop := ∀ s ∈ m.numbered.sites, s.2.LambdaAgrees

instance (m : MethodBody) : Decidable m.LambdasAgree :=
  inferInstanceAs (Decidable (∀ s ∈ m.numbered.sites, s.2.LambdaAgrees))

/-! ## Where calls come from -/

/-- The place is in `frame`, and the locals at hand are declared among `ns` for the environments
that they hold. -/
structure View.DeclaredIn (view : View) (g : Graph) (frame : Frame) (ns : List Node) : Prop where
  frame : view.frame = frame
  locals : ∀ p ∈ view.locals, (∃ k, p.2.id = .holder k p.1) ∧
    .stmt (.declare {} (some p.2) (some (g.newborn p.1 p.2.type))) ∈ ns

/-- At some place of `frame`, the expression is what one of the body has become. -/
def LoweringContext.Comes (ctx : LoweringContext) (m : MethodBody) (frame : Frame) (ns : List Node)
    (x : Expr) : Prop :=
  ∃ e view, m.Has (.expr e) ∧ view.DeclaredIn ctx.graph frame ns ∧
    e.LowersBy ctx (.calling ctx.graph ctx.declarations) view x

/-- What is called or bound in a lowered tree comes from the source. -/
theorem LoweringContext.spreads_calling (ctx : LoweringContext) (m : MethodBody) (frame : Frame)
    (ns : List Node) : ctx.Spreads m (.calling ctx.graph ctx.declarations) ns
      (·.DeclaredIn ctx.graph frame ns)
      (Expr.Emits fun x => x.method? = none ∨ ctx.Comes m frame ns x)
      fun n => ∀ x, n = .expr x → x.method? = none ∨ ctx.Comes m frame ns x where
  expr hv he hl := hl.emits ⟨LoweringRules.idle_calling _ _, MethodBody.Has.operand,
    fun he hl => ⟨_, _, he, hv, hl⟩⟩ he
  assign ht hi := (Expr.emits_iff rfl).mpr ⟨.inl rfl, List.forall_mem_cons.mpr
    ⟨((LoweringRules.idle_calling _ _).hoisted ht).emits _, List.forall_mem_singleton.mpr hi⟩⟩
  create hv hid hc hns := by
    refine ⟨⟨hv.frame, List.forall_mem_cons.mpr ⟨⟨hid, ?_⟩, hv.locals⟩⟩, ?_⟩
    · obtain ⟨t, parent, stores, -, rfl, -⟩ := hc
      exact hns (Stmt.mem_nodesAll.mpr ⟨_, List.mem_cons_self, List.mem_cons_self⟩)
    · rintro n hn x rfl
      exact .inl ((LoweringRules.idle_calling _ _).create hc _ hn)
  nodes h n hn x hx := by
    subst hx
    exact h _ hn
  stmt _ x hx := by cases hx
  block b x hx := by cases hx

namespace LoweredBody.Written

variable {r : LoweredBody} {ctx : LoweringContext} {m : MethodBody} (h : r.Written ctx m)

include h

theorem keeps_calling (hlambda : m.LambdasAgree) :
    ctx.Keeps m r.declarations (.calling ctx.graph r.declarations) where
  methods := h.methodOf_eq
  hoisted := h.keeps_creating.hoisted
  receiver := h.keeps_creating.receiver
  create := h.keeps_creating.create
  lambda {p loc f b site c lm r'} _ hn hc hlm hr := by
    refine ⟨h.receivedBy hlm hr, ?_⟩
    obtain ⟨-, rfl⟩ := h.suits.seated.exact.holds.closureOf_eq_some.mp hc
    refine h.envParams_eq_nil hlm ?_
    have hform : (ctx.graph.closure c).function.form = .lambda := hlambda _ hn
    simp [Closure.takesReferences, NestedFunction.isLambda, hform]
  functionRef {p loc f site c lm r'} _ hn hc hlm hr := by
    refine ⟨h.receivedBy hlm hr, ?_⟩
    obtain ⟨hlt, rfl⟩ := h.suits.seated.exact.holds.closureOf_eq_some.mp hc
    refine h.envParams_eq_nil hlm ?_
    simp [Closure.takesReferences,
      (h.suits.seated.exact.isDelegate c hlt).mpr (.inr ⟨p, loc, hn⟩)]
  call hview hlm hr hes hlen := by
    obtain ⟨hreceived, hrest⟩ := h.keeps_creating.call hview hlm hr hes hlen
    refine ⟨hreceived, hlen, hrest, fun hargs => ?_⟩
    obtain ⟨own, hown, hparams⟩ := (h.takes_of_methodOf hlm).2.params
    have hes := hrest.length_eq
    simp only [hparams, List.length_append, List.length_map]
    omega

/-- Whatever is called or bound in a frame is what an expression of the body has become there. -/
theorem exists_source (hlambda : m.LambdasAgree) {fr : Option ClosureId} {b : Block}
    (hb : r.blockOf? fr = some b) {x : Expr} (hx : .expr x ∈ b.nodes) (hmethod : x.method? ≠ none) :
    LoweringContext.Comes { ctx with declarations := r.declarations } m
      (LoweringContext.frameAt { ctx with declarations := r.declarations } fr) b.nodes x := by
  have hfr : fr ∈ ctx.graph.frames := by
    refine Graph.mem_frames.mpr fun c hc => ?_
    obtain ⟨lm, hlm, -⟩ := Option.bind_eq_some_iff.mp (hc ▸ hb)
    exact (h.declaredAs hlm).1
  obtain ⟨b₀, b', hb₀, hb', hl⟩ := h.frame_lowersBy (h.keeps_calling hlambda) hfr
  obtain rfl : b' = b := Option.some.inj (hb'.symm.trans hb)
  obtain ⟨p, b₁, hb₁, -, -, hstmts, -⟩ := h.suits.seated.exact.holds.frame_block hfr
  obtain rfl : b₁ = b₀ := Option.some.inj (hb₁.symm.trans hb₀)
  exact (hl.spreads (LoweringContext.spreads_calling _ m _ _) ⟨rfl, by simp⟩
    (fun s hs => ⟨p, hstmts s hs⟩) (List.Subset.refl _) _ hx x rfl).resolve_left hmethod

/-- Different closures have methods with different symbols. -/
theorem eq_of_symbol {c c' : ClosureId} {lm lm' : LoweredMethod}
    (hlm : r.declarations.methodOf? c = some lm) (hlm' : r.declarations.methodOf? c' = some lm')
    (hsymbol : lm.symbol = lm'.symbol) : lm = lm' := by
  obtain ⟨-, lm₀, b, hd, rfl⟩ := h.declaredAs hlm
  obtain ⟨-, lm₁, b', hd', rfl⟩ := h.declaredAs hlm'
  obtain rfl : c = c' :=
    MethodId.lowered.inj (hd.id.symm.trans ((congrArg Method.id hsymbol).trans hd'.id))
  exact Option.some.inj (hlm.symm.trans hlm')

end LoweredBody.Written

/-! ## Main statement -/

/-- What has become of a use of the function whose method is `lm`: a call, with the lowered
arguments and then the values that the method takes, or a delegate, if it takes none. -/
inductive LoweringContext.Uses (ctx : LoweringContext) (m : MethodBody) (view : View)
    (lm : LoweredMethod) : Expr → Prop where
  | call {loc f args args' r rest} (he : m.Has (.expr (.localCall loc f args)))
      (hc : ctx.graph.closureOf? f = some lm.closure)
      (ha : Expr.AllLowerBy ctx (.calling ctx.graph ctx.declarations) view args args')
      (hr : (LoweringRules.calling ctx.graph ctx.declarations).call view lm r args args' rest) :
      Uses ctx m view lm (.call loc lm.symbol r (args' ++ rest))
  | delegate {loc f r} (he : m.Has (.expr (.functionRef loc (some f))) ∨
        ∃ body, m.Has (.expr (.lambda loc (some f) body)))
      (hc : ctx.graph.closureOf? f = some lm.closure)
      (hr : (LoweringRules.calling ctx.graph ctx.declarations).delegate view lm r) :
      Uses ctx m view lm (.delegate loc r lm.symbol)

/-- Methods are called and bound as they are declared. -/
structure LoweredBody.CallsAgree (r : LoweredBody) (ctx : LoweringContext) (m : MethodBody) :
    Prop where
  lowersBy : r.LowersBy ctx m (.calling ctx.graph ctx.declarations)
  takes : ∀ c lm, r.declarations.methodOf? c = some lm → lm.closure = c ∧ lm.Takes ctx.graph
  /-- Wherever the method of a closure is called or bound, its function is used, unless the body
  itself names that method there. -/
  uses : ∀ c lm, r.declarations.methodOf? c = some lm → ∀ fr b, r.blockOf? fr = some b →
    ∀ x, .expr x ∈ b.nodes → x.method? = some lm.symbol →
      ∃ view, view.DeclaredIn ctx.graph (ctx.frameAt fr) b.nodes ∧ (ctx.Uses m view lm x ∨
        ∃ e, m.Has (.expr e) ∧ e.method? = some lm.symbol ∧
          e.LowersBy ctx (.calling ctx.graph ctx.declarations) view x)

theorem LoweredBody.Written.callsAgree {r : LoweredBody} {ctx : LoweringContext} {m : MethodBody}
    (h : r.Written ctx m) (hlambda : m.LambdasAgree) :
    r.CallsAgree { ctx with declarations := r.declarations } m where
  lowersBy := h.lowersBy (h.keeps_calling hlambda)
  takes c lm hlm := h.takes_of_methodOf hlm
  uses c lm hlm fr b hb x hx hmethod := by
    obtain ⟨e, view, he, hview, hl⟩ := h.exists_source hlambda hb hx (by simp [hmethod])
    refine ⟨view, hview, ?_⟩
    -- the method of the function that is used has the same symbol
    have heq {c' : ClosureId} {lm' : LoweredMethod} (hlm' : r.declarations.methodOf? c' = some lm')
        (hsymbol : some lm'.symbol = some lm.symbol) : lm' = lm ∧ c' = lm.closure := by
      obtain rfl := h.eq_of_symbol hlm' hlm (Option.some.inj hsymbol)
      exact ⟨rfl, (h.takes_of_methodOf hlm').1.symm⟩
    cases hl with
    | hoisted _ hy =>
      cases (((LoweringRules.idle_calling _ _).hoisted hy).withLoc _).self.symm.trans hmethod
    | self hy =>
      cases (((LoweringRules.idle_calling _ _).receiver hy).withLoc _).self.symm.trans hmethod
    | lambda hc hlm' hr =>
      obtain ⟨rfl, rfl⟩ := heq hlm' hmethod
      exact .inl (.delegate (.inr ⟨_, he⟩) hc hr)
    | functionRef hc hlm' hr =>
      obtain ⟨rfl, rfl⟩ := heq hlm' hmethod
      exact .inl (.delegate (.inl he) hc hr)
    | localCall hc hlm' ha hr =>
      obtain ⟨rfl, rfl⟩ := heq hlm' hmethod
      exact .inl (.call he hc ha hr)
    | call hr ha => exact .inr ⟨_, he, hmethod, .call hr ha⟩
    | delegate hr => exact .inr ⟨_, he, hmethod, .delegate hr⟩
    | _ => cases hmethod

/-- Whatever body is converted, methods are called and bound as they are declared: on the receiver
they have, and with the lowered arguments followed by the values they take. A method that takes
values is never bound. -/
theorem MethodBody.run_calls {o : ConversionSettings} {m : MethodBody} {r : LoweredBody}
    (hlambda : m.LambdasAgree) (h : (Conversion.run o m).outcome = .ok r) :
    ∃ method, m.method = some method ∧
      r.CallsAgree ⟨(Conversion.run o m).graph, r.declarations, method⟩ m := by
  obtain ⟨ctx, hgraph, hwritten, -⟩ := LoweredBody.written_of_run h
  rw [← hgraph]
  exact ⟨ctx.method, hwritten.suits.method, hwritten.callsAgree hlambda⟩

open Tally in
/-- The local function of `Total` is called with the value that holds the sum. -/
theorem MethodBody.calls_total : total.LambdasAgree ∧ ∃ r,
    (Conversion.run {} total).outcome = .ok r ∧
    (r.declarations.methodOf? 0).map (·.envParams.map (·.1)) = some [0] ∧
    ∃ method, total.method = some method ∧
      r.CallsAgree ⟨(Conversion.run {} total).graph, r.declarations, method⟩ total := by
  have hlambda : total.LambdasAgree := by decide +kernel
  have hparams : (Conversion.run {} total).outcome.toOption.map (fun r =>
      (r.declarations.methodOf? 0).map (·.envParams.map (·.1))) = some (some [0]) := by
    decide +kernel
  obtain ⟨r, hr⟩ := run_total
  rw [hr] at hparams
  exact ⟨hlambda, r, hr, Option.some.inj hparams, run_calls hlambda hr⟩

end Unnest
