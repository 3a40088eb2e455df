import Unnest.Proofs.Semantics.Simulation

/-!
# Expressions in step

An expression and the one it is lowered to run in step. Variables are read and written at their
slots, a function used as a value becomes its method bound to the right receiver, and a call of it
passes the environments after the arguments. All else is evaluated alike.

## Main definitions

* `Layout.Runs` : code at a place is run in an instance.
* `Lowering.Reaches` : a variable that code in a scope can refer to.

## Main statements

* `Expr.LowersTo.simulates` : expressions run in step.
-/

namespace Unnest

variable {L : Lowering} {m : MethodBody} {r : LoweredBody} {Γ Γ' : Layout} {σ τ : Store}
  {M N : Machine} {i j : Nat} {p : Path} {s t : ScopeId} {c : ClosureId} {lm : LoweredMethod}
  {site : Site} {v : Variable} {way : Expr} {α β α' β' : Type} {R : α → β → Prop}
  {R' : α' → β' → Prop}

/-! ## Evaluation with a receiver -/

theorem Expr.eval_call (M : Machine) (i : Nat) (loc : Loc) (method : Method)
    (receiver : Option Expr) (args : List Expr) :
    (Expr.call loc method receiver args).eval M i = do
      let r ← Expr.evalReceiver M i receiver
      match M.program.method? method with
      | some (params, body) =>
        if params.length = args.length then
          return .value (← M.callMethod params body r (← Expr.evalArgs M i params args))
        else throw .stuck
      | none => return .value (← M.perform ⟨method, r, ← Expr.evalAll M i args⟩) := by
  cases receiver <;> rw [eval] <;> rfl

theorem Expr.eval_delegate (M : Machine) (i : Nat) (loc : Loc) (receiver : Option Expr)
    (method : Method) :
    (Expr.delegate loc receiver method).eval M i =
      (Expr.evalReceiver M i receiver >>= fun r => Eval.make (.bound method r)) := by
  cases receiver <;> rw [eval] <;> rfl

/-! ## Evaluation of arguments -/

theorem Expr.evalArgs_value {x : Variable} (hx : x.byRef = false) (M : Machine) (i : Nat)
    (params : List Variable) (e : Expr) (es : List Expr) :
    Expr.evalArgs M i (x :: params) (e :: es) = do
      let a ← e.eval M i
      return .value a :: (← Expr.evalArgs M i params es) := by
  cases e <;> rw [evalArgs] <;> simp [hx]

theorem Expr.evalArgs_reference {x w : Variable} {k : Cell} {params : List Variable}
    {es : List Expr} {passed : List Argument} (hx : x.byRef = true)
    (hk : (τ.instances i).cells w = some k)
    (hes : Expr.evalArgs M i params es τ = (.ok passed, τ)) (loc : Loc) :
    Expr.evalArgs M i (x :: params) (.ref loc (some w) :: es) τ =
      (.ok (.reference k :: passed), τ) := by
  rw [evalArgs, hx, if_pos rfl, map_eq_pure_bind, bind_assoc, Eval.bind_ok (Eval.cell_eq hk),
    pure_bind]
  exact Eval.bind_ok hes

/-! ## Steps that look at the stores -/

namespace Layout

theorem simulates_of_eq {x : Eval α} {y : Eval β}
    (h : ∀ Γ', Γ.Extends Γ' → ∀ σ τ, Γ'.Matches L σ τ →
      ∃ a b, x σ = (.ok a, σ) ∧ y τ = (.ok b, τ) ∧ R a b) : Γ.Simulates L R x y := by
  intro Γ' hext σ τ hm
  obtain ⟨a, b, hx, hy, hab⟩ := h Γ' hext σ τ hm
  rw [hx, hy]
  exact .ok (.refl Γ') hm hab

/-- What comes after looking at the stores may depend on them. -/
theorem simulates_bind_of_eq {x : Eval α} {y : Eval β} {f : α → Eval α'} {g : β → Eval β'}
    (h : ∀ Γ', Γ.Extends Γ' → ∀ σ τ, Γ'.Matches L σ τ →
      ∃ a b, x σ = (.ok a, σ) ∧ y τ = (.ok b, τ) ∧ Γ'.Simulates L R' (f a) (g b)) :
    Γ.Simulates L R' (x >>= f) (y >>= g) := by
  intro Γ' hext σ τ hm
  obtain ⟨a, b, hx, hy, hfg⟩ := h Γ' hext σ τ hm
  rw [Eval.bind_ok hx, Eval.bind_ok hy]
  exact hfg Γ' (.refl Γ') σ τ hm

/-- Instance `i` is one of scope `s`, and the code at `site` is run in it. -/
structure Runs (Γ : Layout) (L : Lowering) (i : Nat) (s : ScopeId) (site : Site) : Prop where
  lt : i < Γ.size
  scope : Γ.scope i = s
  inside : L.Inside s site

namespace Runs

variable (hr : Γ.Runs L i s site)

include hr

theorem locate (loc : Loc) : Γ.Runs L i s (site.locate loc) :=
  ⟨hr.lt, hr.scope, hr.inside.locate loc⟩

theorem mono (hext : Γ.Extends Γ') : Γ'.Runs L i s site :=
  ⟨Nat.lt_of_lt_of_le hr.lt hext.size, (hext.scope i hr.lt).trans hr.scope, hr.inside⟩

theorem sees (hm : Γ.Matches L σ τ) : Γ.Sees L τ Γ.size i site :=
  hm.sees hr.lt (hr.scope ▸ hr.inside)

end Runs

end Layout

/-! ## Variables -/

/-- Code in scope `s` can refer to variable `v` of scope `t`: it is around, and in the same frame
unless it is hoisted. -/
structure Lowering.Reaches (L : Lowering) (s t : ScopeId) (v : Variable) : Prop where
  mem : v ∈ (L.graph.scope t).vars
  role : v.role ≠ .receiver
  around : t ∈ L.graph.ancestors s
  frame : L.graph.envOf? v = none → L.graph.frame? t = L.graph.frame? s

namespace Lowering.Of

variable (h : L.Of m r)

include h

theorem reaches_of_reference {loc : Loc}
    (hn : (p, .expr (.ref loc (some v))) ∈ m.numbered.sites) : ∃ t, L.Reaches p.scope t v := by
  obtain ⟨t, hmem, hv, hne, hframe⟩ := h.fits.binds.exists_scope_of_reference hn
  refine ⟨t, hv, fun hrole => ?_, hmem, hframe⟩
  obtain ⟨q, hq, -⟩ := h.holds.declares_of_mem_vars hv
  exact hne (h.fits.wellBound.receiverUnique q v hq (by simp [Variable.isReceiver, hrole]))

theorem reaches_of_declared {n : Node} (hn : (p, n) ∈ m.numbered.sites)
    (hv : n.declared? = some v) : L.Reaches p.scope p.scope v where
  mem := h.holds.mem_vars_of_declares (.statement hn hv)
  role hrole := nomatch (h.fits.wellBound.role_declared hn hv).symm.trans hrole
  around := L.graph.self_mem_ancestors _
  frame _ := rfl

end Lowering.Of

namespace Layout

/-- The slots in which two runs keep the same variable. -/
def SameSlot (Γ : Layout) (L : Lowering) (a b : Slot) : Prop :=
  ∃ j < Γ.size, ∃ v ∈ (L.graph.scope (Γ.scope j)).vars, v.role ≠ .receiver ∧
    a = .cell ⟨j, v⟩ ∧ b = Γ.slot L j v

theorem simulates_put (h : L.Of m r) {a b : Slot} {x y : Content} (hab : Γ.SameSlot L a b)
    (hxy : x.Same y) : Γ.Simulates L (fun _ _ => True) (Eval.put a x) (Eval.put b y) := by
  obtain ⟨j, hj, v, hv, hrole, rfl, rfl⟩ := hab
  obtain ⟨x, rfl, rfl⟩ := hxy
  intro Γ' hext σ τ hm
  rw [← hext.scope j hj] at hv
  rw [← hext.slot_eq hj]
  obtain ⟨σ', τ', hσ, hτ, hm'⟩ :=
    Matches.put h hm (Nat.lt_of_lt_of_le hj hext.size) hv hrole x
  rw [Eval.put_eq hσ, Eval.put_eq hτ]
  exact .ok (.refl Γ') hm' trivial

namespace Runs

variable (h : L.Of m r) (hr : Γ.Runs L i s site)

include h hr

/-- Where the two runs find a variable. -/
theorem variableRef (hv : L.Reaches s t v) (hm : Γ.Matches L σ τ)
    (hw : L.ctx.variableRef site (L.names (L.graph.frame? s)).aliases v = .ok way) :
    ∃ j < i + 1, Γ.scope j = t ∧ (σ.instances i).cells v = some ⟨j, v⟩ ∧
      way.slot N i τ = (.ok (Γ.slot L j v), τ) ∧
      ∃ x, σ.cells ⟨j, v⟩ = .value x ∧ way.eval N i τ = (.ok (.value x), τ) := by
  obtain ⟨hi, rfl, hin⟩ := hr
  obtain ⟨j, hj⟩ := hm.nested.exists_around hi hv.around
  have hjlt := hm.nested.lt_size hi hj
  have hscope := hm.nested.scope_eq hi hv.around hj
  obtain ⟨hslot, heval⟩ := (hm.sees hi hin).variableRef (M := N) h hv.mem hv.role hv.around hj
    hv.frame hw
  obtain ⟨x, hx, hload⟩ := hm.cells j hjlt v (hscope ▸ hv.mem) hv.role (.inl hjlt)
  exact ⟨j, Nat.lt_succ_of_le (hm.nested.le i hi t j hj), hscope,
    (hm.source i hi).cells t hv.around j hj v hv.mem hv.role, hslot, x, hx, heval _ hload⟩

theorem simulates_ref (hv : L.Reaches s t v) (loc : Loc)
    (hw : L.ctx.variableRef site (L.names (L.graph.frame? s)).aliases v = .ok way) :
    Γ.Simulates L Content.Same ((Expr.ref loc (some v)).eval M i) (way.eval N i) := by
  refine simulates_of_eq fun Γ' hext σ τ hm => ?_
  obtain ⟨j, -, -, hcell, -, x, hx, heval⟩ := (hr.mono hext).variableRef (N := N) h hv hm hw
  exact ⟨_, _, Expr.eval_ref hcell M loc, heval, x, hx, rfl⟩

theorem simulates_slot (hv : L.Reaches s t v)
    (hw : L.ctx.variableRef site (L.names (L.graph.frame? s)).aliases v = .ok way) :
    Γ.Simulates L (Γ.SameSlot L) (Slot.cell <$> Eval.cell i (some v)) (way.slot N i) := by
  refine simulates_of_eq fun Γ' hext σ τ hm => ?_
  obtain ⟨j, hj, hscope, hcell, hslot, -⟩ := (hr.mono hext).variableRef (N := N) h hv hm hw
  have hjlt : j < Γ.size := Nat.lt_of_lt_of_le hj hr.lt
  refine ⟨.cell ⟨j, v⟩, _, ?_, hslot, j, hjlt, v, ?_, hv.role, rfl, hext.slot_eq hjlt L v⟩
  · rw [map_eq_pure_bind, Eval.bind_ok (Eval.cell_eq hcell)]
    rfl
  · rw [← hext.scope j hjlt, hscope]
    exact hv.mem

/-- The receiver. -/
theorem simulates_self (hw : L.ctx.receiverRef site = .ok way) (loc : Loc) (type : String) :
    Γ.Simulates L Content.Same ((Expr.self loc type).eval M i) (way.eval N i) := by
  refine simulates_of_eq fun Γ' hext σ τ hm => ?_
  obtain ⟨x, hx, heval⟩ := ((hr.mono hext).sees hm).receiverRef (M := N) h hw
  refine ⟨.value x, _, ?_, heval, x, rfl, rfl⟩
  rw [Expr.eval, Eval.bind_get, (hm.source i (hr.mono hext).lt).self, hx]
  rfl

end Runs

end Layout

/-! ## Functions -/

theorem Machine.home_eq {f : NestedFunction} {b : BlockId × Block} {k : Nat}
    (hf : M.program.function? f = some b) (hk : (σ.instances i).around b.1 = some k) :
    M.home f i σ = (.ok k, σ) := by
  rw [home, Eval.bind_get, hf, Option.bind_some, hk]
  rfl

/-- Function `c` is used at a place in scope `s`, inside the block that declares it. -/
structure Lowering.Uses (L : Lowering) (s : ScopeId) (c : ClosureId) (lm : LoweredMethod)
    (site : Site) (way : Option Expr) : Prop where
  lt : c < L.graph.closures.size
  declared : L.ctx.declarations.methodOf? c = some lm
  around : (L.graph.closure c).home ∈ L.graph.ancestors s
  receiver : L.ctx.callReceiver site lm = .ok way

theorem Lowering.Of.uses (h : L.Of m r) {n : Node} {f : NestedFunction} {way : Option Expr}
    (hn : (p, n) ∈ m.numbered.sites) (hc : L.ctx.graph.closureOf? f = some c)
    (hlm : L.ctx.declarations.methodOf? c = some lm)
    (hf : n.function? = some f ∨ n.use? = some (some f))
    (hw : L.ctx.callReceiver site lm = .ok way) :
    (L.graph.closure c).function = f ∧ L.Uses p.scope c lm site way := by
  obtain ⟨hlt, rfl⟩ := h.holds.closureOf_eq_some.mp hc
  exact ⟨rfl, hlt, hlm, h.fits.chained.exact.home_mem_of_use h.fits.calls hn hlt hf, hw⟩

namespace Layout

/-- The receiver of a method is the same from all instances inside the block that declares the
function. -/
theorem Nested.receiverOf_eq (h : L.Of m r) (hn : Γ.Nested L.graph) (hi : i < Γ.size)
    (hhome : (L.graph.closure c).home ∈ L.graph.ancestors (Γ.scope i))
    (hj : Γ.around i (L.graph.closure c).home = some j) :
    Γ.receiverOf L j c = Γ.receiverOf L i c := by
  simp only [receiverOf]
  cases hhost : (L.graph.closure c).host with
  | none => rfl
  | some e =>
    have his := h.fits.chained.isHost h.fits.calls hhost
    simp only [objectAt, hn.around_eq hi hhome hj his.around]

namespace Runs

variable (h : L.Of m r) (hM : M.Simulates N L m r) (hr : Γ.Runs L i s site) {way : Option Expr}
  (hu : L.Uses s c lm site way)

include h hM hr hu

/-- What a function closes over, and the receiver of its method. -/
theorem home_spec (hm : Γ.Matches L σ τ) :
    ∃ j < Γ.size, Γ.around i (L.graph.closure c).home = some j ∧
      Γ.scope j = (L.graph.closure c).home ∧
      M.home (L.graph.closure c).function i σ = (.ok j, σ) ∧
      Expr.evalReceiver N i way τ = (.ok (Γ.receiverOf L j c), τ) := by
  obtain ⟨b, b', hcallee⟩ := h.callee hu.lt hu.declared
  have hhome := hu.around
  have hsees := hr.sees hm
  obtain ⟨hi, rfl, -⟩ := hr
  obtain ⟨j, hj⟩ := hm.nested.exists_around hi hhome
  refine ⟨j, hm.nested.lt_size hi hj, hj, hm.nested.scope_eq hi hhome hj, ?_, ?_⟩
  · refine Machine.home_eq (by rw [hM.left, hcallee.function]) ?_
    rw [(hm.source i hi).around _ hhome, hj]
  · rw [hm.nested.receiverOf_eq h hi hhome hj]
    exact hsees.callReceiver h hu.declared hu.receiver

/-- A function as a value. -/
theorem simulates_closure (henvs : lm.envParams = []) :
    Γ.Simulates L Content.Same
      (M.home (L.graph.closure c).function i >>= fun k =>
        Eval.make (.closure (L.graph.closure c).function k))
      (Expr.evalReceiver N i way >>= fun x => Eval.make (.bound lm.symbol x)) := by
  refine simulates_bind_of_eq fun Γ' hext σ τ hm => ?_
  obtain ⟨j, hj, -, hscope, hhome, hreceiver⟩ := (hr.mono hext).home_spec h hM hu hm
  refine ⟨_, _, hhome, hreceiver, fun Γ'' hext' σ' τ' hm' => ?_⟩
  have hcallable : Γ''.CallableAt L (.closure (L.graph.closure c).function j)
      (.bound lm.symbol (Γ'.receiverOf L j c)) :=
    hext'.callableAt hm.nested ⟨c, lm, j, hu.lt, hu.declared, henvs, hj, hscope, rfl, rfl⟩
  exact .ok (.refl Γ'') (hm'.make hcallable) ⟨_, rfl, by rw [hm'.made]⟩

end Runs

end Layout

/-! ## Arguments -/

/-- The operands of an expression run in step. -/
def Lowering.InStep (L : Lowering) (Γ : Layout) (M N : Machine) (i : Nat) (s : ScopeId)
    (site : Site) (es : List Expr) : Prop :=
  ∀ x ∈ es, ∀ x', x.LowersTo L.ctx site (L.names (L.graph.frame? s)).aliases x' →
    Γ.Simulates L Content.Same (x.eval M i) (x'.eval N i)

namespace Lowering.InStep

variable {es es' : List Expr} (hes : L.InStep Γ M N i s site es)

include hes

theorem scalar {e e' : Expr} (he : e ∈ es)
    (hl : e.LowersTo L.ctx site (L.names (L.graph.frame? s)).aliases e') :
    Γ.Simulates L Eq (e.eval M i >>= Eval.scalar) (e'.eval N i >>= Eval.scalar) :=
  (hes e he e' hl).bind fun _ _ hab => Layout.simulates_scalar hab

theorem evalAll (hl : Expr.AllLowerTo L.ctx site (L.names (L.graph.frame? s)).aliases es es') :
    Γ.Simulates L Eq (Expr.evalAll M i es) (Expr.evalAll N i es') := by
  induction es generalizing es' with
  | nil =>
    cases hl
    exact Layout.simulates_pure rfl
  | cons e es ih =>
    cases hl with
    | cons hx hs =>
      rw [Expr.evalAll, Expr.evalAll]
      refine (hes e List.mem_cons_self _ hx).bind_scalar fun x => ?_
      exact (ih (fun y hy => hes y (List.mem_cons_of_mem e hy)) hs).bind_eq fun xs =>
        Layout.simulates_pure rfl

theorem evalReceiver {e e' : Option Expr} (he : ∀ x ∈ e, x ∈ es)
    (hl : Expr.OptLowersTo L.ctx site (L.names (L.graph.frame? s)).aliases e e') :
    Γ.Simulates L Eq (Expr.evalReceiver M i e) (Expr.evalReceiver N i e') := by
  cases hl with
  | none => exact Layout.simulates_pure rfl
  | some hx =>
    refine (hes.scalar (he _ rfl) hx).map ?_
    rintro x _ rfl
    rfl

/-- Arguments of a call of a function: they are passed by value, and what follows them does not
depend on them. -/
theorem evalArgs {copies params : List Variable} {rest : List Expr} {passed : List Argument}
    (hcopies : ∀ x ∈ copies, x.byRef = false) (hlen : copies.length = es.length)
    (hrest : ∀ Γ', Γ.Extends Γ' → ∀ σ τ, Γ'.Matches L σ τ →
      Expr.evalArgs N i params rest τ = (.ok passed, τ))
    (hl : Expr.AllLowerTo L.ctx site (L.names (L.graph.frame? s)).aliases es es') :
    Γ.Simulates L (fun xs ys => ys = xs.map (fun x => .value (.value x)) ++ passed)
      (Expr.evalAll M i es) (Expr.evalArgs N i (copies ++ params) (es' ++ rest)) := by
  induction es generalizing es' copies with
  | nil =>
    cases hl
    obtain rfl := List.length_eq_zero_iff.mp hlen
    exact Layout.simulates_of_eq fun Γ' hext σ τ hm => ⟨_, _, rfl, hrest Γ' hext σ τ hm, rfl⟩
  | cons e es ih =>
    cases hl with
    | cons hx hs =>
      obtain ⟨x, copies, rfl⟩ := List.exists_cons_of_length_eq_add_one hlen
      rw [List.cons_append, List.cons_append, Expr.evalAll,
        Expr.evalArgs_value (hcopies x List.mem_cons_self)]
      refine (hes e List.mem_cons_self _ hx).bind fun a b hab => ?_
      obtain ⟨y, rfl, rfl⟩ := hab
      rw [Eval.scalar, pure_bind]
      refine (ih (fun z hz => hes z (List.mem_cons_of_mem e hz))
        (fun z hz => hcopies z (List.mem_cons_of_mem x hz)) (Nat.succ.inj hlen) hs).bind ?_
      rintro xs _ rfl
      exact Layout.simulates_pure rfl

end Lowering.InStep

namespace Layout

/-- The environments that are passed after the arguments. -/
theorem Runs.evalEnvArgs (h : L.Of m r) (hr : Γ.Runs L i s site) (hm : Γ.Matches L σ τ)
    (hlm : L.ctx.declarations.methodOf? c = some lm)
    (hhome : (L.graph.closure c).home ∈ L.graph.ancestors s)
    (hj : Γ.around i (L.graph.closure c).home = some j) {es : List Expr}
    (hes : (lm.envParams.mapM fun p => L.ctx.envRef site p.1) = .ok es) :
    Expr.evalArgs N i (lm.envParams.map (·.2)) es τ = (.ok (Γ.envArgs L j lm), τ) := by
  have hd := h.fits.declared.declared c lm hlm
  have hsees := hr.sees hm
  obtain ⟨hi, rfl, -⟩ := hr
  -- one environment
  have hone (q : EnvId × Variable) (hq : q ∈ lm.envParams) (way : Expr)
      (hw : L.ctx.envRef site q.1 = .ok way) : ∃ w, way = .ref {} (some w) ∧
        (τ.instances i).cells w =
          some ⟨(Γ.around j (L.graph.env q.1).scope).getD 0, L.holder q.1⟩ := by
    obtain ⟨-, hk, haround, -⟩ := h.envParam_spec hlm hq
    obtain ⟨-, -, j', -, hj', hdenotes⟩ := hsees.envRef (M := N) h hw
    rw [hm.nested.around_eq hi hhome hj haround, hj']
    exact hdenotes.cell hk
  have hbyRef (q : EnvId × Variable) (hq : q ∈ lm.envParams) := (hd.holder q hq).1
  replace hes := forall₂_of_mapM_ok hes
  rw [envArgs]
  generalize lm.envParams = params at hes hone hbyRef
  induction hes with
  | nil => rfl
  | @cons q way params es hw _ ih =>
    obtain ⟨w, rfl, hcell⟩ := hone q List.mem_cons_self way hw
    have ih := ih (fun q hq => hone q (List.mem_cons_of_mem _ hq))
      fun q hq => hbyRef q (List.mem_cons_of_mem _ hq)
    exact Expr.evalArgs_reference (hbyRef q List.mem_cons_self) hcell ih {}

/-! ## Calls -/

section Calls

variable (h : L.Of m r) (hM : M.Simulates N L m r)

include hM

/-- A call from outside is the same event in both runs. -/
theorem simulates_perform (e : Event) : Γ.Simulates L Eq (M.perform e) (N.perform e) := by
  intro Γ' _ σ τ hm
  have hm' := hm.record e
  refine .ok (.refl Γ') hm' ?_
  rw [hM.world]
  exact congrArg M.world.reply hm'.history.symm

include h

/-- A call of a function and of its method. -/
theorem Runs.simulates_localCall (hr : Γ.Runs L i s site) {way : Option Expr}
    (hu : L.Uses s c lm site way) {args args' es : List Expr}
    (hargs : L.InStep Γ M N i s site args)
    (hl : Expr.AllLowerTo L.ctx site (L.names (L.graph.frame? s)).aliases args args')
    (hes : (lm.envParams.mapM fun p => L.ctx.envRef site p.1) = .ok es) (loc : Loc) :
    Γ.Simulates L Content.Same
      ((Expr.localCall loc (L.graph.closure c).function args).eval M i)
      ((Expr.call loc lm.symbol way (args' ++ es)).eval N i) := by
  have hd := h.fits.declared.declared c lm hu.declared
  obtain ⟨b, b', hcallee⟩ := h.callee hu.lt hu.declared
  rw [Expr.eval, Expr.eval_call]
  refine simulates_bind_of_eq fun Γ' hext σ τ hm => ?_
  obtain ⟨j, hj, haround, hscope, hhome, hreceiver⟩ := (hr.mono hext).home_spec h hM hu hm
  refine ⟨_, _, hhome, hreceiver, ?_⟩
  rw [hM.right, hcallee.method]
  have hlength : lm.symbol.params.reduceOption.length = (args' ++ es).length ↔
      (L.graph.closure c).function.params.reduceOption.length = args.length := by
    rw [hd.length_params, List.length_append, hl.length_eq, ← (forall₂_of_mapM_ok hes).length_eq]
    exact Nat.add_right_cancel_iff
  simp only [hlength]
  split
  case isFalse => exact simulates_throw .stuck
  rename_i hlen
  have hcopies (x : Variable) (hx : x ∈ lm.copies.reverse.map (·.2)) : x.byRef = false := by
    obtain ⟨q, hq, rfl⟩ := List.mem_map.mp hx
    exact (hd.copy q (List.mem_reverse.mp hq)).1
  have hcount : (lm.copies.reverse.map (·.2)).length = args.length := by
    rw [← hlen, ← hd.copies, List.length_map, List.length_map]
  have hargs' : L.InStep Γ' M N i s site args := fun x hx x' hl => (hargs x hx x' hl).mono hext
  have hpassed (Γ'' : Layout) (hext' : Γ'.Extends Γ'') (σ' τ' : Store)
      (hm' : Γ''.Matches L σ' τ') :
      Expr.evalArgs N i (lm.envParams.map (·.2)) es τ' = (.ok (Γ'.envArgs L j lm), τ') := by
    have hi := (hr.mono hext).lt
    rw [(hr.mono (hext.trans hext')).evalEnvArgs h hm' hu.declared hu.around
      (by rw [hext'.around i hi, haround]) hes]
    simp only [envArgs, hext'.around j hj]
  rw [hd.reduceOption_params]
  refine (hargs'.evalArgs hcopies hcount hpassed hl).bind ?_
  rintro xs _ rfl
  have hcall := hM.callFunction h hcallee hj hscope hm.nested xs
  rw [hd.reduceOption_params] at hcall
  exact hcall.bind_eq simulates_value

/-- A call of a callable value. -/
theorem simulates_invoke (k : Nat) (xs : List Value) :
    Γ.Simulates L Eq (M.invoke k xs) (N.invoke k xs) := by
  intro Γ' hext σ τ hm
  rw [Machine.invoke, Machine.invoke, Eval.bind_get, Eval.bind_get, hm.made]
  split
  case isFalse => exact .error hm.history
  rename_i hk
  obtain ⟨c, lm, j, hc, hlm, henvs, hj, hscope, ha, hb⟩ := hm.callables k hk
  obtain ⟨b, b', hcallee⟩ := h.callee hc hlm
  have hcall := hM.callFunction h hcallee hj hscope hm.nested xs
  rw [envArgs, henvs, List.map_nil, List.append_nil] at hcall
  rw [ha, hb]
  simp only [hM.right, hcallee.method, Eval.ofOption, pure_bind]
  exact hcall Γ' (.refl Γ') σ τ hm

end Calls

end Layout

/-! ## All expressions -/

theorem World.literal_spell (w : World) (ctx : LoweringContext) (frame : Frame)
    (value type : String) : w.literal value (ctx.spell frame type) = w.literal value type := by
  rw [LoweringContext.spell]
  split
  · exact w.literal_renameParams _ value type
  · rfl

/-- The method of a function that is used as a value takes no environments. -/
theorem Lowering.Of.envParams_eq_nil (h : L.Of m r)
    (hlm : L.ctx.declarations.methodOf? c = some lm)
    (htakes : (L.graph.closure c).takesReferences = false) : lm.envParams = [] := by
  by_contra hne
  exact nomatch htakes.symm.trans ((h.fits.declared.declared c lm hlm).takesReferences hne)

section Expressions

variable (h : L.Of m r) (hM : M.Simulates N L m r)

include h

/-- What is assigned to. -/
theorem Expr.LowersTo.simulates_slot {e e' : Expr} (hn : (p, .expr e) ∈ m.numbered.sites)
    (hself : ∀ loc type, e ≠ .self loc type) (hr : Γ.Runs L i p.scope site)
    (hl : e.LowersTo L.ctx site (L.names (L.graph.frame? p.scope)).aliases e') :
    Γ.Simulates L (Γ.SameSlot L) (e.slot M i) (e'.slot N i) := by
  have hgiven := h.given.nodes _ hn
  cases hl with
  | @ref _ _ loc v x hx =>
    obtain ⟨t, hv⟩ := h.reaches_of_reference hn
    rw [Expr.slot_withLoc]
    exact (hr.locate loc).simulates_slot h hv hx
  | self => exact absurd rfl (hself _ _)
  | field => exact hgiven.elim
  | _ => exact Layout.simulates_throw .stuck

include hM

/-- Expressions run in step. -/
theorem Expr.LowersTo.simulates {e e' : Expr} (hn : (p, .expr e) ∈ m.numbered.sites)
    (hr : Γ.Runs L i p.scope site)
    (hl : e.LowersTo L.ctx site (L.names (L.graph.frame? p.scope)).aliases e') :
    Γ.Simulates L Content.Same (e.eval M i) (e'.eval N i) := by
  generalize hk : Node.expr e = n at hn
  induction n using Node.induction generalizing e e' site with
  | step n ih =>
    subst hk
    have hgiven := h.given.nodes _ hn
    have sub (hnone : (Node.expr e).opened? = none) (loc : Loc) :
        L.InStep Γ M N i p.scope (site.locate loc) e.operands := by
      intro x hx x' hl
      obtain ⟨hmem, hsite⟩ := MethodBody.mem_sites_of_operand hn hnone hx
      exact ih _ hmem (hr.locate loc) hl rfl hsite
    cases hl with
    | literal =>
      rw [eval, eval, hM.world, World.literal_spell]
      exact Layout.simulates_value _
    | @ref _ _ loc v x hx =>
      obtain ⟨t, hv⟩ := h.reaches_of_reference hn
      rw [eval_withLoc]
      exact (hr.locate loc).simulates_ref h hv loc hx
    | @self _ _ loc type x hx =>
      rw [eval_withLoc]
      exact (hr.locate loc).simulates_self h hx loc type
    | @assign _ _ loc target target' value value' ht hv =>
      have hself (loc' : Loc) (type : String) : target ≠ .self loc' type := by
        rintro rfl
        exact hgiven
      have hsite := (MethodBody.mem_sites_of_operand hn rfl (List.mem_cons_self)).2
      rw [eval, eval]
      refine (ht.simulates_slot h hsite hself (hr.locate loc)).bind fun a b hab => ?_
      refine (sub rfl loc value (by simp [operands]) _ hv).bind fun x y hxy => ?_
      exact (Layout.simulates_put h hab hxy).bind fun _ _ _ => Layout.simulates_pure hxy
    | @binary _ _ loc op x x' y y' hx hy =>
      rw [eval, eval, hM.world]
      refine (sub rfl loc x (by simp [operands]) _ hx).bind_scalar fun a => ?_
      exact (sub rfl loc y (by simp [operands]) _ hy).bind_scalar fun b => Layout.simulates_value _
    | @lambda _ _ loc f body c lm way hc hlm hw =>
      obtain ⟨rfl, hu⟩ := h.uses hn hc hlm (.inl rfl) hw
      have hform := (h.fits.wellBound.nodes _ hn _ rfl).1
      rw [eval, eval_delegate, Eval.ofOption, pure_bind]
      refine (hr.locate loc).simulates_closure h hM hu (h.envParams_eq_nil hlm ?_)
      simp [Closure.takesReferences, NestedFunction.isLambda, hform]
    | @functionRef _ _ loc f c lm way hc hlm hw =>
      obtain ⟨rfl, hu⟩ := h.uses hn hc hlm (.inr rfl) hw
      have hdelegate := (h.fits.chained.exact.isDelegate c hu.lt).mpr (.inr ⟨p, loc, hn⟩)
      rw [eval, eval_delegate, Eval.ofOption, pure_bind]
      refine (hr.locate loc).simulates_closure h hM hu (h.envParams_eq_nil hlm ?_)
      simp [Closure.takesReferences, hdelegate]
    | @localCall _ _ loc f args args' c lm way es hc hlm hw ha hes =>
      obtain ⟨rfl, hu⟩ := h.uses hn hc hlm (.inr rfl) hw
      exact (hr.locate loc).simulates_localCall h hM hu (sub rfl loc) ha hes loc
    | @call _ _ loc method receiver receiver' args args' hreceiver ha =>
      obtain ⟨k, hid⟩ := hgiven
      have hnone : M.program.method? method = none := by rw [hM.left]; rfl
      rw [eval_call, eval_call, hnone, hM.right, h.method_eq_none hid]
      have hsub := sub rfl loc
      refine (hsub.evalReceiver (fun x hx => List.mem_append_left _ (Option.mem_toList.mpr hx))
        hreceiver).bind_eq fun x => ?_
      have hargs : L.InStep Γ M N i p.scope (site.locate loc) args :=
        fun y hy => hsub y (List.mem_append_right _ hy)
      refine (hargs.evalAll ha).bind_eq fun xs => ?_
      exact (Layout.simulates_perform hM _).bind_eq Layout.simulates_value
    | @invoke _ _ loc callee callee' args args' hc ha =>
      have hsub := sub rfl loc
      rw [eval, eval]
      refine (hsub callee List.mem_cons_self _ hc).bind_scalar fun x => ?_
      have hargs : L.InStep Γ M N i p.scope (site.locate loc) args :=
        fun y hy => hsub y (List.mem_cons_of_mem _ hy)
      refine (hargs.evalAll ha).bind_eq fun xs => ?_
      cases x with
      | callable k => exact (Layout.simulates_invoke h hM k xs).bind_eq Layout.simulates_value
      | _ => exact Layout.simulates_throw .stuck
    | field => exact hgiven.elim
    | newEnv => exact hgiven.elim
    | zero => exact hgiven.elim
    | delegate => exact hgiven.elim

end Expressions

end Unnest
