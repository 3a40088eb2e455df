import Unnest.Proofs.Semantics.Entering

/-!
# Creating environments

The statements at the start of a lowered block create the environment of the new instance: its
holder is declared, its parent link is set, and parameters and the receiver are stored in it. They
touch nothing else, which is what `Layout.Creating` says of the stores in between; once they are
run, the stores match again.

## Main definitions

* `Lowering.Inside`, `Lowering.Begins` : places whose locals hold the right environments.
* `Layout.Creating` : work on a new environment only.

## Main statements

* `Layout.Begun.opens` : the statements at the start of a block make the stores match.
-/

namespace Unnest

variable {L : Lowering} {m : MethodBody} {r : LoweredBody} {Γ : Layout} {σ τ τ' τ₀ : Store}
  {M : Machine} {i j : Nat} {s : ScopeId} {e : EnvId} {site site' : Site} {v : Variable} {x : Value}
  {f : Field} {ty : EnvType}

/-! ## Places -/

/-- The place `site` is in scope `s`: its locals are holders of environments around it. -/
structure Lowering.Inside (L : Lowering) (s : ScopeId) (site : Site) : Prop where
  frame : site.frame = L.ctx.frameAt (L.graph.frame? s)
  locals : ∀ e holder, site.locals.lookup e = some holder → holder = L.holder e ∧ L.Live e ∧
    (L.graph.env e).scope ∈ L.graph.ancestors s ∧
    L.graph.frame? (L.graph.env e).scope = L.graph.frame? s

/-- The place `site` is where scope `s` begins, so its own environment is not there yet. -/
structure Lowering.Begins (L : Lowering) (s : ScopeId) (site : Site) : Prop
    extends L.Inside s site where
  before : ∀ e holder, site.locals.lookup e = some holder → (L.graph.env e).scope ≠ s

theorem Lowering.Inside.locate (hin : L.Inside s site) (loc : Loc) :
    L.Inside s (site.locate loc) := by
  obtain ⟨frame, locals⟩ := hin
  rw [← LoweringContext.frame_locate site loc] at frame
  rw [← LoweringContext.locals_locate site loc] at locals
  exact ⟨frame, locals⟩

namespace Layout

theorem MatchesTo.sees (hm : Γ.Matches L σ τ) (hi : i < Γ.size) (hin : L.Inside (Γ.scope i) site) :
    Γ.Sees L τ Γ.size i site where
  nested := hm.nested
  lt := hi
  le := Nat.le_of_lt hi
  frame := hin.frame
  locals e holder hl := by
    obtain ⟨rfl, hlive, hmem, hframe⟩ := hin.locals e holder hl
    obtain ⟨j, hj⟩ := hm.nested.exists_around hi hmem
    exact ⟨rfl, hlive, hmem, hframe, j, hm.nested.lt_size hi hj, hj⟩
  target := hm.target i hi
  env j hj _ := hm.env j hj hj

theorem Begun.sees (hb : Γ.Begun L i σ τ) (hin : L.Begins (Γ.scope i) site) :
    Γ.Sees L τ i i site := by
  have hi : i < Γ.size := by
    have := hb.size
    omega
  constructor
  case nested => exact hb.nested
  case lt => exact hi
  case le => exact Nat.le_refl i
  case frame => exact hin.frame
  case locals =>
    intro e holder hl
    obtain ⟨rfl, hlive, hmem, hframe⟩ := hin.locals e holder hl
    obtain ⟨j, hj⟩ := hb.nested.exists_around hi hmem
    have hlt := hb.nested.lt_of_ne hi hmem hj (hin.before e _ hl)
    exact ⟨rfl, hlive, hmem, hframe, j, hlt, hj⟩
  case target => exact hb.target i hi
  case env => exact fun j hji hj => hb.env j hj hji

/-! ## Work on a new environment -/

/-- The store `τ` comes from `τ₀` by work on the environment `e` of instance `i` only, which is
there. -/
structure Creating (Γ : Layout) (L : Lowering) (i : Nat) (e : EnvId) (τ₀ τ : Store) : Prop
    extends Γ.HeldAt L τ i e where
  instances : τ.instances = τ₀.instances
  entered : τ.entered = τ₀.entered
  callables : τ.callables = τ₀.callables
  made : τ.made = τ₀.made
  history : τ.history = τ₀.history
  cells : ∀ c, c ≠ ⟨i, L.holder e⟩ → τ.cells c = τ₀.cells c
  objects : ∀ o < τ₀.allocated, τ.objects o = τ₀.objects o
  allocated : τ₀.allocated ≤ τ.allocated

namespace Creating

variable (hc : Γ.Creating L i e τ₀ τ)

include hc

/-- Other environments stay as they are. -/
theorem envAt {e' : EnvId} (hj : j ≠ i) (henv : Γ.EnvAt L τ₀ j e') : Γ.EnvAt L τ j e' := by
  obtain ⟨⟨named, record, object⟩, parent, receiver⟩ := henv
  have hcell : τ.cells ⟨j, L.holder e'⟩ = τ₀.cells ⟨j, L.holder e'⟩ :=
    hc.cells _ fun heq => hj (congrArg Cell.inst heq)
  refine ⟨⟨named, ?_, fun hk => ?_⟩, fun hk hneeds => ?_, ?_⟩
  · rwa [hcell]
  · obtain ⟨hobj, hlt⟩ := object hk
    exact ⟨hcell.trans hobj, Nat.lt_of_lt_of_le hlt hc.allocated⟩
  · rw [hc.objects _ (object hk).2]
    exact parent hk hneeds
  · simpa only [Store.load, hcell] using receiver

theorem sees (hs : Γ.Sees L τ₀ i i site) : Γ.Sees L τ i i site where
  nested := hs.nested
  lt := hs.lt
  le := hs.le
  frame := hs.frame
  locals := hs.locals
  target := hc.instances ▸ hs.target
  env j hj hlt e he := hc.envAt (Nat.ne_of_lt hj) (hs.env j hj hlt e he)

/-- Writing a field of the environment. -/
theorem puts (hobject : Γ.object i = τ₀.allocated) {f : FieldId}
    (hp : τ.Puts (Γ.envSlot L i e f) x τ') : Γ.Creating L i e τ₀ τ' := by
  have hcell (c : Cell) (hne : (L.graph.env e).isValue = true → c ≠ ⟨i, L.holder e⟩) :
      τ'.cells c = τ.cells c := by
    have happart : (Slot.cell c).Apart (Γ.envSlot L i e f) := by
      cases hk : (L.graph.env e).isValue with
      | true => exact envSlot_value Γ i hk f ▸ hne hk
      | false => exact envSlot_reference Γ i hk f ▸ trivial
    exact Option.some.inj (hp.apart _ happart)
  constructor
  case toHeldAt =>
    refine ⟨hc.named, fun hk => ?_, fun hk => ?_⟩
    · obtain ⟨F, hF⟩ := hc.record hk
      exact hp.record _ F hF (by rw [envSlot_value Γ i hk]; exact (nomatch ·))
    · obtain ⟨hobj, hlt⟩ := hc.object hk
      refine ⟨(hcell _ fun hk' => ?_).trans hobj, hp.allocated ▸ hlt⟩
      exact nomatch hk.symm.trans hk'
  case instances => exact hp.instances.trans hc.instances
  case entered => exact hp.entered.trans hc.entered
  case callables => exact hp.callables.trans hc.callables
  case made => exact hp.made.trans hc.made
  case history => exact hp.history.trans hc.history
  case cells => exact fun c hne => (hcell c fun _ => hne).trans (hc.cells c hne)
  case objects =>
    intro o ho
    refine Eq.trans (funext fun g => ?_) (hc.objects o ho)
    have happart : (Slot.field o g).Apart (Γ.envSlot L i e f) := by
      rw [envSlot]
      split
      · trivial
      · exact .inl (hobject ▸ Nat.ne_of_lt ho)
    have hload := hp.apart _ happart
    simpa [Store.load] using hload
  case allocated => exact hp.allocated.symm ▸ hc.allocated

/-- Storing a value in a field of the environment. -/
theorem store (hobject : Γ.object i = τ₀.allocated)
    (hholder : (τ₀.instances i).cells (L.holder e) = some ⟨i, L.holder e⟩) {value : Expr}
    (heval : value.eval M i τ = (.ok (.value x), τ)) (f : Field) :
    ∃ τ', (LoweringContext.store (L.holder e) f value).eval M i τ = (.ok none, τ') ∧
      τ.Puts (Γ.envSlot L i e f.id) x τ' ∧ Γ.Creating L i e τ₀ τ' := by
  have hdenotes : Γ.Denotes L M τ i (.ref {} (some (L.holder e))) e i :=
    denotes_ref (hc.instances ▸ hholder) hc.toHeldAt
  obtain ⟨y, hy⟩ : ∃ y, τ.load (Γ.envSlot L i e f.id) = some (.value y) := by
    cases hk : (L.graph.env e).isValue with
    | true =>
      obtain ⟨F, hF⟩ := hc.record hk
      exact ⟨F f.id, by rw [envSlot_value Γ i hk, Store.load, hF]⟩
    | false => exact ⟨_, by rw [envSlot_reference Γ i hk, Store.load]⟩
  obtain ⟨τ', hput, hp⟩ := Store.put_eq hy x
  refine ⟨τ', ?_, hp, hc.puts hobject hp⟩
  have hassign : (Expr.assign {} (.field {} (.ref {} (some (L.holder e))) f) value).eval M i τ =
      (.ok (.value x), τ') := by
    rw [Expr.eval, Expr.slot, Eval.bind_ok (hdenotes.slot f), Eval.bind_ok heval,
      Eval.bind_ok (Eval.put_eq hput)]
    rfl
  rw [LoweringContext.store, Stmt.eval, Eval.bind_ok hassign]
  rfl

end Creating

/-! ## The statements at the start of a block -/

theorem Stmt.evalAll_cons {stmt : Stmt} (h : stmt.eval M i τ = (.ok none, τ')) (rest : List Stmt) :
    Stmt.evalAll M i (stmt :: rest) τ = Stmt.evalAll M i rest τ' := by
  rw [Stmt.evalAll, Eval.bind_ok h]

/-- Declaring the holder creates an environment whose fields are zero. -/
theorem creating_of_declare (hnamed : ∃ k, (L.holder e).id = .holder k e)
    (hobject : Γ.object i = τ₀.allocated) (type : String) :
    ∃ τ, (Stmt.declare {} (some (L.holder e)) (some (if (L.graph.env e).isValue then
        .zero {} type else .newEnv {} type))).eval M i τ₀ = (.ok none, τ) ∧
      Γ.Creating L i e τ₀ τ ∧ ∀ f, τ.load (Γ.envSlot L i e f) = some (.value .zero) := by
  cases hk : (L.graph.env e).isValue with
  | true =>
    refine ⟨{ τ₀ with cells := Function.update τ₀.cells ⟨i, L.holder e⟩ (.record fun _ => .zero) },
      rfl, ?_, fun f => by simp [envSlot_value Γ i hk, Store.load]⟩
    constructor
    case toHeldAt =>
      exact ⟨hnamed, fun _ => ⟨_, Function.update_self ..⟩, fun hk' => by cases hk.symm.trans hk'⟩
    case cells => exact fun c hc => Function.update_of_ne hc ..
    case objects => exact fun _ _ => rfl
    case allocated => exact Nat.le_refl _
    all_goals rfl
  | false =>
    refine ⟨{ τ₀.allocate with
      cells := Function.update τ₀.cells ⟨i, L.holder e⟩ (.value (.object τ₀.allocated)) },
      rfl, ?_, fun f => by simp [envSlot_reference Γ i hk, Store.load, Store.allocate, hobject]⟩
    constructor
    case toHeldAt =>
      refine ⟨hnamed, fun hk' => (by cases hk.symm.trans hk'), fun _ => ?_⟩
      rw [hobject]
      exact ⟨Function.update_self .., Nat.lt_succ_self _⟩
    case cells => exact fun c hc => Function.update_of_ne hc ..
    case objects => exact fun o ho => Function.update_of_ne (Nat.ne_of_lt ho) ..
    case allocated => exact Nat.le_succ _
    all_goals rfl

namespace Creating

variable (h : L.Of m r) (hs : Γ.Sees L τ₀ i i site) (hobject : Γ.object i = τ₀.allocated)
  (hholder : (τ₀.instances i).cells (L.holder e) = some ⟨i, L.holder e⟩)
  (hty : L.ctx.declarations.typeOf? e = some ty) (hc : Γ.Creating L i e τ₀ τ)

include h hs hobject hholder hty hc

/-- The parent link is set. -/
theorem storeParent {parent : List Stmt}
    (hp : L.ctx.storeParent site e ty (L.holder e) = .ok parent) :
    ∃ τ', (∀ rest, Stmt.evalAll M i (parent ++ rest) τ = Stmt.evalAll M i rest τ') ∧
      Γ.Creating L i e τ₀ τ' ∧
      ((L.graph.env e).isValue = false → (L.graph.env e).needsParent = true →
        some (τ'.objects (Γ.object i) (.parent e)) = Γ.parentOf L i e) ∧
      ∀ f, f ≠ .parent e → τ'.load (Γ.envSlot L i e f) = τ.load (Γ.envSlot L i e f) := by
  obtain ⟨-, rfl, htyped⟩ := h.fits.declared.typed.of_typeOf hty
  obtain ⟨hnone, rfl⟩ | ⟨link, way, hlink, rfl, hway⟩ := LoweringContext.storeParent_inv hp
  · refine ⟨τ, fun _ => rfl, hc, fun _ hneeds => ?_, fun _ _ => rfl⟩
    rw [← htyped.link, hnone] at hneeds
    exact nomatch hneeds
  · have heval : ∃ x, Γ.parentOf L i ty.env = some x ∧ way.eval M i τ = (.ok (.value x), τ) := by
      obtain ⟨p, hparent, hway⟩ | ⟨hroot, hway⟩ := hway
      · obtain ⟨-, -, j, -, hj, hdenotes⟩ := (hc.sees hs).envRef (M := M) h hway
        have hlive := (h.fits.chained.surroundingEnv_spec h.fits.calls hparent).1
        refine ⟨_, ?_, hdenotes.object (Graph.isValue_of_isLiveReference hlive)⟩
        simp only [parentOf, hparent, objectAt, hj, Option.map_some]
      · obtain ⟨x, hx, heval⟩ := (hc.sees hs).receiverRef (M := M) h hway
        exact ⟨x, by rw [parentOf, hroot]; exact hx, heval⟩
    obtain ⟨x, hx, heval⟩ := heval
    obtain ⟨τ', hrun, hputs, hc'⟩ := hc.store hobject hholder heval link
    have hid := htyped.link_id link hlink
    refine ⟨τ', fun rest => Stmt.evalAll_cons hrun rest, hc', fun hk _ => ?_, fun f hf => ?_⟩
    · have hload := hputs.load
      rw [envSlot_reference Γ i hk, hid, Store.load] at hload
      injection hload with hload
      injection hload with hload
      rw [hload, hx]
    · refine hputs.apart _ ?_
      rw [envSlot, envSlot]
      split
      · exact .inr (hid ▸ hf)
      · exact .inr (hid ▸ hf)

variable (hscope : (L.graph.scope (Γ.scope i)).env = some e)

include hscope

/-- One variable is stored, if it has a value already. -/
theorem storeVariable {stmts : List Stmt} (hv : v ∈ (L.graph.env e).vars)
    (hvalue : v.role = .parameter → ∃ x, τ₀.cells ⟨i, L.standIn (Γ.scope i) v⟩ = .value x)
    (hstore : L.ctx.storeVariable site (L.names (L.graph.frame? (Γ.scope i))).aliases ty
      (L.holder e) v = .ok stmts) :
    ∃ τ', (∀ rest, Stmt.evalAll M i (stmts ++ rest) τ = Stmt.evalAll M i rest τ') ∧
      Γ.Creating L i e τ₀ τ' ∧
      (∀ f, (v.role ≠ .declared → f ≠ .hoisted e v.id) →
        τ'.load (Γ.envSlot L i e f) = τ.load (Γ.envSlot L i e f)) ∧
      (v.role = .parameter → τ'.load (Γ.envSlot L i e (.hoisted e v.id)) =
        some (τ₀.cells ⟨i, L.standIn (Γ.scope i) v⟩)) ∧
      (v.role = .receiver → (L.graph.env e).isValue = true →
        τ'.load (Γ.envSlot L i e (.hoisted e v.id)) = L.this.map .value) := by
  obtain ⟨hlive, hes⟩ := h.live_of_env hscope
  have hvs : v ∈ (L.graph.scope (Γ.scope i)).vars := hes ▸ h.mem_scope_vars hlive hv
  obtain ⟨-, rfl, htyped⟩ := h.fits.declared.typed.of_typeOf hty
  obtain ⟨rfl, hnone⟩ | ⟨f, way, hf, rfl, hway⟩ := LoweringContext.storeVariable_inv hstore
  · -- it is declared later, or is the receiver, for which there is the parent link
    have hfield (hr : v.role = .parameter ∨ v.role = .receiver ∧ ty.kind = .value) : False := by
      rcases hnone with hd | hnone
      · rcases hr with hr | ⟨hr, -⟩ <;> cases hr.symm.trans hd
      · rw [htyped.field_eq hv, Graph.hoistedField?.eq_def] at hnone
        rcases hr with hr | ⟨hr, hk⟩ <;> simp [Variable.isReceiver, hr] at hnone
        rw [hk] at hnone
        cases hnone
    refine ⟨τ, fun _ => rfl, hc, fun _ _ => rfl, fun hr => (hfield (.inl hr)).elim, fun hr hk => ?_⟩
    refine (hfield (.inr ⟨hr, ?_⟩)).elim
    simpa [Environment.isValue, htyped.kind] using hk
  · have heval : ∃ x, way.eval M i τ = (.ok (.value x), τ) ∧
        (v.role = .parameter → τ₀.cells ⟨i, L.standIn (Γ.scope i) v⟩ = .value x) ∧
        (v.role = .receiver → L.this = some x) := by
      obtain ⟨hr, hway⟩ | ⟨hr, rfl⟩ := hway
      · obtain ⟨x, hx, heval⟩ := (hc.sees hs).receiverRef (M := M) h hway
        exact ⟨x, heval, fun hr' => (by cases hr.symm.trans hr'), fun _ => hx⟩
      · obtain ⟨x, hx⟩ := hvalue hr
        refine ⟨x, ?_, fun _ => hx, fun hr' => by cases hr.symm.trans hr'⟩
        have hcell := hs.target.standIns (Γ.scope i) (L.graph.self_mem_ancestors _) rfl i
          (hs.nested.self i hs.lt) v hvs (.inl hr)
        have hne : L.standIn (Γ.scope i) v ≠ L.holder ty.env :=
          h.ne_of_holder hvs (h.standsFor _ v) hc.named
        rw [← hc.instances] at hcell
        rw [← hc.cells _ fun heq => hne (congrArg Cell.var heq)] at hx
        rw [← hx]
        exact Expr.eval_ref hcell M {}
    obtain ⟨x, heval, hparam, hthis⟩ := heval
    obtain ⟨τ', hrun, hputs, hc'⟩ := hc.store hobject hholder heval f
    have hid := (htyped.field_id hf).2
    have hdeclared : v.role ≠ .declared := by
      rcases hway with ⟨hr, -⟩ | ⟨hr, -⟩ <;> simp [hr]
    rw [hid] at hputs
    refine ⟨τ', fun rest => Stmt.evalAll_cons hrun rest, hc', fun g hg => hputs.apart _ ?_,
      fun hr => ?_, fun hr _ => ?_⟩
    · rw [envSlot, envSlot]
      split <;> exact .inr (hg hdeclared)
    · rw [hputs.load, hparam hr]
    · rw [hputs.load, hthis hr]
      rfl

/-- Variables are stored one after the other. -/
theorem storeVariables {vs : List Variable} {stores : List (List Stmt)}
    (hvs : ∀ v ∈ vs, v ∈ (L.graph.env e).vars) (hnodup : vs.Nodup)
    (hvalue : ∀ v ∈ vs, v.role = .parameter →
      ∃ x, τ₀.cells ⟨i, L.standIn (Γ.scope i) v⟩ = .value x)
    (hstores : List.Forall₂ (fun v stmts => L.ctx.storeVariable site
      (L.names (L.graph.frame? (Γ.scope i))).aliases ty (L.holder e) v = .ok stmts) vs stores) :
    ∃ τ', (∀ rest, Stmt.evalAll M i (stores.flatten ++ rest) τ = Stmt.evalAll M i rest τ') ∧
      Γ.Creating L i e τ₀ τ' ∧
      (∀ f, (∀ v ∈ vs, v.role ≠ .declared → f ≠ .hoisted e v.id) →
        τ'.load (Γ.envSlot L i e f) = τ.load (Γ.envSlot L i e f)) ∧
      (∀ v ∈ vs, v.role = .parameter → τ'.load (Γ.envSlot L i e (.hoisted e v.id)) =
        some (τ₀.cells ⟨i, L.standIn (Γ.scope i) v⟩)) ∧
      ∀ v ∈ vs, v.role = .receiver → (L.graph.env e).isValue = true →
        τ'.load (Γ.envSlot L i e (.hoisted e v.id)) = L.this.map .value := by
  induction hstores generalizing τ with
  | nil => exact ⟨τ, fun _ => rfl, hc, fun _ _ => rfl, by simp, by simp⟩
  | @cons v stmts vs stores hstore hstores ih =>
    obtain ⟨hnot, hnodup⟩ := List.nodup_cons.mp hnodup
    obtain ⟨τ₁, hrun₁, hc₁, hframe₁, hparam₁, hthis₁⟩ := hc.storeVariable (M := M) h hs hobject
      hholder hty hscope (hvs v List.mem_cons_self) (hvalue v List.mem_cons_self) hstore
    obtain ⟨τ₂, hrun₂, hc₂, hframe₂, hparam₂, hthis₂⟩ := ih hc₁
      (fun w hw => hvs w (List.mem_cons_of_mem v hw)) hnodup
      (fun w hw => hvalue w (List.mem_cons_of_mem v hw))
    -- the others do not touch the field of the first one
    have hfirst : τ₂.load (Γ.envSlot L i e (.hoisted e v.id)) =
        τ₁.load (Γ.envSlot L i e (.hoisted e v.id)) := by
      refine hframe₂ _ fun w hw _ heq => hnot ?_
      injection heq with _ hid
      have declared {u : Variable} (hu : u ∈ v :: vs) : u ∈ m.declared :=
        h.mem_declared (h.mem_scope_vars (h.live_of_env hscope).1 (hvs u hu))
      rw [h.given.distinct v (declared List.mem_cons_self) w
        (declared (List.mem_cons_of_mem v hw)) hid]
      exact hw
    refine ⟨τ₂, fun rest => ?_, hc₂, fun f hf => ?_, fun w hw hr => ?_, fun w hw hr hk => ?_⟩
    · rw [List.flatten_cons, List.append_assoc, hrun₁, hrun₂]
    · rw [hframe₂ f fun w hw => hf w (List.mem_cons_of_mem v hw),
        hframe₁ f (hf v List.mem_cons_self)]
    · rcases List.mem_cons.mp hw with rfl | hw
      · rw [hfirst, hparam₁ hr]
      · exact hparam₂ w hw hr
    · rcases List.mem_cons.mp hw with rfl | hw
      · rw [hfirst, hthis₁ hr hk]
      · exact hthis₂ w hw hr hk

end Creating

namespace Begun

variable (hb : Γ.Begun L i σ τ)

include hb

theorem lt : i < Γ.size := by
  have := hb.size
  omega

theorem lt_or_eq (hj : j < Γ.size) : j < i ∨ j = i := by
  have := hb.size
  omega

variable (h : L.Of m r)

include h

/-- A scope without an environment is ready at once. -/
theorem matches_of_none (hnone : (L.graph.scope (Γ.scope i)).env = none) : Γ.Matches L σ τ := by
  obtain ⟨nested, left, right, made, history, source, target, env, inj, cells, callables⟩ :=
    hb.toMatchesTo
  refine ⟨nested, left, right, made, history, source, target, ?_, inj, ?_, callables⟩
  · intro j hj _ e he
    rcases hb.lt_or_eq hj with hji | rfl
    · exact env j hj hji e he
    · exact nomatch hnone.symm.trans he
  · intro j hj v hv hrole _
    refine cells j hj v hv hrole ((hb.lt_or_eq hj).imp_right fun hji => ?_)
    subst hji
    by_contra hne
    obtain ⟨e, he⟩ := Option.ne_none_iff_exists'.mp hne
    exact nomatch hnone.symm.trans (h.env_of_envOf hv he)

/-- Work on the new environment does not touch the slots of other variables. -/
theorem load_of_creating (hc : Γ.Creating L i e τ τ') (hj : j < Γ.size)
    (hv : v ∈ (L.graph.scope (Γ.scope j)).vars) (hset : j < i ∨ L.graph.envOf? v = none) :
    τ'.load (Γ.slot L j v) = τ.load (Γ.slot L j v) := by
  cases he : L.graph.envOf? v with
  | none =>
    rw [slot_plain Γ j he, Store.load, Store.load]
    have hne := h.ne_of_holder hv (h.standsFor (Γ.scope j) v) hc.named
    rw [hc.cells _ fun heq => hne (congrArg Cell.var heq)]
  | some e' =>
    have hji : j < i := hset.resolve_right (by simp [he])
    have henv := hb.env j hj hji e' (h.env_of_envOf hv he)
    rw [slot_hoisted Γ j he]
    cases hk : (L.graph.env e').isValue with
    | true =>
      have hcell : τ'.cells ⟨j, L.holder e'⟩ = τ.cells ⟨j, L.holder e'⟩ :=
        hc.cells _ fun heq => Nat.ne_of_lt hji (congrArg Cell.inst heq)
      rw [envSlot_value Γ j hk, Store.load, Store.load, hcell]
    | false =>
      rw [envSlot_reference Γ j hk, Store.load, Store.load, hc.objects _ (henv.object hk).2]

/-- The stores match when the environment is complete. -/
theorem matches_of_creating (hscope : (L.graph.scope (Γ.scope i)).env = some e)
    (hc : Γ.Creating L i e τ τ') (henv : Γ.EnvAt L τ' i e)
    (hcells : ∀ v ∈ (L.graph.scope (Γ.scope i)).vars, v.role ≠ .receiver →
      L.graph.envOf? v = some e →
      ∃ x, σ.cells ⟨i, v⟩ = .value x ∧ τ'.load (Γ.slot L i v) = some (.value x)) :
    Γ.Matches L σ τ' := by
  constructor
  case nested => exact hb.nested
  case entered_left => exact hb.entered_left
  case entered_right => exact hc.entered.trans hb.entered_right
  case made => exact hc.made.trans hb.made
  case history => exact hc.history.trans hb.history
  case source => exact hb.source
  case target => exact fun j hj => hc.instances ▸ hb.target j hj
  case env =>
    intro j hj _ e' he'
    rcases hb.lt_or_eq hj with hji | rfl
    · exact hc.envAt (Nat.ne_of_lt hji) (hb.env j hj hji e' he')
    · rwa [← Option.some.inj (hscope.symm.trans he')]
  case object_inj => exact hb.object_inj
  case cells =>
    intro j hj v hv hrole _
    by_cases hset : j < i ∨ L.graph.envOf? v = none
    · rw [hb.load_of_creating h hc hj hv hset]
      exact hb.cells j hj v hv hrole hset
    · obtain ⟨hji, hne⟩ := not_or.mp hset
      obtain rfl := (hb.lt_or_eq hj).resolve_left hji
      obtain ⟨e', he'⟩ := Option.ne_none_iff_exists'.mp hne
      refine hcells v hv hrole ?_
      rw [he', ← hscope, h.env_of_envOf hv he']
  case callables =>
    rw [hc.callables]
    exact hb.callables

/-- The statements that create the environment of a scope make the stores match. -/
theorem createEnv (hin : L.Begins (Γ.scope i) site)
    (hscope : (L.graph.scope (Γ.scope i)).env = some e)
    (hty : L.ctx.declarations.typeOf? e = some ty) (hnamed : ∃ k, (L.holder e).id = .holder k e)
    {created : List Stmt} (hcreate : L.ctx.createEnv site
      (L.names (L.graph.frame? (Γ.scope i))).aliases e ty (L.holder e) = .ok (created, site')) :
    ∃ τ', (∀ rest, Stmt.evalAll M i (created ++ rest) τ = Stmt.evalAll M i rest τ') ∧
      Γ.Matches L σ τ' := by
  obtain ⟨-, _, parent, stores, rfl, rfl, hparent, hstores⟩ :=
    LoweringContext.createEnv_inv hcreate
  obtain ⟨hlive, hes⟩ := h.live_of_env hscope
  have hs := hb.sees hin
  have hholder := hs.target.holders e hlive (hes ▸ L.graph.self_mem_ancestors _) (by rw [hes]) i
    (hes ▸ hb.nested.self i hb.lt)
  have hvars (v : Variable) (hv : v ∈ (L.graph.env e).vars) :
      v ∈ (L.graph.scope (Γ.scope i)).vars := hes ▸ h.mem_scope_vars hlive hv
  obtain ⟨τ₁, hrun₁, hc₁, hzero⟩ := creating_of_declare (M := M) hnamed hb.object (L.holder e).type
  obtain ⟨τ₂, hrun₂, hc₂, hlink, hframe₂⟩ := hc₁.storeParent (M := M) h hs hb.object hholder hty
    hparent
  obtain ⟨τ₃, hrun₃, hc₃, hframe₃, hparam, hthis⟩ := hc₂.storeVariables (M := M) h hs hb.object
    hholder hty hscope (fun _ hv => hv) (L.graph.env e).vars.nodup
    (fun v hv hr => (hb.parameter v (hvars v hv) hr).imp fun _ hx => hx.2)
    (forall₂_of_mapM_ok hstores)
  refine ⟨τ₃, fun rest => ?_, hb.matches_of_creating h hscope hc₃ ?_ ?_⟩
  · rw [List.cons_append, List.cons_append, List.append_assoc, Stmt.evalAll_cons hrun₁, hrun₂,
      hrun₃]
  · refine ⟨hc₃.toHeldAt, fun hk hneeds => ?_, fun hk v hv hr => ?_⟩
    · have hload := hframe₃ (.parent e) fun v _ _ hf => by cases hf
      rw [envSlot_reference Γ i hk, Store.load, Store.load] at hload
      injection hload with hload
      injection hload with hload
      rw [hload]
      exact hlink hk hneeds
    · rw [← envSlot_value Γ i hk]
      exact hthis v hv hr hk
  · intro v hv hrole he
    obtain ⟨-, hve⟩ := h.envOf_eq_some.mp he
    rw [slot_hoisted Γ i he]
    rcases Variable.role_of_ne hrole with hr | hr
    · obtain ⟨x, hx, hx'⟩ := hb.parameter v hv hr
      exact ⟨x, hx, by rw [hparam v hve hr, hx']⟩
    · refine ⟨.zero, hb.declared v hv hr, ?_⟩
      rw [hframe₃ _ fun w hw hw' heq => hw' ?_, hframe₂ (.hoisted e v.id) (fun hf => by cases hf),
        hzero]
      injection heq with _ hid
      rw [← h.given.distinct v (h.mem_declared hv) w (h.mem_declared (hvars w hw)) hid]
      exact hr

/-- The statements at the start of a block make the stores match. -/
theorem opens (hin : L.Begins (Γ.scope i) site) {created : List Stmt}
    (ho : L.ctx.OpensIn (L.names (L.graph.frame? (Γ.scope i))) site (Γ.scope i) created site') :
    (∃ τ', (∀ rest, Stmt.evalAll M i (created ++ rest) τ = Stmt.evalAll M i rest τ') ∧
      Γ.Matches L σ τ') ∧ L.Inside (Γ.scope i) site' := by
  cases ho with
  | bare hnone => exact ⟨⟨τ, fun _ => rfl, hb.matches_of_none h hnone⟩, hin.toInside⟩
  | @env e ty holder _ _ hscope hty hlookup hcreate =>
    obtain ⟨hlive, hes⟩ := h.live_of_env hscope
    obtain rfl : L.holder e = holder := by
      rw [Lowering.holder, hes, hlookup]
      rfl
    have hnamed := (h.lowers.made _).holders _ (mem_of_lookup hlookup)
    refine ⟨hb.createEnv h hin hscope hty hnamed hcreate, ?_⟩
    obtain ⟨hview, -⟩ := LoweringContext.createEnv_inv hcreate
    refine ⟨(congrArg View.frame hview).trans hin.frame, fun e' holder hl => ?_⟩
    rw [show site'.locals = (e, L.holder e) :: site.locals from congrArg View.locals hview,
      List.lookup_cons] at hl
    split at hl
    · rename_i heq
      obtain rfl := eq_of_beq heq
      refine ⟨(Option.some.inj hl).symm, hlive, ?_, by rw [hes]⟩
      rw [hes]
      exact L.graph.self_mem_ancestors _
    · exact hin.locals e' holder hl

end Begun

end Layout

end Unnest
