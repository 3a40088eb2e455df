import Unnest.Proofs.Semantics.Matching

/-!
# Ways to environments lead there

The expressions with which lowered code reaches environments, the enclosing receiver and variables,
evaluated in a store that matches: a way to an environment leads to the one of the instance around,
whether it goes through a local, a parameter or parent links, and so a reference to a variable
denotes its slot. Evaluating a way changes nothing.

## Main statements

* `Layout.Sees.envRef` : ways to environments.
* `Layout.Sees.receiverRef` : ways to the receiver.
* `Layout.Sees.variableRef` : references to variables.
* `Layout.Sees.callReceiver` : receivers of methods.
-/

namespace Unnest

variable {L : Lowering} {m : MethodBody} {r : LoweredBody} {Γ : Layout} {τ : Store} {M : Machine}
  {i j k : Nat} {site : Site} {s t : ScopeId} {c : ClosureId} {e : EnvId} {v w : Variable}
  {way way' : Expr}

theorem Expr.eval_withLoc (M : Machine) (i : Nat) (e : Expr) (loc : Loc) :
    (e.withLoc loc).eval M i = e.eval M i := by
  cases e with
  | call _ _ receiver => cases receiver <;> simp only [withLoc, eval]
  | delegate _ receiver => cases receiver <;> simp only [withLoc, eval]
  | _ => simp only [withLoc, eval]

theorem Expr.slot_withLoc (M : Machine) (i : Nat) (e : Expr) (loc : Loc) :
    (e.withLoc loc).slot M i = e.slot M i := by cases e <;> rfl

namespace Layout

/-- Expression `way` denotes the environment `e` of instance `j`. -/
structure Denotes (Γ : Layout) (L : Lowering) (M : Machine) (τ : Store) (i : Nat) (way : Expr)
    (e : EnvId) (j : Nat) : Prop where
  slot : ∀ f : Field, way.fieldSlot i f (way.eval M i) τ = (.ok (Γ.envSlot L j e f.id), τ)
  object : (L.graph.env e).isValue = false →
    way.eval M i τ = (.ok (.value (.object (Γ.object j))), τ)
  cell : (L.graph.env e).isValue = true → ∃ w, way = .ref {} (some w) ∧
    (τ.instances i).cells w = some ⟨j, L.holder e⟩

theorem denotes_ref (hw : (τ.instances i).cells w = some ⟨j, L.holder e⟩)
    (henv : Γ.HeldAt L τ j e) : Γ.Denotes L M τ i (.ref {} (some w)) e j := by
  have hcell : Eval.cell i (some w) τ = (.ok ⟨j, L.holder e⟩, τ) := Eval.cell_eq hw
  constructor
  case slot =>
    intro f
    rw [Expr.fieldSlot, Eval.bind_ok hcell]
    cases hk : (L.graph.env e).isValue with
    | true =>
      obtain ⟨F, hF⟩ := henv.record hk
      rw [Eval.bind_get, envSlot_value Γ j hk]
      simp only [hF]
      rfl
    | false =>
      obtain ⟨hobj, -⟩ := henv.object hk
      rw [Eval.bind_get, envSlot_reference Γ j hk]
      simp only [hobj]
      rfl
  case object =>
    intro hk
    rw [Expr.eval_ref hw, (henv.object hk).1]
  case cell => exact fun _ => ⟨w, rfl, hw⟩

/-- An expression that is no variable denotes the environment it evaluates to. -/
theorem denotes_of_eval (hk : (L.graph.env e).isValue = false)
    (hslot : ∀ f value, way.fieldSlot i f value = do
      match ← value with
      | .value (.object o) => return .field o f.id
      | _ => throw .stuck)
    (heval : way.eval M i τ = (.ok (.value (.object (Γ.object j))), τ)) :
    Γ.Denotes L M τ i way e j where
  slot f := by
    rw [hslot, Eval.bind_ok heval, envSlot_reference Γ j hk]
    rfl
  object _ := heval
  cell hk' := nomatch hk.symm.trans hk'

theorem denotes_self {type : String} (hk : (L.graph.env e).isValue = false)
    (hself : (τ.instances i).self = some (.object (Γ.object j))) :
    Γ.Denotes L M τ i (.self {} type) e j := by
  refine denotes_of_eval hk (fun _ _ => rfl) ?_
  rw [Expr.eval, Eval.bind_get, hself]
  rfl

/-- Reading a field of an environment. -/
theorem Denotes.eval_field (hd : Γ.Denotes L M τ i way e j) {f : Field} {x : Content}
    (hx : τ.load (Γ.envSlot L j e f.id) = some x) (loc : Loc) :
    (Expr.field loc way f).eval M i τ = (.ok x, τ) := by
  rw [Expr.eval, Eval.bind_ok (hd.slot f)]
  exact Eval.load_eq hx

theorem Denotes.field {e' : EnvId} (hd : Γ.Denotes L M τ i way e j)
    (hk : (L.graph.env e).isValue = false) (hk' : (L.graph.env e').isValue = false) {f : Field}
    {j' : Nat} (hf : τ.objects (Γ.object j) f.id = .object (Γ.object j')) :
    Γ.Denotes L M τ i (.field {} way f) e' j' := by
  refine denotes_of_eval hk' (fun _ _ => rfl) (hd.eval_field ?_ {})
  rw [envSlot_reference Γ j hk, Store.load, hf]

/-! ## Places in a run -/

/-- What the code at `site` can rely on when it runs in instance `i`: its own instance, and the
environments of the instances before `k`. -/
structure Sees (Γ : Layout) (L : Lowering) (τ : Store) (k i : Nat) (site : Site) : Prop where
  nested : Γ.Nested L.graph
  lt : i < Γ.size
  le : i ≤ k
  frame : site.frame = L.ctx.frameAt (L.graph.frame? (Γ.scope i))
  locals : ∀ e holder, site.locals.lookup e = some holder → holder = L.holder e ∧ L.Live e ∧
    (L.graph.env e).scope ∈ L.graph.ancestors (Γ.scope i) ∧
    L.graph.frame? (L.graph.env e).scope = L.graph.frame? (Γ.scope i) ∧
    ∃ j < k, Γ.around i (L.graph.env e).scope = some j
  target : Γ.TargetAt L i (τ.instances i)
  env : ∀ j < k, j < Γ.size → ∀ e, (L.graph.scope (Γ.scope j)).env = some e → Γ.EnvAt L τ j e

namespace Sees

variable (h : L.Of m r) (hs : Γ.Sees L τ k i site)

include h hs

omit h in
/-- The environments around that are set up. -/
theorem envAt (he : L.Live e) (hmem : (L.graph.env e).scope ∈ L.graph.ancestors (Γ.scope i))
    (hj : Γ.around i (L.graph.env e).scope = some j) (hjk : j < k) : Γ.EnvAt L τ j e := by
  refine hs.env j hjk (hs.nested.lt_size hs.lt hj) e ?_
  rw [hs.nested.scope_eq hs.lt hmem hj]
  exact he

/-- What surrounds the function of a frame was entered earlier. -/
theorem of_home (hc : L.graph.frame? (Γ.scope i) = some c)
    (ht : t ∈ L.graph.ancestors (L.graph.closure c).home) :
    t ∈ L.graph.ancestors (Γ.scope i) ∧ ∃ j < k, Γ.around i t = some j := by
  obtain ⟨hmem, hne⟩ := h.mem_of_home hc ht
  obtain ⟨j, hj⟩ := hs.nested.exists_around hs.lt hmem
  exact ⟨hmem, j, Nat.lt_of_lt_of_le (hs.nested.lt_of_ne hs.lt hmem hj hne) hs.le, hj⟩

/-- The host of a frame is what the closure is hosted on. -/
theorem host {ty : EnvType} (hh : site.frame.host = some ty) :
    ∃ c, L.graph.frame? (Γ.scope i) = some c ∧ (L.graph.closure c).host = some ty.env := by
  rw [hs.frame] at hh
  cases hc : L.graph.frame? (Γ.scope i) with
  | none =>
    rw [hc] at hh
    exact nomatch hh
  | some c =>
    obtain ⟨lm, -, hd, hframe⟩ := h.fits.frameAt_some (Graph.lt_of_frame h.holds hc).1
    rw [hc, hframe] at hh
    obtain ⟨e, he, hty⟩ := Option.bind_eq_some_iff.mp hh
    refine ⟨c, rfl, ?_⟩
    rw [← hd.host, he, (h.fits.declared.typed.of_typeOf hty).2.1]

omit hs in
/-- A link has the identity of one, and is there only if it is needed. -/
theorem link_spec {f : Field} (hf : (L.ctx.declarations.typeOf? e).bind (·.link) = some f) :
    f.id = .parent e ∧ (L.graph.env e).needsParent = true := by
  obtain ⟨ty, hty, hlink⟩ := Option.bind_eq_some_iff.mp hf
  obtain ⟨-, rfl, htyped⟩ := h.fits.declared.typed.of_typeOf hty
  refine ⟨htyped.link_id f hlink, ?_⟩
  rw [← htyped.link, hlink]
  rfl

/-- Following one link. -/
theorem parent {p : EnvId} (ha : (L.graph.env e).isLiveReference = true)
    (hmem : (L.graph.env e).scope ∈ L.graph.ancestors (Γ.scope i))
    (hj : Γ.around i (L.graph.env e).scope = some j) (hjk : j < k)
    (hneeds : (L.graph.env e).needsParent = true) (hp : L.graph.runtimeParent? e = some p) :
    (L.graph.env p).isLiveReference = true ∧
      (L.graph.env p).scope ∈ L.graph.ancestors (Γ.scope i) ∧
      ∃ j' < k, Γ.around i (L.graph.env p).scope = some j' ∧
        τ.objects (Γ.object j) (.parent e) = .object (Γ.object j') := by
  have hlive := h.live_iff.mpr
    ⟨Graph.lt_of_isLiveReference ha, Graph.removed_of_isLiveReference ha⟩
  have henv := hs.envAt hlive hmem hj hjk
  obtain ⟨hplive, hpmem, -⟩ := h.fits.chained.surroundingEnv_spec h.fits.calls hp
  have hpmem' := Graph.mem_ancestors_trans hpmem hmem
  obtain ⟨j', hj'⟩ := hs.nested.exists_around hs.lt hpmem'
  have haround := hs.nested.around_eq hs.lt hmem hj hpmem
  have hle := hs.nested.le j (hs.nested.lt_size hs.lt hj) _ j' (haround.trans hj')
  refine ⟨hplive, hpmem', j', Nat.lt_of_le_of_lt hle hjk, hj', ?_⟩
  have hparent := henv.parent (Graph.isValue_of_isLiveReference ha) hneeds
  rw [parentOf, hp] at hparent
  simp only [objectAt, haround, hj', Option.map_some] at hparent
  exact Option.some.inj hparent

/-- Parent links lead to the environments around. -/
theorem linkPath {host : EnvType} {a b : EnvId} {fuel : Nat} {way : Expr}
    (ha : (L.graph.env a).isLiveReference = true)
    (hmem : (L.graph.env a).scope ∈ L.graph.ancestors (Γ.scope i))
    (hj : Γ.around i (L.graph.env a).scope = some j) (hjk : j < k)
    (hd : Γ.Denotes L M τ i way a j) (hp : L.ctx.linkPath host b fuel a way = .ok way') :
    (L.graph.env b).isLiveReference = true ∧
      (L.graph.env b).scope ∈ L.graph.ancestors (Γ.scope i) ∧
      ∃ j' < k, Γ.around i (L.graph.env b).scope = some j' ∧ Γ.Denotes L M τ i way' b j' := by
  induction fuel generalizing a j way with
  | zero =>
    obtain ⟨rfl, rfl⟩ | ⟨fuel, _, _, hfuel, -⟩ := LoweringContext.linkPath_cases hp
    · exact ⟨ha, hmem, j, hjk, hj, hd⟩
    · exact nomatch hfuel
  | succ fuel ih =>
    obtain ⟨rfl, rfl⟩ | ⟨fuel', l, p, hfuel, hl, hparent, hp⟩ := LoweringContext.linkPath_cases hp
    · exact ⟨ha, hmem, j, hjk, hj, hd⟩
    · obtain rfl := Nat.succ.inj hfuel
      obtain ⟨hid, hneeds⟩ := link_spec h hl
      obtain ⟨hlive, hmem', j', hjk', hj', hobj⟩ := hs.parent h ha hmem hj hjk hneeds hparent
      refine ih hlive hmem' hj' hjk' (hd.field ?_ ?_ (hid ▸ hobj)) hp
      · exact Graph.isValue_of_isLiveReference ha
      · exact Graph.isValue_of_isLiveReference hlive

/-- Methods on an environment have it as their receiver. -/
theorem denotes_host {ty : EnvType} (hh : site.frame.host = some ty) :
    (L.graph.env ty.env).isLiveReference = true ∧
      (L.graph.env ty.env).scope ∈ L.graph.ancestors (Γ.scope i) ∧
      ∃ j < k, Γ.around i (L.graph.env ty.env).scope = some j ∧
        Γ.Denotes L M τ i ty.selfRef ty.env j := by
  obtain ⟨c, hc, hhost⟩ := hs.host h hh
  have his := h.fits.chained.isHost h.fits.calls hhost
  obtain ⟨hmem, j, hjk, hj⟩ := hs.of_home h hc his.around
  refine ⟨h.placed.isLiveReference_of_mem his.mem his.isReference, hmem, j, hjk, hj, ?_⟩
  refine denotes_self his.isReference ?_
  rw [hs.target.self, hc]
  simp only [selfOf, receiverOf, hhost, objectAt, hj, Option.map_some]

/-- Ways to environments lead there. -/
theorem envRef (hw : L.ctx.envRef site e = .ok way) : L.Live e ∧
    (L.graph.env e).scope ∈ L.graph.ancestors (Γ.scope i) ∧
      ∃ j < k, Γ.around i (L.graph.env e).scope = some j ∧ Γ.Denotes L M τ i way e j := by
  rw [LoweringContext.envRef] at hw
  split at hw
  · -- a local of the frame
    rename_i holder hlocal
    obtain rfl := Except.ok.inj hw
    obtain ⟨rfl, hlive, hmem, hframe, j, hjk, hj⟩ := hs.locals e holder hlocal
    refine ⟨hlive, hmem, j, hjk, hj, denotes_ref ?_ (hs.envAt hlive hmem hj hjk).toHeldAt⟩
    exact hs.target.holders e hlive hmem hframe j hj
  split at hw
  · -- a parameter of the method
    split at hw
    · rename_i hk _ holder hparam
      obtain rfl := Except.ok.inj hw
      rw [hs.frame] at hparam
      cases hc : L.graph.frame? (Γ.scope i) with
      | none =>
        rw [hc] at hparam
        cases hparam
      | some c =>
        obtain ⟨lm, hlm, -, hframe⟩ := h.fits.frameAt_some (Graph.lt_of_frame h.holds hc).1
        rw [hc, hframe] at hparam
        have hmem := mem_of_lookup hparam
        obtain ⟨hlive, -, hhome, -⟩ := h.envParam_spec hlm hmem
        obtain ⟨hanc, j, hjk, hj⟩ := hs.of_home h hc hhome
        refine ⟨hlive, hanc, j, hjk, hj, denotes_ref ?_ (hs.envAt hlive hanc hj hjk).toHeldAt⟩
        exact hs.target.envParams c hc lm hlm _ hmem j hj
    · cases hw
  · -- parent links from the receiver
    split at hw
    · rename_i ty hty
      obtain ⟨ha, hmem, j, hjk, hj, hd⟩ := hs.denotes_host (M := M) h hty
      obtain ⟨he, hreach⟩ := hs.linkPath h ha hmem hj hjk hd hw
      exact ⟨h.live_iff.mpr ⟨Graph.lt_of_isLiveReference he,
        Graph.removed_of_isLiveReference he⟩, hreach⟩
    · cases hw

/-! ## The receiver -/

/-- Parent links lead to the receiver. -/
theorem receiverPath {host : EnvType} {a : EnvId} {fuel : Nat}
    (ha : (L.graph.env a).isLiveReference = true)
    (hmem : (L.graph.env a).scope ∈ L.graph.ancestors (Γ.scope i))
    (hj : Γ.around i (L.graph.env a).scope = some j) (hjk : j < k)
    (hd : Γ.Denotes L M τ i way a j) (hp : L.ctx.receiverPath host fuel a way = .ok way') :
    ∃ x, L.this = some x ∧ way'.eval M i τ = (.ok (.value x), τ) := by
  induction fuel generalizing a j way with
  | zero => exact nomatch hp
  | succ fuel ih =>
    obtain ⟨fuel', l, hfuel, hl, hend | ⟨p, hparent, hp⟩⟩ := LoweringContext.receiverPath_cases hp
    · obtain ⟨hroot, rfl⟩ := hend
      obtain ⟨hid, hneeds⟩ := link_spec h hl
      have hlive := h.live_iff.mpr
        ⟨Graph.lt_of_isLiveReference ha, Graph.removed_of_isLiveReference ha⟩
      have hk := Graph.isValue_of_isLiveReference ha
      have hthis := (hs.envAt hlive hmem hj hjk).parent hk hneeds
      rw [parentOf, hroot] at hthis
      refine ⟨_, hthis.symm, hd.eval_field ?_ {}⟩
      rw [envSlot_reference Γ j hk, Store.load, hid]
    · obtain rfl := Nat.succ.inj hfuel
      obtain ⟨hid, hneeds⟩ := link_spec h hl
      obtain ⟨hlive, hmem', j', hjk', hj', hobj⟩ := hs.parent h ha hmem hj hjk hneeds hparent
      refine ih hlive hmem' hj' hjk' (hd.field ?_ ?_ (hid ▸ hobj)) hp
      · exact Graph.isValue_of_isLiveReference ha
      · exact Graph.isValue_of_isLiveReference hlive

/-- Methods on the enclosing type that are not static have the receiver itself. -/
theorem self_eq (hown : (site.frame.closure.isNone || site.frame.host.isNone &&
    !site.frame.isStatic) = true) : (τ.instances i).self = L.this := by
  rw [hs.target.self]
  cases hc : L.graph.frame? (Γ.scope i) with
  | none => rfl
  | some c =>
    have hclt := (Graph.lt_of_frame h.holds hc).1
    obtain ⟨lm, -, hd, hframe⟩ := h.fits.frameAt_some hclt
    cases hhost : (L.graph.closure c).host with
    | some e =>
      obtain ⟨ty, hty, -⟩ := h.fits.host_frameAt hclt hhost
      rw [hs.frame, hc, hty, hframe] at hown
      exact nomatch hown
    | none =>
      rw [hs.frame, hc, hframe] at hown
      have hread : (L.graph.closure c).capturesReceiver && L.graph.receiverEnv?.isNone := by
        simpa [hd.host, hd.isStatic, hhost] using hown
      simp only [selfOf, receiverOf, hhost, hread, if_true]

/-- Ways to the receiver lead there. -/
theorem receiverRef (hw : L.ctx.receiverRef site = .ok way) :
    ∃ x, L.this = some x ∧ way.eval M i τ = (.ok (.value x), τ) := by
  cases hr : L.graph.receiver with
  | none =>
    rw [LoweringContext.receiverRef, hr] at hw
    cases hw
  | some v =>
    rw [LoweringContext.receiverRef, hr] at hw
    have hv : m.receiver = some v := h.holds.receiver_eq.symm.trans hr
    obtain ⟨x, hx⟩ := Option.isSome_iff_exists.mp (h.this (by rw [hv]; rfl))
    refine ⟨x, hx, ?_⟩
    simp only at hw
    split at hw
    · -- the receiver of the method itself
      rename_i hown
      obtain rfl := Except.ok.inj hw
      rw [Expr.eval, Eval.bind_get, hs.self_eq h hown, hx]
      rfl
    split at hw
    · -- the environment that holds it
      rename_i e _ hre
      split at hw
      · cases hw
      rename_i ty hty
      split at hw
      · rename_i f hf
        obtain ⟨way, hway, rfl⟩ := exists_of_map_ok hw
        obtain ⟨hlive, hmem, j, hjk, hj, hd⟩ := hs.envRef (M := M) h hway
        obtain ⟨-, rfl, htyped⟩ := h.fits.declared.typed.of_typeOf hty
        obtain ⟨-, -, hve⟩ := (h.placed.receiverEnv_eq_some h.holds hv).mp hre
        have hrole := h.fits.wellBound.receiver v hv
        have henv := hs.envAt hlive hmem hj hjk
        have hkind : ty.isValue = (L.graph.env ty.env).isValue := by
          rw [EnvType.isValue, Environment.isValue, htyped.kind]
        refine hd.eval_field ?_ {}
        cases hk : (L.graph.env ty.env).isValue with
        | true =>
          rw [hkind, hk, if_pos rfl, htyped.field_eq hve, Graph.hoistedField?.eq_def] at hf
          have hid : f.id = .hoisted ty.env v.id := by
            have hvalue : ty.kind = .value := by simpa [EnvType.isValue, hk] using hkind
            simp only [Variable.isReceiver, hrole, decide_true, if_true, hvalue] at hf
            rw [← Option.some.inj hf]
          rw [envSlot_value Γ j hk, hid, henv.receiver hk v hve hrole, hx]
          rfl
        | false =>
          rw [hkind, hk, if_neg Bool.false_ne_true] at hf
          obtain ⟨hid, hneeds⟩ := link_spec h (show (L.ctx.declarations.typeOf? ty.env).bind
            (·.link) = some f by rw [hty]; exact hf)
          have hscope : (L.graph.env ty.env).scope = Graph.root :=
            h.holds.tidy.vars_unique _ _ v (h.mem_scope_vars hlive hve)
              (h.holds.receiver_mem_root hv)
          have hroot : L.graph.runtimeParent? ty.env = none := by
            rw [Graph.runtimeParent?, hscope, h.holds.ancestors_root,
              Graph.surroundingEnv_singleton h.holds.root_owner]
          have hthis := henv.parent hk hneeds
          rw [parentOf, hroot, hx] at hthis
          rw [envSlot_reference Γ j hk, Store.load, hid, Option.some.inj hthis]
      · cases hw
    · -- parent links up to the outermost environment
      rename_i ty _ hty
      obtain ⟨ha, hmem, j, hjk, hj, hd⟩ := hs.denotes_host (M := M) h hty
      obtain ⟨y, hy, heval⟩ := hs.receiverPath h ha hmem hj hjk hd hw
      rw [heval, Option.some.inj (hx.symm.trans hy)]
    · cases hw

/-! ## Variables and calls -/

/-- A reference to a variable denotes its slot. -/
theorem variableRef (hv : v ∈ (L.graph.scope t).vars) (hrole : v.role ≠ .receiver)
    (ht : t ∈ L.graph.ancestors (Γ.scope i)) (hj : Γ.around i t = some j)
    (hframe : L.graph.envOf? v = none → L.graph.frame? t = L.graph.frame? (Γ.scope i))
    (hw : L.ctx.variableRef site (L.names (L.graph.frame? (Γ.scope i))).aliases v = .ok way) :
    way.slot M i τ = (.ok (Γ.slot L j v), τ) ∧
      ∀ x, τ.load (Γ.slot L j v) = some x → way.eval M i τ = (.ok x, τ) := by
  cases he : L.graph.envOf? v with
  | none =>
    rw [LoweringContext.variableRef, he] at hw
    obtain rfl := Except.ok.inj hw
    have hslot : Γ.slot L j v = .cell ⟨j, L.standIn t v⟩ := by
      rw [slot_plain Γ j he, hs.nested.scope_eq hs.lt ht hj]
    have hname : L.standIn t v =
        ((L.names (L.graph.frame? (Γ.scope i))).aliases.lookup v).getD v := by
      rw [Lowering.standIn, hframe he]
      rfl
    have hkind : v.role = .parameter ∨ v.role = .declared ∧ L.graph.envOf? v = none := by
      cases hr : v.role with
      | declared => exact .inr ⟨rfl, he⟩
      | parameter => exact .inl rfl
      | receiver => exact absurd hr hrole
    have hcell := hs.target.standIns t ht (hframe he) j hj v hv hkind
    rw [hname] at hcell hslot
    rw [hslot]
    refine ⟨?_, fun x hx => ?_⟩
    · rw [Expr.slot, Eval.bind_ok (Eval.cell_eq hcell)]
      rfl
    · rw [Expr.eval_ref hcell, Option.some.inj hx]
  | some e =>
    simp only [LoweringContext.variableRef, he] at hw
    split at hw
    · rename_i f hf
      obtain ⟨way, hway, rfl⟩ := exists_of_map_ok hw
      obtain ⟨hlive, hmem, j', -, hj', hd⟩ := hs.envRef (M := M) h hway
      obtain ⟨-, hve⟩ := h.envOf_eq_some.mp he
      obtain rfl := h.holds.tidy.vars_unique _ _ v hv (h.mem_scope_vars hlive hve)
      obtain rfl := Option.some.inj (hj.symm.trans hj')
      rw [slot_hoisted Γ j he, ← h.field_id hrole hve hf]
      exact ⟨hd.slot f, fun x hx => hd.eval_field hx {}⟩
    · cases hw

/-- The receiver with which the method of a closure is called. -/
theorem callReceiver {lm : LoweredMethod} {way : Option Expr}
    (hlm : L.ctx.declarations.methodOf? c = some lm) (hw : L.ctx.callReceiver site lm = .ok way) :
    Expr.evalReceiver M i way τ = (.ok (Γ.receiverOf L i c), τ) := by
  have hd := h.fits.declared.declared c lm hlm
  rw [LoweringContext.callReceiver, hd.host] at hw
  cases hhost : (L.graph.closure c).host with
  | some e =>
    simp only [hhost] at hw
    obtain ⟨way, hway, rfl⟩ := exists_of_map_ok hw
    obtain ⟨-, -, j, -, hj, hdenotes⟩ := hs.envRef (M := M) h hway
    have hk := (h.fits.chained.isHost h.fits.calls hhost).isReference
    simp only [receiverOf, hhost, objectAt, hj, Option.map_some]
    exact Expr.evalReceiver_some (hdenotes.object hk)
  | none =>
    have hstatic := hd.isStatic
    rw [hhost, Option.isNone_none, Bool.true_and] at hstatic
    simp only [hhost, hstatic] at hw
    simp only [receiverOf, hhost]
    cases hread : (L.graph.closure c).capturesReceiver && L.graph.receiverEnv?.isNone with
    | false =>
      rw [hread] at hw
      obtain rfl := Except.ok.inj hw
      rfl
    | true =>
      rw [hread] at hw
      obtain ⟨way, hway, rfl⟩ := exists_of_map_ok hw
      obtain ⟨x, hx, heval⟩ := hs.receiverRef (M := M) h hway
      rw [if_pos rfl, hx]
      exact Expr.evalReceiver_some heval

end Sees

end Layout

end Unnest
