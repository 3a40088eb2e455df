import Unnest.Proofs.Lowered.Referents
import Unnest.Proofs.Semantics.Statements

/-!
# Lowering preserves meaning

A call of a nested function and the call of its method enter their bodies with the same values for
the parameters; the method is also handed the environments it reads from. So by induction on the
fuel all calls run in step, and so does the body as a whole: a body and its conversion give the same
result and the same history, in every world, for every receiver and all arguments.

## Main statements

* `Lowering.Callee.agrees` : the bodies of a function and of its method run in step.
* `Lowering.Of.machine_simulates` : calls run in step, whatever the fuel.
* `MethodBody.run_preserves` : a body and its conversion have the same meaning.
-/

namespace Unnest

variable {L : Lowering} {m : MethodBody} {r : LoweredBody} {Γ : Layout} {σ τ : Store}
  {M N : Machine} {j : Nat} {c : ClosureId} {lm : LoweredMethod} {b b' : Block} {xs : List Value}
  {site : Site}

/-! ## Arguments of calls -/

namespace Lowering.Callee

variable (hcallee : L.Callee m r c lm b b') (h : L.Of m r)

include hcallee h

/-- The function of a closure stands in the body. -/
theorem exists_site : ∃ p n, (p, n) ∈ m.numbered.sites ∧ n.opened? = some b ∧
    n.params = (L.graph.closure c).function.params.reduceOption ∧
    b.id = (L.graph.closure c).body := by
  obtain ⟨p, n, b₀, hn, hnested, hlays⟩ := h.holds.site_of_closure hcallee.lt
  have hopen := Node.opened_of_nested hnested
  have hblock := ((h.holds.lays p n hn).scope b₀ hopen).block
  rw [← hlays.body, hcallee.block] at hblock
  obtain rfl := Option.some.inj hblock
  exact ⟨p, n, hn, hopen, by simp [Node.params, Node.function?, hnested], hlays.body.symm⟩

theorem head : L.Head b (L.graph.closure c).function.params.reduceOption := by
  obtain ⟨p, n, hn, hopen, hparams, -⟩ := hcallee.exists_site h
  exact hparams ▸ h.head_opened hn hopen

theorem id_eq : b.id = (L.graph.closure c).body := by
  obtain ⟨-, -, -, -, -, hid⟩ := hcallee.exists_site h
  exact hid

theorem frame_eq : L.graph.frame? b.id = some c := by
  rw [hcallee.id_eq h]
  exact Graph.frame_body h.holds hcallee.lt

end Lowering.Callee

/-- The arguments of a call of a function. -/
theorem Graph.DeclaredAs.zip_args {g : Graph} (hd : g.DeclaredAs c lm) (xs : List Value) :
    (g.closure c).function.params.reduceOption.zip (xs.map fun x => Argument.value (.value x)) =
      (lm.copies.reverse.zip xs).map fun q => (q.1.1, .value (.value q.2)) := by
  rw [← hd.copies, List.zip_map]
  rfl

/-- The arguments of a call of its method. -/
theorem Graph.DeclaredAs.zip_envArgs {g : Graph} (hd : g.DeclaredAs c lm)
    (hlen : (g.closure c).function.params.reduceOption.length = xs.length) (Γ : Layout)
    (L : Lowering) (j : Nat) :
    lm.symbol.params.reduceOption.zip
        (xs.map (fun x => Argument.value (.value x)) ++ Γ.envArgs L j lm) =
      (lm.copies.reverse.zip xs).map (fun q => (q.1.2, .value (.value q.2))) ++
        lm.envParams.map fun p =>
          (p.2, .reference ⟨(Γ.around j (L.graph.env p.1).scope).getD 0, L.holder p.1⟩) := by
  have hcount : (lm.copies.reverse.map (·.2)).length =
      (xs.map fun x => Argument.value (.value x)).length := by
    rw [List.length_map, List.length_map, ← hlen, ← hd.copies, List.length_map]
  rw [hd.reduceOption_params, List.zip_append hcount, List.zip_map, Layout.envArgs, List.zip_map']
  rfl

namespace Lowering.Callee

variable (hcallee : L.Callee m r c lm b b') (h : L.Of m r)

include hcallee h

/-- Copies of parameters tell them apart. -/
theorem eq_of_copy {q q' : Variable × Variable} (hq : q ∈ lm.copies) (hq' : q' ∈ lm.copies)
    (heq : q.1 = q'.1 ∨ q.2 = q'.2) : q = q' := by
  have hd := h.fits.declared.declared c lm hcallee.declared
  have hmem (q : Variable × Variable) (hq : q ∈ lm.copies) : q.1 ∈ m.declared := by
    refine h.mem_declared ((hcallee.head h).params q.1 ?_).1
    rw [← hd.copies]
    exact List.mem_map_of_mem (List.mem_reverse.mpr hq)
  have hnodup := h.holds.nodup_params hcallee.lt
  rw [← hd.copies] at hnodup
  refine List.inj_on_of_nodup_map hnodup (List.mem_reverse.mpr hq) (List.mem_reverse.mpr hq')
    (heq.elim id fun heq => ?_)
  obtain ⟨k, hk⟩ := (hd.copy q hq).2
  obtain ⟨l, hl⟩ := (hd.copy q' hq').2
  rw [heq, hl] at hk
  injection hk with _ hid
  exact h.given.distinct _ (hmem q hq) _ (hmem q' hq') hid.symm

/-- A copy of a parameter holds no environment. -/
theorem copy_ne_holder {q : Variable × Variable} (hq : q ∈ lm.copies) {p : EnvId × Variable}
    (hp : p ∈ lm.envParams) : q.2 ≠ p.2 := by
  have hd := h.fits.declared.declared c lm hcallee.declared
  obtain ⟨k, hk⟩ := (hd.copy q hq).2
  obtain ⟨l, hl⟩ := (hd.holder p hp).2
  intro heq
  rw [heq, hl] at hk
  exact nomatch hk

variable (hlen : (L.graph.closure c).function.params.reduceOption.length = xs.length)

include hlen

/-- A parameter is looked up to its argument. -/
theorem lookup_param {v : Variable}
    (hv : v ∈ (L.graph.closure c).function.params.reduceOption) : ∃ x w,
      lm.copies.lookup v = some w ∧
      ((L.graph.closure c).function.params.reduceOption.zip
        (xs.map fun x => Argument.value (.value x))).lookup v = some (.value (.value x)) ∧
      (lm.symbol.params.reduceOption.zip
        (xs.map (fun x => Argument.value (.value x)) ++ Γ.envArgs L j lm)).lookup w =
          some (.value (.value x)) := by
  have hd := h.fits.declared.declared c lm hcallee.declared
  have hfst : (lm.copies.reverse.zip xs).map (·.1) = lm.copies.reverse := by
    refine List.map_fst_zip (Nat.le_of_eq ?_)
    rw [← hlen, ← hd.copies, List.length_map]
  have hcopy (q : (Variable × Variable) × Value) (hq : q ∈ lm.copies.reverse.zip xs) :
      q.1 ∈ lm.copies := by
    rw [← List.mem_reverse, ← hfst]
    exact List.mem_map_of_mem hq
  -- a parameter or its copy determines the argument
  have hinj (q q' : (Variable × Variable) × Value) (hq : q ∈ lm.copies.reverse.zip xs)
      (hq' : q' ∈ lm.copies.reverse.zip xs) (heq : q.1.1 = q'.1.1 ∨ q.1.2 = q'.1.2) : q = q' := by
    have hnodup : ((lm.copies.reverse.zip xs).map (·.1)).Nodup := by
      rw [hfst]
      exact List.Nodup.of_map Prod.fst (hd.copies ▸ h.holds.nodup_params hcallee.lt)
    exact List.inj_on_of_nodup_map hnodup hq hq'
      (hcallee.eq_of_copy h (hcopy q hq) (hcopy q' hq') heq)
  rw [← hd.copies, ← hfst, List.map_map] at hv
  obtain ⟨q, hq, rfl⟩ := List.mem_map.mp hv
  refine ⟨q.2, q.1.2, ?_, ?_, ?_⟩
  · refine lookup_eq_some_of_forall (hcopy q hq) fun q' hq' heq => ?_
    rw [hcallee.eq_of_copy h hq' (hcopy q hq) (.inl heq)]
  · rw [hd.zip_args]
    refine lookup_eq_some_of_forall (List.mem_map.mpr ⟨q, hq, rfl⟩) fun a ha heq => ?_
    obtain ⟨q', hq', rfl⟩ := List.mem_map.mp ha
    rw [hinj q' q hq' hq (.inl heq)]
  · rw [hd.zip_envArgs hlen]
    refine lookup_eq_some_of_forall
      (List.mem_append_left _ (List.mem_map.mpr ⟨q, hq, rfl⟩)) fun a ha heq => ?_
    rcases List.mem_append.mp ha with ha | ha
    · obtain ⟨q', hq', rfl⟩ := List.mem_map.mp ha
      rw [hinj q' q hq' hq (.inr heq)]
    · obtain ⟨p, hp, rfl⟩ := List.mem_map.mp ha
      exact absurd heq.symm (hcallee.copy_ne_holder h (hcopy q hq) hp)

/-- The parameter for an environment is looked up to its holder. -/
theorem lookup_envParam {p : EnvId × Variable} (hp : p ∈ lm.envParams) :
    (lm.symbol.params.reduceOption.zip
        (xs.map (fun x => Argument.value (.value x)) ++ Γ.envArgs L j lm)).lookup p.2 =
      some (.reference ⟨(Γ.around j (L.graph.env p.1).scope).getD 0, L.holder p.1⟩) := by
  have hd := h.fits.declared.declared c lm hcallee.declared
  rw [hd.zip_envArgs hlen]
  refine lookup_eq_some_of_forall
    (List.mem_append_right _ (List.mem_map.mpr ⟨p, hp, rfl⟩)) fun a ha heq => ?_
  rcases List.mem_append.mp ha with ha | ha
  · obtain ⟨q, hq, rfl⟩ := List.mem_map.mp ha
    exact absurd heq
      (hcallee.copy_ne_holder h (List.mem_reverse.mp (List.of_mem_zip hq).1) hp)
  · obtain ⟨p', hp', rfl⟩ := List.mem_map.mp ha
    obtain ⟨k, hk⟩ := (hd.holder p hp).2
    obtain ⟨l, hl⟩ := (hd.holder p' hp').2
    rw [show p'.2 = p.2 from heq, hk] at hl
    injection hl with _ hid
    rw [hid]

/-- What is passed to a function and to its method. -/
theorem entry : L.Entry b.id b.declared b'.declared
    ((L.graph.closure c).function.params.reduceOption.zip
      (xs.map fun x => Argument.value (.value x)))
    (lm.symbol.params.reduceOption.zip
      (xs.map (fun x => Argument.value (.value x)) ++ Γ.envArgs L j lm)) := by
  have hd := h.fits.declared.declared c lm hcallee.declared
  have hframe := hcallee.frame_eq h
  obtain ⟨loc, hl⟩ := hcallee.lowers
  rw [← hframe] at hl
  refine (hcallee.head h).entry h hl (fun v hv => mem_of_lookup_zip hv) (fun v hv => ?_)
    fun x hx => ?_
  · obtain ⟨x, w, hw, hx, hx'⟩ := hcallee.lookup_param h hlen hv (Γ := Γ) (j := j)
    refine ⟨x, hx, ?_⟩
    rw [Lowering.standIn, hframe, hcallee.params v ((hcallee.head h).params v hv).2, hw]
    exact hx'
  · obtain ⟨a, ha⟩ := Option.ne_none_iff_exists'.mp hx
    have ha := mem_of_lookup ha
    rw [hd.zip_envArgs hlen] at ha
    rcases List.mem_append.mp ha with ha | ha
    · obtain ⟨q, hq, heq⟩ := List.mem_map.mp ha
      obtain ⟨rfl, -⟩ := Prod.mk.inj heq
      have hq := (List.of_mem_zip hq).1
      refine .inl ⟨q.1.1, hd.copies ▸ List.mem_map_of_mem hq, .inr ?_⟩
      exact (hd.copy q.1 (List.mem_reverse.mp hq)).2
    · obtain ⟨p, hp, heq⟩ := List.mem_map.mp ha
      obtain ⟨rfl, -⟩ := Prod.mk.inj heq
      obtain ⟨-, -, haround, k, hk⟩ := h.envParam_spec hcallee.declared hp
      refine .inr ⟨k, p.1, hk, fun henv => ?_⟩
      -- the environment of a scope around the function is not the one of its body
      exact (h.mem_of_home hframe haround).2 (h.live_of_env henv).2

omit hlen in
/-- The method of a function begins with the environments it is handed only. -/
theorem begins (loc : Loc) : L.Begins b.id (L.ctx.methodSite lm loc) := by
  rw [hcallee.id_eq h]
  exact ⟨⟨(h.fits.enters_body hcallee.lt hcallee.declared loc).frame, fun _ _ hl => nomatch hl⟩,
    fun _ _ hl => nomatch hl⟩

/-- The instance of the body of a method. -/
theorem targetAt (hm : Γ.Matches L σ τ) (hj : j < Γ.size) (o : Nat) :
    (Γ.enter b.id (Γ.around j) o).TargetAt L Γ.size
      ((τ.enter b.id b'.declared
        (lm.symbol.params.reduceOption.zip
          (xs.map (fun x => Argument.value (.value x)) ++ Γ.envArgs L j lm))
        { self := Γ.receiverOf L j c }).instances Γ.size) := by
  have hframe := hcallee.frame_eq h
  -- what is around the function is not its body
  have hout {t : ScopeId} (ht : t ∈ L.graph.ancestors (L.graph.closure c).home) : t ≠ b.id :=
    (h.mem_of_home hframe ht).2
  refine (hcallee.entry h hlen).targetAt_frame hm.entered_right (fun t ht hfr => ?_) ?_ ?_
  · rw [hframe] at hfr
    have hin := (Graph.lt_of_frame h.holds hfr).2
    rw [← hcallee.id_eq h] at hin
    exact Graph.ancestors_antisymm ht hin
  · rw [hframe]
    simp only [Layout.selfOf, Layout.receiverOf]
    cases hhost : (L.graph.closure c).host with
    | none => rfl
    | some e =>
      have haround := (h.fits.chained.isHost h.fits.calls hhost).around
      exact (hm.nested.objectAt_enter hj (hout haround)).symm
  · intro c' hc' lm' hlm' p hp k hk
    obtain rfl := Option.some.inj (hframe.symm.trans hc')
    obtain rfl := Option.some.inj (hcallee.declared.symm.trans hlm')
    obtain ⟨-, -, haround, -⟩ := h.envParam_spec hlm' hp
    rw [Function.update_of_ne (hout haround)] at hk
    rw [hcallee.lookup_envParam h hlen hp, hk]
    rfl

/-- The bodies of a function and of its method run in step. -/
theorem agrees (hM : M.Simulates N L m r) (hm : Γ.Matches L σ τ) (hj : j < Γ.size)
    (hscope : Γ.scope j = (L.graph.closure c).home) :
    Γ.Agrees L Eq
      (Stmt.evalAll M σ.entered b.stmts
        (σ.enter b.id b.declared
          ((L.graph.closure c).function.params.reduceOption.zip
            (xs.map fun x => Argument.value (.value x)))
          (σ.instances j)))
      (Stmt.evalAll N τ.entered b'.stmts
        (τ.enter b'.id b'.declared
          (lm.symbol.params.reduceOption.zip
            (xs.map (fun x => Argument.value (.value x)) ++ Γ.envArgs L j lm))
          { self := Γ.receiverOf L j c })) := by
  obtain ⟨p, n, hn, hopen, -, hid⟩ := hcallee.exists_site h
  have hchain : L.graph.ancestors b.id = b.id :: L.graph.ancestors (Γ.scope j) := by
    rw [hscope, hid]
    exact h.holds.ancestors_body hcallee.lt
  obtain ⟨loc, hl⟩ := hcallee.lowers
  rw [← hcallee.frame_eq h] at hl
  exact hm.agrees_entered h (hm.nested.around hj hchain) (hcallee.entry h hlen)
    ((hm.source j hj).sourceAround hchain) (hcallee.targetAt h hlen hm hj τ.allocated)
    (hcallee.begins h loc) hl
    (L.stmtsInStep_of_opened hn hopen fun k _ => Node.inStep h hM k)

end Lowering.Callee

/-! ## Whole runs -/

/-- The machine that runs a program in a world with some fuel. -/
def Program.machine (P : Program) (w : World) (fuel : Nat) : Machine :=
  ⟨w, P, fuel, P.activate w fuel⟩

/-- Running a body takes one unit of fuel. -/
theorem Program.activate_succ (P : Program) (w : World) (fuel : Nat) (a : Activation) (σ : Store) :
    P.activate w (fuel + 1) a σ =
      ((fun x => x.getD .zero) <$> Stmt.evalAll (P.machine w fuel) σ.entered a.body.stmts)
        (σ.enter a.body.id a.body.declared a.args a.outer) := rfl

/-- Bodies are run in step if their statements are. -/
theorem Layout.Agrees.activate {P Q : Program} {w : World} {fuel : Nat} {a a' : Activation}
    (h : Γ.Agrees L Eq
      (Stmt.evalAll (P.machine w fuel) σ.entered a.body.stmts
        (σ.enter a.body.id a.body.declared a.args a.outer))
      (Stmt.evalAll (Q.machine w fuel) τ.entered a'.body.stmts
        (τ.enter a'.body.id a'.body.declared a'.args a'.outer))) :
    Γ.Agrees L Eq (P.activate w (fuel + 1) a σ) (Q.activate w (fuel + 1) a' τ) := by
  rw [Program.activate_succ, Program.activate_succ]
  exact h.map fun x y hxy => by rw [hxy]

namespace Lowering.Of

variable (h : L.Of m r)

include h

/-- Calls run in step, whatever the fuel. -/
theorem machine_simulates (w : World) (fuel : Nat) :
    (m.numbered.program.machine w fuel).Simulates (r.declarations.program.machine w fuel)
      L m r := by
  induction fuel with
  | zero => exact ⟨rfl, rfl, rfl, rfl, fun Γ σ τ hm _ _ _ _ _ _ _ _ _ _ => .error hm.history⟩
  | succ fuel ih =>
    refine ⟨rfl, rfl, rfl, rfl, fun Γ σ τ hm c lm b b' hcallee j hj hscope xs hlen => ?_⟩
    exact (hcallee.agrees h hlen ih hm hj hscope).activate

end Lowering.Of

/-! ## The body itself -/

/-- No block is entered yet. -/
def Layout.empty : Layout := ⟨0, fun _ => Graph.root, fun _ _ => none, fun _ => 0⟩

theorem Layout.matches_empty (L : Lowering) : Layout.empty.Matches L {} {} where
  nested := ⟨fun _ hi => (nomatch hi), fun _ hi => (nomatch hi), fun _ hi => (nomatch hi)⟩
  entered_left := rfl
  entered_right := rfl
  made := rfl
  history := rfl
  source _ hi := nomatch hi
  target _ hi := nomatch hi
  env _ hi := nomatch hi
  object_inj _ hi := nomatch hi
  cells _ hi := nomatch hi
  callables _ hk := nomatch hk

namespace Lowering.Of

variable (h : L.Of m r) (hb : m.numbered.block = some b)

include h hb

theorem head_root : L.Head b (L.ctx.method.params.reduceOption) := by
  have hid := MethodBody.id_block hb
  have hm := h.fits.method
  have hvars := h.holds.vars_root hm hb
  have hmem (v : Variable) : v ∈ (L.graph.scope b.id).vars ↔
      (m.receiver = some v ∨ v ∈ L.ctx.method.params.reduceOption) ∨ v ∈ b.declared := by
    rw [hid, OrderedSet.mem_def, hvars, List.mem_append, List.mem_append, Option.mem_toList]
  refine ⟨fun v hv hrole => ?_, fun v hv => ⟨(hmem v).mpr (.inl (.inr hv)), ?_⟩,
    fun v hv => ⟨(hmem v).mpr (.inr hv), ?_⟩⟩
  · rcases (hmem v).mp hv with (hv | hv) | hv
    · exact absurd (h.fits.wellBound.receiver v hv) hrole
    · exact .inl hv
    · exact .inr hv
  · exact h.fits.wellBound.params _ hm v hv
  · obtain ⟨k, hk, hv⟩ := List.mem_filterMap.mp hv
    have htop : k ∈ m.topNodes := by rwa [MethodBody.topNodes, hb]
    exact h.fits.wellBound.role_declared (MethodBody.mem_sites_of_topNodes htop) hv

/-- What is passed to the body and to its conversion. -/
theorem entry_root (hl : b.LowersIn L.ctx (L.names (L.graph.frame? b.id)) site b')
    (hlen : L.ctx.method.params.reduceOption.length = xs.length) :
    L.Entry b.id b.declared b'.declared
      (L.ctx.method.params.reduceOption.zip (xs.map fun x => Argument.value (.value x)))
      (L.ctx.method.params.reduceOption.zip (xs.map fun x => Argument.value (.value x))) := by
  refine (h.head_root hb).entry h hl (fun v hv => mem_of_lookup_zip hv) (fun v hv => ?_)
    fun x hx => .inl ⟨x, mem_of_lookup_zip hx, .inl rfl⟩
  have hstand : L.standIn b.id v = v := by
    rw [Lowering.standIn, MethodBody.id_block hb, Graph.frame_root h.holds]
    exact h.lowers.params v ((h.head_root hb).params v hv).2
  have hfst : (L.ctx.method.params.reduceOption.zip
      (xs.map fun x => Argument.value (.value x))).map (·.1) = L.ctx.method.params.reduceOption :=
    List.map_fst_zip (by simp [hlen])
  obtain ⟨a, ha⟩ := exists_lookup (hfst.symm ▸ hv)
  obtain ⟨x, -, rfl⟩ := List.mem_map.mp (List.of_mem_zip (mem_of_lookup ha)).2
  rw [hstand]
  exact ⟨x, ha, ha⟩

/-- The body and its conversion run in step. -/
theorem agrees_root (hl : b.LowersIn L.ctx (L.names none) { frame := L.ctx.frameAt none } b')
    (hM : M.Simulates N L m r)
    (hlen : L.ctx.method.params.reduceOption.length = xs.length) :
    Layout.empty.Agrees L Eq
      (Stmt.evalAll M 0 b.stmts
        (Store.enter {} b.id b.declared
          (L.ctx.method.params.reduceOption.zip (xs.map fun x => Argument.value (.value x)))
          { self := L.this }))
      (Stmt.evalAll N 0 b'.stmts
        (Store.enter {} b'.id b'.declared
          (L.ctx.method.params.reduceOption.zip (xs.map fun x => Argument.value (.value x)))
          { self := L.this })) := by
  have hid := MethodBody.id_block hb
  have hframe : L.graph.frame? b.id = none := hid ▸ Graph.frame_root h.holds
  have hchain : L.graph.ancestors b.id = [b.id] := by
    rw [hid]
    exact h.holds.ancestors_root
  have honly (t : ScopeId) (ht : t ∈ L.graph.ancestors b.id) : t = b.id :=
    List.mem_singleton.mp (hchain ▸ ht)
  replace hl : b.LowersIn L.ctx (L.names (L.graph.frame? b.id))
      { frame := L.ctx.frameAt none } b' := by
    rwa [hframe]
  have hent := h.entry_root hb hl hlen
  have hsource : L.SourceAround b.id (fun _ => none) { self := L.this } :=
    ⟨rfl, fun t ht hne => absurd (honly t ht) hne, fun t ht hne => absurd (honly t ht) hne⟩
  have hin : L.Begins b.id { frame := L.ctx.frameAt none } :=
    ⟨⟨by rw [hframe], fun _ _ hl => by cases hl⟩, fun _ _ hl => by cases hl⟩
  have htop (s : Stmt) (hs : s ∈ b.stmts) :
      ∃ p, (p, .stmt s) ∈ m.numbered.sites ∧ p.scope = b.id := by
    refine ⟨.outermost, MethodBody.mem_sites_of_topNodes ?_, hid.symm⟩
    rw [MethodBody.topNodes, hb]
    exact List.mem_map_of_mem hs
  refine (Layout.matches_empty L).agrees_entered h (Layout.around_root _ hchain) hent hsource ?_
    hin hl (L.stmtsInStep htop fun s _ => Node.inStep h hM (.stmt s))
  refine hent.targetAt_frame rfl (fun t ht _ => honly t ht) ?_ fun c hc => ?_
  · rw [hframe]
    rfl
  · cases hframe.symm.trans hc

omit hb

theorem run_eq {receiver : Value} (hthis : L.this = m.receiver.map fun _ => receiver) (w : World)
    (fuel : Nat) (xs : List Value) : r.run w fuel receiver xs = m.run w fuel receiver xs := by
  obtain ⟨b, b', hb, hbody, hl⟩ := h.lowers.body
  have hmethod : m.numbered.method = some L.ctx.method := h.fits.method
  have hreceiver : m.numbered.receiver = m.receiver := rfl
  rw [LoweredBody.run, MethodBody.run, Program.run, Program.run, hbody]
  simp only [hb, hmethod, hreceiver, Option.map_some, Option.getD_some, ← hthis]
  split
  · rename_i hlen
    cases fuel with
    | zero => rfl
    | succ fuel =>
      exact (h.agrees_root hb hl (h.machine_simulates w fuel) hlen).activate.observe
  · rfl

end Lowering.Of

/-! ## Conversions -/

/-- What a conversion of an accepted body gives is lowered in one context, and there is such a
result if names are clear. -/
theorem MethodBody.lowers_of_accepted (h : m.Accepted) (hw : m.WellBound) (o : ConversionSettings) :
    ((∀ method ∈ m.method, (Analysis.run o m).1.graph.NamesClear method) →
      ∃ r, (Conversion.run o m).outcome = .ok r) ∧
    ∃ ctx, ∀ r, (Conversion.run o m).outcome = .ok r → r.Lowers ctx m := by
  obtain ⟨hnone, hc⟩ := m.chained_of_accepted h hw.calls hw.receiverUnique o
  obtain ⟨method, -, hm, -⟩ := hc.exact.holds.complete
  obtain ⟨s, hsame, hdecl, hs, hfinish⟩ := DeclarationDraft.finish_eq hc hw hm o
  obtain ⟨a, ha⟩ : ∃ a, Analysis.run o m = (a, none) := ⟨_, Prod.ext rfl hnone⟩
  have hrun : (Conversion.run o m).outcome = (DeclarationDraft.finish o a.graph).2 := by
    simp only [Conversion.run, ha]
  rw [ha] at hc hsame hs hfinish ⊢
  refine ⟨fun hnames => ?_, ⟨s.graph, s.declarations, method⟩, fun r hr => ?_⟩
  · have hstored := (hnames method hm).storedValueEnv_eq_none hc hw.calls
      (hdecl.of_same (hsame.chained hc).exact.holds hsame.symm).typed
    obtain ⟨r, hr, -⟩ := hfinish hstored
    exact ⟨r, by rw [hrun, hr]⟩
  · cases hstored : s.declarations.storedValueEnv? with
    | none =>
      obtain ⟨r', hr', hl⟩ := hfinish hstored
      rw [hrun, hr'] at hr
      exact Except.ok.inj hr ▸ hl
    | some f =>
      rw [hstored] at hs
      rw [hrun, DeclarationDraft.finish, hs] at hr
      cases hr

/-- Lowering preserves meaning. A body that is accepted, whose symbols are used as they are meant
and which refers to variables only after their declarations unless they are captured, is converted
if names are clear; and its conversion has the same results and the same history of calls, in every
world, for every receiver and all arguments, with the same fuel. -/
theorem MethodBody.run_preserves (h : m.Accepted) (hw : m.WellBound) (hfirst : m.DeclaresFirst)
    (hgiven : m.Given) (o : ConversionSettings) :
    ((∀ method ∈ m.method, (Analysis.run o m).1.graph.NamesClear method) →
      ∃ r, (Conversion.run o m).outcome = .ok r) ∧
    ∀ r, (Conversion.run o m).outcome = .ok r → ∀ w fuel receiver args,
      r.run w fuel receiver args = m.run w fuel receiver args := by
  obtain ⟨hok, ctx, hlowers⟩ := m.lowers_of_accepted h hw o
  refine ⟨hok, fun r hr w fuel receiver args => ?_⟩
  obtain ⟨names, hl⟩ := (hlowers r hr).exists_names hfirst
  have hof : Lowering.Of ⟨ctx, names, m.receiver.map fun _ => receiver⟩ m r :=
    ⟨hl, hgiven, by simp⟩
  exact hof.run_eq rfl w fuel args

/-- A world of numbers, in which everything but numbers is zero. -/
def Tally.numbers : World where
  literal _ _ := .data 1
  operator
    | _, .data x, .data y => .data (x + y)
    | _, _, _ => .zero
  truth x := x ≠ .zero
  reply _ := .zero
  literal_renameParams _ _ _ := rfl

open Tally in
/-- `Total` and its conversion return the sum to which the local function has added. -/
theorem MethodBody.preserves_total : total.Accepted ∧ total.WellBound ∧ total.DeclaresFirst ∧
    total.Given ∧ ∃ r, (Conversion.run {} total).outcome = .ok r ∧
      (∀ w fuel receiver args, r.run w fuel receiver args = total.run w fuel receiver args) ∧
      r.run numbers 2 (.data 10) [.data 3] = (.ok (.data 14), []) := by
  have h : total.Accepted := ⟨by decide +kernel, by decide +kernel⟩
  have hw : total.WellBound := by decide +kernel
  have hfirst : total.DeclaresFirst := declaresFirst_of_inOrder (by decide +kernel)
  have hgiven : total.Given := by decide +kernel
  have hsum : total.run numbers 2 (.data 10) [.data 3] = (.ok (.data 14), []) := by
    decide +kernel
  obtain ⟨hok, hpreserves⟩ := run_preserves h hw hfirst hgiven {}
  obtain ⟨r, hr⟩ := hok (by decide +kernel)
  have heq := hpreserves r hr
  exact ⟨h, hw, hfirst, hgiven, r, hr, heq, (heq ..).trans hsum⟩

end Unnest
