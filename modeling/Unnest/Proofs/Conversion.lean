import Unnest.Proofs.Lowered.Run
import Unnest.Proofs.Lowered.Sound

/-!
# Conversions succeed

A body that is accepted and whose symbols are used as they are meant is converted without a failure,
whatever the settings, unless a type from outside has the name of a type made for an environment.

## Main statements

* `MethodBody.chained_of_accepted` : the analysis succeeds, and its graph is chained.
* `DeclarationDraft.finish_eq` : so do declaring, checking and lowering, if no value is stored.
* `MethodBody.run_succeeds` : conversions succeed.
-/

namespace Unnest

variable {g : Graph} {m : MethodBody} {method : Method}

/-! ## Analysis -/

theorem MethodBody.chained_of_accepted (h : m.Accepted) (hcalls : m.CallsInScope)
    (hunique : m.ReceiverUnique) (o : ConversionSettings) :
    (Analysis.run o m).2 = none ∧ (Analysis.run o m).1.graph.Chained m := by
  obtain ⟨g₀, hg₀, hcap, hp, hu⟩ := Graph.placed_of_allocate h.analysed
  have hx := hcap.exact h.analysed.toExact
  obtain ⟨g₁, hg₁, hhosted⟩ := Graph.assignHosts_eq hp hx hcalls hu
  have hc := Graph.chained_of_hostedTo hp hx hu hhosted
  have hbuilt : Analysis.buildStage (Graph.ofBody m) = (m.built.graph, none) := by
    have := Option.isNone_iff_eq_none.mp h.built
    exact Prod.ext rfl this
  have hcaptured : Analysis.captureStage m.built.graph = (m.captured.graph, none) := by
    have := Option.isNone_iff_eq_none.mp h.captured
    exact Prod.ext rfl this
  have hallocated : Analysis.allocateStage m.captured.graph = (g₀, none) := by
    rw [Analysis.allocateStage, hg₀]
  simp only [Analysis.run, Analysis.stages, List.cons_append, List.nil_append, Analysis.steps,
    Analysis.step, hbuilt, hcaptured, hallocated, hg₁]
  cases o.prune with
  | true => exact ⟨rfl, hc.prune hcalls hunique⟩
  | false => exact ⟨rfl, hc⟩

/-! ## Lowering -/

/-- The conversion `r` of a well-bound body is what the lowering in context `ctx` gives. -/
structure LoweredBody.Lowers (r : LoweredBody) (ctx : LoweringContext) (m : MethodBody) : Prop
    extends r.Written ctx m where
  fits : ctx.Fits m

theorem DeclarationDraft.lower_eq {s : DeclarationDraft}
    (h : LoweringContext.Fits ⟨s.graph, s.declarations, method⟩ m) :
    ∃ body s', s.lower none = (some body, s', none) ∧ s'.graph = s.graph ∧
      LoweredBody.Lowers ⟨body, s'.declarations, s'.supply⟩
        ⟨s.graph, s.declarations, method⟩ m := by
  have hsuits : LoweringContext.Suits ⟨s.graph, s.declarations, method⟩ m :=
    ⟨h.method, h.chained.seated h.calls, h.declared⟩
  obtain ⟨method', block, hm, hblock, -⟩ := h.holds.complete
  obtain rfl : method' = method := Option.some.inj (hm.symm.trans h.method)
  have hbody : s.graph.body.method = some method' := by rw [h.holds.body]; exact hm
  have hblock' : s.graph.body.block = some block := by rw [h.holds.body]; exact hblock
  let st : LoweringState :=
    { supply := s.supply, bodies := (s.declarations.methods.map (·.body)).toArray }
  obtain ⟨_, -, st', hrun, hfail, -⟩ := h.lowerMethod_eq st hblock' rfl rfl
    (by simp [st, h.declared.length]) h.declared.bodies_eq_none
  have hlower : (s.lower none).2.2 = none := by
    simp only [DeclarationDraft.lower, hbody, hblock']
    exact (congrArg (fun x => x.2.failure) hrun).trans hfail
  rcases hl : s.lower none with ⟨x, s', failure⟩
  obtain rfl : failure = none := by rwa [hl] at hlower
  obtain ⟨body, rfl, hgraph, hwritten⟩ := DeclarationDraft.written_of_lower hsuits hl
  exact ⟨body, s', rfl, hgraph, hwritten, h⟩

/-- Declaring, checking and lowering succeed if no value is stored. -/
theorem DeclarationDraft.finish_eq (hc : g.Chained m) (hw : m.WellBound)
    (hm : m.method = some method) (o : ConversionSettings) :
    ∃ s : DeclarationDraft, g.SameExceptParams s.graph ∧ s.declarations.Declared s.graph method ∧
      DeclarationDraft.declareAll { graph := g } = (s, s.declarations.storedValueEnv?) ∧
      (s.declarations.storedValueEnv? = none →
        ∃ r, DeclarationDraft.finish o g = (s.graph, .ok r) ∧
          r.Lowers ⟨s.graph, s.declarations, method⟩ m) := by
  obtain ⟨s, hs, hsame, hdecl⟩ := declareAll_eq (hc.seated hw.calls) hm
  refine ⟨s, hsame, hdecl, hs, fun hstored => ?_⟩
  have hchained := hsame.chained hc
  have hfits : LoweringContext.Fits ⟨s.graph, s.declarations, method⟩ m :=
    ⟨hm, hchained, hdecl, hw⟩
  obtain ⟨body, s', hlower, hgraph, hlowers⟩ := DeclarationDraft.lower_eq hfits
  have hdefect := hdecl.defect_eq_none (hchained.seated hw.calls) hstored
  refine ⟨_, ?_, hlowers⟩
  simp only [DeclarationDraft.finish, hs, hstored, hdefect, ite_self, hlower, hgraph]

/-! ## Success -/

/-- No type from outside has the name of a type made for an environment: neither the type that the
method belongs to nor the respelled type of a hoisted variable. -/
def Graph.NamesClear (g : Graph) (method : Method) : Prop :=
  ∀ t ∈ g.envTypes method, TypeName.base method.owner ≠ t.name ∧
    ∀ e ∈ g.liveEnvs, ∀ v ∈ (g.env e).vars.toList,
      TypeName.base (TypeName.renameParams method.typeParams v.type) ≠ t.name

instance (g : Graph) (method : Method) : Decidable (g.NamesClear method) :=
  inferInstanceAs (Decidable (∀ t ∈ g.envTypes method, TypeName.base method.owner ≠ t.name ∧
    ∀ e ∈ g.liveEnvs, ∀ v ∈ (g.env e).vars.toList,
      TypeName.base (TypeName.renameParams method.typeParams v.type) ≠ t.name))

/-- With clear names no value is stored. -/
theorem Graph.NamesClear.storedValueEnv_eq_none (h : g.NamesClear method) (hc : g.Chained m)
    (hcalls : m.CallsInScope) {d : Declarations} (hd : d.Typed g method) :
    d.storedValueEnv? = none := by
  have htyped := g.typed_envTypes method
  -- the names depend only on the order of the environments
  have hname (t : EnvType) (ht : t ∈ d.types) : ∃ u ∈ g.envTypes method, u.name = t.name := by
    obtain ⟨i, hi, rfl⟩ := List.mem_iff_getElem.mp ht
    have hlen : (g.envTypes method).length = d.types.length := by
      rw [← List.length_map (f := EnvType.env), ← List.length_map (f := EnvType.env)]
      exact congrArg List.length (htyped.envs.trans hd.envs.symm)
    have hi' : i < (g.envTypes method).length := hlen ▸ hi
    refine ⟨_, List.getElem_mem hi', ?_⟩
    rw [htyped.name i _ (List.getElem?_eq_getElem hi'), hd.name i _ (List.getElem?_eq_getElem hi)]
  refine hd.storedValueEnv_eq_none (hc.seated hcalls) (fun t ht => ?_) fun e he v hv t ht => ?_
  · obtain ⟨u, hu, heq⟩ := hname t ht
    exact heq ▸ (h u hu).1
  · obtain ⟨u, hu, heq⟩ := hname t ht
    have hlt : e < g.envs.size := by
      by_contra hlt
      rw [env_of_le (Nat.le_of_not_lt hlt)] at hv
      exact OrderedSet.not_mem_empty v hv
    exact heq ▸ (h u hu).2 e (mem_liveEnvs.mpr ⟨hlt, he⟩) v hv

/-- A body that is accepted and well bound is converted, and every method gets its body, whatever
the settings, as long as the names of its types are clear. -/
theorem MethodBody.run_succeeds (h : m.Accepted) (hw : m.WellBound) (o : ConversionSettings)
    (hnames : ∀ method ∈ m.method, (Analysis.run o m).1.graph.NamesClear method) :
    ∃ r, (Conversion.run o m).outcome = .ok r ∧
      ∀ lm ∈ r.declarations.methods, lm.body.isSome = true := by
  obtain ⟨hnone, hc⟩ := m.chained_of_accepted h hw.calls hw.receiverUnique o
  obtain ⟨method, -, hm, -⟩ := hc.exact.holds.complete
  obtain ⟨s, hsame, hdecl, hs, hfinish⟩ := DeclarationDraft.finish_eq hc hw hm o
  have hstored := (hnames method hm).storedValueEnv_eq_none hc hw.calls
    (hdecl.of_same (hsame.chained hc).exact.holds hsame.symm).typed
  obtain ⟨r, hr, hl⟩ := hfinish hstored
  refine ⟨r, ?_, fun lm hlm => ?_⟩
  · obtain ⟨a, ha⟩ : ∃ a, Analysis.run o m = (a, none) := ⟨_, Prod.ext rfl hnone⟩
    rw [ha] at hr
    simp only [Conversion.run, ha, hr]
  · obtain ⟨c, hlt, rfl⟩ := List.mem_iff_getElem.mp hlm
    obtain ⟨lm, b, -, -, hmethod⟩ := hl.methods c (hl.length ▸ hlt)
    rw [Declarations.methodOf?, List.getElem?_eq_getElem hlt] at hmethod
    rw [Option.some.inj hmethod]
    rfl

open Counter in
/-- `Count` is converted. -/
theorem MethodBody.run_count : count.Accepted ∧ count.WellBound ∧
    (∀ method ∈ count.method, (Analysis.run {} count).1.graph.NamesClear method) ∧
    ∃ r, (Conversion.run {} count).outcome = .ok r ∧
      ∀ lm ∈ r.declarations.methods, lm.body.isSome = true := by
  have hw : count.WellBound := by decide +kernel
  have hnames : ∀ method ∈ count.method, (Analysis.run {} count).1.graph.NamesClear method := by
    decide +kernel
  exact ⟨accepted_count, hw, hnames, run_succeeds accepted_count hw {} hnames⟩

end Unnest
