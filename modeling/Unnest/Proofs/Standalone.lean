import Unnest.Proofs.Lowered.Closed

/-!
# Converted bodies stand on their own

What a conversion gives could be converted again, and there would be nothing left to do: neither the
converted body nor a lowered method has a nested function, and each refers to its own parameters and
variables only. The parameters of a lowered method are the copies of those of its function and those
for environments; a method that is not static has a receiver besides.

## Main definitions

* `LoweredMethod.toBody` : a lowered method as a body.
* `LoweredMethod.formals` : its parameters.
* `LoweredBody.Standalone` : all bodies that a conversion gives stand on their own.

## Main statements

* `MethodBody.run_standalone` : whatever is converted, all bodies stand on their own.
-/

namespace Unnest

/-- The method as a body with the given receiver. -/
def LoweredMethod.toBody (lm : LoweredMethod) (receiver : Option Variable) : MethodBody where
  method := some lm.symbol
  receiver
  block := lm.body

/-- The parameters of the method: the copies of those of its function, then those for
environments. -/
def LoweredMethod.formals (lm : LoweredMethod) : List Variable :=
  lm.copies.reverse.map (·.2) ++ lm.envParams.map (·.2)

/-- The converted body stands on its own, and so does every lowered method: with any fresh receiver,
or without one if it is static. -/
structure LoweredBody.Standalone (r : LoweredBody) : Prop where
  body : r.body.Standalone
  methods : ∀ lm ∈ r.declarations.methods, ∀ receiver : Option Variable,
    receiver.isSome = !lm.symbol.isStatic → (∀ v ∈ receiver, v ∉ (lm.toBody none).declared) →
      (lm.toBody receiver).Standalone

theorem LoweredMethod.declared_toBody (lm : LoweredMethod) (receiver : Option Variable) :
    (lm.toBody receiver).declared = receiver.toList ++ (lm.toBody none).declared := by
  simp only [MethodBody.declared, List.append_assoc]
  rfl

variable {ctx : LoweringContext} {m : MethodBody} {r : LoweredBody} {names : Names} {c : ClosureId}
  {lm : LoweredMethod} {v : Variable}

/-! ## Parameters of lowered methods -/

namespace LoweringContext.Binds

variable (h : ctx.Binds m) (hlm : ctx.declarations.methodOf? c = some lm)

include h

/-- The receiver and the parameters of the body come to it from outside. -/
theorem passed_head {w : Variable}
    (hw : w ∈ m.receiver.toList ++ ctx.method.params.reduceOption) : ctx.Passed m none w := by
  rcases List.mem_append.mp hw with hw | hw
  · have hw := Option.mem_toList.mp hw
    have hrole := h.inRole.receiver w hw
    exact .inl ⟨w, MethodBody.mem_declared.mpr ⟨_, .receiver hw⟩, by simp [hrole], .inl rfl⟩
  · have hrole := h.inRole.params _ h.method w hw
    have hdecl := MethodBody.Declares.methodParam h.method (List.reduceOption_mem_iff.mp hw)
    exact .inl ⟨w, MethodBody.mem_declared.mpr ⟨_, hdecl⟩, by simp [hrole], .inl rfl⟩

include hlm

theorem lt_of_methodOf : c < ctx.graph.closures.size := by
  rw [← h.declared.length]
  exact (List.getElem?_eq_some_iff.mp hlm).1

/-- A method has copies of the parameters of its function. -/
theorem declared_of_copy {q : Variable × Variable} (hq : q ∈ lm.copies) :
    q.1 ∈ m.declared ∧ q.1.role = .parameter := by
  have hd := h.declared.declared c lm hlm
  have hmem : q.1 ∈ (ctx.graph.closure c).function.params.reduceOption := by
    rw [← hd.copies]
    exact List.mem_map_of_mem (List.mem_reverse.mpr hq)
  obtain ⟨p, n, b, hn, hnested, -⟩ :=
    h.seated.exact.holds.site_of_closure (h.lt_of_methodOf hlm)
  have hf : n.function? = some (ctx.graph.closure c).function := by simp [Node.function?, hnested]
  have hv := List.reduceOption_mem_iff.mp hmem
  exact ⟨MethodBody.mem_declared.mpr ⟨_, .param hn hf hv⟩, h.inRole.role_param hn hf hv⟩

/-- A method is handed environments of other frames. -/
theorem frame_of_envParam {q : EnvId × Variable} (hq : q ∈ lm.envParams) :
    ctx.graph.frame? (ctx.graph.env q.1).scope ≠ some c := by
  intro hframe
  have hx := h.seated.exact
  have hmem : q.1 ∈ lm.envParams.map (·.1) := List.mem_map_of_mem hq
  rw [(h.declared.declared c lm hlm).envParams, Graph.mem_valueEnvsOf] at hmem
  obtain ⟨-, -, v, hv, hcap⟩ := h.seated.placed.mem_envs_iff.mp hmem.1
  exact hx.body_not_mem_of_captured hcap hv (Graph.lt_of_frame hx.holds hframe).2

/-- The parameters of a method come to its frame from outside. -/
theorem passed_param {w : Variable} (hw : w ∈ lm.formals) : ctx.Passed m (some c) w := by
  have hd := h.declared.declared c lm hlm
  rcases List.mem_append.mp hw with hw | hw
  · obtain ⟨q, hq, rfl⟩ := List.mem_map.mp hw
    have hq := List.mem_reverse.mp hq
    obtain ⟨hv, hrole⟩ := h.declared_of_copy hlm hq
    exact .inl ⟨q.1, hv, by simp [hrole], .inr (hd.copy q hq).2⟩
  · obtain ⟨q, hq, rfl⟩ := List.mem_map.mp hw
    obtain ⟨k, hk⟩ := (hd.holder q hq).2
    exact .inr ⟨k, q.1, hk, h.frame_of_envParam hlm hq⟩

/-- The parameters of a method are different. -/
theorem nodup_formals (hids : m.GivenVariables) : lm.formals.Nodup := by
  have hd := h.declared.declared c lm hlm
  have hholds := h.seated.exact.holds
  refine List.nodup_append.mpr ⟨?_, ?_, ?_⟩
  · have hnodup := hholds.nodup_params (h.lt_of_methodOf hlm)
    rw [← hd.copies] at hnodup
    refine hnodup.of_map.map_on fun q hq q' hq' heq => Prod.ext ?_ heq
    have hq := List.mem_reverse.mp hq
    have hq' := List.mem_reverse.mp hq'
    -- a copy tells what it is a copy of
    refine hids.eq_of_standsFor (w := q.2) (h.declared_of_copy hlm hq).1
      (h.declared_of_copy hlm hq').1 (.inr (hd.copy q hq).2) ?_
    rw [heq]
    exact .inr (hd.copy q' hq').2
  · have hnodup := ctx.graph.nodup_valueEnvsOf (ctx.graph.closure c)
    rw [← hd.envParams] at hnodup
    refine hnodup.of_map.map_on fun q hq q' hq' heq => Prod.ext ?_ heq
    obtain ⟨-, k, hk⟩ := hd.holder q hq
    obtain ⟨-, k', hk'⟩ := hd.holder q' hq'
    grind
  · intro w hw w' hw'
    obtain ⟨q, hq, rfl⟩ := List.mem_map.mp hw
    obtain ⟨q', hq', rfl⟩ := List.mem_map.mp hw'
    obtain ⟨-, k, hk⟩ := hd.copy q (List.mem_reverse.mp hq)
    obtain ⟨-, k', hk'⟩ := hd.holder q' hq'
    grind

/-- In the method a parameter of the function goes by its copy. -/
theorem standIn_param
    (hstand : ∀ v, v.role = .parameter → names.standIn v = (lm.copies.lookup v).getD v)
    (hv : v ∈ (ctx.graph.closure c).function.params.reduceOption) :
    v.role = .parameter ∧ names.standIn v ∈ lm.formals := by
  have hd := h.declared.declared c lm hlm
  rw [← hd.copies, List.map_reverse, List.mem_reverse] at hv
  obtain ⟨w, hw⟩ := exists_lookup hv
  have hmem := mem_of_lookup hw
  have hrole := (h.declared_of_copy hlm hmem).2
  rw [hstand v hrole, hw]
  exact ⟨hrole, List.mem_append_left _ (List.mem_map.mpr ⟨_, List.mem_reverse.mpr hmem, rfl⟩)⟩

end LoweringContext.Binds

/-- A method that is hosted or refers to a receiver is not static. -/
theorem Graph.DeclaredAs.within_methodSite (hd : ctx.graph.DeclaredAs c lm) (loc : Loc) :
    (ctx.methodSite lm loc).view.Within ctx (!lm.symbol.isStatic) lm.formals where
  locals _ hq := absurd hq List.not_mem_nil
  params _ hq := List.mem_append_right _ (List.mem_map_of_mem hq)
  host hne := by
    have hhost : (ctx.graph.closure c).host ≠ none := by
      intro hnone
      rw [← hd.host] at hnone
      exact hne (by simp [LoweringContext.methodSite, Site.view, hnone])
    rw [hd.isStatic, Option.isNone_eq_false_iff.mpr (Option.isSome_iff_ne_none.mpr hhost)]
    rfl
  receiver _ hbound := by
    rcases hbound with hnone | hstatic
    · cases hnone
    · exact congrArg (!·) hstatic

/-! ## The bodies -/

namespace LoweredBody.SettlesIn

variable {names : Option ClosureId → Names} (h : r.SettlesIn ctx m names)
  (hbuilt : m.built.isOk) (hids : m.GivenVariables)

include h hbuilt hids

/-- The converted body is closed. -/
theorem closes_body : ∃ b', r.body.Closes ctx.method.params.reduceOption b' := by
  have hbinds := h.binds
  have hholds := hbinds.seated.exact.holds
  obtain ⟨b, b', hb, hbody, hl⟩ := h.body
  obtain ⟨method, b₀, hm, hb₀, hblock, hparams, -⟩ := hholds.complete
  obtain rfl := Option.some.inj (hb₀.symm.trans hb)
  obtain rfl := Option.some.inj (hm.symm.trans hbinds.method)
  have hvars := hholds.vars_root hm hb
  have hfr : none ∈ ctx.graph.frames := Graph.mem_frames.mpr fun _ => (nomatch ·)
  have hclosed : (Node.block b').Closed m.receiver.isSome ctx.method.params.reduceOption := by
    refine hbinds.closed_frame hfr hblock hbuilt (hbinds.coversEntry hfr hblock ?_ ?_) hl
    · intro v hv
      rw [MethodBody.id_block hb, OrderedSet.mem_def, hvars, List.mem_append, List.mem_append] at hv
      rcases hv with (hv | hv) | hv
      · exact .inl (Option.mem_toList.mp hv)
      · have hrole := hbinds.inRole.params _ hm v hv
        exact .inr (.inl ⟨hrole, (h.params v hrole).symm ▸ hv⟩)
      · exact .inr (.inr hv)
    · -- no environment is at hand yet
      refine ⟨fun _ => (nomatch ·), fun _ => (nomatch ·), fun hne => absurd rfl hne, ?_⟩
      intro hne _
      rw [hholds.receiver_eq] at hne
      exact Option.isSome_iff_ne_none.mpr hne
  have hmethod : r.body.method = some ctx.method := hbody ▸ hm
  have hdecl := MethodBody.declared_of_closed (by rw [hbody]) hclosed hmethod hparams
  rw [hbody] at hdecl ⊢
  refine ⟨b', (congrArg _ hm).trans (congrArg some hparams), rfl, hclosed, ?_⟩
  rw [hdecl]
  refine hbinds.nodup_declared hids (h.made none) hfr hblock ?_ (fun w hw => ?_) hl hclosed
  · exact (List.nodup_append.mp (hvars ▸ OrderedSet.nodup _)).1
  · exact hbinds.passed_head hw

/-- The method of a closure is closed. -/
theorem closes_method (hlm : r.declarations.methodOf? c = some lm) {receiver : Option Variable}
    (hreceiver : receiver.isSome = !lm.symbol.isStatic)
    (hfresh : ∀ v ∈ receiver, v ∉ (lm.toBody none).declared) :
    ∃ b', (lm.toBody receiver).Closes lm.formals b' := by
  have hbinds := h.binds
  have hc : c < ctx.graph.closures.size := h.length ▸ (List.getElem?_eq_some_iff.mp hlm).1
  obtain ⟨lm₀, loc, b, b', hlm₀, hblock, hl, hlm', hstand⟩ := h.methods c hc
  obtain rfl := Option.some.inj (hlm'.symm.trans hlm)
  have hd := hbinds.declared.declared c lm₀ hlm₀
  obtain ⟨b₀, hb₀, hid, hvars⟩ := hbinds.seated.exact.holds.vars_body hc
  obtain rfl := Option.some.inj (hb₀.symm.trans hblock)
  have hfr : some c ∈ ctx.graph.frames := by simpa [Graph.mem_frames] using hc
  have hclosed : (Node.block b').Closed (!lm₀.symbol.isStatic) lm₀.formals := by
    refine hbinds.closed_frame hfr hblock hbuilt
      (hbinds.coversEntry hfr hblock ?_ (hd.within_methodSite loc)) hl
    intro v hv
    rw [hid, OrderedSet.mem_def, hvars, List.mem_append] at hv
    rcases hv with hv | hv
    · exact .inr (.inl (hbinds.standIn_param hlm₀ hstand hv))
    · exact .inr (.inr hv)
  -- what the method declares by itself; the receiver is fresh
  have hnone : (({ lm₀ with body := some b' } : LoweredMethod).toBody none).declared.Nodup := by
    rw [MethodBody.declared_of_closed (by rfl) hclosed (by rfl) hd.params]
    refine hbinds.nodup_declared hids (h.made _) hfr hblock ?_ (fun w hw => ?_) hl hclosed
    · exact hbinds.nodup_formals hlm₀ hids
    · exact hbinds.passed_param hlm₀ hw
  refine ⟨b', congrArg some hd.params, rfl, ?_, ?_⟩
  · change (Node.block b').Closed receiver.isSome _
    rwa [hreceiver]
  · rw [LoweredMethod.declared_toBody]
    refine List.nodup_append.mpr ⟨by cases receiver <;> simp, hnone, ?_⟩
    rintro v hv _ hv' rfl
    exact hfresh v (Option.mem_toList.mp hv) hv'

end LoweredBody.SettlesIn

/-- Whenever a body is converted, the bodies that come out stand on their own: there is nothing left
in them to convert. -/
theorem MethodBody.run_standalone {o : ConversionSettings}
    (h : (Conversion.run o m).outcome = .ok r) (hrole : m.InRole) (hfirst : m.DeclaresFirst)
    (hids : m.GivenVariables) : r.Standalone := by
  have hbuilt := (accepted_of_run h).built
  obtain ⟨ctx, -, hwritten, -⟩ := LoweredBody.written_of_run h
  obtain ⟨names, hr⟩ := hwritten.exists_settled hrole hfirst
  constructor
  · obtain ⟨b, hb⟩ := hr.closes_body hbuilt hids
    exact hb.standalone
  · intro lm hlm receiver hreceiver hfresh
    obtain ⟨c, hc⟩ := List.mem_iff_getElem?.mp hlm
    obtain ⟨b, hb⟩ := hr.closes_method hbuilt hids hc hreceiver hfresh
    exact hb.standalone

open Counter in
/-- The local function of `Count` and the lambda in it become two methods, and both have a
receiver. -/
theorem MethodBody.standalone_count : ∃ r, (Conversion.run {} count).outcome = .ok r ∧
    count.InRole ∧ count.DeclaresFirst ∧ count.GivenVariables ∧ r.Standalone ∧
    r.declarations.methods.map (·.symbol.isStatic) = [false, false] ∧
    ∀ lm ∈ r.declarations.methods, (lm.toBody (some widget)).Standalone := by
  have hrole : count.InRole := by decide +kernel
  have hfirst : count.DeclaresFirst := declaresFirst_of_inOrder (by decide +kernel)
  have hids : count.GivenVariables := by decide +kernel
  have hstatic : (Conversion.run {} count).outcome.toOption.map (fun r =>
      r.declarations.methods.map (·.symbol.isStatic)) = some [false, false] := by decide +kernel
  have hfresh : ∀ r ∈ (Conversion.run {} count).outcome.toOption, ∀ lm ∈ r.declarations.methods,
      lm.symbol.isStatic = false ∧ widget ∉ (lm.toBody none).declared := by decide +kernel
  rcases hr : (Conversion.run {} count).outcome with f | r
  · rw [hr] at hstatic
    exact nomatch hstatic
  · have hall := run_standalone hr hrole hfirst hids
    rw [hr] at hstatic hfresh
    refine ⟨r, rfl, hrole, hfirst, hids, hall, Option.some.inj hstatic, fun lm hlm => ?_⟩
    obtain ⟨hbound, hnew⟩ := hfresh r rfl lm hlm
    refine hall.methods lm hlm (some widget) (by rw [hbound]; rfl) fun v hv => ?_
    obtain rfl := Option.some.inj hv
    exact hnew

end Unnest
