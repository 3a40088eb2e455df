import Unnest.Proofs.Lowered.Trails
import Unnest.Proofs.Spelling

/-!
# One name for a variable

A variable that no function captures stays a local of its function, under its own name or under that
of a copy. From its declaration on, a frame uses the name that is declared there. A place that
refers to the variable before the declaration is reached, such as one in its own initial value,
keeps the old name. The frame agrees on one name unless there is such a place and the declaration
makes a copy, which it does if the type of the variable is spelled differently there.

## Main definitions

* `LoweredBody.AgreesIn` : a frame has one name for a variable.

## Main statements

* `MethodBody.run_agrees` : whatever is converted, when a frame has one name for a variable.
-/

namespace Unnest

/-- The same mention of another variable. -/
def Mention.rename (w : Variable) : Mention → Mention
  | .reference _ => .reference w
  | .declaration _ => .declaration w

/-! ## Names along a trail -/

namespace Variable.Trails

variable {v : Variable} {same : Prop} {a b : Option Variable} {l l' : List Mention}

/-- Where the variable is not declared it has one name. -/
theorem eq_map_rename (h : v.Trails same a l l' b) (hl : .declaration v ∉ l) :
    l' = l.map (Mention.rename (a.getD v)) := by
  induction h with
  | nil => rfl
  | reference _ ih =>
    rw [ih fun hmem => hl (List.mem_cons_of_mem _ hmem)]
    rfl
  | same | copy => exact absurd List.mem_cons_self hl

/-- Up to the declaration the names stay, and after it there is one. -/
theorem exists_split (h : v.Trails same none l l' b) (honce : l.Pairwise Mention.DeclaredOnce) :
    ∃ w before after, l = before ++ after ∧ l' = before ++ after.map (Mention.rename w) ∧
      (∀ x ∈ before, x = .reference v) ∧ (∀ x ∈ after.head?, x = .declaration v) ∧
      (same → w = v) ∧ (¬ same → after ≠ [] → ∃ k, w.id = .copy k v.id) := by
  have hrest {k : List Mention} (hk : (.declaration v :: k).Pairwise Mention.DeclaredOnce) :
      .declaration v ∉ k := by
    intro hmem
    exact (List.pairwise_cons.mp hk).1 _ hmem v rfl rfl
  generalize ha : (none : Option Variable) = a at h
  induction h with
  | nil => exact ⟨v, [], [], rfl, rfl, by simp, by simp, fun _ => rfl, by simp⟩
  | reference _ ih =>
    subst ha
    obtain ⟨w, before, after, rfl, rfl, hbefore, hrest⟩ := ih (List.pairwise_cons.mp honce).2 rfl
    exact ⟨w, _ :: before, after, rfl, rfl, List.forall_mem_cons.mpr ⟨rfl, hbefore⟩, hrest⟩
  | @same a k k' _ hs h _ =>
    subst ha
    refine ⟨v, [], .declaration v :: k, rfl, ?_, by simp, by simp, fun _ => rfl, fun hn => ?_⟩
    · rw [h.eq_map_rename (hrest honce)]
      rfl
    · exact absurd hs hn
  | @copy a k k' _ w hs hid h _ =>
    refine ⟨w, [], .declaration v :: k, rfl, ?_, by simp, by simp, fun hs' => absurd hs' hs,
      fun _ _ => hid⟩
    rw [h.eq_map_rename (hrest honce)]
    rfl

end Variable.Trails

/-! ## Variables of one frame -/

/-- A variable that a statement declares is no parameter of a nested function. -/
theorem Graph.Holds.not_mem_params {g : Graph} {m : MethodBody} (h : g.Holds m) {p : Path}
    {n : Node} {v : Variable} {c : ClosureId} (hn : (p, n) ∈ m.numbered.sites)
    (hv : n.declared? = some v) (hc : c < g.closures.size) :
    v ∉ (g.closure c).function.params.reduceOption := by
  intro hparam
  obtain ⟨b, hb, -, hvars⟩ := h.vars_body hc
  have hbody : v ∈ (g.scope (g.closure c).body).vars := by
    rw [OrderedSet.mem_def, hvars]
    exact List.mem_append_left _ hparam
  have hscope := h.tidy.vars_unique _ _ v (h.mem_vars_of_declares (.statement hn hv)) hbody
  obtain ⟨rfl, -⟩ | ⟨q, k, hk, hinner, rfl⟩ := MethodBody.outer_of_mem_sites hn
  · have howner := h.owner_eq_some.mpr ⟨hc, hscope.symm⟩
    exact nomatch h.root_owner.symm.trans howner
  · cases hopen : k.opened? with
    | none => simp [Node.declared_inner hopen hinner] at hv
    | some b' =>
      -- the statement stands in the body, so the scope would list the variable twice
      rw [Path.scope_into hopen] at hscope
      obtain rfl : b' = b := by
        have := ((h.lays q k hk).scope b' hopen).block
        rw [hscope, hb] at this
        exact (Option.some.inj this).symm
      rw [Node.inner_of_opened hopen] at hinner
      have hdeclared : v ∈ b'.declared := List.mem_filterMap.mpr ⟨n, hinner, hv⟩
      have hnodup := hvars ▸ OrderedSet.nodup _
      exact (List.nodup_append.mp hnodup).2.2 v hparam v hdeclared rfl

/-- A variable that no function captures is not hoisted. -/
theorem LoweringContext.Suits.envOf_eq_none {ctx : LoweringContext} {m : MethodBody}
    (h : ctx.Suits m) {v : Variable} (hv : ∀ f, ¬ m.Captures f v) :
    ctx.graph.envOf? v = none := by
  refine Option.eq_none_iff_forall_ne_some.mpr fun e he => ?_
  obtain ⟨hlt, -, hvars⟩ := (h.seated.placed.envOf_eq_some h.seated.exact.holds).mp he
  obtain ⟨-, c, hc⟩ := (h.seated.placed.mem_vars_iff hlt).mp hvars
  exact hv _ ((h.seated.exact.captured c (Graph.lt_of_mem_captured hc) v).mp hc)

/-- What lowering fills in mentions no variable that is not hoisted. -/
theorem LoweringContext.Suits.charges_concerns {ctx : LoweringContext} {m : MethodBody}
    {v : Variable} (h : ctx.Suits m) (hids : m.GivenVariables) (hv : v ∈ m.declared)
    (hplain : ctx.graph.envOf? v = none) : ctx.Charges (Mention.concerns v) fun _ => 0 where
  holder w hw := by
    obtain ⟨k, e, hk⟩ := hw
    simp [Mention.concerns, hids.not_standsFor_holder hv hk]
  create {e t w names} ht hid hm := by
    obtain ⟨k, hk⟩ := hid
    obtain ⟨hmem, rfl, -⟩ := h.declared.typed.of_typeOf ht
    obtain ⟨hlt, hlive⟩ := Graph.mem_liveEnvs.mp (h.declared.typed.env_mem hmem)
    have hother : ∀ u ∈ (ctx.graph.env t.env).vars, ¬ (names.standIn u).StandsFor v := by
      intro u hu hstands
      obtain rfl := hids.eq_of_standsFor (h.mem_declared_of_env hlt hu) hv (hm.standsFor u) hstands
      have he := (h.seated.placed.envOf_eq_some h.seated.exact.holds).mpr ⟨hlt, hlive, hu⟩
      cases hplain.symm.trans he
    rw [List.countP_eq_zero.mpr fun u hu => by simp [Mention.concerns, hother u hu]]
    simp [Mention.concerns, hids.not_standsFor_holder hv hk]

/-! ## Main statement -/

/-- Frame `fr` is lowered on an environment type. -/
def Graph.isHosted (g : Graph) (fr : Option ClosureId) : Bool :=
  (fr.bind fun c => (g.closure c).host).isSome

/-- Frame `fr` has one name for `v`, which stands wherever the frame referred to `v` or declared
it. -/
def LoweredBody.AgreesIn (r : LoweredBody) (g : Graph) (fr : Option ClosureId) (v : Variable) :
    Prop :=
  ∃ w b b', (g.scope (g.entry fr)).block = some b ∧ r.blockOf? fr = some b' ∧
    v.trail [.block b'] = (v.trail [.block b]).map (Mention.rename w)

/-- Frame `fr` refers to `v` at `before` under its old name. From the declaration on, at `after`, it
uses the name `w`. -/
def LoweredBody.RenamesIn (r : LoweredBody) (g : Graph) (fr : Option ClosureId) (v w : Variable)
    (before after : List Mention) : Prop :=
  ∃ b b', (g.scope (g.entry fr)).block = some b ∧ r.blockOf? fr = some b' ∧
    v.trail [.block b] = before ++ after ∧
    v.trail [.block b'] = before ++ after.map (Mention.rename w) ∧
    (∀ x ∈ before, x = .reference v) ∧ ∀ x ∈ after.head?, x = .declaration v

namespace LoweredBody

variable {r : LoweredBody} {ctx : LoweringContext} {m : MethodBody} {fr : Option ClosureId}
  {v w : Variable} {before after : List Mention}

/-- What a frame is lowered to, and under which names it begins. -/
theorem Written.frame_lowersTo (h : r.Written ctx m) (hfr : fr ∈ ctx.graph.frames) :
    ∃ b b' site names later, (ctx.graph.scope (ctx.graph.entry fr)).block = some b ∧
      r.blockOf? fr = some b' ∧ b.LowersTo ctx site names b' later ∧ site.view.Held ∧
      names.Made ∧ ctx.spell site.frame = ctx.method.spell (ctx.graph.isHosted fr) ∧
      ∀ u w, names.aliases.lookup u = some w →
        ∃ c < ctx.graph.closures.size, u ∈ (ctx.graph.closure c).function.params.reduceOption := by
  cases fr with
  | none =>
    obtain ⟨-, b, -, hb, hblock, -⟩ := h.suits.seated.exact.holds.complete
    obtain ⟨b₁, b', names, hb₁, hbody, hl⟩ := h.body
    obtain rfl : b₁ = b := Option.some.inj (hb₁.symm.trans hb)
    exact ⟨b₁, b', _, {}, names, hblock, by rw [blockOf?, hbody], hl,
      ⟨by simp [Site.view], by simp [Site.view]⟩, ⟨by simp, by simp⟩, rfl, nofun⟩
  | some c =>
    have hc := Graph.mem_frames.mp hfr c rfl
    obtain ⟨lm, b', hlm, ⟨lm', loc, b, names, hlm', hblock, hl⟩, hmethod⟩ := h.methods c hc
    obtain rfl : lm' = lm := Option.some.inj (hlm'.symm.trans hlm)
    have hd := h.suits.declared.declared c lm' hlm
    refine ⟨b, b', _, { aliases := lm'.copies }, names, hblock, by rw [blockOf?, hmethod]; rfl, hl,
      ⟨by simp [LoweringContext.methodSite, Site.view], fun q hq => (hd.holder q hq).2⟩,
      ⟨fun q hq => (hd.copy q hq).2, by simp⟩, ?_, fun u w hu => ⟨c, hc, ?_⟩⟩
    · rw [(h.suits.frameOf hlm loc).spell, hd.host]
      rfl
    · rw [← hd.copies]
      exact List.mem_map.mpr ⟨_, List.mem_reverse.mpr (mem_of_lookup hu), rfl⟩

theorem RenamesIn.agreesIn_iff {g : Graph} (h : r.RenamesIn g fr v w before after) :
    r.AgreesIn g fr v ↔ before = [] ∨ after = [] ∨ w = v := by
  obtain ⟨b, b', hb, hb', hl, hl', hbefore, hafter⟩ := h
  have hkeep : before.map (Mention.rename v) = before := by
    refine List.map_congr_left (fun x hx => ?_) |>.trans (List.map_id before)
    rw [hbefore x hx]
    rfl
  constructor
  · rintro ⟨u, k, k', hk, hk', heq⟩
    obtain rfl := Option.some.inj (hk.symm.trans hb)
    obtain rfl := Option.some.inj (hk'.symm.trans hb')
    rw [hl, hl', List.map_append] at heq
    obtain ⟨heq₁, heq₂⟩ := List.append_inj heq (List.length_map _).symm
    cases before with
    | nil => exact .inl rfl
    | cons x before =>
      cases after with
      | nil => exact .inr (.inl rfl)
      | cons y after =>
        -- the first reference keeps the name `v`, and the declaration has the name `w`
        obtain rfl := hbefore x List.mem_cons_self
        obtain rfl := hafter y rfl
        have hv : v = u := Mention.reference.inj (List.cons.inj heq₁).1
        have hw : w = u := Mention.declaration.inj (List.cons.inj heq₂).1
        exact .inr (.inr (hw.trans hv.symm))
  · rintro (rfl | rfl | rfl)
    · exact ⟨w, b, b', hb, hb', by rw [hl, hl']; rfl⟩
    · exact ⟨v, b, b', hb, hb', by simpa [hl, hl'] using hkeep.symm⟩
    · exact ⟨w, b, b', hb, hb', by rw [hl, hl', List.map_append, hkeep]⟩

/-- The trail of a variable through a frame that is not handed it. -/
theorem Written.frame_trails (h : r.Written ctx m) (hids : m.GivenVariables) (hv : v ∈ m.declared)
    (hplain : ctx.graph.envOf? v = none) (hparams : ∀ c < ctx.graph.closures.size,
      v ∉ (ctx.graph.closure c).function.params.reduceOption) (hfr : fr ∈ ctx.graph.frames) :
    ∃ b b' a, (ctx.graph.scope (ctx.graph.entry fr)).block = some b ∧ r.blockOf? fr = some b' ∧
      v.Trails (ctx.method.spell (ctx.graph.isHosted fr) v.type = v.type) none
        (v.trail [.block b]) (v.trail [.block b']) a := by
  have hexact := h.suits.seated.exact
  have htracks : ctx.Tracks m r.declarations v :=
    ⟨hids, hv, hplain, hexact, h.keeps_counting (h.suits.charges_concerns hids hv hplain),
      fun _ _ => h.methodOf_eq⟩
  obtain ⟨b, b', site, names, later, hb, hb', hl, hview, hm, hspell, hcopies⟩ :=
    h.frame_lowersTo hfr
  obtain ⟨q, b₁, hb₁, -, -, hstmts, -⟩ := hexact.holds.frame_block hfr
  obtain rfl : b₁ = b := Option.some.inj (hb₁.symm.trans hb)
  -- the frame begins with copies of parameters only
  have hfresh : names.aliases.lookup v = none := by
    refine Option.eq_none_iff_forall_ne_some.mpr fun w hw => ?_
    obtain ⟨c, hc, hmem⟩ := hcopies v w hw
    exact hparams c hc hmem
  have hfollows := (htracks.block hl (fun s hs => ⟨q, hstmts s hs⟩) hview hm rfl).1
  rw [Variable.Follows, hfresh, hspell] at hfollows
  exact ⟨b₁, b', _, hb, hb', hfollows⟩

/-- A variable that is not captured is renamed from its declaration on. -/
theorem Written.exists_renamesIn (h : r.Written ctx m) (hids : m.GivenVariables) {p : Path}
    {n : Node} (hn : (p, n) ∈ m.numbered.sites) (hv : n.declared? = some v)
    (hcap : ∀ f, ¬ m.Captures f v) (hfr : fr ∈ ctx.graph.frames) :
    ∃ w before after, r.RenamesIn ctx.graph fr v w before after ∧
      (after ≠ [] → (w = v ↔ ctx.method.spell (ctx.graph.isHosted fr) v.type = v.type)) := by
  have hholds := h.suits.seated.exact.holds
  have hdecl : v ∈ m.declared := MethodBody.mem_declared.mpr ⟨p, .statement hn hv⟩
  obtain ⟨b, b', a, hb, hb', htrails⟩ := h.frame_trails hids hdecl (h.suits.envOf_eq_none hcap)
    (fun c hc => hholds.not_mem_params hn hv hc) hfr
  have honce : (v.trail [.block b]).Pairwise Mention.DeclaredOnce := by
    have := (hholds.declared_once (hholds.stmts_mem_bodies hfr hb)).1
    rw [← Node.mentions_block] at this
    simpa [Variable.trail] using this.filter _
  obtain ⟨w, before, after, hsplit, hsplit', hbefore, hafter, hsame, hcopy⟩ :=
    htrails.exists_split honce
  refine ⟨w, before, after, ⟨b, b', hb, hb', hsplit, hsplit', hbefore, hafter⟩, fun hne => ?_⟩
  refine ⟨fun hw => ?_, hsame⟩
  by_contra hs
  obtain ⟨k, hk⟩ := hcopy hs hne
  obtain ⟨j, hj⟩ := hids.exists_given hdecl
  rw [hw, hj] at hk
  cases hk

end LoweredBody

/-- Whatever is converted, a frame has one name for a variable that no function captures, unless the
frame refers to the variable before it declares it and its type is spelled differently there. -/
theorem MethodBody.run_agrees {o : ConversionSettings} {m : MethodBody} {r : LoweredBody}
    (h : (Conversion.run o m).outcome = .ok r) (hids : m.GivenVariables) {p : Path} {n : Node}
    {v : Variable} (hn : (p, n) ∈ m.numbered.sites) (hv : n.declared? = some v)
    (hcap : ∀ f, ¬ m.Captures f v) {fr : Option ClosureId}
    (hfr : fr ∈ (Conversion.run o m).graph.frames) :
    ∃ method w before after, m.method = some method ∧
      r.RenamesIn (Conversion.run o m).graph fr v w before after ∧
      (r.AgreesIn (Conversion.run o m).graph fr v ↔ before = [] ∨ after = [] ∨
        method.spell ((Conversion.run o m).graph.isHosted fr) v.type = v.type) := by
  obtain ⟨ctx, hgraph, hwritten, -⟩ := LoweredBody.written_of_run h
  rw [← hgraph] at hfr ⊢
  obtain ⟨w, before, after, hrenames, hspell⟩ := hwritten.exists_renamesIn hids hn hv hcap hfr
  refine ⟨ctx.method, w, before, after, hwritten.suits.method, hrenames, ?_⟩
  rw [hrenames.agreesIn_iff]
  by_cases hafter : after = []
  · simp [hafter]
  · rw [hspell hafter]

/-- After a conversion the closures tell which variables are captured. -/
theorem Conversion.not_captures {o : ConversionSettings} {m : MethodBody} {r : LoweredBody}
    (h : (run o m).outcome = .ok r) {v : Variable}
    (hv : ∀ c < (run o m).graph.closures.size, v ∉ ((run o m).graph.closure c).captured)
    (f : NestedFunction) : ¬ m.Captures f v := by
  intro hf
  obtain ⟨ctx, hgraph, hwritten, -⟩ := LoweredBody.written_of_run h
  rw [← hgraph] at hv
  have hexact := hwritten.suits.seated.exact
  obtain ⟨c, hc, rfl⟩ := hexact.holds.closure_of_captures hf
  exact hv c hc ((hexact.captured c hc v).mpr hf)

namespace Generic

def fresh : Variable := ⟨.given 2, .declared, "fresh", "T", false⟩

/-- The copy that is declared where `T` is spelled `$T`. -/
def freshCopy : Variable := { fresh with id := .copy 1 fresh.id, type := "$T" }

/-- A lambda that declares a local of type `T`, refers to it and reads a local from outside. -/
def renewFrom (init : Expr) : MethodBody where
  method := some
    { id := .given 0, name := "Renew", owner := "Program", isStatic := true, typeParams := ["T"]
      returnType := "void" }
  receiver := none
  block := some (.mk 0 {}
    [.declare {} (some item) none,
      .expr {} (.lambda {} (some wrapped) (.mk 0 {}
        [.declare {} (some fresh) (some init), .expr {} (.ref {} (some fresh)),
          .ret {} (some (.ref {} (some item)))]))])

/-- The local is declared by `T fresh = default`. -/
def renew : MethodBody := renewFrom (.zero {} "T")

/-- The local is declared by `T fresh = (fresh = default)`. -/
def renewTwice : MethodBody := renewFrom (.assign {} (.ref {} (some fresh)) (.zero {} "T"))

end Generic

open Generic in
/-- The method of the lambda declares a copy of type `$T` and refers to it. -/
theorem MethodBody.agrees_renew : ∃ r, (Conversion.run {} renew).outcome = .ok r ∧
    renew.GivenVariables ∧ some 0 ∈ (Conversion.run {} renew).graph.frames ∧
    (∀ f, ¬ renew.Captures f fresh) ∧
    (∃ p n, (p, n) ∈ renew.numbered.sites ∧ n.declared? = some fresh) ∧
    (∃ method w before after, renew.method = some method ∧
      r.RenamesIn (Conversion.run {} renew).graph (some 0) fresh w before after ∧
      (r.AgreesIn (Conversion.run {} renew).graph (some 0) fresh ↔ before = [] ∨ after = [] ∨
        method.spell ((Conversion.run {} renew).graph.isHosted (some 0)) fresh.type =
          fresh.type)) ∧
    r.AgreesIn (Conversion.run {} renew).graph (some 0) fresh := by
  have hids : renew.GivenVariables := by decide +kernel
  have hfr : some 0 ∈ (Conversion.run {} renew).graph.frames := by decide +kernel
  have hmem : some fresh ∈ renew.numbered.sites.map (·.2.declared?) := by decide +kernel
  obtain ⟨⟨p, n⟩, hn, hv⟩ := List.mem_map.mp hmem
  have htrail : ((Conversion.run {} renew).graph.scope
      ((Conversion.run {} renew).graph.entry (some 0))).block.map (fresh.trail [.block ·]) =
        some [.declaration fresh, .reference fresh] := by decide +kernel
  obtain ⟨r, hr⟩ := exists_of_isOk (x := (Conversion.run {} renew).outcome) (by decide +kernel)
  have hcap := Conversion.not_captures hr (v := fresh) (by decide +kernel)
  obtain ⟨method, w, before, after, hmethod, hrenames, hiff⟩ :=
    run_agrees hr hids hn hv hcap hfr
  refine ⟨r, hr, hids, hfr, hcap, ⟨p, n, hn, hv⟩,
    ⟨method, w, before, after, hmethod, hrenames, hiff⟩, hiff.mpr (.inl ?_)⟩
  obtain ⟨b, b', hb, -, hl, -, hbefore, -⟩ := hrenames
  rw [hb, Option.map_some, hl, Option.some_inj] at htrail
  cases before with
  | nil => rfl
  | cons x before =>
    have hx := (List.cons.inj htrail).1
    exact nomatch (hbefore x List.mem_cons_self).symm.trans hx

open Generic in
/-- The initial value refers to the old name, which nothing declares any more. -/
theorem MethodBody.renewTwice_disagrees : ∃ r,
    (Conversion.run {} renewTwice).outcome = .ok r ∧ renewTwice.GivenVariables ∧
    (∀ f, ¬ renewTwice.Captures f fresh) ∧
    (∃ p n, (p, n) ∈ renewTwice.numbered.sites ∧ n.declared? = some fresh) ∧
    some 0 ∈ (Conversion.run {} renewTwice).graph.frames ∧
    ¬ r.AgreesIn (Conversion.run {} renewTwice).graph (some 0) fresh := by
  have hids : renewTwice.GivenVariables := by decide +kernel
  have hfr : some 0 ∈ (Conversion.run {} renewTwice).graph.frames := by decide +kernel
  have hmem : some fresh ∈ renewTwice.numbered.sites.map (·.2.declared?) := by decide +kernel
  obtain ⟨⟨p, n⟩, hn, hv⟩ := List.mem_map.mp hmem
  have hsource : ((Conversion.run {} renewTwice).graph.scope
      ((Conversion.run {} renewTwice).graph.entry (some 0))).block.map (fresh.trail [.block ·]) =
        some [.reference fresh, .declaration fresh, .reference fresh] := by decide +kernel
  have htarget : (Conversion.run {} renewTwice).outcome.toOption.map
      (fun r => (r.blockOf? (some 0)).map (fresh.trail [.block ·])) =
        some (some [.reference fresh, .declaration freshCopy, .reference freshCopy]) := by
    decide +kernel
  rcases hr : (Conversion.run {} renewTwice).outcome with f | r
  · rw [hr] at htarget
    exact nomatch htarget
  · rw [hr] at htarget
    refine ⟨r, rfl, hids, Conversion.not_captures hr (by decide +kernel), ⟨p, n, hn, hv⟩, hfr, ?_⟩
    rintro ⟨w, b, b', hb, hb', heq⟩
    rw [hb, Option.map_some, Option.some_inj] at hsource
    have htarget : some (Option.map _ (r.blockOf? (some 0))) = _ := htarget
    rw [hb', Option.some_inj, Option.map_some, Option.some_inj] at htarget
    rw [hsource, htarget] at heq
    have hfresh : fresh = w := Mention.reference.inj (List.cons.inj heq).1
    have hcopy : freshCopy = w := Mention.declaration.inj (List.cons.inj (List.cons.inj heq).2).1
    exact absurd (hfresh.trans hcopy.symm) (by decide +kernel)

end Unnest
