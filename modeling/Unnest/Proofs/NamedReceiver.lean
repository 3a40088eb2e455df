import Unnest.Proofs.NamedReceiver.Lowering
import Unnest.Proofs.NamedReceiver.Places
import Unnest.Proofs.Naming

/-!
# The receiver by name

A body may refer to the receiver of its method as such or by naming it as a variable. Its analysis
is the same either way. Lowering is not: a name is looked up like that of any other variable.

* If the receiver is in no environment, its name stays. In the method itself that is as good as the
  receiver, but the method of a nested function has another receiver or none, and the name that is
  left there means nothing.
* If the receiver is in an environment on the heap, it is reached through the link of the
  environment and has no field there. Its name leads nowhere, and the conversion fails.

## Main statements

* `MethodBody.run_namingSelf` : whatever is converted, when it is still converted with the receiver
  named, and when no name is left in the methods of its functions.
-/

namespace Unnest

variable {ctx : LoweringContext} {m m' : MethodBody} {r : Variable} {e : EnvId}

/-! ## The field of the receiver -/

namespace LoweringContext.Suits

variable (h : ctx.Suits m)

include h

/-- A hoisted variable has a field, unless it is the receiver and lives on the heap. -/
theorem exists_field_iff (he : ctx.graph.envOf? r = some e) :
    (∃ t f, ctx.declarations.typeOf? e = some t ∧ t.field? r = some f) ↔
      (r.isReceiver = true → (ctx.graph.env e).isValue = true) := by
  obtain ⟨hlt, hlive, hvars⟩ := (h.seated.placed.envOf_eq_some h.seated.exact.holds).mp he
  obtain ⟨t, ht, hmem, rfl⟩ := h.declared.typed.typeOf hlt hlive
  have htyped := h.declared.typed.typedAs t hmem
  have hfield := htyped.field_eq hvars
  rw [Graph.hoistedField?.eq_def, htyped.kind] at hfield
  rw [ht, Environment.isValue, decide_eq_true_iff]
  constructor
  · rintro ⟨u, f, hu, hf⟩ hreceiver
    obtain rfl := Option.some.inj hu
    rw [hf, if_pos hreceiver] at hfield
    cases hkind : (ctx.graph.env t.env).kind with
    | value => rfl
    | reference =>
      rw [hkind] at hfield
      cases hfield
  · intro hvalue
    by_cases hreceiver : r.isReceiver = true
    · rw [if_pos hreceiver, hvalue hreceiver] at hfield
      exact ⟨t, _, rfl, hfield⟩
    · rw [if_neg hreceiver] at hfield
      exact ⟨t, _, rfl, hfield⟩

/-- If the receiver has a field wherever it is hoisted, it may be named. -/
theorem admits (hr : m.receiver = some r)
    (hfield : ∀ e, ctx.graph.envOf? r = some e → r.isReceiver = true →
      (ctx.graph.env e).isValue = true) : ctx.Admits r := by
  have hholds := h.seated.exact.holds
  refine ⟨hholds.receiver_eq.trans hr, fun e he => ?_, fun e he => ?_, fun c lm loc hlm e he => ?_⟩
  · exact (h.exists_field_iff he).mpr (hfield e he)
  · obtain ⟨hlt, hlive, hvars⟩ := (h.seated.placed.envOf_eq_some hholds).mp he
    exact (h.seated.placed.scope_env _ e).mpr
      ⟨hlt, h.seated.placed.scope_of_receiver hholds hr hlt hvars, hlive⟩
  · -- the method is static or belongs to an environment
    have hd := h.declared.declared c lm hlm
    refine .inr ⟨rfl, ?_⟩
    cases hhost : lm.host with
    | none =>
      right
      change lm.symbol.isStatic = true
      rw [hd.isStatic, ← hd.host, hhost, he]
      simp
    | some d =>
      left
      have hlive := (h.seated.host c d (hd.host.symm.trans hhost)).1
      obtain ⟨t, ht, -⟩ := h.declared.typed.typeOf (Graph.lt_of_isLiveReference hlive)
        (Graph.removed_of_isLiveReference hlive)
      simp [methodSite, Site.view, hhost, ht]

end LoweringContext.Suits

/-! ## Conversions that succeed -/

namespace MethodBody.NamesSelf

variable {o : ConversionSettings} {l : LoweredBody} (h : m.NamesSelf r m')

include h

theorem envOf_eq (v : Variable) :
    (Conversion.run o m').graph.envOf? v = (Conversion.run o m).graph.envOf? v :=
  (Conversion.graph_namesSelf h o).eq_of_refill (π := fun g => g.envOf? v)
    fun _ _ _ => Graph.envOf_refill v

theorem env_eq (e : EnvId) :
    (Conversion.run o m').graph.env e = (Conversion.run o m).graph.env e :=
  (Conversion.graph_namesSelf h o).eq_of_refill (π := fun g => g.env e)
    fun _ _ _ => Graph.env_refill e

/-- With the receiver named, a body is still converted unless the name stands for a receiver on the
heap. -/
theorem ok_iff (hok : (Conversion.run o m).outcome = .ok l) :
    (∃ l', (Conversion.run o m').outcome = .ok l') ↔
      ∀ p loc, (p, .expr (.ref loc (some r))) ∈ m'.numbered.sites →
        ∀ e, (Conversion.run o m).graph.envOf? r = some e → r.isReceiver = true →
          ((Conversion.run o m).graph.env e).isValue = true := by
  constructor
  · -- the name is lowered with the frame around it, so it leads to a field
    rintro ⟨l', hok'⟩ p loc hn e he
    obtain ⟨ctx, hgraph, hwritten, -⟩ := LoweredBody.written_of_run hok'
    have hholds := hwritten.suits.seated.exact.holds
    obtain ⟨fr, hfr, b, hb, hmem, -⟩ := hholds.frame_of_mention hn rfl
    obtain ⟨b₁, b', site, names, later, hb₁, -, hl, -⟩ := hwritten.frame_lowersTo hfr
    obtain rfl : b₁ = b := Option.some.inj (hb₁.symm.trans hb)
    obtain ⟨site', aliases, x, hx⟩ := hl.lowered.variableRef hmem
    rw [← h.envOf_eq, ← hgraph] at he
    rw [← h.env_eq, ← hgraph]
    obtain ⟨t, f, -, ht, hf, -⟩ := LoweringContext.Suits.variableRef_denotes he hx
    exact (hwritten.suits.exists_field_iff he).mp ⟨t, f, ht, hf⟩
  · intro hnames
    by_cases hnamed : ∃ p loc, (p, .expr (.ref loc (some r))) ∈ m'.numbered.sites
    · obtain ⟨p, loc, hn⟩ := hnamed
      refine Conversion.ok_of_namesSelf h hok fun ctx hgraph hsuits => hsuits.admits h.receiver ?_
      rw [hgraph]
      exact hnames p loc hn
    · -- nothing is named, so nothing has changed
      have hnum := h.numbered_eq fun p loc hn => hnamed ⟨p, loc, hn⟩
      refine ⟨l, ?_⟩
      simp only [Conversion.run, Analysis.run, Graph.ofBody, hnum] at hok ⊢
      exact hok

end MethodBody.NamesSelf

/-! ## Names that are left -/

namespace Graph.Holds

variable {g : Graph} (h : g.Holds m) (hr : m.receiver = some r)

include h hr

/-- No statement declares the receiver. -/
theorem declared_ne_receiver {p : Path} {n : Node} (hn : (p, n) ∈ m.numbered.sites) :
    n.declared? ≠ some r := by
  intro hv
  have hscope := h.tidy.vars_unique _ _ r (h.mem_vars_of_declares (.statement hn hv))
    (h.receiver_mem_root hr)
  obtain ⟨-, htop⟩ | ⟨q, k, hk, hinner, rfl⟩ := MethodBody.outer_of_mem_sites hn
  · obtain ⟨method, b, -, -, -, -, hvars⟩ := h.complete
    have hnodup := hvars ▸ OrderedSet.nodup (g.scope root).vars
    have hreceiver : r ∈ m.receiver.toList ++ method.params.reduceOption :=
      List.mem_append_left _ (Option.mem_toList.mpr hr)
    exact (List.nodup_append.mp hnodup).2.2 r hreceiver r (List.mem_filterMap.mpr ⟨n, htop, hv⟩) rfl
  · cases hopen : k.opened? with
    | none => simp [Node.declared_inner hopen hinner] at hv
    | some b =>
      -- the scope of a statement further in is not the outermost one
      have hdepth := ((h.lays q k hk).scope b hopen).depth
      rw [Path.scope_into hopen] at hscope
      rw [hscope, h.root_depth] at hdepth
      rw [m.sites_numbered] at hk
      obtain ⟨top, -, hk⟩ := List.mem_flatMap.mp hk
      have hle := (Node.suffix_of_mem_sites hk).1.length_le
      rw [← hdepth] at hle
      exact nomatch hle

/-- The receiver is no parameter of a nested function. -/
theorem receiver_not_mem_params {c : ClosureId} (hc : c < g.closures.size) :
    r ∉ (g.closure c).function.params.reduceOption := by
  intro hparam
  obtain ⟨b, -, -, hvars⟩ := h.vars_body hc
  have hbody : r ∈ (g.scope (g.closure c).body).vars := by
    rw [OrderedSet.mem_def, hvars]
    exact List.mem_append_left _ hparam
  exact h.body_ne_root hc (h.tidy.vars_unique _ _ r hbody (h.receiver_mem_root hr))

end Graph.Holds

/-- A variable that is not hoisted is referred to where it was before. -/
theorem MethodBody.GivenVariables.weighs_named (hids : m.GivenVariables) (hr : r ∈ m.declared)
    {g : Graph} : g.Weighs m (Mention.refersTo r) fun a =>
      if a = .reference r ∧ g.envOf? r = none then 1 else 0 where
  hoisted v e he := by
    refine ⟨if_neg ?_, if_neg (by simp)⟩
    rintro ⟨hv, hnone⟩
    rw [Mention.reference.inj hv, hnone] at he
    exact nomatch he
  reference v hv hplain w hw := by
    by_cases heq : v = r
    · subst heq
      simp [Mention.refersTo, hw, hplain]
    · have hnot : ¬ w.StandsFor r := fun hwr => heq (hids.eq_of_standsFor hv hr hw hwr)
      simp [Mention.refersTo, hnot, heq]
  declaration _ _ _ _ _ := rfl

namespace LoweredBody.Written

variable {l : LoweredBody} (h : l.Written ctx m) (hids : m.GivenVariables)
  (hr : m.receiver = some r)

include h hids hr

/-- A receiver that is not hoisted keeps its name. -/
theorem trail_receiver (hplain : ctx.graph.envOf? r = none) {fr : Option ClosureId}
    (hfr : fr ∈ ctx.graph.frames) :
    ∃ b b', (ctx.graph.scope (ctx.graph.entry fr)).block = some b ∧ l.blockOf? fr = some b' ∧
      r.trail [.block b'] = (r.trail [.block b]).map (Mention.rename r) := by
  have hholds := h.suits.seated.exact.holds
  have hdecl : r ∈ m.declared := MethodBody.mem_declared.mpr ⟨_, .receiver hr⟩
  obtain ⟨b, b', a, hb, hb', htrails⟩ := h.frame_trails hids hdecl hplain
    (fun c hc => hholds.receiver_not_mem_params hr hc) hfr
  refine ⟨b, b', hb, hb', htrails.eq_map_rename fun hmem => ?_⟩
  obtain ⟨q, b₁, hb₁, -, -, hstmts, -⟩ := hholds.frame_block hfr
  obtain rfl : b₁ = b := Option.some.inj (hb₁.symm.trans hb)
  have hmem : .declaration r ∈ (b₁.stmts.map Node.stmt).flatMap Node.mentions := by
    rw [← Node.mentions_block]
    simpa using List.mem_of_mem_filter hmem
  obtain ⟨k, hk, hmem⟩ := List.mem_flatMap.mp hmem
  obtain ⟨s, hs, rfl⟩ := List.mem_map.mp hk
  obtain ⟨t, ht, hmention⟩ := Node.exists_site_of_mem_mentions hmem q
  exact hholds.declared_ne_receiver hr (MethodBody.sites_subset (hstmts s hs) ht)
    (Node.mention_eq_declaration.mp hmention)

/-- Only a receiver that is not hoisted is left in the method of a nested function, and only where
the function names it. -/
theorem tally_receiver {c : ClosureId} (hc : c < ctx.graph.closures.size) {b : Block}
    (hb : (ctx.graph.scope (ctx.graph.entry (some c))).block = some b)
    (hnot : ctx.graph.envOf? r = none → .reference r ∉ (Node.block b).mentions) :
    ∃ b', l.blockOf? (some c) = some b' ∧ tally (Mention.refersTo r) b'.nodes = 0 := by
  have hholds := h.suits.seated.exact.holds
  have hplaced := h.suits.seated.placed
  have hdecl : r ∈ m.declared := MethodBody.mem_declared.mpr ⟨_, .receiver hr⟩
  have hfr : some c ∈ ctx.graph.frames := by simpa [Graph.mem_frames] using hc
  obtain ⟨b₁, b', hb₁, hb', htally⟩ :=
    h.tally_frame (hids.weighs_named hdecl) (h.suits.charges_refersTo hids hdecl) hfr
  obtain rfl : b₁ = b := Option.some.inj (hb₁.symm.trans hb)
  refine ⟨b', hb', ?_⟩
  rw [htally, Node.cost, Nat.add_eq_zero_iff]
  constructor
  · refine List.sum_eq_zero_iff_forall_eq_nat.mpr fun k hk => ?_
    obtain ⟨a, ha, rfl⟩ := List.mem_map.mp hk
    refine if_neg ?_
    rintro ⟨rfl, hnone⟩
    exact hnot hnone ha
  · -- the environment of the receiver is created in the method itself
    refine List.sum_eq_zero_iff_forall_eq_nat.mpr fun k hk => ?_
    obtain ⟨s, hs, rfl⟩ := List.mem_map.mp hk
    have hframe : ctx.graph.frame? s = some c := by
      refine ((hholds.mem_frameBlocks hfr).mp ?_).2
      rw [Graph.frameBlocks, hb]
      exact hs
    rw [Graph.scopeWeight]
    cases henv : (ctx.graph.scope s).env with
    | none => rfl
    | some e =>
      refine if_neg ?_
      rintro ⟨hvars, -⟩
      obtain ⟨hlt, hscope, -⟩ := (hplaced.scope_env s e).mp henv
      rw [← hscope, hplaced.scope_of_receiver hholds hr hlt hvars,
        Graph.frame_root hholds] at hframe
      cases hframe

/-- No method of a nested function is left with the name of the receiver, unless the receiver is
not hoisted and a nested function names it. -/
theorem clean_iff :
    (∀ lm ∈ l.declarations.methods, ∀ b ∈ lm.body, ∀ n ∈ b.nodes,
      n.mention? ≠ some (.reference r)) ↔
    ∀ p loc, (p, .expr (.ref loc (some r))) ∈ m.numbered.sites →
      ctx.graph.envOf? r = none → p.functions = [] := by
  have hholds := h.suits.seated.exact.holds
  constructor
  · intro hclean p loc hn hplain
    obtain ⟨fr, hfr, b, hb, hmem, hfun⟩ := hholds.frame_of_mention hn rfl
    refine hfun.mp (Option.eq_none_iff_forall_ne_some.mpr fun c hc => ?_)
    subst hc
    obtain ⟨b₁, b', hb₁, hb', htrail⟩ := h.trail_receiver hids hr hplain hfr
    obtain rfl : b₁ = b := Option.some.inj (hb₁.symm.trans hb)
    -- the name is still there, in a method
    have hmem' : .reference r ∈ r.trail [.block b'] := by
      rw [htrail]
      refine List.mem_map.mpr ⟨.reference r, List.mem_filter.mpr ⟨by simpa using hmem, ?_⟩, rfl⟩
      simp [Mention.concerns, Variable.StandsFor]
    have hmem' : .reference r ∈ (Node.block b').mentions := by
      simpa using List.mem_of_mem_filter hmem'
    obtain ⟨n, hn, hmention⟩ := List.mem_filterMap.mp (Node.mem_nodes_of_mem_mentions hmem')
    obtain ⟨lm, hlm, hbody⟩ := Option.bind_eq_some_iff.mp hb'
    exact hclean lm (List.mem_of_getElem? hlm) b' hbody n hn hmention
  · intro hnames lm hlm b' hb' n hn hmention
    obtain ⟨c, hc⟩ := List.mem_iff_getElem?.mp hlm
    have hlt : c < ctx.graph.closures.size := h.length ▸ (List.getElem?_eq_some_iff.mp hc).1
    have hfr : some c ∈ ctx.graph.frames := by simpa [Graph.mem_frames] using hlt
    obtain ⟨-, b, hb, -⟩ := hholds.frame_block hfr
    obtain ⟨b₁, hb₁, htally⟩ := h.tally_receiver hids hr hlt hb fun hplain hmem => by
      obtain ⟨q, k, hk, hkm, hfun⟩ := hholds.exists_site_of_mention hlt hb hmem
      obtain ⟨loc, rfl⟩ := Node.mention_eq_reference.mp hkm
      exact hfun (hnames q loc hk hplain)
    obtain rfl : b₁ = b' := by
      have hmethod : l.declarations.methodOf? c = some lm := hc
      rw [blockOf?, hmethod] at hb₁
      exact Option.some.inj (hb₁.symm.trans hb')
    have hzero := tally_eq_zero.mp htally n hn _ hmention
    simp [Mention.refersTo, Variable.StandsFor] at hzero

end LoweredBody.Written

/-! ## Main statement -/

/-- Bodies that differ in the way they refer to the receiver have the same variables. -/
theorem MethodBody.NamesSelf.givenVariables {o : ConversionSettings} {l l' : LoweredBody}
    (h : m.NamesSelf r m') (hok : (Conversion.run o m).outcome = .ok l)
    (hok' : (Conversion.run o m').outcome = .ok l') (hids : m.GivenVariables) :
    m'.GivenVariables := by
  obtain ⟨ctx, hgraph, hwritten, -⟩ := LoweredBody.written_of_run hok
  obtain ⟨ctx', hgraph', hwritten', -⟩ := LoweredBody.written_of_run hok'
  have hsub {v : Variable} (hv : v ∈ m'.declared) : v ∈ m.declared := by
    obtain ⟨p, hp⟩ := MethodBody.mem_declared.mp hv
    have hmem := hwritten'.suits.seated.exact.holds.mem_vars_of_declares hp
    have hvars : (ctx'.graph.scope p.scope).vars = (ctx.graph.scope p.scope).vars := by
      rw [hgraph, hgraph']
      exact (Conversion.graph_namesSelf h o).eq_of_refill (π := fun g => (g.scope p.scope).vars)
        fun _ _ _ => by rw [Graph.scope_refill, Scope.refill_vars]
    rw [hvars] at hmem
    obtain ⟨q, hq, -⟩ := hwritten.suits.seated.exact.holds.declares_of_mem_vars hmem
    exact MethodBody.mem_declared.mpr ⟨q, hq⟩
  exact ⟨fun v hv => hids.ids v (hsub hv), fun v hv w hw => hids.distinct v (hsub hv) w (hsub hw)⟩

/-- Let a body be converted, and let the receiver be named in some places instead. The analysis is
the same. The conversion still succeeds unless a name stands for a receiver on the heap, and then no
name is left in the method of a nested function unless the receiver is in no environment and a
nested function names it. -/
theorem MethodBody.run_namingSelf {o : ConversionSettings} {l : LoweredBody}
    (hok : (Conversion.run o m).outcome = .ok l) (hids : m.GivenVariables)
    (h : m.NamesSelf r m') :
    (Conversion.run o m').graph.bare = (Conversion.run o m).graph.bare ∧
    ((∃ l', (Conversion.run o m').outcome = .ok l') ↔
      ∀ p loc, (p, .expr (.ref loc (some r))) ∈ m'.numbered.sites →
        ∀ e, (Conversion.run o m).graph.envOf? r = some e → r.isReceiver = true →
          ((Conversion.run o m).graph.env e).isValue = true) ∧
    ∀ l', (Conversion.run o m').outcome = .ok l' →
      ((∀ lm ∈ l'.declarations.methods, ∀ b ∈ lm.body, ∀ n ∈ b.nodes,
          n.mention? ≠ some (.reference r)) ↔
        ∀ p loc, (p, .expr (.ref loc (some r))) ∈ m'.numbered.sites →
          (Conversion.run o m).graph.envOf? r = none → p.functions = []) := by
  refine ⟨(Conversion.graph_namesSelf h o).bare, h.ok_iff hok, fun l' hok' => ?_⟩
  obtain ⟨ctx, hgraph, hwritten, -⟩ := LoweredBody.written_of_run hok'
  rw [hwritten.clean_iff (h.givenVariables hok hok' hids) (h.receiver_eq.trans h.receiver), hgraph,
    h.envOf_eq]

namespace Tally

def lent : NestedFunction :=
  { id := 0, form := .lambda, name := "lent", returnType := "Account" }

/-- `Lend` has a lambda that returns the receiver, which is written as `self`. -/
def lend (before : List Stmt) (self : Expr) : MethodBody where
  method := some
    { id := .given 0, name := "Lend", owner := "Account", params := [some first]
      returnType := "void" }
  receiver := some account
  block := some (.mk 0 {}
    [.expr {} (.lambda {} (some lent) (.mk 0 {} (before ++ [.ret {} (some self)])))])

/-- The receiver as such. -/
def asSelf : Expr := .self {} "Account"

/-- The receiver by name. -/
def byName : Expr := .ref {} (some account)

/-- The parameter of `Lend` is read, which puts it on the heap with the receiver. -/
def readFirst : Stmt := .expr {} (.ref {} (some first))

end Tally

open Tally in
/-- A receiver that is captured alone is in no environment. Its name is left in the method of the
lambda. -/
theorem MethodBody.namingSelf_lend : ∃ l l', (Conversion.run {} (lend [] asSelf)).outcome = .ok l ∧
    (lend [] asSelf).GivenVariables ∧ (lend [] asSelf).NamesSelf account (lend [] byName) ∧
    (Conversion.run {} (lend [] byName)).graph.bare =
      (Conversion.run {} (lend [] asSelf)).graph.bare ∧
    (Conversion.run {} (lend [] byName)).outcome = .ok l' ∧
    ¬ ∀ lm ∈ l'.declarations.methods, ∀ b ∈ lm.body, ∀ n ∈ b.nodes,
      n.mention? ≠ some (.reference account) := by
  have hids : (lend [] asSelf).GivenVariables := by decide +kernel
  have hnames : (lend [] asSelf).NamesSelf account (lend [] byName) :=
    ⟨rfl, rfl, rfl, .some (.mk 0 {} (.cons (.expr {} (.lambda {} _
      (.mk 1 {} (.cons (.ret {} (.some (.named {} _))) .nil)))) .nil))⟩
  have hplain : (Conversion.run {} (lend [] asSelf)).graph.envOf? account = none := by
    decide +kernel
  have hsite : (false, some (.reference account)) ∈ (lend [] byName).numbered.sites.map fun s =>
      (s.1.functions.isEmpty, s.2.mention?) := by decide +kernel
  obtain ⟨l, hr⟩ := exists_of_isOk (x := (Conversion.run {} (lend [] asSelf)).outcome)
    (by decide +kernel)
  obtain ⟨hbare, hiff, hleft⟩ := run_namingSelf hr hids hnames
  obtain ⟨l', hl'⟩ := hiff.mpr fun p loc _ e he => nomatch hplain.symm.trans he
  refine ⟨l, l', hr, hids, hnames, hbare, hl', fun hclean => ?_⟩
  obtain ⟨⟨p, n⟩, hn, heq⟩ := List.mem_map.mp hsite
  obtain ⟨hfunctions, hmention⟩ := Prod.mk.inj heq
  obtain ⟨loc, rfl⟩ := Node.mention_eq_reference.mp hmention
  have hnil := (hleft l' hl').mp hclean p loc hn hplain
  simp [hnil] at hfunctions

open Tally in
/-- A receiver that is captured together with a parameter is on the heap, and its name leads
nowhere. -/
theorem MethodBody.lend_named_fails : (lend [readFirst] asSelf).GivenVariables ∧
    (lend [readFirst] asSelf).NamesSelf account (lend [readFirst] byName) ∧
    (Conversion.run {} (lend [readFirst] asSelf)).outcome.isOk = true ∧
    (Conversion.run {} (lend [readFirst] byName)).failure?.map (·.failure.message) =
      some "'this' has no field" := by
  refine ⟨by decide +kernel, ⟨rfl, rfl, rfl, ?_⟩, by decide +kernel, by decide +kernel⟩
  exact .some (.mk 0 {} (.cons (.expr {} (.lambda {} _ (.mk 1 {}
    (.cons (.expr {} (.ref {} _)) (.cons (.ret {} (.some (.named {} _))) .nil))))) .nil))

end Unnest
