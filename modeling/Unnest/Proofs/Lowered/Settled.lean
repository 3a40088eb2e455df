import Unnest.Proofs.Captures.Order
import Unnest.Proofs.Conversion
import Unnest.Proofs.Lowered.Rules

/-!
# Names that are settled

A walk through a frame makes names as it goes. Once it is over, the names are known for the whole
frame, and what a tree was lowered to can be said with them alone: `Stmt.LowersIn` and
`Block.LowersIn` relate trees under names that do not change. Reading a frame under its final names
gives the same trees, since no variable is renamed after it was referred to: that would take a
reference before the declaration, or a second declaration.

## Main statements

* `Names.Before` : how names grow.
* `LoweringContext.Binds.settle` : trees are lowered under the final names of their frame.
* `LoweredBody.Written.exists_settled` : a converted body under settled names.
-/

namespace Unnest

/-! ## Trees under fixed names -/

namespace LoweringContext

variable (ctx : LoweringContext) (names : Names)

/-- Scope `s` begins with the statements `created`; `site'` is the place after them. -/
inductive OpensIn (site : Site) (s : ScopeId) : List Stmt → Site → Prop where
  | bare (hs : (ctx.graph.scope s).env = none) : OpensIn site s [] site
  | env {e : EnvId} {t : EnvType} {holder : Variable} {created : List Stmt} {site' : Site}
      (hs : (ctx.graph.scope s).env = some e) (ht : ctx.declarations.typeOf? e = some t)
      (hh : names.holders.lookup e = some holder)
      (hcreate : ctx.createEnv site names.aliases e t holder = .ok (created, site')) :
      OpensIn site s created site'

/-- The declaration of `v`, whose initial value is already lowered. -/
inductive DeclaresIn (site : Site) (loc : Loc) (v : Variable) :
    Option Expr → Option Stmt → Prop where
  | hoisted {e : EnvId} (he : ctx.graph.envOf? v = some e) : DeclaresIn site loc v none none
  | hoistedInit {e : EnvId} {init target : Expr} (he : ctx.graph.envOf? v = some e)
      (ht : ctx.variableRef site names.aliases v = .ok target) :
      DeclaresIn site loc v (some init) (some (.expr loc (.assign {} target init)))
  | plain {init : Option Expr} (he : ctx.graph.envOf? v = none) :
      DeclaresIn site loc v init (some (.declare loc (some (names.standIn v)) init))

end LoweringContext

mutual

/-- Statement `s` at a place is lowered to another one, or to nothing. -/
inductive Stmt.LowersIn (ctx : LoweringContext) (names : Names) :
    Site → Stmt → Option Stmt → Prop where
  | block {site b b'} (h : Block.LowersIn ctx names (site.locate b.loc) b b') :
      Stmt.LowersIn ctx names site (.block b) (some (.block b'))
  | declare {site loc v init init' s'}
      (hi : Expr.OptLowersTo ctx (site.locate loc) names.aliases init init')
      (hd : ctx.DeclaresIn names (site.locate loc) loc v init' s') :
      Stmt.LowersIn ctx names site (.declare loc (some v) init) s'
  | declareNothing {site loc init init'} :
      Stmt.LowersIn ctx names site (.declare loc none init) (some (.declare loc none init'))
  | expr {site loc value value'}
      (h : Expr.LowersTo ctx (site.locate loc) names.aliases value value') :
      Stmt.LowersIn ctx names site (.expr loc value) (some (.expr loc value'))
  | ret {site loc value value'}
      (h : Expr.OptLowersTo ctx (site.locate loc) names.aliases value value') :
      Stmt.LowersIn ctx names site (.ret loc value) (some (.ret loc value'))
  | cond {site loc test test' thenBlock thenBlock' elseBlock elseBlock'}
      (ht : Expr.LowersTo ctx (site.locate loc) names.aliases test test')
      (hb : Block.LowersIn ctx names (site.locate loc) thenBlock thenBlock')
      (he : Block.OptLowersIn ctx names (site.locate loc) elseBlock elseBlock') :
      Stmt.LowersIn ctx names site (.cond loc test thenBlock elseBlock)
        (some (.cond loc test' thenBlock' elseBlock'))
  | loop {site loc test test' body body'}
      (ht : Expr.LowersTo ctx (site.locate loc) names.aliases test test')
      (hb : Block.LowersIn ctx names (site.locate loc) body body') :
      Stmt.LowersIn ctx names site (.loop loc test body) (some (.loop loc test' body'))
  | localFunction {site loc f body} :
      Stmt.LowersIn ctx names site (.localFunction loc (some f) body) none

inductive Stmt.AllLowerIn (ctx : LoweringContext) (names : Names) :
    Site → List Stmt → List Stmt → Prop where
  | nil {site} : Stmt.AllLowerIn ctx names site [] []
  | cons {site s s' ss ss'} (h : Stmt.LowersIn ctx names site s s')
      (hs : Stmt.AllLowerIn ctx names site ss ss') :
      Stmt.AllLowerIn ctx names site (s :: ss) (s'.toList ++ ss')

inductive Block.LowersIn (ctx : LoweringContext) (names : Names) : Site → Block → Block → Prop where
  | mk {site id loc stmts created site' stmts'}
      (ho : ctx.OpensIn names site id created site')
      (hs : Stmt.AllLowerIn ctx names site' stmts stmts') :
      Block.LowersIn ctx names site (.mk id loc stmts) (.mk id loc (created ++ stmts'))

inductive Block.OptLowersIn (ctx : LoweringContext) (names : Names) :
    Site → Option Block → Option Block → Prop where
  | none {site} : Block.OptLowersIn ctx names site none none
  | some {site b b'} (h : Block.LowersIn ctx names site b b') :
      Block.OptLowersIn ctx names site (some b) (some b')

end

variable {ctx : LoweringContext} {m : MethodBody} {g : Graph} {names later N : Names}
  {ms ms' : List Mention} {bs bs' : List BlockId} {v : Variable}

/-! ## Expressions -/

theorem Node.mentions_subset {n k : Node} (hn : n.nested? = none) (hk : k ∈ n.inner) :
    k.mentions ⊆ n.mentions := by
  intro a ha
  rw [mentions_of_inner hn]
  exact List.mem_append_left _ (List.mem_flatMap.mpr ⟨k, hk, ha⟩)

theorem Node.blockIds_subset {n k : Node} (hk : k ∈ n.inner) : k.blockIds ⊆ n.blockIds := by
  intro b hb
  rw [blockIds_eq n]
  exact List.mem_append_right _ (List.mem_flatMap.mpr ⟨k, hk, hb⟩)

section Agree

variable {a b : List (Variable × Variable)}

theorem LoweringContext.variableRef_congr (site : Site)
    (h : ctx.graph.envOf? v = none → (a.lookup v).getD v = (b.lookup v).getD v) :
    ctx.variableRef site a v = ctx.variableRef site b v := by
  rw [variableRef, variableRef]
  cases he : ctx.graph.envOf? v with
  | none => rw [h he]
  | some e => rfl

theorem Expr.OptLowersTo.imp {site : Site} {e e' : Option Expr}
    (h : ∀ x ∈ e, ∀ x', x.LowersTo ctx site a x' → x.LowersTo ctx site b x')
    (hl : OptLowersTo ctx site a e e') : OptLowersTo ctx site b e e' := by
  cases hl with
  | none => exact .none
  | some hx => exact .some (h _ rfl _ hx)

theorem Expr.AllLowerTo.imp {site : Site} {es es' : List Expr}
    (h : ∀ x ∈ es, ∀ x', x.LowersTo ctx site a x' → x.LowersTo ctx site b x')
    (hl : AllLowerTo ctx site a es es') : AllLowerTo ctx site b es es' := by
  induction es generalizing es' with
  | nil =>
    cases hl
    exact .nil
  | cons e es ih =>
    cases hl with
    | cons hx hs =>
      exact .cons (h e List.mem_cons_self _ hx)
        (ih (fun x hx => h x (List.mem_cons_of_mem e hx)) hs)

/-- Only what stands for the variables that are referred to matters. -/
theorem Expr.LowersTo.congr {e e' : Expr} {site : Site}
    (h : ∀ v, .reference v ∈ (Node.expr e).mentions → ctx.graph.envOf? v = none →
      (a.lookup v).getD v = (b.lookup v).getD v)
    (hl : e.LowersTo ctx site a e') : e.LowersTo ctx site b e' := by
  generalize hn : Node.expr e = n at h
  induction n using Node.induction generalizing e e' site with
  | step n ih =>
    subst hn
    have sub (hn : (Node.expr e).nested? = none) (hi : (Node.expr e).inner = e.operands.map .expr)
        (x : Expr) (hx : x ∈ e.operands) {site : Site} {x' : Expr}
        (hl : x.LowersTo ctx site a x') : x.LowersTo ctx site b x' := by
      have hmem : Node.expr x ∈ (Node.expr e).inner := hi ▸ List.mem_map_of_mem hx
      exact ih _ hmem hl rfl fun v hv => h v (Node.mentions_subset hn hmem hv)
    cases hl with
    | literal => exact .literal
    | ref hv =>
      refine .ref ?_
      rw [← ctx.variableRef_congr _ (h _ ?_)]
      · exact hv
      · rw [Node.mentions_eq]
        exact List.mem_append_right _ List.mem_cons_self
    | self hr => exact .self hr
    | assign ht hv =>
      exact .assign (sub rfl rfl _ (by simp [operands]) ht) (sub rfl rfl _ (by simp [operands]) hv)
    | binary hx hy =>
      exact .binary (sub rfl rfl _ (by simp [operands]) hx) (sub rfl rfl _ (by simp [operands]) hy)
    | lambda hc hm hr => exact .lambda hc hm hr
    | functionRef hc hm hr => exact .functionRef hc hm hr
    | localCall hc hm hr ha he =>
      exact .localCall hc hm hr (ha.imp fun x hx _ => sub rfl rfl x hx) he
    | call hr ha =>
      refine .call (hr.imp fun x hx _ => sub rfl rfl x ?_) (ha.imp fun x hx _ => sub rfl rfl x ?_)
      · exact List.mem_append_left _ (Option.mem_toList.mpr hx)
      · exact List.mem_append_right _ hx
    | invoke hc ha =>
      exact .invoke (sub rfl rfl _ List.mem_cons_self hc)
        (ha.imp fun x hx _ => sub rfl rfl x (List.mem_cons_of_mem _ hx))
    | field hr => exact .field (sub rfl rfl _ List.mem_cons_self hr)
    | newEnv => exact .newEnv
    | zero => exact .zero
    | delegate hr => exact .delegate (hr.imp fun x hx _ => sub rfl rfl x (Option.mem_toList.mpr hx))

/-- Creating an environment reads what stands for its parameters. -/
theorem LoweringContext.createEnv_congr (site : Site) (e : EnvId) (t : EnvType) (holder : Variable)
    (h : ∀ v, v.role = .parameter → (a.lookup v).getD v = (b.lookup v).getD v) :
    ctx.createEnv site a e t holder = ctx.createEnv site b e t holder := by
  have hstore : ctx.storeVariable site a t holder = ctx.storeVariable site b t holder := by
    funext v
    cases hr : v.role with
    | parameter => simp only [storeVariable, hr, h v hr]
    | receiver =>
      simp only [storeVariable, hr]
      cases t.field? v <;> rfl
    | declared => simp only [storeVariable, hr]
  rw [createEnv, createEnv, hstore]

end Agree

/-! ## Names grow -/

/-- The names `later` come after `names` in a frame, which in between declares the variables in `ms`
and opens the blocks in `bs`. -/
structure Names.Before (g : Graph) (ms : List Mention) (bs : List BlockId) (names later : Names) :
    Prop where
  aliases : ∃ l, later.aliases = l ++ names.aliases ∧
    ∀ p ∈ l, .declaration p.1 ∈ ms ∧ ∃ k, p.2.id = .copy k p.1.id
  holders : ∃ l, later.holders = l ++ names.holders ∧
    ∀ p ∈ l, (g.env p.1).scope ∈ bs ∧ ∃ k, p.2.id = .holder k p.1

theorem lookup_append_of_forall_ne {α β : Type} [BEq α] [LawfulBEq α] {l l' : List (α × β)} {a : α}
    (h : ∀ p ∈ l, p.1 ≠ a) : (l ++ l').lookup a = l'.lookup a := by
  induction l with
  | nil => rfl
  | cons p l ih =>
    have hne : (a == p.1) = false := beq_false_of_ne (h p List.mem_cons_self).symm
    rw [List.cons_append, List.lookup_cons, hne]
    exact ih fun q hq => h q (List.mem_cons_of_mem p hq)

namespace Names.Before

theorem refl (g : Graph) (ms : List Mention) (bs : List BlockId) (names : Names) :
    Before g ms bs names names := ⟨⟨[], rfl, by simp⟩, ⟨[], rfl, by simp⟩⟩

theorem trans (h : Before g ms bs names later) (h' : Before g ms' bs' later N) :
    Before g (ms ++ ms') (bs ++ bs') names N := by
  obtain ⟨⟨l, hl, hlm⟩, ⟨k, hk, hkm⟩⟩ := h
  obtain ⟨⟨l', hl', hlm'⟩, ⟨k', hk', hkm'⟩⟩ := h'
  refine ⟨⟨l' ++ l, by rw [hl', hl, List.append_assoc], fun p hp => ?_⟩,
    ⟨k' ++ k, by rw [hk', hk, List.append_assoc], fun p hp => ?_⟩⟩
  · rcases List.mem_append.mp hp with hp | hp
    · exact ⟨List.mem_append_right ms (hlm' p hp).1, (hlm' p hp).2⟩
    · exact ⟨List.mem_append_left ms' (hlm p hp).1, (hlm p hp).2⟩
  · rcases List.mem_append.mp hp with hp | hp
    · exact ⟨List.mem_append_right bs (hkm' p hp).1, (hkm' p hp).2⟩
    · exact ⟨List.mem_append_left bs' (hkm p hp).1, (hkm p hp).2⟩

theorem mono (h : Before g ms bs names later) (hm : ms ⊆ ms') (hb : bs ⊆ bs') :
    Before g ms' bs' names later := by
  obtain ⟨⟨l, hl, hlm⟩, ⟨k, hk, hkm⟩⟩ := h
  exact ⟨⟨l, hl, fun p hp => ⟨hm (hlm p hp).1, (hlm p hp).2⟩⟩,
    ⟨k, hk, fun p hp => ⟨hb (hkm p hp).1, (hkm p hp).2⟩⟩⟩

/-- What stands for a variable changes only where it is declared. -/
theorem standIn_eq (h : Before g ms bs names later) (hv : .declaration v ∉ ms) :
    names.standIn v = later.standIn v := by
  obtain ⟨l, hl, hlm⟩ := h.aliases
  rw [standIn, standIn, hl, lookup_append_of_forall_ne]
  rintro p hp rfl
  exact hv (hlm p hp).1

/-- What holds an environment changes only where its scope is opened. -/
theorem holder_eq (h : Before g ms bs names later) {e : EnvId} (he : (g.env e).scope ∉ bs) :
    later.holders.lookup e = names.holders.lookup e := by
  obtain ⟨l, hl, hlm⟩ := h.holders
  rw [hl, lookup_append_of_forall_ne]
  rintro p hp rfl
  exact he (hlm p hp).1

end Names.Before

/-- The context suits a body whose variables have the roles of their places. -/
structure LoweringContext.Binds (ctx : LoweringContext) (m : MethodBody) : Prop
    extends ctx.Suits m where
  inRole : m.InRole

theorem LoweringContext.Fits.binds (h : ctx.Fits m) : ctx.Binds m :=
  ⟨⟨h.method, h.chained.seated h.calls, h.declared⟩, h.wellBound.inRole⟩

namespace LoweringContext.Binds

variable (h : ctx.Binds m)

include h

theorem before_opens {site site' : Site} {s : ScopeId} {created : List Stmt}
    (ho : ctx.Opens site names s created site' later) :
    Names.Before ctx.graph [] [s] names later := by
  cases ho with
  | bare => exact .refl _ _ _ _
  | @env e _ holder _ _ hs _ hid =>
    refine ⟨⟨[], rfl, by simp⟩, ⟨[(e, holder)], rfl, fun p hp => ?_⟩⟩
    obtain rfl := List.mem_singleton.mp hp
    exact ⟨List.mem_singleton.mpr ((h.seated.placed.scope_env s e).mp hs).2.1, hid⟩

omit h in
theorem before_declaration {site : Site} {loc : Loc} {init : Option Expr} {s' : Option Stmt}
    (hd : ctx.LowersDeclaration site names loc v init s' later) :
    Names.Before ctx.graph [.declaration v] [] names later := by
  cases hd with
  | copy _ _ hid =>
    refine ⟨⟨[(v, _)], rfl, fun p hp => ?_⟩, ⟨[], rfl, by simp⟩⟩
    obtain rfl := List.mem_singleton.mp hp
    exact ⟨List.mem_singleton.mpr rfl, hid⟩
  | _ => exact .refl _ _ _ _

omit h in
theorem before_stmts {ss ss' : List Stmt} {site : Site}
    (ih : ∀ s ∈ ss, ∀ {site s' names later}, Stmt.LowersTo ctx site names s s' later →
      Names.Before ctx.graph (Node.stmt s).mentions (Node.stmt s).blockIds names later)
    (hs : Stmt.AllLowerTo ctx site names ss ss' later) :
    Names.Before ctx.graph ((ss.map Node.stmt).flatMap Node.mentions)
      ((ss.map Node.stmt).flatMap Node.blockIds) names later := by
  induction ss generalizing ss' names with
  | nil =>
    cases hs
    exact .refl _ _ _ _
  | cons s ss ihs =>
    cases hs with
    | cons hs hss =>
      exact (ih s List.mem_cons_self hs).trans
        (ihs (fun s hs => ih s (List.mem_cons_of_mem _ hs)) hss)

theorem before_block {b b' : Block} {site : Site}
    (ih : ∀ s ∈ b.stmts, ∀ {site s' names later}, Stmt.LowersTo ctx site names s s' later →
      Names.Before ctx.graph (Node.stmt s).mentions (Node.stmt s).blockIds names later)
    (hb : b.LowersTo ctx site names b' later) :
    Names.Before ctx.graph (Node.block b).mentions (Node.block b).blockIds names later := by
  cases hb with
  | mk ho hs =>
    refine ((h.before_opens ho).trans (before_stmts ih hs)).mono ?_ ?_
    · rw [Node.mentions_of_inner rfl]
      exact List.subset_append_left _ _
    · rw [Node.blockIds_eq]
      exact List.Subset.refl _

/-- Names grow by what a node declares and opens. -/
theorem before_node (n : Node) {site : Site} :
    (∀ s s', n = .stmt s → s.LowersTo ctx site names s' later →
      Names.Before ctx.graph n.mentions n.blockIds names later) ∧
    ∀ b b', n = .block b → b.LowersTo ctx site names b' later →
      Names.Before ctx.graph n.mentions n.blockIds names later := by
  induction n using Node.induction generalizing site names later with
  | step n ih =>
    have stmts {b : Block} (hi : n.inner = b.stmts.map .stmt) (s : Stmt) (hs : s ∈ b.stmts)
        {site s' names later} (hl : Stmt.LowersTo ctx site names s s' later) :
        Names.Before ctx.graph (Node.stmt s).mentions (Node.stmt s).blockIds names later :=
      (ih (.stmt s) (hi ▸ List.mem_map_of_mem hs)).1 s s' rfl hl
    have block {b : Block} (hn : n.nested? = none) (hb : .block b ∈ n.inner) {site b' names later}
        (hl : Block.LowersTo ctx site names b b' later) :
        Names.Before ctx.graph n.mentions n.blockIds names later :=
      ((ih _ hb).2 b b' rfl hl).mono (Node.mentions_subset hn hb) (Node.blockIds_subset hb)
    constructor
    · rintro s s' rfl hl
      cases hl with
      | block hb =>
        have hbefore := h.before_block (stmts rfl) hb
        rwa [Node.mentions_eq, Node.blockIds_eq] at hbefore ⊢
      | declare hi hd =>
        refine (before_declaration hd).mono (fun a ha => ?_) (List.nil_subset _)
        rw [List.mem_singleton.mp ha, Node.mentions_eq]
        exact List.mem_append_right _ List.mem_cons_self
      | cond ht hb he =>
        have hbefore := block rfl (by simp [Node.inner]) hb
        cases he with
        | none => exact hbefore
        | some he =>
          refine (hbefore.trans (block rfl (by simp [Node.inner]) he)).mono ?_ ?_ <;> simp
      | loop ht hb => exact block rfl (by simp [Node.inner]) hb
      | _ => exact .refl _ _ _ _
    · rintro b b' rfl hl
      exact h.before_block (stmts rfl) hl

end LoweringContext.Binds

/-! ## Settling -/

/-- The mentions of a frame in their order: statements declare variables, each one once, and not
after a reference unless it is hoisted. -/
structure Graph.Orderly (g : Graph) (l : List Mention) : Prop where
  role : ∀ v, .declaration v ∈ l → v.role = .declared
  once : l.Pairwise Mention.DeclaredOnce
  first : l.Pairwise fun a b => ∀ v, a = .reference v → b = .declaration v → g.envOf? v ≠ none

/-- None of the variables still to be declared has a name that stands for it. -/
def Names.Fresh (names : Names) (ms : List Mention) : Prop :=
  ∀ v, .declaration v ∈ ms → names.aliases.lookup v = none

theorem Graph.Orderly.sublist (h : g.Orderly ms) (hs : ms'.Sublist ms) : g.Orderly ms' :=
  ⟨fun v hv => h.role v (hs.subset hv), h.once.sublist hs, h.first.sublist hs⟩

theorem Names.Fresh.after (hf : names.Fresh (ms ++ ms')) (hb : Names.Before g ms bs names later)
    (ho : g.Orderly (ms ++ ms')) : later.Fresh ms' := by
  intro v hv
  obtain ⟨l, hl, hlm⟩ := hb.aliases
  rw [hl, lookup_append_of_forall_ne, hf v (List.mem_append_right ms hv)]
  rintro p hp rfl
  exact (List.pairwise_append.mp ho.once).2.2 _ (hlm p hp).1 _ hv _ rfl rfl

section Settle

variable {site : Site} (hb : Names.Before ctx.graph ms bs names N)

include hb

theorem Expr.LowersTo.settle {e e' : Expr} (hl : e.LowersTo ctx site names.aliases e')
    (ho : ctx.graph.Orderly ((Node.expr e).mentions ++ ms)) :
    e.LowersTo ctx site N.aliases e' := by
  refine hl.congr fun v hv he => hb.standIn_eq fun hmem => ?_
  exact (List.pairwise_append.mp ho.first).2.2 _ hv _ hmem v rfl rfl he

theorem Expr.OptLowersTo.settle {e e' : Option Expr}
    (hl : Expr.OptLowersTo ctx site names.aliases e e')
    (ho : ctx.graph.Orderly ((e.toList.map Node.expr).flatMap Node.mentions ++ ms)) :
    Expr.OptLowersTo ctx site N.aliases e e' := by
  refine hl.imp fun x hx _ hl => hl.settle hb ?_
  rw [Option.mem_def.mp hx] at ho
  simpa using ho

theorem LoweringContext.LowersDeclaration.settle {loc : Loc} {init : Option Expr}
    {s' : Option Stmt} {names₀ : Names} (hd : ctx.LowersDeclaration site names₀ loc v init s' names)
    (ho : ctx.graph.Orderly (.declaration v :: ms)) (hf : names₀.Fresh [.declaration v]) :
    ctx.DeclaresIn N site loc v init s' := by
  have hv : .declaration v ∉ ms := fun hmem =>
    List.rel_of_pairwise_cons ho.once hmem v rfl rfl
  have heq := hb.standIn_eq hv
  cases hd with
  | hoisted he => exact .hoisted he
  | hoistedInit he ht =>
    refine .hoistedInit he ?_
    rw [← ht]
    exact ctx.variableRef_congr _ fun hnone => nomatch he.symm.trans hnone
  | same he =>
    have hsame : N.standIn v = v := by
      rw [← heq, Names.standIn, hf v List.mem_cons_self]
      rfl
    rw [show some v = some (N.standIn v) by rw [hsame]]
    exact .plain he
  | @copy _ copy he =>
    have hcopy : N.standIn v = copy := by
      rw [← heq, Names.standIn, List.lookup_cons_self]
      rfl
    rw [← hcopy]
    exact .plain he

end Settle

namespace LoweringContext.Binds

variable (h : ctx.Binds m)

include h

theorem settle_opens {site site' : Site} {s : ScopeId} {created : List Stmt}
    (ho : ctx.Opens site names s created site' later)
    (hb : Names.Before ctx.graph ms bs later N) (hs : s ∉ bs) (hl : ctx.graph.Orderly ms) :
    ctx.OpensIn N site s created site' := by
  cases ho with
  | bare hs => exact .bare hs
  | @env e t holder _ _ hs' ht hid hcreate =>
    obtain ⟨-, hscope, -⟩ := (h.seated.placed.scope_env s e).mp hs'
    have hh : N.holders.lookup e = some holder := by
      rw [hb.holder_eq (by rwa [hscope]), List.lookup_cons_self]
    refine .env hs' ht hh ?_
    rw [← hcreate]
    refine (ctx.createEnv_congr site e t holder fun v hv => ?_).symm
    refine hb.standIn_eq fun hmem => ?_
    exact nomatch hv.symm.trans (hl.role v hmem)

theorem settle_stmts {ss ss' : List Stmt} {site : Site}
    (ih : ∀ s ∈ ss, ∀ {site s' names later ms bs}, Stmt.LowersTo ctx site names s s' later →
      Names.Before ctx.graph ms bs later N → ctx.graph.Orderly ((Node.stmt s).mentions ++ ms) →
      ((Node.stmt s).blockIds ++ bs).Nodup → names.Fresh (Node.stmt s).mentions →
      s.LowersIn ctx N site s')
    (hs : Stmt.AllLowerTo ctx site names ss ss' later)
    (hb : Names.Before ctx.graph ms bs later N)
    (ho : ctx.graph.Orderly ((ss.map Node.stmt).flatMap Node.mentions ++ ms))
    (hn : ((ss.map Node.stmt).flatMap Node.blockIds ++ bs).Nodup)
    (hf : names.Fresh ((ss.map Node.stmt).flatMap Node.mentions)) :
    Stmt.AllLowerIn ctx N site ss ss' := by
  induction ss generalizing ss' names with
  | nil =>
    cases hs
    exact .nil
  | cons s ss ihs =>
    rw [List.map_cons, List.flatMap_cons] at ho hn hf
    rw [List.append_assoc] at ho hn
    cases hs with
    | cons hs hss =>
      have hrest := (before_stmts (fun s _ {_ _ _ _} hl => (h.before_node (.stmt s)).1 s _ rfl hl)
        hss).trans hb
      have hfirst := (h.before_node (.stmt s)).1 s _ rfl hs
      refine .cons (ih s List.mem_cons_self hs hrest ho hn ?_) (ihs
        (fun s hs => ih s (List.mem_cons_of_mem _ hs)) hss
        (ho.sublist (List.sublist_append_right _ _)) (List.nodup_append.mp hn).2.1 ?_)
      · exact fun v hv => hf v (List.mem_append_left _ hv)
      · refine hf.after hfirst (ho.sublist ?_)
        exact List.Sublist.append (List.Sublist.refl _) (List.sublist_append_left _ _)

theorem settle_block {b b' : Block} {site : Site}
    (ih : ∀ s ∈ b.stmts, ∀ {site s' names later ms bs}, Stmt.LowersTo ctx site names s s' later →
      Names.Before ctx.graph ms bs later N → ctx.graph.Orderly ((Node.stmt s).mentions ++ ms) →
      ((Node.stmt s).blockIds ++ bs).Nodup → names.Fresh (Node.stmt s).mentions →
      s.LowersIn ctx N site s')
    (hl : b.LowersTo ctx site names b' later) (hb : Names.Before ctx.graph ms bs later N)
    (ho : ctx.graph.Orderly ((Node.block b).mentions ++ ms))
    (hn : ((Node.block b).blockIds ++ bs).Nodup) (hf : names.Fresh (Node.block b).mentions) :
    b.LowersIn ctx N site b' := by
  rw [Node.mentions_block] at ho hf
  rw [Node.blockIds_eq] at hn
  cases hl with
  | mk hopens hs =>
    have hn := List.nodup_cons.mp (show (_ :: (_ ++ bs)).Nodup from hn)
    have hrest := (before_stmts (fun s _ {_ _ _ _} hl => (h.before_node (.stmt s)).1 s _ rfl hl)
      hs).trans hb
    refine .mk (h.settle_opens hopens hrest hn.1 ho)
      (h.settle_stmts ih hs hb ho hn.2 fun v hv => ?_)
    rw [← hf v hv]
    cases hopens <;> rfl

/-- A node that was lowered under growing names is lowered under the final ones. -/
theorem settle (n : Node) {site : Site} (hb : Names.Before ctx.graph ms bs later N)
    (ho : ctx.graph.Orderly (n.mentions ++ ms)) (hn : (n.blockIds ++ bs).Nodup)
    (hf : names.Fresh n.mentions) :
    (∀ s s', n = .stmt s → s.LowersTo ctx site names s' later → s.LowersIn ctx N site s') ∧
      ∀ b b', n = .block b → b.LowersTo ctx site names b' later → b.LowersIn ctx N site b' := by
  induction n using Node.induction generalizing site names later ms bs with
  | step n ih =>
    have stmts {b : Block} (hi : n.inner = b.stmts.map .stmt) (s : Stmt) (hs : s ∈ b.stmts)
        {site s' names later ms bs} (hl : Stmt.LowersTo ctx site names s s' later)
        (hb : Names.Before ctx.graph ms bs later N)
        (ho : ctx.graph.Orderly ((Node.stmt s).mentions ++ ms))
        (hn : ((Node.stmt s).blockIds ++ bs).Nodup) (hf : names.Fresh (Node.stmt s).mentions) :
        s.LowersIn ctx N site s' :=
      (ih (.stmt s) (hi ▸ List.mem_map_of_mem hs) hb ho hn hf).1 s s' rfl hl
    constructor
    · rintro s s' rfl hl
      cases hl with
      | block hl =>
        rw [Node.mentions_eq] at ho hf
        rw [Node.blockIds_eq] at hn
        refine .block (h.settle_block (stmts rfl) hl hb ?_ ?_ ?_)
        · rwa [Node.mentions_eq]
        · rwa [Node.blockIds_eq]
        · rwa [Node.mentions_eq]
      | @declare _ _ loc v init init' _ _ hi hd =>
        rw [Node.mentions_declare] at ho hf
        rw [List.append_assoc] at ho
        have hdecl := (before_declaration hd).trans hb
        refine .declare (hi.settle hdecl ho) (hd.settle hb ?_ fun w hw => ?_)
        · exact ho.sublist (List.sublist_append_right _ _)
        · exact hf w (List.mem_append_right _ hw)
      | declareNothing => exact .declareNothing
      | expr hl =>
        rw [Node.mentions_eq] at ho
        exact .expr (hl.settle hb (by simpa [Node.inner, Node.mention?, Node.nested?] using ho))
      | ret hl =>
        rw [Node.mentions_eq] at ho
        exact .ret (hl.settle hb (by simpa [Node.inner, Node.mention?, Node.nested?] using ho))
      | @cond _ _ _ test _ thenBlock _ elseBlock _ names₁ _ ht hthen helse =>
        rw [Node.mentions_of_inner rfl] at ho hf
        rw [Node.blockIds_eq] at hn
        simp only [Node.inner, Node.mention?, Node.opened?, List.flatMap_cons, List.append_nil,
          List.append_assoc, Option.toList_none, Option.map_none, List.nil_append] at ho hn hf
        have hn := (List.nodup_append.mp hn).2.1
        have hb' : Names.Before ctx.graph
            ((elseBlock.toList.map Node.block).flatMap Node.mentions ++ ms)
            ((elseBlock.toList.map Node.block).flatMap Node.blockIds ++ bs) names₁ N := by
          cases helse with
          | none => exact hb
          | some hl => simpa using ((h.before_node (.block _)).2 _ _ rfl hl).trans hb
        have hthen' := (h.before_node (.block thenBlock)).2 _ _ rfl hthen
        have ho' := ho.sublist (List.sublist_append_right _ _)
        refine .cond (ht.settle (hthen'.trans hb') ho) ?_ ?_
        · refine (ih (.block thenBlock) (by simp [Node.inner]) hb' ho' hn fun v hv => ?_).2 _ _ rfl
            hthen
          exact hf v (List.mem_append_right _ (List.mem_append_left _ hv))
        · cases helse with
          | none => exact .none
          | @some _ _ b _ _ hl =>
            simp only [Option.toList_some, List.map_cons, List.map_nil, List.flatMap_cons,
              List.flatMap_nil, List.append_nil] at ho' hn hf
            have hf' : names₁.Fresh (Node.block b).mentions := by
              refine Names.Fresh.after (fun v hv => hf v (List.mem_append_right _ hv)) hthen' ?_
              refine ho'.sublist (List.Sublist.append (List.Sublist.refl _) ?_)
              exact List.sublist_append_left _ _
            exact .some ((ih (.block b) (by simp [Node.inner]) hb
              (ho'.sublist (List.sublist_append_right _ _)) (List.nodup_append.mp hn).2.1
              hf').2 _ _ rfl hl)
      | @loop _ _ _ test _ body _ _ ht hbody =>
        rw [Node.mentions_of_inner rfl] at ho hf
        rw [Node.blockIds_eq] at hn
        simp only [Node.inner, Node.mention?, Node.opened?, List.flatMap_cons, List.flatMap_nil,
          List.append_nil, List.append_assoc, Option.toList_none, Option.map_none,
          List.nil_append] at ho hn hf
        have hbody' := (h.before_node (.block body)).2 _ _ rfl hbody
        refine .loop (ht.settle (hbody'.trans hb) ho) ?_
        refine (ih (.block body) (by simp [Node.inner]) hb
          (ho.sublist (List.sublist_append_right _ _)) (List.nodup_append.mp hn).2.1
          fun v hv => ?_).2 _ _ rfl hbody
        exact hf v (List.mem_append_right _ hv)
      | localFunction => exact .localFunction
    · rintro b b' rfl hl
      exact h.settle_block (stmts rfl) hl hb ho hn hf

/-! ## Whole frames -/

/-- A captured variable is hoisted. -/
theorem envOf_ne_none {f : NestedFunction} {s : ScopeId} (hv : m.Captures f v)
    (hs : v ∈ (ctx.graph.scope s).vars) (hr : m.receiver ≠ some v) :
    ctx.graph.envOf? v ≠ none := by
  have hholds := h.seated.exact.holds
  obtain ⟨c, hc, rfl⟩ := hholds.closure_of_captures hv
  obtain ⟨e, he, -, hve⟩ :=
    h.seated.placed.exists_env hs ((h.seated.exact.captured c hc v).mpr hv)
  have hlive : (ctx.graph.env e).removed = false := by
    refine Bool.eq_false_iff.mpr fun hrem => ?_
    obtain ⟨p, hp, -⟩ := hholds.declares_of_mem_vars hs
    exact hr (h.inRole.receiverUnique p v hp (h.seated.removed e hrem v hve))
  rw [(h.seated.placed.envOf_eq_some hholds).mpr ⟨he, hlive, hve⟩]
  exact Option.some_ne_none e

/-- A variable that is not hoisted is referred to in the frame that declares it. -/
theorem exists_scope_of_reference {p : Path} {loc : Loc}
    (hn : (p, .expr (.ref loc (some v))) ∈ m.numbered.sites) :
    ∃ s ∈ ctx.graph.ancestors p.scope, v ∈ (ctx.graph.scope s).vars ∧ m.receiver ≠ some v ∧
      (ctx.graph.envOf? v = none → ctx.graph.frame? s = ctx.graph.frame? p.scope) := by
  have hx := h.seated.exact
  obtain ⟨w, s, hw, hs, henc⟩ := (hx.resolved _ hn).reference (some v) rfl
  obtain rfl := Option.some.inj hw
  have hmem := hx.holds.ranked.encloses_iff_mem.mp henc
  have hv := hx.holds.declaringScope_eq_some.mp hs
  have hne : m.receiver ≠ some v := h.inRole.nodes _ hn v rfl
  refine ⟨s, hmem, hv, hne, fun hnone => ?_⟩
  rcases Graph.frame_eq_or hx.holds hmem with hframe | ⟨c, hc, hout⟩
  · exact hframe
  · -- a variable of another frame is captured, so it is hoisted
    have hcap := hx.captured_of_reference hn rfl hc hv hout
    have hclt := (Graph.lt_of_frame hx.holds hc).1
    exact absurd hnone (h.envOf_ne_none ((hx.captured c hclt v).mp hcap) hv hne)

theorem orderly (hfirst : m.DeclaresFirst) {ns : List Node} (hns : ns ∈ m.bodies) :
    ctx.graph.Orderly (ns.flatMap Node.mentions) := by
  have hdecl (v : Variable) (hv : .declaration v ∈ ns.flatMap Node.mentions) :
      ∃ p n, (p, n) ∈ m.numbered.sites ∧ n.declared? = some v := by
    obtain ⟨n, hn, hv⟩ := List.mem_flatMap.mp hv
    obtain ⟨p, hp⟩ := MethodBody.site_of_mem_bodies hns hn
    obtain ⟨s, hs, hsv⟩ := Node.exists_site_of_mem_mentions hv p
    exact ⟨s.1, s.2, MethodBody.sites_subset hp hs, Node.mention_eq_declaration.mp hsv⟩
  refine ⟨fun v hv => ?_, (h.seated.exact.holds.declared_once hns).1, ?_⟩
  · obtain ⟨p, n, hn, hv⟩ := hdecl v hv
    exact h.inRole.role_declared hn hv
  · refine (hfirst ns hns).imp_of_mem fun {a b} _ hb hab v hav hbv => ?_
    obtain ⟨f, hf⟩ := hab v hav hbv
    obtain ⟨p, n, hn, hv⟩ := hdecl v (hbv ▸ hb)
    have hvars := h.seated.exact.holds.mem_vars_of_declares (.statement hn hv)
    refine h.envOf_ne_none hf hvars fun hr => ?_
    exact nomatch (h.inRole.role_declared hn hv).symm.trans (h.inRole.receiver v hr)

/-- The body of a function under its final names. -/
theorem settle_body (hfirst : m.DeclaresFirst) {b b' : Block} {site : Site}
    (hb : b.stmts.map Node.stmt ∈ m.bodies)
    (hsites : ∀ k ∈ b.stmts.map Node.stmt, ∃ p, (p, k) ∈ m.numbered.sites ∧ p.scope = b.id)
    (hl : b.LowersTo ctx site names b' later)
    (hf : ∀ v, v.role = .declared → names.aliases.lookup v = none) :
    b.LowersIn ctx later site b' ∧
      Names.Before ctx.graph (Node.block b).mentions (Node.block b).blockIds names later ∧
      ∀ v, v.role = .parameter → later.standIn v = names.standIn v := by
  have horderly := h.orderly hfirst hb
  rw [← Node.mentions_block] at horderly
  have hbefore := (h.before_node (.block b)).2 b b' rfl hl
  refine ⟨?_, hbefore, fun v hv => (hbefore.standIn_eq fun hmem => ?_).symm⟩
  · have hnodup : (Node.block b).blockIds.Nodup := by
      rw [Node.blockIds_eq]
      refine List.nodup_cons.mpr ⟨fun hmem => ?_, (h.seated.exact.holds.declared_once hb).2⟩
      obtain ⟨k, hk, hmem⟩ := List.mem_flatMap.mp hmem
      obtain ⟨p, hp, hscope⟩ := hsites k hk
      exact Nat.ne_of_lt (Graph.Holds.scope_lt_of_mem_blockIds hp hmem) hscope
    refine (h.settle (.block b) (.refl _ [] [] _) (by rwa [List.append_nil])
      (by rwa [List.append_nil]) fun v hv => hf v (horderly.role v hv)).2 b b' rfl hl
  · exact nomatch hv.symm.trans (horderly.role v hmem)

end LoweringContext.Binds

theorem Names.Before.made (h : Names.Before g ms bs names later) (hm : names.Made) :
    later.Made := by
  obtain ⟨⟨l, hl, hlm⟩, ⟨k, hk, hkm⟩⟩ := h
  refine ⟨fun p hp => ?_, fun p hp => ?_⟩
  · rcases List.mem_append.mp (hl ▸ hp) with hp | hp
    · exact (hlm p hp).2
    · exact hm.aliases p hp
  · rcases List.mem_append.mp (hk ▸ hp) with hp | hp
    · exact (hkm p hp).2
    · exact hm.holders p hp

namespace LoweredBody

/-- The method of closure `c` with the names of its frame. -/
def MethodIn (r : LoweredBody) (ctx : LoweringContext) (names : Names) (c : ClosureId) : Prop :=
  ∃ lm loc b b', ctx.declarations.methodOf? c = some lm ∧
    (ctx.graph.scope (ctx.graph.closure c).body).block = some b ∧
    b.LowersIn ctx names (ctx.methodSite lm loc) b' ∧
    r.declarations.methodOf? c = some { lm with body := some b' } ∧
    ∀ v, v.role = .parameter → names.standIn v = (lm.copies.lookup v).getD v

/-- A converted body with the names of its frames. -/
structure SettlesIn (r : LoweredBody) (ctx : LoweringContext) (m : MethodBody)
    (names : Option ClosureId → Names) : Prop where
  binds : ctx.Binds m
  made : ∀ fr, (names fr).Made
  body : ∃ block block', m.numbered.block = some block ∧
    r.body = { m.numbered with block := some block' } ∧
    block.LowersIn ctx (names none) { frame := { isStatic := ctx.method.isStatic } } block'
  params : ∀ v, v.role = .parameter → (names none).standIn v = v
  length : r.declarations.methods.length = ctx.graph.closures.size
  methods : ∀ c < ctx.graph.closures.size, r.MethodIn ctx (names (some c)) c

/-- The same for a body whose functions are called in scope. -/
structure LowersIn (r : LoweredBody) (ctx : LoweringContext) (m : MethodBody)
    (names : Option ClosureId → Names) : Prop extends r.SettlesIn ctx m names where
  fits : ctx.Fits m

namespace Written

variable {r : LoweredBody} (hr : r.Written ctx m) (hrole : m.InRole) (hfirst : m.DeclaresFirst)

include hr hrole hfirst

theorem exists_methodIn {c : ClosureId} (hc : c < ctx.graph.closures.size) :
    ∃ names : Names, names.Made ∧ r.MethodIn ctx names c := by
  have h : ctx.Binds m := ⟨hr.suits, hrole⟩
  have hholds := h.seated.exact.holds
  obtain ⟨lm, b', hlm, ⟨lm', loc, b, names, hlm', hblock, hl⟩, hmethod⟩ := hr.methods c hc
  obtain rfl : lm' = lm := Option.some.inj (hlm'.symm.trans hlm)
  have hd := h.declared.declared c lm' hlm
  obtain ⟨p, n, b₁, hn, hnested, hf⟩ := hholds.site_of_closure hc
  have hopen := Node.opened_of_nested hnested
  obtain rfl : b₁ = b := by
    have := ((hholds.lays p n hn).scope b₁ hopen).block
    rw [← hf.body, hblock] at this
    exact (Option.some.inj this).symm
  have hinner := Node.inner_of_opened hopen
  have hmem : b₁.stmts.map Node.stmt ∈ m.bodies := by
    refine List.mem_cons_of_mem _ (List.mem_filterMap.mpr ⟨(p, n), hn, ?_⟩)
    rw [hnested, Option.map_some, hinner]
  have hsites (k : Node) (hk : k ∈ b₁.stmts.map Node.stmt) :
      ∃ q, (q, k) ∈ m.numbered.sites ∧ q.scope = b₁.id :=
    ⟨p.into n, MethodBody.mem_sites_of_inner hn (hinner ▸ hk), Path.scope_into hopen p⟩
  -- the names at the start are those of parameters
  have hfresh (v : Variable) (hv : v.role = .declared) : lm'.copies.lookup v = none := by
    refine Option.eq_none_iff_forall_ne_some.mpr fun w hw => ?_
    have hmem : v ∈ lm'.copies.reverse.map (·.1) :=
      List.mem_map.mpr ⟨_, List.mem_reverse.mpr (mem_of_lookup hw), rfl⟩
    rw [hd.copies, List.reduceOption_mem_iff] at hmem
    have hfun : n.function? = some (ctx.graph.closure c).function := by
      rw [Node.function?, hnested]
      rfl
    cases hv.symm.trans (hrole.role_param hn hfun hmem)
  obtain ⟨hin, hbefore, hparams⟩ := h.settle_body hfirst hmem hsites hl hfresh
  refine ⟨names, hbefore.made ⟨fun p hp => (hd.copy p hp).2, ?_⟩, ?_⟩
  · exact fun p hp => absurd hp List.not_mem_nil
  · exact ⟨lm', loc, b₁, b', hlm, hblock, hin, hmethod, hparams⟩

/-- A converted body under settled names. -/
theorem exists_settled : ∃ names, r.SettlesIn ctx m names := by
  have h : ctx.Binds m := ⟨hr.suits, hrole⟩
  obtain ⟨block, block', names₀, hblock, hbody, hl⟩ := hr.body
  have htop : block.stmts.map Node.stmt = m.topNodes := by rw [MethodBody.topNodes, hblock]
  have hid := MethodBody.id_block hblock
  have hnone : ({} : Names).Made := ⟨by simp, by simp⟩
  obtain ⟨hin, hbefore, hparams⟩ := h.settle_body hfirst (htop ▸ List.mem_cons_self)
    (fun k hk => ⟨_, MethodBody.mem_sites_of_topNodes (htop ▸ hk), hid.symm⟩) hl fun _ _ => rfl
  have hclosure (c : ClosureId) : ∃ names : Names, names.Made ∧
      (c < ctx.graph.closures.size → r.MethodIn ctx names c) := by
    by_cases hc : c < ctx.graph.closures.size
    · obtain ⟨names, hmade, hin⟩ := hr.exists_methodIn hrole hfirst hc
      exact ⟨names, hmade, fun _ => hin⟩
    · exact ⟨{}, hnone, fun hc' => absurd hc' hc⟩
  choose names hmade hmethod using hclosure
  refine ⟨fun fr => fr.elim names₀ names, h, fun fr => ?_, ⟨block, block', hblock, hbody, hin⟩,
    hparams, hr.length, hmethod⟩
  cases fr with
  | none => exact hbefore.made hnone
  | some c => exact hmade c

end Written

theorem Lowers.exists_names {r : LoweredBody} (hr : r.Lowers ctx m) (hfirst : m.DeclaresFirst) :
    ∃ names, r.LowersIn ctx m names := by
  obtain ⟨names, h⟩ := hr.toWritten.exists_settled hr.fits.wellBound.inRole hfirst
  exact ⟨names, h, hr.fits⟩

end LoweredBody

end Unnest
