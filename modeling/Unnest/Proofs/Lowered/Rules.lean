import Unnest.Proofs.Lowered.Sound

/-!
# Lowering by rules

Lowering leaves most of a tree as it is. What it puts in the place of the rest, of a hoisted
variable, of the receiver, of a function that is bound or called and of an environment that begins,
is the matter of `LoweringRules`, and `Expr.LowersBy` and its companions relate trees in which these
places are filled by the rules. They speak of the two trees and of what is declared, and not of the
functions that write the second tree.

## Main definitions

* `View` : what is at hand at a place of a lowered method.
* `LoweringRules` : what may stand in the places that change.
* `LoweredBody.LowersBy` : a converted body that keeps to the rules.

## Main statements

* `LoweredBody.Written.lowersBy` : conversions keep to the rules that the functions of the lowering
  keep to.
* `Block.LowersBy.spreads` : what the rules bring about holds of all nodes of a lowered block.
-/

namespace Unnest

/-! ## Names -/

namespace Names

/-- The variable that stands for `v`. -/
def standIn (names : Names) (v : Variable) : Variable := (names.aliases.lookup v).getD v

/-- What made the names shows in their identities. -/
structure Made (names : Names) : Prop where
  aliases : ∀ p ∈ names.aliases, ∃ k, p.2.id = .copy k p.1.id
  holders : ∀ p ∈ names.holders, ∃ k, p.2.id = .holder k p.1

end Names

/-- The name `w` is `v` or a copy of it. -/
def Variable.StandsFor (w v : Variable) : Prop := w.id = v.id ∨ ∃ k, w.id = .copy k v.id

theorem Names.Made.standsFor {names : Names} (h : names.Made) (v : Variable) :
    (names.standIn v).StandsFor v := by
  rw [Names.standIn]
  cases hv : names.aliases.lookup v with
  | none => exact .inl rfl
  | some w => exact .inr (h.aliases _ (mem_of_lookup hv))

/-! ## Rules -/

/-- What is at hand at a place of a lowered method. -/
structure View where
  frame : Frame
  /-- The environments created around the place in this frame, and their locals. -/
  locals : List (EnvId × Variable) := []

/-- The same place after environment `e` is created in `holder`. -/
def View.hold (view : View) (e : EnvId) (holder : Variable) : View :=
  { view with locals := (e, holder) :: view.locals }

def Site.view (site : Site) : View := { frame := site.frame, locals := site.locals }

theorem Site.view_locate (site : Site) (loc : Loc) : (site.locate loc).view = site.view := by
  rw [Site.locate]
  split <;> rfl

/-- The locals and parameters at hand hold the environments they are listed for. -/
structure View.Held (view : View) : Prop where
  locals : ∀ p ∈ view.locals, ∃ k, p.2.id = .holder k p.1
  params : ∀ p ∈ view.frame.envParams, ∃ k, p.2.id = .holder k p.1

theorem View.Held.hold {view : View} (h : view.Held) {e : EnvId} {holder : Variable}
    (hid : ∃ k, holder.id = .holder k e) : (view.hold e holder).Held where
  locals p hp := by
    rcases List.mem_cons.mp hp with rfl | hp
    · exact hid
    · exact h.locals p hp
  params := h.params

/-- What may stand in the places that lowering changes. -/
structure LoweringRules where
  /-- For variable `v`, which is hoisted into environment `e`. -/
  hoisted : View → (e : EnvId) → (v : Variable) → Expr → Prop
  /-- For the receiver of the method being converted. -/
  receiver : View → Expr → Prop
  /-- For the receiver to which the method of a closure is bound. -/
  delegate : View → LoweredMethod → Option Expr → Prop
  /-- For the receiver on which the method of a closure is called, and the arguments after `args'`,
  which `args` have become. -/
  call : View → LoweredMethod → Option Expr → (args args' rest : List Expr) → Prop
  /-- For the statements that create environment `e` in `holder`. -/
  create : View → (e : EnvId) → (holder : Variable) → List Stmt → Prop

namespace LoweringContext

variable (ctx : LoweringContext) (R : LoweringRules)

/-- Scope `s` begins with the statements `created`, after which the view is another one. -/
inductive OpensBy (view : View) (s : ScopeId) : List Stmt → View → Prop where
  | bare (hs : (ctx.graph.scope s).env = none) : OpensBy view s [] view
  | env {e : EnvId} {holder : Variable} {created : List Stmt}
      (hs : (ctx.graph.scope s).env = some e) (hid : ∃ k, holder.id = .holder k e)
      (hcreate : R.create view e holder created) : OpensBy view s created (view.hold e holder)

/-- The declaration of `v`, whose initial value is already lowered. -/
inductive DeclaresBy (view : View) (loc : Loc) (v : Variable) :
    Option Expr → Option Stmt → Prop where
  | hoisted {e : EnvId} (he : ctx.graph.envOf? v = some e) : DeclaresBy view loc v none none
  | hoistedInit {e : EnvId} {init target : Expr} (he : ctx.graph.envOf? v = some e)
      (ht : R.hoisted view e v target) :
      DeclaresBy view loc v (some init) (some (.expr loc (.assign {} target init)))
  | plain {w : Variable} {init : Option Expr} (he : ctx.graph.envOf? v = none)
      (hw : w.StandsFor v) : DeclaresBy view loc v init (some (.declare loc (some w) init))

end LoweringContext

mutual

/-- Expression `e` is lowered to another one by the rules. -/
inductive Expr.LowersBy (ctx : LoweringContext) (R : LoweringRules) (view : View) :
    Expr → Expr → Prop where
  | literal {loc value type} :
      Expr.LowersBy ctx R view (.literal loc value type)
        (.literal loc value (ctx.spell view.frame type))
  | plain {loc v w} (he : ctx.graph.envOf? v = none) (hw : w.StandsFor v) :
      Expr.LowersBy ctx R view (.ref loc (some v)) (.ref loc (some w))
  | hoisted {loc v e x} (he : ctx.graph.envOf? v = some e) (hx : R.hoisted view e v x) :
      Expr.LowersBy ctx R view (.ref loc (some v)) (x.withLoc loc)
  | self {loc type x} (hx : R.receiver view x) :
      Expr.LowersBy ctx R view (.self loc type) (x.withLoc loc)
  | assign {loc target target' value value'} (ht : Expr.LowersBy ctx R view target target')
      (hv : Expr.LowersBy ctx R view value value') :
      Expr.LowersBy ctx R view (.assign loc target value) (.assign loc target' value')
  | binary {loc op lhs lhs' rhs rhs'} (hl : Expr.LowersBy ctx R view lhs lhs')
      (hr : Expr.LowersBy ctx R view rhs rhs') :
      Expr.LowersBy ctx R view (.binary loc op lhs rhs) (.binary loc op lhs' rhs')
  | lambda {loc f body c lm r} (hc : ctx.graph.closureOf? f = some c)
      (hm : ctx.declarations.methodOf? c = some lm) (hr : R.delegate view lm r) :
      Expr.LowersBy ctx R view (.lambda loc (some f) body) (.delegate loc r lm.symbol)
  | functionRef {loc f c lm r} (hc : ctx.graph.closureOf? f = some c)
      (hm : ctx.declarations.methodOf? c = some lm) (hr : R.delegate view lm r) :
      Expr.LowersBy ctx R view (.functionRef loc (some f)) (.delegate loc r lm.symbol)
  | localCall {loc f args args' c lm r rest} (hc : ctx.graph.closureOf? f = some c)
      (hm : ctx.declarations.methodOf? c = some lm) (ha : Expr.AllLowerBy ctx R view args args')
      (hr : R.call view lm r args args' rest) :
      Expr.LowersBy ctx R view (.localCall loc f args) (.call loc lm.symbol r (args' ++ rest))
  | call {loc method receiver receiver' args args'}
      (hr : Expr.OptLowersBy ctx R view receiver receiver')
      (ha : Expr.AllLowerBy ctx R view args args') :
      Expr.LowersBy ctx R view (.call loc method receiver args) (.call loc method receiver' args')
  | invoke {loc callee callee' args args'} (hc : Expr.LowersBy ctx R view callee callee')
      (ha : Expr.AllLowerBy ctx R view args args') :
      Expr.LowersBy ctx R view (.invoke loc callee args) (.invoke loc callee' args')
  | field {loc receiver receiver' f} (hr : Expr.LowersBy ctx R view receiver receiver') :
      Expr.LowersBy ctx R view (.field loc receiver f) (.field loc receiver' f)
  | newEnv {loc type} :
      Expr.LowersBy ctx R view (.newEnv loc type) (.newEnv loc (ctx.spell view.frame type))
  | zero {loc type} :
      Expr.LowersBy ctx R view (.zero loc type) (.zero loc (ctx.spell view.frame type))
  | delegate {loc receiver receiver' method}
      (hr : Expr.OptLowersBy ctx R view receiver receiver') :
      Expr.LowersBy ctx R view (.delegate loc receiver method) (.delegate loc receiver' method)

inductive Expr.OptLowersBy (ctx : LoweringContext) (R : LoweringRules) (view : View) :
    Option Expr → Option Expr → Prop where
  | none : Expr.OptLowersBy ctx R view none none
  | some {e e'} (h : Expr.LowersBy ctx R view e e') :
      Expr.OptLowersBy ctx R view (some e) (some e')

inductive Expr.AllLowerBy (ctx : LoweringContext) (R : LoweringRules) (view : View) :
    List Expr → List Expr → Prop where
  | nil : Expr.AllLowerBy ctx R view [] []
  | cons {e e' es es'} (h : Expr.LowersBy ctx R view e e')
      (hs : Expr.AllLowerBy ctx R view es es') :
      Expr.AllLowerBy ctx R view (e :: es) (e' :: es')

end

mutual

/-- Statement `s` is lowered by the rules to another one, or to nothing. -/
inductive Stmt.LowersBy (ctx : LoweringContext) (R : LoweringRules) :
    View → Stmt → Option Stmt → Prop where
  | block {view b b'} (h : Block.LowersBy ctx R view b b') :
      Stmt.LowersBy ctx R view (.block b) (some (.block b'))
  | declare {view loc v init init' s'} (hi : Expr.OptLowersBy ctx R view init init')
      (hd : ctx.DeclaresBy R view loc v init' s') :
      Stmt.LowersBy ctx R view (.declare loc (some v) init) s'
  | declareNothing {view loc init init'} (hi : Expr.OptLowersBy ctx R view init init') :
      Stmt.LowersBy ctx R view (.declare loc none init) (some (.declare loc none init'))
  | expr {view loc value value'} (h : Expr.LowersBy ctx R view value value') :
      Stmt.LowersBy ctx R view (.expr loc value) (some (.expr loc value'))
  | ret {view loc value value'} (h : Expr.OptLowersBy ctx R view value value') :
      Stmt.LowersBy ctx R view (.ret loc value) (some (.ret loc value'))
  | cond {view loc test test' thenBlock thenBlock' elseBlock elseBlock'}
      (ht : Expr.LowersBy ctx R view test test')
      (hb : Block.LowersBy ctx R view thenBlock thenBlock')
      (he : Block.OptLowersBy ctx R view elseBlock elseBlock') :
      Stmt.LowersBy ctx R view (.cond loc test thenBlock elseBlock)
        (some (.cond loc test' thenBlock' elseBlock'))
  | loop {view loc test test' body body'} (ht : Expr.LowersBy ctx R view test test')
      (hb : Block.LowersBy ctx R view body body') :
      Stmt.LowersBy ctx R view (.loop loc test body) (some (.loop loc test' body'))
  | localFunction {view loc f body} :
      Stmt.LowersBy ctx R view (.localFunction loc (some f) body) none

inductive Stmt.AllLowerBy (ctx : LoweringContext) (R : LoweringRules) :
    View → List Stmt → List Stmt → Prop where
  | nil {view} : Stmt.AllLowerBy ctx R view [] []
  | cons {view s s' ss ss'} (h : Stmt.LowersBy ctx R view s s')
      (hs : Stmt.AllLowerBy ctx R view ss ss') :
      Stmt.AllLowerBy ctx R view (s :: ss) (s'.toList ++ ss')

inductive Block.LowersBy (ctx : LoweringContext) (R : LoweringRules) :
    View → Block → Block → Prop where
  | mk {view id loc stmts created view' stmts'} (ho : ctx.OpensBy R view id created view')
      (hs : Stmt.AllLowerBy ctx R view' stmts stmts') :
      Block.LowersBy ctx R view (.mk id loc stmts) (.mk id loc (created ++ stmts'))

inductive Block.OptLowersBy (ctx : LoweringContext) (R : LoweringRules) :
    View → Option Block → Option Block → Prop where
  | none {view} : Block.OptLowersBy ctx R view none none
  | some {view b b'} (h : Block.LowersBy ctx R view b b') :
      Block.OptLowersBy ctx R view (some b) (some b')

end

/-- A converted body that keeps to the rules. Every method comes from a nested function, and every
nested function has become a method. -/
structure LoweredBody.LowersBy (r : LoweredBody) (ctx : LoweringContext) (m : MethodBody)
    (R : LoweringRules) : Prop where
  body : ∃ block block', m.numbered.block = some block ∧
    r.body = { m.numbered with block := some block' } ∧
    block.LowersBy ctx R { frame := { isStatic := ctx.method.isStatic } } block'
  methods : ∀ lm ∈ r.declarations.methods, ∃ p n f b b', (p, n) ∈ m.numbered.sites ∧
    n.nested? = some (some f, b) ∧ ctx.graph.closureOf? f = some lm.closure ∧
    lm.body = some b' ∧ b.LowersBy ctx R (ctx.methodSite lm {}).view b'
  nested : ∀ p n f, (p, n) ∈ m.numbered.sites → n.function? = some f →
    ∃ c lm, ctx.graph.closureOf? f = some c ∧ r.declarations.methodOf? c = some lm

/-! ## Keeping to the rules -/

/-- The functions that write lowered trees keep to the rules. Methods are those in `d`, where they
have got their bodies. -/
structure LoweringContext.Keeps (ctx : LoweringContext) (m : MethodBody) (d : Declarations)
    (R : LoweringRules) : Prop where
  methods : ∀ {c lm}, ctx.declarations.methodOf? c = some lm →
    ∃ b, d.methodOf? c = some { lm with body := b }
  hoisted : ∀ {site aliases e v x}, site.view.Held → ctx.graph.envOf? v = some e →
    ctx.variableRef site aliases v = .ok x → R.hoisted site.view e v x
  receiver : ∀ {site x}, site.view.Held → ctx.receiverRef site = .ok x → R.receiver site.view x
  lambda : ∀ {p loc f b site c lm r}, site.view.Held →
    (p, .expr (.lambda loc (some f) b)) ∈ m.numbered.sites →
    ctx.graph.closureOf? f = some c → d.methodOf? c = some lm →
    ctx.callReceiver site lm = .ok r → R.delegate site.view lm r
  functionRef : ∀ {p loc f site c lm r}, site.view.Held →
    (p, .expr (.functionRef loc (some f))) ∈ m.numbered.sites →
    ctx.graph.closureOf? f = some c → d.methodOf? c = some lm →
    ctx.callReceiver site lm = .ok r → R.delegate site.view lm r
  call : ∀ {site c lm r es} {args args' : List Expr}, site.view.Held → d.methodOf? c = some lm →
    ctx.callReceiver site lm = .ok r →
    (lm.envParams.mapM fun p => ctx.envRef site p.1) = .ok es → args'.length = args.length →
    R.call site.view lm r args args' es
  create : ∀ {site s e t holder created site'} {names : Names}, site.view.Held → names.Made →
    (ctx.graph.scope s).env = some e → ctx.declarations.typeOf? e = some t →
    (∃ k, holder.id = .holder k e) →
    ctx.createEnv site names.aliases e t holder = .ok (created, site') →
    R.create site.view e holder created

section Keeps

variable {ctx : LoweringContext} {m : MethodBody} {d : Declarations} {R : LoweringRules}
  {site : Site} {names names' : Names}

/-- The steps of a computation that succeeds succeed. -/
theorem exists_of_bind_ok {ε α β : Type} {x : Except ε α} {f : α → Except ε β} {b : β}
    (h : (x >>= f) = .ok b) : ∃ a, x = .ok a ∧ f a = .ok b := by
  cases x with
  | error e => exact nomatch h
  | ok a => exact ⟨a, rfl, h⟩

theorem exists_of_map_ok {ε α β : Type} {x : Except ε α} {f : α → β} {b : β}
    (h : x.map f = .ok b) : ∃ a, x = .ok a ∧ f a = b := by
  cases x with
  | error e => exact nomatch h
  | ok a => exact ⟨a, rfl, Except.ok.inj h⟩

theorem exists_of_isOk {ε α : Type} {x : Except ε α} (h : x.isOk = true) : ∃ a, x = .ok a := by
  cases x with
  | error e => exact nomatch h
  | ok a => exact ⟨a, rfl⟩

theorem forall₂_of_mapM_ok {ε α β : Type} {f : α → Except ε β} {l : List α} {bs : List β}
    (h : l.mapM f = .ok bs) : List.Forall₂ (fun a b => f a = .ok b) l bs := by
  induction l generalizing bs with
  | nil =>
    obtain rfl := Except.ok.inj h
    exact .nil
  | cons a l ih =>
    rw [List.mapM_cons] at h
    obtain ⟨b, hb, h⟩ := exists_of_bind_ok h
    obtain ⟨bs', hbs, h⟩ := exists_of_bind_ok h
    obtain rfl := Except.ok.inj h
    exact .cons hb (ih hbs)

theorem exists_mem_of_forall₂ {α β : Type} {R : α → β → Prop} {l : List α} {l' : List β}
    (h : List.Forall₂ R l l') :
    (∀ a ∈ l, ∃ b ∈ l', R a b) ∧ ∀ b ∈ l', ∃ a ∈ l, R a b := by
  induction h with
  | nil => simp
  | cons _ _ ih => grind

/-- What creating an environment consists of. -/
theorem LoweringContext.createEnv_inv {aliases : List (Variable × Variable)} {e : EnvId}
    {t : EnvType} {holder : Variable} {created : List Stmt} {site' : Site}
    (h : ctx.createEnv site aliases e t holder = .ok (created, site')) :
    site'.view = site.view.hold e holder ∧ ∃ init parent stores,
      created = .declare {} (some holder) (some init) :: parent ++ stores.flatten ∧
      init = (if (ctx.graph.env e).isValue then .zero {} holder.type else .newEnv {} holder.type) ∧
      ctx.storeParent site e t holder = .ok parent ∧
      (ctx.graph.env e).vars.toList.mapM (ctx.storeVariable site aliases t holder) =
        .ok stores := by
  rw [createEnv] at h
  obtain ⟨parent, hparent, h⟩ := exists_of_bind_ok h
  obtain ⟨stores, hstores, h⟩ := exists_of_bind_ok h
  obtain ⟨rfl, rfl⟩ := Prod.mk.inj (Except.ok.inj h)
  exact ⟨rfl, _, parent, stores, rfl, rfl, hparent, hstores⟩

/-- What setting the parent link consists of. -/
theorem LoweringContext.storeParent_inv {e : EnvId} {t : EnvType} {holder : Variable}
    {parent : List Stmt} (h : ctx.storeParent site e t holder = .ok parent) :
    (t.link = none ∧ parent = []) ∨ ∃ link x, t.link = some link ∧ parent = [store holder link x] ∧
      ((∃ p, ctx.graph.runtimeParent? e = some p ∧ ctx.envRef site p = .ok x) ∨
        ctx.graph.runtimeParent? e = none ∧ ctx.receiverRef site = .ok x) := by
  cases hl : t.link with
  | none =>
    simp only [storeParent, hl] at h
    exact .inl ⟨rfl, (Except.ok.inj h).symm⟩
  | some link =>
    simp only [storeParent, hl] at h
    split at h
    · rename_i hparent
      rw [hparent]
      cases hin : site.innermost with
      | some p =>
        simp only [hin] at h
        obtain ⟨x, hx, h⟩ := exists_of_bind_ok h
        exact .inr ⟨link, x, rfl, (Except.ok.inj h).symm, .inl ⟨p, rfl, hx⟩⟩
      | none =>
        simp only [hin] at h
        obtain ⟨x, hx, h⟩ := exists_of_bind_ok h
        exact .inr ⟨link, x, rfl, (Except.ok.inj h).symm, .inr ⟨rfl, hx⟩⟩
    · exact nomatch h

/-- What storing a variable in its new environment consists of. -/
theorem LoweringContext.storeVariable_inv {aliases : List (Variable × Variable)} {t : EnvType}
    {holder v : Variable} {ss : List Stmt}
    (h : ctx.storeVariable site aliases t holder v = .ok ss) :
    (ss = [] ∧ (v.role = .declared ∨ t.field? v = none)) ∨
      ∃ f x, t.field? v = some f ∧ ss = [store holder f x] ∧
        (v.role = .receiver ∧ ctx.receiverRef site = .ok x ∨
          v.role = .parameter ∧ x = .ref {} (some ((aliases.lookup v).getD v))) := by
  rw [storeVariable] at h
  split at h
  · rename_i f hr hf
    obtain ⟨x, hx, h⟩ := exists_of_bind_ok h
    exact .inr ⟨f, x, hf, (Except.ok.inj h).symm, .inl ⟨hr, hx⟩⟩
  · rename_i f hr hf
    exact .inr ⟨f, _, hf, (Except.ok.inj h).symm, .inr ⟨hr, rfl⟩⟩
  · rename_i hreceiver hparameter
    refine .inl ⟨(Except.ok.inj h).symm, ?_⟩
    cases hf : t.field? v with
    | none => exact .inr rfl
    | some f =>
      cases hr : v.role with
      | declared => exact .inl rfl
      | receiver => exact absurd hf (hreceiver f hr)
      | parameter => exact absurd hf (hparameter f hr)

theorem Expr.AllLowerTo.length_eq {aliases : List (Variable × Variable)} {es es' : List Expr}
    (h : AllLowerTo ctx site aliases es es') : es'.length = es.length := by
  induction es generalizing es' with
  | nil =>
    cases h
    rfl
  | cons e es ih =>
    cases h with
    | cons _ hs => simp [ih hs]

/-- The node stands in the body. -/
def MethodBody.Has (m : MethodBody) (n : Node) : Prop := ∃ p, (p, n) ∈ m.numbered.sites

theorem MethodBody.Has.inner {n k : Node} (h : m.Has n) (hk : k ∈ n.inner) : m.Has k := by
  obtain ⟨p, hn⟩ := h
  exact ⟨_, mem_sites_of_inner hn hk⟩

theorem MethodBody.Has.operand {e x : Expr} (h : m.Has (.expr e))
    (hnone : (Node.expr e).opened? = none) (hx : x ∈ e.operands) : m.Has (.expr x) := by
  obtain ⟨p, hn⟩ := h
  exact ⟨p, (mem_sites_of_operand hn hnone hx).2⟩

variable (hR : ctx.Keeps m d R)

mutual

theorem Expr.LowersTo.lowersBy {site : Site} {view : View} {e e' : Expr}
    (hl : e.LowersTo ctx site names.aliases e') (hR : ctx.Keeps m d R) (hview : site.view = view)
    (hheld : view.Held) (hm : names.Made) (he : m.Has (.expr e)) :
    e.LowersBy { ctx with declarations := d } R view e' := by
  subst hview
  have hloc (loc : Loc) := site.view_locate loc
  cases hl with
  | literal => exact .literal
  | newEnv => exact .newEnv
  | zero => exact .zero
  | @ref _ _ loc v x hx =>
    cases hv : ctx.graph.envOf? v with
    | none =>
      simp only [LoweringContext.variableRef, hv] at hx
      obtain rfl := Except.ok.inj hx
      exact .plain hv (hm.standsFor v)
    | some env => exact .hoisted hv (hloc loc ▸ hR.hoisted (by rwa [hloc]) hv hx)
  | @self _ _ loc _ x hx => exact .self (hloc loc ▸ hR.receiver (by rwa [hloc]) hx)
  | assign ht hv =>
    exact .assign (ht.lowersBy hR (hloc _) hheld hm (he.operand rfl (by simp [operands])))
      (hv.lowersBy hR (hloc _) hheld hm (he.operand rfl (by simp [operands])))
  | binary hx hy =>
    exact .binary (hx.lowersBy hR (hloc _) hheld hm (he.operand rfl (by simp [operands])))
      (hy.lowersBy hR (hloc _) hheld hm (he.operand rfl (by simp [operands])))
  | @lambda _ _ loc f body c lm r hc hlm hr =>
    obtain ⟨b, hd⟩ := hR.methods hlm
    obtain ⟨p, hn⟩ := he
    change Expr.LowersBy _ R _ _ (.delegate loc r ({ lm with body := b } : LoweredMethod).symbol)
    exact .lambda hc hd (hloc loc ▸ hR.lambda (by rwa [hloc]) hn hc hd hr)
  | @functionRef _ _ loc f c lm r hc hlm hr =>
    obtain ⟨b, hd⟩ := hR.methods hlm
    obtain ⟨p, hn⟩ := he
    change Expr.LowersBy _ R _ _ (.delegate loc r ({ lm with body := b } : LoweredMethod).symbol)
    exact .functionRef hc hd (hloc loc ▸ hR.functionRef (by rwa [hloc]) hn hc hd hr)
  | @localCall _ _ loc f args args' c lm r es hc hlm hr ha hes =>
    obtain ⟨b, hd⟩ := hR.methods hlm
    change Expr.LowersBy _ R _ _
      (.call loc ({ lm with body := b } : LoweredMethod).symbol r (args' ++ es))
    exact .localCall hc hd (ha.lowersBy hR (hloc _) hheld hm fun x hx => he.operand rfl hx)
      (hloc loc ▸ hR.call (by rwa [hloc]) hd hr hes ha.length_eq)
  | call hr ha =>
    exact .call
      (hr.lowersBy hR (hloc _) hheld hm fun x hx => he.operand rfl (List.mem_append_left _ hx))
      (ha.lowersBy hR (hloc _) hheld hm fun x hx => he.operand rfl (List.mem_append_right _ hx))
  | invoke hc ha =>
    exact .invoke (hc.lowersBy hR (hloc _) hheld hm (he.operand rfl List.mem_cons_self))
      (ha.lowersBy hR (hloc _) hheld hm fun x hx => he.operand rfl (List.mem_cons_of_mem _ hx))
  | field hr => exact .field (hr.lowersBy hR (hloc _) hheld hm (he.operand rfl List.mem_cons_self))
  | delegate hr =>
    exact .delegate (hr.lowersBy hR (hloc _) hheld hm fun x hx => he.operand rfl hx)

theorem Expr.OptLowersTo.lowersBy {site : Site} {view : View} {e e' : Option Expr}
    (hl : Expr.OptLowersTo ctx site names.aliases e e') (hR : ctx.Keeps m d R)
    (hview : site.view = view) (hheld : view.Held) (hm : names.Made)
    (he : ∀ x ∈ e.toList, m.Has (.expr x)) :
    Expr.OptLowersBy { ctx with declarations := d } R view e e' := by
  cases hl with
  | none => exact .none
  | some hx => exact .some (hx.lowersBy hR hview hheld hm (he _ List.mem_cons_self))

theorem Expr.AllLowerTo.lowersBy {site : Site} {view : View} {es es' : List Expr}
    (hl : Expr.AllLowerTo ctx site names.aliases es es') (hR : ctx.Keeps m d R)
    (hview : site.view = view) (hheld : view.Held) (hm : names.Made)
    (he : ∀ x ∈ es, m.Has (.expr x)) :
    Expr.AllLowerBy { ctx with declarations := d } R view es es' := by
  cases hl with
  | nil => exact .nil
  | cons hx hs =>
    exact .cons (hx.lowersBy hR hview hheld hm (he _ List.mem_cons_self))
      (hs.lowersBy hR hview hheld hm fun x hx => he x (List.mem_cons_of_mem _ hx))

end

include hR

/-! ## Statements -/

theorem LoweringContext.Opens.opensBy {s : ScopeId} {created : List Stmt} {site' : Site}
    (hview : site.view.Held) (hm : names.Made)
    (ho : ctx.Opens site names s created site' names') :
    LoweringContext.OpensBy { ctx with declarations := d } R site.view s created site'.view ∧
      site'.view.Held ∧ names'.Made := by
  cases ho with
  | bare hs => exact ⟨.bare hs, hview, hm⟩
  | @env e t holder _ _ hs ht hid hcreate =>
    rw [(ctx.createEnv_inv hcreate).1]
    refine ⟨.env hs hid (hR.create hview hm hs ht hid hcreate), hview.hold hid, hm.aliases,
      fun q hq => ?_⟩
    rcases List.mem_cons.mp hq with rfl | hq
    · exact hid
    · exact hm.holders q hq

theorem LoweringContext.LowersDeclaration.declaresBy {loc : Loc} {v : Variable}
    {init : Option Expr} {s' : Option Stmt} (hview : site.view.Held) (hm : names.Made)
    (hl : ctx.LowersDeclaration site names loc v init s' names') :
    LoweringContext.DeclaresBy { ctx with declarations := d } R site.view loc v init s' ∧
      names'.Made := by
  cases hl with
  | hoisted he => exact ⟨.hoisted he, hm⟩
  | hoistedInit he ht => exact ⟨.hoistedInit he (hR.hoisted hview he ht), hm⟩
  | same he hs => exact ⟨.plain he (.inl rfl), hm⟩
  | copy he hs hid =>
    refine ⟨.plain he (.inr hid), fun q hq => ?_, hm.holders⟩
    rcases List.mem_cons.mp hq with rfl | hq
    · exact hid
    · exact hm.aliases q hq

omit hR

mutual

theorem Stmt.LowersTo.lowersBy {site : Site} {view : View} {names names' : Names} {s : Stmt}
    {s' : Option Stmt} (hl : s.LowersTo ctx site names s' names') (hR : ctx.Keeps m d R)
    (hview : site.view = view) (hheld : view.Held) (hm : names.Made) (hs : m.Has (.stmt s)) :
    s.LowersBy { ctx with declarations := d } R view s' ∧ names'.Made := by
  subst hview
  have hloc (loc : Loc) := site.view_locate loc
  cases hl with
  | block hb =>
    obtain ⟨hb, hm'⟩ := hb.lowersBy hR (hloc _) hheld hm fun s h => hs.inner (List.mem_map_of_mem h)
    exact ⟨.block hb, hm'⟩
  | declare hi hdecl =>
    have hi := hi.lowersBy hR (hloc _) hheld hm fun x h => hs.inner (List.mem_map_of_mem h)
    obtain ⟨hdecl, hm'⟩ := hdecl.declaresBy hR (by rwa [hloc]) hm
    exact ⟨.declare hi (hloc _ ▸ hdecl), hm'⟩
  | declareNothing hi =>
    exact ⟨.declareNothing (hi.lowersBy hR (hloc _) hheld hm fun x h =>
      hs.inner (List.mem_map_of_mem h)), hm⟩
  | expr hx =>
    exact ⟨.expr (hx.lowersBy hR (hloc _) hheld hm (hs.inner (by simp [Node.inner]))), hm⟩
  | ret hx =>
    exact ⟨.ret (hx.lowersBy hR (hloc _) hheld hm fun x h => hs.inner (List.mem_map_of_mem h)), hm⟩
  | @cond _ _ loc test _ b _ b₁ _ _ _ ht hb he =>
    have hin {k : Block} (hk : .block k ∈ (Node.stmt (.cond loc test b b₁)).inner) (s : Stmt)
        (h : s ∈ k.stmts) : m.Has (.stmt s) := (hs.inner hk).inner (List.mem_map_of_mem h)
    have ht := ht.lowersBy hR (hloc _) hheld hm (hs.inner (by simp [Node.inner]))
    obtain ⟨hthen, hm₁⟩ := hb.lowersBy hR (hloc _) hheld hm (hin (by simp [Node.inner]))
    cases he with
    | none => exact ⟨.cond ht hthen .none, hm₁⟩
    | some he =>
      obtain ⟨helse, hm₂⟩ := he.lowersBy hR (hloc _) hheld hm₁ (hin (by simp [Node.inner]))
      exact ⟨.cond ht hthen (.some helse), hm₂⟩
  | @loop _ _ loc test _ b _ _ ht hb =>
    have hbody : m.Has (.block b) := hs.inner (by simp [Node.inner])
    have ht := ht.lowersBy hR (hloc _) hheld hm (hs.inner (by simp [Node.inner]))
    obtain ⟨hb, hm'⟩ := hb.lowersBy hR (hloc _) hheld hm fun s h =>
      hbody.inner (List.mem_map_of_mem h)
    exact ⟨.loop ht hb, hm'⟩
  | localFunction => exact ⟨.localFunction, hm⟩

theorem Stmt.AllLowerTo.lowersBy {site : Site} {view : View} {names names' : Names}
    {ss ss' : List Stmt} (hl : Stmt.AllLowerTo ctx site names ss ss' names')
    (hR : ctx.Keeps m d R) (hview : site.view = view) (hheld : view.Held) (hm : names.Made)
    (hs : ∀ s ∈ ss, m.Has (.stmt s)) :
    Stmt.AllLowerBy { ctx with declarations := d } R view ss ss' ∧ names'.Made := by
  cases hl with
  | nil => exact ⟨.nil, hm⟩
  | cons h hss =>
    obtain ⟨h, hm₁⟩ := h.lowersBy hR hview hheld hm (hs _ List.mem_cons_self)
    obtain ⟨hss, hm₂⟩ := hss.lowersBy hR hview hheld hm₁ fun s h => hs s (List.mem_cons_of_mem _ h)
    exact ⟨.cons h hss, hm₂⟩

/-- Blocks keep to the rules. -/
theorem Block.LowersTo.lowersBy {site : Site} {view : View} {names names' : Names} {b b' : Block}
    (hl : b.LowersTo ctx site names b' names') (hR : ctx.Keeps m d R) (hview : site.view = view)
    (hheld : view.Held) (hm : names.Made) (hs : ∀ s ∈ b.stmts, m.Has (.stmt s)) :
    b.LowersBy { ctx with declarations := d } R view b' ∧ names'.Made := by
  subst hview
  cases hl with
  | mk ho hss =>
    obtain ⟨ho, hheld', hm₁⟩ := ho.opensBy hR hheld hm
    obtain ⟨hss, hm₂⟩ := hss.lowersBy hR rfl hheld' hm₁ hs
    exact ⟨.mk ho hss, hm₂⟩

end

end Keeps

namespace LoweredBody.Written

variable {r : LoweredBody} {ctx : LoweringContext} {m : MethodBody} (h : r.Written ctx m)

include h

/-- Methods are declared first and then get their bodies. -/
theorem methodOf_eq {c : ClosureId} {lm : LoweredMethod}
    (hlm : ctx.declarations.methodOf? c = some lm) :
    ∃ b, r.declarations.methodOf? c = some { lm with body := b } := by
  have hc : c < ctx.graph.closures.size := by
    rw [← h.suits.declared.length]
    exact (List.getElem?_eq_some_iff.mp hlm).1
  obtain ⟨lm', b, hlm', -, hmethod⟩ := h.methods c hc
  obtain rfl : lm' = lm := Option.some.inj (hlm'.symm.trans hlm)
  exact ⟨_, hmethod⟩

/-- Whatever method there is, its body is what the body of a nested function is lowered to. -/
theorem lowersTo {lm : LoweredMethod} (hlm : lm ∈ r.declarations.methods) :
    ∃ lm₀ loc p n b b' names, lm = { lm₀ with body := some b' } ∧
      lm₀.closure < ctx.graph.closures.size ∧
      ctx.declarations.methodOf? lm₀.closure = some lm₀ ∧ (p, n) ∈ m.numbered.sites ∧
      n.nested? = some (some (ctx.graph.closure lm₀.closure).function, b) ∧
      b.LowersTo ctx (ctx.methodSite lm₀ loc) { aliases := lm₀.copies } b' names := by
  have hholds := h.suits.seated.exact.holds
  obtain ⟨c, hc, hget⟩ := List.mem_iff_getElem.mp hlm
  have hc : c < ctx.graph.closures.size := h.length ▸ hc
  obtain ⟨lm₀, b', hlm₀, ⟨lm₁, loc, b, names, hlm₁, hblock, hl⟩, hmethod⟩ := h.methods c hc
  obtain rfl : lm₁ = lm₀ := Option.some.inj (hlm₁.symm.trans hlm₀)
  obtain rfl : lm = { lm₁ with body := some b' } := by
    rw [Declarations.methodOf?, List.getElem?_eq_getElem (h.length ▸ hc), hget] at hmethod
    exact Option.some.inj hmethod
  obtain rfl : lm₁.closure = c := (h.suits.declared.declared c lm₁ hlm₁).closure
  obtain ⟨p, n, b₁, hn, hnested, hlays⟩ := hholds.site_of_closure hc
  obtain rfl : b₁ = b := by
    have := ((hholds.lays p n hn).scope b₁ (Node.opened_of_nested hnested)).block
    rw [hlays.body, this] at hblock
    exact Option.some.inj hblock
  exact ⟨lm₁, loc, p, n, b₁, b', names, rfl, hc, hlm₁, hn, hnested, hl⟩

variable {R : LoweringRules} (hR : ctx.Keeps m r.declarations R)

include hR

theorem lowersBy_of_nested {c : ClosureId} {lm : LoweredMethod} {loc : Loc} {p : Path} {n : Node}
    {fn : Option NestedFunction} {b b' : Block} {names : Names}
    (hlm : ctx.declarations.methodOf? c = some lm) (hn : (p, n) ∈ m.numbered.sites)
    (hnested : n.nested? = some (fn, b))
    (hl : b.LowersTo ctx (ctx.methodSite lm loc) { aliases := lm.copies } b' names) :
    b.LowersBy { ctx with declarations := r.declarations } R
      (LoweringContext.methodSite { ctx with declarations := r.declarations }
        { lm with body := some b' } {}).view b' := by
  have hdecl := h.suits.declared.declared c lm hlm
  have hmade : Names.Made { aliases := lm.copies } :=
    ⟨fun q hq => (hdecl.copy q hq).2, by simp⟩
  have hview : (LoweringContext.methodSite { ctx with declarations := r.declarations }
      { lm with body := some b' } {}).view = (ctx.methodSite lm loc).view := by
    have htypes : r.declarations.typeOf? = ctx.declarations.typeOf? := by
      funext e
      rw [Declarations.typeOf?, Declarations.typeOf?, h.types]
    simp only [LoweringContext.methodSite, Site.view, htypes]
  have hheld : (ctx.methodSite lm loc).view.Held :=
    ⟨by simp [LoweringContext.methodSite, Site.view], fun q hq => (hdecl.holder q hq).2⟩
  have hin := Node.inner_of_opened (Node.opened_of_nested hnested)
  rw [hview]
  exact (hl.lowersBy hR rfl hheld hmade fun s hs =>
    MethodBody.Has.inner ⟨p, hn⟩ (hin ▸ List.mem_map_of_mem hs)).1

/-- Conversions keep to the rules that the functions of the lowering keep to. -/
theorem lowersBy : r.LowersBy { ctx with declarations := r.declarations } m R := by
  have hholds := h.suits.seated.exact.holds
  constructor
  case body =>
    obtain ⟨block, block', names, hblock, hbody, hl⟩ := h.body
    refine ⟨block, block', hblock, hbody, (hl.lowersBy hR rfl ⟨by simp [Site.view], by
      simp [Site.view]⟩ ⟨by simp, by simp⟩ fun s hs =>
        ⟨.outermost, MethodBody.mem_sites_of_topNodes ?_⟩).1⟩
    simp only [MethodBody.topNodes, hblock]
    exact List.mem_map_of_mem hs
  case methods =>
    intro lm' hlm'
    obtain ⟨lm, loc, p, n, b, b', names, rfl, hc, hlm, hn, hnested, hl⟩ := h.lowersTo hlm'
    exact ⟨p, n, _, b, b', hn, hnested, hholds.closureOf_eq_some.mpr ⟨hc, rfl⟩, rfl,
      h.lowersBy_of_nested hR hlm hn hnested hl⟩
  case nested =>
    intro p n f hn hf
    obtain ⟨⟨fn, b⟩, hnested, hfn⟩ := Option.bind_eq_some_iff.mp hf
    obtain ⟨f', c, hf', hlays⟩ := (hholds.lays p n hn).function fn b hnested
    obtain rfl : f' = f := Option.some.inj (hf'.symm.trans hfn)
    obtain ⟨lm, b', -, -, hmethod⟩ := h.methods c hlays.lt
    exact ⟨c, _, hholds.closureOf_eq_some.mpr ⟨hlays.lt, hlays.function⟩, hmethod⟩

end LoweredBody.Written

/-! ## Nodes of lowered trees -/

section Spreads

variable {ctx : LoweringContext} {m : MethodBody} {R : LoweringRules} {ns : List Node}
  {V : View → Prop} {Q : Expr → Prop} {P : Node → Prop} {view : View}

/-- A variable that is referred to in a resolved body is declared in it. -/
theorem Graph.Exact.mem_declared {g : Graph} (hx : g.Exact m) {loc : Loc} {v : Variable}
    (h : m.Has (.expr (.ref loc (some v)))) : v ∈ m.declared := by
  obtain ⟨p, hn⟩ := h
  obtain ⟨v', a, hv', ha, -⟩ := (hx.resolved _ hn).reference (some v) rfl
  obtain rfl := Option.some.inj hv'
  obtain ⟨q, hq, -⟩ := hx.holds.declares_of_mem_vars (Graph.mem_of_declaringScope ha)
  exact MethodBody.mem_declared.mpr ⟨q, hq⟩

/-- What makes `P` hold of all nodes of a lowered tree: `Q` holds of the expressions at the places
where `V` does. All nodes of the tree are among `ns`. -/
structure LoweringContext.Spreads (ctx : LoweringContext) (m : MethodBody) (R : LoweringRules)
    (ns : List Node) (V : View → Prop) (Q : Expr → Prop) (P : Node → Prop) : Prop where
  expr : ∀ {view e e'}, V view → m.Has (.expr e) → e.LowersBy ctx R view e' → Q e'
  assign : ∀ {view e v target init}, R.hoisted view e v target → Q init →
    Q (.assign {} target init)
  create : ∀ {view e holder created}, V view → (∃ k, holder.id = .holder k e) →
    R.create view e holder created → Stmt.nodesAll created ⊆ ns →
    V (view.hold e holder) ∧ ∀ n ∈ Stmt.nodesAll created, P n
  nodes : ∀ {e}, Q e → ∀ n ∈ e.nodes, P n
  stmt : ∀ {s}, (∀ x, .expr x ∈ (Node.stmt s).inner → Q x) → P (.stmt s)
  block : ∀ b, P (.block b)

namespace LoweringContext.Spreads

variable (h : ctx.Spreads m R ns V Q P)

include h

theorem nodesAll {es : List Expr} (hes : ∀ x ∈ es, Q x) : ∀ n ∈ Expr.nodesAll es, P n := by
  intro n hn
  obtain ⟨x, hx, hn⟩ := Expr.mem_nodesAll.mp hn
  exact h.nodes (hes x hx) n hn

theorem optExpr {e e' : Option Expr} (hv : V view) (hm : ∀ x ∈ e.toList, m.Has (.expr x))
    (hl : Expr.OptLowersBy ctx R view e e') : ∀ x ∈ e'.toList, Q x := by
  cases hl with
  | none => simp
  | some hl => exact List.forall_mem_singleton.mpr (h.expr hv (hm _ List.mem_cons_self) hl)

theorem opens {s : ScopeId} {created : List Stmt} {view' : View} (hv : V view)
    (ho : ctx.OpensBy R view s created view') (hns : Stmt.nodesAll created ⊆ ns) :
    V view' ∧ ∀ n ∈ Stmt.nodesAll created, P n := by
  cases ho with
  | bare => exact ⟨hv, by simp [Stmt.nodesAll]⟩
  | env _ hid hcreate => exact h.create hv hid hcreate hns

end LoweringContext.Spreads

mutual

theorem Stmt.LowersBy.spreads {view : View} {s : Stmt} {s' : Option Stmt}
    (hl : s.LowersBy ctx R view s') (h : ctx.Spreads m R ns V Q P) (hv : V view)
    (hm : m.Has (.stmt s)) (hns : Stmt.nodesAll s'.toList ⊆ ns) :
    ∀ n ∈ Stmt.nodesAll s'.toList, P n := by
  cases hl with
  | block hb =>
    simp only [Option.toList, Stmt.nodesAll, Stmt.nodes, List.append_nil] at hns ⊢
    exact hb.spreads h hv (fun s hs => hm.inner (List.mem_map_of_mem hs)) hns
  | declare hi hd =>
    have hinit := h.optExpr hv (fun x hx => hm.inner (List.mem_map_of_mem hx)) hi
    cases hd with
    | hoisted => simp [Stmt.nodesAll]
    | hoistedInit _ ht =>
      have hx := h.assign ht (hinit _ List.mem_cons_self)
      simp only [Option.toList, Stmt.nodesAll, Stmt.nodes, List.append_nil]
      exact List.forall_mem_cons.mpr ⟨h.stmt (by simpa [Node.inner] using hx), h.nodes hx⟩
    | plain =>
      simp only [Option.toList, Stmt.nodesAll, Stmt.nodes_declare, List.append_nil]
      exact List.forall_mem_cons.mpr
        ⟨h.stmt (by simpa [Node.inner] using hinit), h.nodesAll hinit⟩
  | declareNothing hi =>
    have hinit := h.optExpr hv (fun x hx => hm.inner (List.mem_map_of_mem hx)) hi
    simp only [Option.toList, Stmt.nodesAll, Stmt.nodes_declare, List.append_nil]
    exact List.forall_mem_cons.mpr ⟨h.stmt (by simpa [Node.inner] using hinit), h.nodesAll hinit⟩
  | expr hx =>
    have hx := h.expr hv (hm.inner (by simp [Node.inner])) hx
    simp only [Option.toList, Stmt.nodesAll, Stmt.nodes, List.append_nil]
    exact List.forall_mem_cons.mpr ⟨h.stmt (by simpa [Node.inner] using hx), h.nodes hx⟩
  | ret hx =>
    have hx := h.optExpr hv (fun x hx => hm.inner (List.mem_map_of_mem hx)) hx
    simp only [Option.toList, Stmt.nodesAll, Stmt.nodes_ret, List.append_nil]
    exact List.forall_mem_cons.mpr ⟨h.stmt (by simpa [Node.inner] using hx), h.nodesAll hx⟩
  | @cond _ loc test _ b _ b₁ _ ht hb he =>
    have hin {k : Block} (hk : .block k ∈ (Node.stmt (.cond loc test b b₁)).inner) (s : Stmt)
        (hs : s ∈ k.stmts) : m.Has (.stmt s) := (hm.inner hk).inner (List.mem_map_of_mem hs)
    have ht := h.expr hv (hm.inner (by simp [Node.inner])) ht
    have hb := hb.spreads h hv (hin (by simp [Node.inner]))
    cases he with
    | none =>
      simp only [Option.toList, Stmt.nodesAll, Stmt.nodes, List.append_nil] at hns ⊢
      have hns := List.append_subset.mp (List.subset_of_cons_subset hns)
      exact List.forall_mem_cons.mpr ⟨h.stmt (by simpa [Node.inner] using ht),
        List.forall_mem_append.mpr ⟨h.nodes ht, hb hns.2⟩⟩
    | some he =>
      have he := he.spreads h hv (hin (by simp [Node.inner]))
      simp only [Option.toList, Stmt.nodesAll, Stmt.nodes, List.append_nil] at hns ⊢
      have hns := List.append_subset.mp (List.subset_of_cons_subset hns)
      exact List.forall_mem_cons.mpr ⟨h.stmt (by simpa [Node.inner] using ht),
        List.forall_mem_append.mpr ⟨List.forall_mem_append.mpr
          ⟨h.nodes ht, hb (List.append_subset.mp hns.1).2⟩, he hns.2⟩⟩
  | @loop _ loc test _ b _ ht hb =>
    have ht := h.expr hv (hm.inner (by simp [Node.inner])) ht
    have hbody : m.Has (.block b) := hm.inner (by simp [Node.inner])
    simp only [Option.toList, Stmt.nodesAll, Stmt.nodes, List.append_nil] at hns ⊢
    have hns := List.append_subset.mp (List.subset_of_cons_subset hns)
    exact List.forall_mem_cons.mpr ⟨h.stmt (by simpa [Node.inner] using ht),
      List.forall_mem_append.mpr ⟨h.nodes ht,
        hb.spreads h hv (fun s hs => hbody.inner (List.mem_map_of_mem hs)) hns.2⟩⟩
  | localFunction => simp [Stmt.nodesAll]

theorem Stmt.AllLowerBy.spreads {view : View} {ss ss' : List Stmt}
    (hl : Stmt.AllLowerBy ctx R view ss ss') (h : ctx.Spreads m R ns V Q P) (hv : V view)
    (hm : ∀ s ∈ ss, m.Has (.stmt s)) (hns : Stmt.nodesAll ss' ⊆ ns) :
    ∀ n ∈ Stmt.nodesAll ss', P n := by
  cases hl with
  | nil => simp [Stmt.nodesAll]
  | cons hs hss =>
    rw [Stmt.nodesAll_append] at hns ⊢
    obtain ⟨hns, hns'⟩ := List.append_subset.mp hns
    exact List.forall_mem_append.mpr ⟨hs.spreads h hv (hm _ List.mem_cons_self) hns,
      hss.spreads h hv (fun s hs => hm s (List.mem_cons_of_mem _ hs)) hns'⟩

/-- What holds of the expressions and of new environments holds of all nodes. -/
theorem Block.LowersBy.spreads {view : View} {b b' : Block} (hl : b.LowersBy ctx R view b')
    (h : ctx.Spreads m R ns V Q P) (hv : V view) (hm : ∀ s ∈ b.stmts, m.Has (.stmt s))
    (hns : b'.nodes ⊆ ns) : ∀ n ∈ b'.nodes, P n := by
  cases hl with
  | mk ho hs =>
    rw [Block.nodes, Stmt.nodesAll_append] at hns ⊢
    obtain ⟨hns, hns'⟩ := List.append_subset.mp (List.subset_of_cons_subset hns)
    obtain ⟨hv', hcreated⟩ := h.opens hv ho hns
    exact List.forall_mem_cons.mpr ⟨h.block _,
      List.forall_mem_append.mpr ⟨hcreated, hs.spreads h hv' hm hns'⟩⟩

end

end Spreads

end Unnest
