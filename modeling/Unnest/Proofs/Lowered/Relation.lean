import Unnest.Lowered.Tree

/-!
# What trees are lowered to

The relation between a tree and the tree it is lowered to, node by node and without the state of the
walk: `Expr.LowersTo`, `Stmt.LowersTo` and `Block.LowersTo`. What a walk through one frame makes,
the variables that stand for others and the holders of environments, is collected in `Names`.

A nested function does not show where it stands; `LoweringContext.LowersClosure` relates its body to
the body of its method.
-/

namespace Unnest

/-- The variables made in a frame so far. -/
structure Names where
  /-- The variables that stand for others. -/
  aliases : List (Variable × Variable) := []
  /-- The locals that hold the environments created in the frame. -/
  holders : List (EnvId × Variable) := []

namespace LoweringContext

variable (ctx : LoweringContext)

/-- Scope `s` begins with the statements `created`; `site'` is the place after them. -/
inductive Opens (site : Site) (names : Names) (s : ScopeId) :
    List Stmt → Site → Names → Prop where
  | bare (hs : (ctx.graph.scope s).env = none) : Opens site names s [] site names
  | env {e : EnvId} {t : EnvType} {holder : Variable} {created : List Stmt} {site' : Site}
      (hs : (ctx.graph.scope s).env = some e) (ht : ctx.declarations.typeOf? e = some t)
      (hid : ∃ k, holder.id = .holder k e)
      (hcreate : ctx.createEnv site names.aliases e t holder = .ok (created, site'))
      (htype : holder.type = t.reference (ctx.typeArgs site.frame)) :
      Opens site names s created site' { names with holders := (e, holder) :: names.holders }

/-- The declaration of `v`, whose initial value is already lowered. -/
inductive LowersDeclaration (site : Site) (names : Names) (loc : Loc) (v : Variable) :
    Option Expr → Option Stmt → Names → Prop where
  | hoisted {e : EnvId} (he : ctx.graph.envOf? v = some e) :
      LowersDeclaration site names loc v none none names
  | hoistedInit {e : EnvId} {init target : Expr} (he : ctx.graph.envOf? v = some e)
      (ht : ctx.variableRef site names.aliases v = .ok target) :
      LowersDeclaration site names loc v (some init)
        (some (.expr loc (.assign {} target init))) names
  | same {init : Option Expr} (he : ctx.graph.envOf? v = none)
      (hs : ctx.spell site.frame v.type = v.type) :
      LowersDeclaration site names loc v init (some (.declare loc (some v) init)) names
  | copy {init : Option Expr} {copy : Variable} (he : ctx.graph.envOf? v = none)
      (hs : ctx.spell site.frame v.type ≠ v.type) (hid : ∃ k, copy.id = .copy k v.id)
      (htype : copy.type = ctx.spell site.frame v.type) :
      LowersDeclaration site names loc v init (some (.declare loc (some copy) init))
        { names with aliases := (v, copy) :: names.aliases }

end LoweringContext

mutual

/-- Expression `e` at a place is lowered to another one. -/
inductive Expr.LowersTo (ctx : LoweringContext) :
    Site → List (Variable × Variable) → Expr → Expr → Prop where
  | literal {site aliases loc value type} :
      Expr.LowersTo ctx site aliases (.literal loc value type)
        (.literal loc value (ctx.spell site.frame type))
  | ref {site aliases loc v e} (h : ctx.variableRef (site.locate loc) aliases v = .ok e) :
      Expr.LowersTo ctx site aliases (.ref loc (some v)) (e.withLoc loc)
  | self {site aliases loc type e} (h : ctx.receiverRef (site.locate loc) = .ok e) :
      Expr.LowersTo ctx site aliases (.self loc type) (e.withLoc loc)
  | assign {site aliases loc target target' value value'}
      (ht : Expr.LowersTo ctx (site.locate loc) aliases target target')
      (hv : Expr.LowersTo ctx (site.locate loc) aliases value value') :
      Expr.LowersTo ctx site aliases (.assign loc target value) (.assign loc target' value')
  | binary {site aliases loc op lhs lhs' rhs rhs'}
      (hl : Expr.LowersTo ctx (site.locate loc) aliases lhs lhs')
      (hr : Expr.LowersTo ctx (site.locate loc) aliases rhs rhs') :
      Expr.LowersTo ctx site aliases (.binary loc op lhs rhs) (.binary loc op lhs' rhs')
  | lambda {site aliases loc f body c lm r} (hc : ctx.graph.closureOf? f = some c)
      (hm : ctx.declarations.methodOf? c = some lm)
      (hr : ctx.callReceiver (site.locate loc) lm = .ok r) :
      Expr.LowersTo ctx site aliases (.lambda loc (some f) body) (.delegate loc r lm.symbol)
  | functionRef {site aliases loc f c lm r} (hc : ctx.graph.closureOf? f = some c)
      (hm : ctx.declarations.methodOf? c = some lm)
      (hr : ctx.callReceiver (site.locate loc) lm = .ok r) :
      Expr.LowersTo ctx site aliases (.functionRef loc (some f)) (.delegate loc r lm.symbol)
  | localCall {site aliases loc f args args' c lm r es} (hc : ctx.graph.closureOf? f = some c)
      (hm : ctx.declarations.methodOf? c = some lm)
      (hr : ctx.callReceiver (site.locate loc) lm = .ok r)
      (ha : Expr.AllLowerTo ctx (site.locate loc) aliases args args')
      (he : (lm.envParams.mapM fun p => ctx.envRef (site.locate loc) p.1) = .ok es) :
      Expr.LowersTo ctx site aliases (.localCall loc f args) (.call loc lm.symbol r (args' ++ es))
  | call {site aliases loc method receiver receiver' args args'}
      (hr : Expr.OptLowersTo ctx (site.locate loc) aliases receiver receiver')
      (ha : Expr.AllLowerTo ctx (site.locate loc) aliases args args') :
      Expr.LowersTo ctx site aliases (.call loc method receiver args)
        (.call loc method receiver' args')
  | invoke {site aliases loc callee callee' args args'}
      (hc : Expr.LowersTo ctx (site.locate loc) aliases callee callee')
      (ha : Expr.AllLowerTo ctx (site.locate loc) aliases args args') :
      Expr.LowersTo ctx site aliases (.invoke loc callee args) (.invoke loc callee' args')
  | field {site aliases loc receiver receiver' f}
      (hr : Expr.LowersTo ctx (site.locate loc) aliases receiver receiver') :
      Expr.LowersTo ctx site aliases (.field loc receiver f) (.field loc receiver' f)
  | newEnv {site aliases loc type} :
      Expr.LowersTo ctx site aliases (.newEnv loc type) (.newEnv loc (ctx.spell site.frame type))
  | zero {site aliases loc type} :
      Expr.LowersTo ctx site aliases (.zero loc type) (.zero loc (ctx.spell site.frame type))
  | delegate {site aliases loc receiver receiver' method}
      (hr : Expr.OptLowersTo ctx (site.locate loc) aliases receiver receiver') :
      Expr.LowersTo ctx site aliases (.delegate loc receiver method)
        (.delegate loc receiver' method)

inductive Expr.OptLowersTo (ctx : LoweringContext) :
    Site → List (Variable × Variable) → Option Expr → Option Expr → Prop where
  | none {site aliases} : Expr.OptLowersTo ctx site aliases none none
  | some {site aliases e e'} (h : Expr.LowersTo ctx site aliases e e') :
      Expr.OptLowersTo ctx site aliases (some e) (some e')

inductive Expr.AllLowerTo (ctx : LoweringContext) :
    Site → List (Variable × Variable) → List Expr → List Expr → Prop where
  | nil {site aliases} : Expr.AllLowerTo ctx site aliases [] []
  | cons {site aliases e e' es es'} (h : Expr.LowersTo ctx site aliases e e')
      (hs : Expr.AllLowerTo ctx site aliases es es') :
      Expr.AllLowerTo ctx site aliases (e :: es) (e' :: es')

end

mutual

/-- Statement `s` at a place is lowered to another one, or to nothing. -/
inductive Stmt.LowersTo (ctx : LoweringContext) :
    Site → Names → Stmt → Option Stmt → Names → Prop where
  | block {site names b b' names'}
      (h : Block.LowersTo ctx (site.locate b.loc) names b b' names') :
      Stmt.LowersTo ctx site names (.block b) (some (.block b')) names'
  | declare {site names loc v init init' s' names'}
      (hi : Expr.OptLowersTo ctx (site.locate loc) names.aliases init init')
      (hd : ctx.LowersDeclaration (site.locate loc) names loc v init' s' names') :
      Stmt.LowersTo ctx site names (.declare loc (some v) init) s' names'
  | declareNothing {site names loc init init'}
      (hi : Expr.OptLowersTo ctx (site.locate loc) names.aliases init init') :
      Stmt.LowersTo ctx site names (.declare loc none init) (some (.declare loc none init')) names
  | expr {site names loc value value'}
      (h : Expr.LowersTo ctx (site.locate loc) names.aliases value value') :
      Stmt.LowersTo ctx site names (.expr loc value) (some (.expr loc value')) names
  | ret {site names loc value value'}
      (h : Expr.OptLowersTo ctx (site.locate loc) names.aliases value value') :
      Stmt.LowersTo ctx site names (.ret loc value) (some (.ret loc value')) names
  | cond {site names loc test test' thenBlock thenBlock' elseBlock elseBlock' names₁ names₂}
      (ht : Expr.LowersTo ctx (site.locate loc) names.aliases test test')
      (hb : Block.LowersTo ctx (site.locate loc) names thenBlock thenBlock' names₁)
      (he : Block.OptLowersTo ctx (site.locate loc) names₁ elseBlock elseBlock' names₂) :
      Stmt.LowersTo ctx site names (.cond loc test thenBlock elseBlock)
        (some (.cond loc test' thenBlock' elseBlock')) names₂
  | loop {site names loc test test' body body' names'}
      (ht : Expr.LowersTo ctx (site.locate loc) names.aliases test test')
      (hb : Block.LowersTo ctx (site.locate loc) names body body' names') :
      Stmt.LowersTo ctx site names (.loop loc test body) (some (.loop loc test' body')) names'
  | localFunction {site names loc f body} :
      Stmt.LowersTo ctx site names (.localFunction loc (some f) body) none names

inductive Stmt.AllLowerTo (ctx : LoweringContext) :
    Site → Names → List Stmt → List Stmt → Names → Prop where
  | nil {site names} : Stmt.AllLowerTo ctx site names [] [] names
  | cons {site names s s' ss ss' names₁ names₂} (h : Stmt.LowersTo ctx site names s s' names₁)
      (hs : Stmt.AllLowerTo ctx site names₁ ss ss' names₂) :
      Stmt.AllLowerTo ctx site names (s :: ss) (s'.toList ++ ss') names₂

inductive Block.LowersTo (ctx : LoweringContext) :
    Site → Names → Block → Block → Names → Prop where
  | mk {site names id loc stmts created site' names₁ stmts' names₂}
      (ho : ctx.Opens site names id created site' names₁)
      (hs : Stmt.AllLowerTo ctx site' names₁ stmts stmts' names₂) :
      Block.LowersTo ctx site names (.mk id loc stmts) (.mk id loc (created ++ stmts')) names₂

inductive Block.OptLowersTo (ctx : LoweringContext) :
    Site → Names → Option Block → Option Block → Names → Prop where
  | none {site names} : Block.OptLowersTo ctx site names none none names
  | some {site names b b' names'} (h : Block.LowersTo ctx site names b b' names') :
      Block.OptLowersTo ctx site names (some b) (some b') names'

end

/-- The body of closure `c` is lowered to `body`. -/
def LoweringContext.LowersClosure (ctx : LoweringContext) (c : ClosureId) (body : Block) : Prop :=
  ∃ lm loc b names, ctx.declarations.methodOf? c = some lm ∧
    (ctx.graph.scope (ctx.graph.closure c).body).block = some b ∧
    b.LowersTo ctx (ctx.methodSite lm loc) { aliases := lm.copies } body names

end Unnest
