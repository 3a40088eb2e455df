import Unnest.Lowered.Frame

/-!
# Lowering the trees

One walk over the body writes the lowered body and the bodies of all lowered methods. A scope with
an environment starts by creating it; a reference to a captured variable becomes a field; a lambda
or a function used as a value becomes a delegate, whose method gets the body; a local function
leaves nothing behind; a call of it becomes a call of its method, with the environments it needs as
further arguments.

The first failure is kept. The statement at hand is still lowered to its end, and then the block is
given up, so a failed part is `none`.
-/

namespace Unnest

/-- What changes while a method is lowered. -/
structure LoweringState where
  supply : Supply := {}
  /-- The bodies of the lowered methods, by closure. -/
  bodies : Array (Option Block) := #[]
  /-- The variables that stand for others in the frame at hand. -/
  aliases : List (Variable × Variable) := []
  failure : Option Failure := none
  deriving Inhabited

abbrev Lower := StateM LoweringState

namespace Lower

/-- Records a failure unless there is one already. -/
def record (site : Site) (cause : Cause) : Lower Unit :=
  modify fun s => { s with failure := s.failure <|> some { cause, loc := site.loc } }

def fail {α : Type} (site : Site) (cause : Cause) : Lower (Option α) := do
  record site cause
  return none

/-- Records the failure of a computation that fails. -/
def attempt {α : Type} (site : Site) : Except Cause α → Lower (Option α)
  | .ok a => return some a
  | .error cause => fail site cause

def failed : Lower Bool := return (← get).failure.isSome

def freshHolder (e : EnvId) (type : String) : Lower Variable :=
  modifyGet fun s =>
    let (v, supply) := s.supply.holder e type
    (v, { s with supply })

/-- Makes a local that stands for `v` from here on. -/
def freshCopy (v : Variable) (type : String) : Lower Variable :=
  modifyGet fun s =>
    let (copy, supply) := s.supply.copy v .declared type
    (copy, { s with supply, aliases := (v, copy) :: s.aliases })

end Lower

namespace LoweringContext

open Lower

variable (ctx : LoweringContext)

/-- Begins scope `s`: the statements that create its environment, and the place after them. -/
def openScope (site : Site) (s : ScopeId) : Lower (Option (List Stmt × Site)) :=
  match (ctx.graph.scope s).env with
  | none => return some ([], site)
  | some e =>
    match ctx.declarations.typeOf? e with
    | none => fail site (.untypedEnv e)
    | some t => do
      let holder ← freshHolder e (t.reference (ctx.typeArgs site.frame))
      attempt site (ctx.createEnv site (← get).aliases e t holder)

def lowerRef (site : Site) (v : Option Variable) : Lower (Option Expr) :=
  match v with
  | none => return some (.ref {} none)
  | some v => do attempt site (ctx.variableRef site (← get).aliases v)

/-- Lowers the body of a nested function by means of `enter`, for the first time. -/
def lowerFunction (enter : ClosureId → Loc → Lower Unit) (site : Site)
    (fn : Option NestedFunction) : Lower Unit :=
  match fn, fn.bind ctx.graph.closureOf? with
  | some f, some c => do
    if ((← get).bodies.getD c none).isSome then
      record site (.loweredTwice f.name)
    else enter c site.loc
  | _, _ => record site .unknownNestedFunction

/-- A delegate for the method of a nested function. -/
def lowerDelegate (site : Site) (fn : Option NestedFunction) : Lower (Option Expr) :=
  match (fn.bind ctx.graph.closureOf?).bind ctx.declarations.methodOf? with
  | none => fail site .unknownNestedFunction
  | some m => do
    let receiver ← attempt site (ctx.callReceiver site m)
    if ← failed then return none
    return receiver.map (.delegate {} · m.symbol)

/-- A variable's declaration. A hoisted variable has its field already, which only needs its value;
a local is declared anew where its type is spelled differently. -/
def lowerDeclaration (site : Site) (loc : Loc) (v : Variable) (init : Option Expr) :
    Lower (Option Stmt) :=
  match ctx.graph.envOf? v, init with
  | some _, none => return none
  | some _, some init => do
    let target ← attempt site (ctx.variableRef site (← get).aliases v)
    return target.map fun target => .expr loc (.assign {} target init)
  | none, init => do
    let type := ctx.spell site.frame v.type
    if type = v.type then return some (.declare loc (some v) init)
    else return some (.declare loc (some (← freshCopy v type)) init)

end LoweringContext

open LoweringContext Lower

mutual

def Expr.lower (ctx : LoweringContext) (enter : ClosureId → Loc → Lower Unit) (site : Site) :
    Expr → Lower (Option Expr)
  | .literal loc value type => return some (.literal loc value (ctx.spell site.frame type))
  | .ref loc target => do
    return (← ctx.lowerRef (site.locate loc) target).map (·.withLoc loc)
  | .self loc _ => do
    let site := site.locate loc
    return (← attempt site (ctx.receiverRef site)).map (·.withLoc loc)
  | .assign loc target value => do
    let target ← target.lower ctx enter (site.locate loc)
    let value ← value.lower ctx enter (site.locate loc)
    return Expr.assign loc <$> target <*> value
  | .binary loc op lhs rhs => do
    let lhs ← lhs.lower ctx enter (site.locate loc)
    let rhs ← rhs.lower ctx enter (site.locate loc)
    return Expr.binary loc op <$> lhs <*> rhs
  | .lambda loc fn _ => do
    ctx.lowerFunction enter (site.locate loc) fn
    if ← failed then return none
    return (← ctx.lowerDelegate (site.locate loc) fn).map (·.withLoc loc)
  | .functionRef loc fn => do
    return (← ctx.lowerDelegate (site.locate loc) fn).map (·.withLoc loc)
  | .localCall loc fn args => do
    let site := site.locate loc
    match (ctx.graph.closureOf? fn).bind ctx.declarations.methodOf? with
    | none => fail site .unknownCallee
    | some m =>
      let receiver ← attempt site (ctx.callReceiver site m)
      if ← failed then return none
      let args ← Expr.lowerAll ctx enter site args
      let envArgs ← attempt site (m.envParams.mapM fun p => ctx.envRef site p.1)
      return do return .call loc m.symbol (← receiver) ((← args) ++ (← envArgs))
  | .call loc method receiver args => do
    match receiver with
    | none =>
      let args ← Expr.lowerAll ctx enter (site.locate loc) args
      return Expr.call loc method none <$> args
    | some e =>
      let receiver ← e.lower ctx enter (site.locate loc)
      let args ← Expr.lowerAll ctx enter (site.locate loc) args
      return Expr.call loc method <$> some <$> receiver <*> args
  | .invoke loc callee args => do
    let callee ← callee.lower ctx enter (site.locate loc)
    let args ← Expr.lowerAll ctx enter (site.locate loc) args
    return Expr.invoke loc <$> callee <*> args
  | .field loc receiver f => do
    return (← receiver.lower ctx enter (site.locate loc)).map (.field loc · f)
  | .newEnv loc type => return some (.newEnv loc (ctx.spell site.frame type))
  | .zero loc type => return some (.zero loc (ctx.spell site.frame type))
  | .delegate loc receiver method => do
    match receiver with
    | none => return some (.delegate loc none method)
    | some e =>
      return (← e.lower ctx enter (site.locate loc)).map fun e => .delegate loc (some e) method

def Expr.lowerAll (ctx : LoweringContext) (enter : ClosureId → Loc → Lower Unit) (site : Site) :
    List Expr → Lower (Option (List Expr))
  | [] => return some []
  | e :: es => do
    let e ← e.lower ctx enter site
    let es ← Expr.lowerAll ctx enter site es
    return List.cons <$> e <*> es

/-- The lowered statement; `none` if nothing is left of it. -/
def Stmt.lower (ctx : LoweringContext) (enter : ClosureId → Loc → Lower Unit) (site : Site) :
    Stmt → Lower (Option Stmt)
  | .block b => do return (← b.lower ctx enter (site.locate b.loc)).map .block
  | .declare loc target init => do
    let site := site.locate loc
    match init, target with
    | none, none => return some (.declare loc none none)
    | none, some v => ctx.lowerDeclaration site loc v none
    | some e, target =>
      match ← e.lower ctx enter site, target with
      | none, _ => return none
      | some init, none => return some (.declare loc none (some init))
      | some init, some v => ctx.lowerDeclaration site loc v (some init)
  | .expr loc value => do return (← value.lower ctx enter (site.locate loc)).map (.expr loc)
  | .ret loc value => do
    match value with
    | none => return some (.ret loc none)
    | some e => return (← e.lower ctx enter (site.locate loc)).map (.ret loc ∘ some)
  | .cond loc test thenBlock elseBlock => do
    let test ← test.lower ctx enter (site.locate loc)
    let thenBlock ← thenBlock.lower ctx enter (site.locate loc)
    match elseBlock with
    | none => return Stmt.cond loc <$> test <*> thenBlock <*> some none
    | some b =>
      let b ← b.lower ctx enter (site.locate loc)
      return Stmt.cond loc <$> test <*> thenBlock <*> some <$> b
  | .loop loc test body => do
    let test ← test.lower ctx enter (site.locate loc)
    let body ← body.lower ctx enter (site.locate loc)
    return Stmt.loop loc <$> test <*> body
  | .localFunction loc fn _ => do
    ctx.lowerFunction enter (site.locate loc) fn
    return none

/-- The lowered statements, `none` after a failure. -/
def Stmt.lowerAll (ctx : LoweringContext) (enter : ClosureId → Loc → Lower Unit) (site : Site) :
    List Stmt → Lower (Option (List Stmt))
  | [] => return some []
  | s :: ss => do
    let s ← s.lower ctx enter site
    if ← failed then return none
    return (← Stmt.lowerAll ctx enter site ss).map (s.toList ++ ·)

def Block.lower (ctx : LoweringContext) (enter : ClosureId → Loc → Lower Unit) (site : Site) :
    Block → Lower (Option Block)
  | .mk id loc stmts => do
    match ctx.graph.scopeOf? id with
    | none => fail site .scopelessBlock
    | some s =>
      match ← ctx.openScope site s with
      | none => return none
      | some (created, site) =>
        return (← Stmt.lowerAll ctx enter site stmts).map (.mk id loc <| created ++ ·)

end

namespace LoweringContext

variable (ctx : LoweringContext)

/-- Lowers block `b` of scope `s`. -/
def lowerScope (enter : ClosureId → Loc → Lower Unit) (site : Site) (s : ScopeId) (b : Block) :
    Lower (Option Block) := do
  match ← ctx.openScope site s with
  | none => return none
  | some (created, site) =>
    return (← Stmt.lowerAll ctx enter site b.stmts).map (.mk b.id b.loc <| created ++ ·)

/-- The place at the start of the method of a closure. -/
def methodSite (m : LoweredMethod) (loc : Loc) : Site :=
  { frame :=
      { closure := some m.closure
        host := m.host.bind ctx.declarations.typeOf?
        isStatic := m.symbol.isStatic
        envParams := m.envParams }
    innermost := m.host
    loc }

/-- Lowers the body of a closure into its method, and the functions nested in it to the given
depth. -/
def lowerClosure : Nat → ClosureId → Loc → Lower Unit
  | 0, _, _ => return
  | depth + 1, c, loc => do
    let s := (ctx.graph.closure c).body
    match ctx.declarations.methodOf? c, (ctx.graph.scope s).block with
    | some m, some b =>
      let aliases := (← get).aliases
      modify fun st => { st with aliases := m.copies }
      let body ← ctx.lowerScope (lowerClosure depth) (ctx.methodSite m loc) s b
      modify fun st => { st with aliases, bodies := st.bodies.setIfInBounds c body }
    | _, _ => return

/-- How deep nested functions are followed. In a body without faults they are nested no deeper than
there are closures. A function that stands inside itself is followed a second time, until a function
that is done already is met again, and then to the end of the statement. -/
def nestingDepth : Nat := 3 * ctx.graph.closures.size + 1

/-- Lowers the body of the method and of every closure. -/
def lowerMethod (block : Block) : Lower (Option MethodBody) := do
  let site : Site := { frame := { isStatic := ctx.method.isStatic } }
  let body ← ctx.lowerScope (ctx.lowerClosure ctx.nestingDepth) site Graph.root block
  if ← failed then return none
  let bodies := (← get).bodies
  match ctx.declarations.methods.find? fun m => (bodies.getD m.closure none).isNone with
  | some m => fail site (.neverLowered (ctx.graph.closure m.closure).function.name)
  | none => return some { ctx.graph.body with block := body }

end LoweringContext

end Unnest
