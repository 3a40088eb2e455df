import Unnest.Declarations.Basic
import Unnest.Failure
import Unnest.Graph.Nesting

/-!
# Reaching environments from a frame

In a lowered method a captured variable is a field of its environment, so every reference starts
with a way to that environment. There are three: the local that holds it in the frame that created
it, the parameter that was handed a value, and, for environments on the heap, the parent links from
the method's own receiver. The enclosing receiver is reached in the same way.

Everything here is a plain function of the place in the tree; it fails with the cause of a graph
that does not fit.
-/

namespace Unnest

/-- What is fixed while a method is lowered. -/
structure LoweringContext where
  graph : Graph
  declarations : Declarations
  /-- The method being converted. -/
  method : Method

/-- What is known about the method whose body is written. -/
structure Frame where
  /-- The closure it is made from; `none` for the method being converted. -/
  closure : Option ClosureId := none
  /-- The environment type it belongs to. -/
  host : Option EnvType := none
  isStatic : Bool := false
  envParams : List (EnvId × Variable) := []

/-- A place in the tree being lowered. -/
structure Site where
  frame : Frame
  /-- The heap environment created last around here, or the host; `none` stands for the enclosing
  receiver. -/
  innermost : Option EnvId := none
  /-- The environments created around here in this frame, innermost first. -/
  locals : List (EnvId × Variable) := []
  /-- The innermost known location around here. -/
  loc : Loc := {}

/-- The place of a node at `loc`; an unknown location changes nothing. -/
def Site.locate (site : Site) (loc : Loc) : Site :=
  if loc.isKnown then { site with loc } else site

namespace LoweringContext

/-- The type arguments of environment types in a frame. -/
def typeArgs (ctx : LoweringContext) (frame : Frame) : List String :=
  match frame.host with
  | some t => t.typeParams
  | none => ctx.method.typeParams

/-- A type as it is spelled in a frame: on an environment type only the renamed type parameters are
in scope. -/
def spell (ctx : LoweringContext) (frame : Frame) (type : String) : String :=
  match frame.host with
  | some _ => TypeName.renameParams ctx.method.typeParams type
  | none => type

end LoweringContext

/-- The receiver of a method on environment type `t`. -/
def EnvType.selfRef (t : EnvType) : Expr := .self {} (t.reference t.typeParams)

namespace LoweringContext

/-- Follows parent links from `e`, which `way` denotes, to `target`. -/
def linkPath (ctx : LoweringContext) (host : EnvType) (target : EnvId) :
    Nat → EnvId → Expr → Except Cause Expr
  | fuel, e, way =>
    if e = target then .ok way
    else
      match fuel, (ctx.declarations.typeOf? e).bind (·.link), ctx.graph.runtimeParent? e with
      | fuel + 1, some link, some parent =>
        linkPath ctx host target fuel parent (.field {} way link)
      | _, _, _ => .error (.envOffChain target host.name)

/-- Follows parent links from `e`, which `way` denotes, to the enclosing receiver. -/
def receiverPath (ctx : LoweringContext) (host : EnvType) :
    Nat → EnvId → Expr → Except Cause Expr
  | 0, _, _ => .error (.receiverOffChain host.name)
  | fuel + 1, e, way =>
    match (ctx.declarations.typeOf? e).bind (·.link) with
    | none => .error (.receiverOffChain host.name)
    | some link =>
      match ctx.graph.runtimeParent? e with
      | some parent => receiverPath ctx host fuel parent (.field {} way link)
      | none => .ok (.field {} way link)

/-- An expression for an environment. No way passes an environment twice, so there are no more links
on it than environments. -/
def envRef (ctx : LoweringContext) (site : Site) (e : EnvId) : Except Cause Expr :=
  match site.locals.lookup e with
  | some holder => .ok (.ref {} (some holder))
  | none =>
    if (ctx.graph.env e).isValue then
      match site.frame.envParams.lookup e with
      | some holder => .ok (.ref {} (some holder))
      | none => .error (.valueEnvOutOfReach e)
    else
      match site.frame.host with
      | some t => ctx.linkPath t e ctx.graph.envs.size t.env t.selfRef
      | none => .error (.envWithoutHost e)

/-- An expression for the receiver of the method being converted. -/
def receiverRef (ctx : LoweringContext) (site : Site) : Except Cause Expr :=
  match ctx.graph.receiver with
  | none => .error .noReceiver
  | some receiver =>
    let frame := site.frame
    if frame.closure.isNone || frame.host.isNone && !frame.isStatic then
      .ok (.self {} ctx.method.owner)
    else
      match ctx.graph.receiverEnv?, frame.host with
      | some e, _ =>
        match ctx.declarations.typeOf? e with
        | none => .error (.untypedEnv e)
        | some t =>
          match if t.isValue then t.field? receiver else t.link with
          | some f => (ctx.envRef site e).map (.field {} · f)
          | none => .error (.receiverNotHeld t.name)
      | none, some t => ctx.receiverPath t (ctx.graph.envs.size + 1) t.env t.selfRef
      | none, none =>
        .error (.staticReadsReceiver
          ((frame.closure.bind ctx.declarations.methodOf?).map (·.symbol.name) |>.getD ""))

/-- An expression for a variable: a field of its environment if it is hoisted, else the variable
that stands for it in this frame. -/
def variableRef (ctx : LoweringContext) (site : Site) (aliases : List (Variable × Variable))
    (v : Variable) : Except Cause Expr :=
  match ctx.graph.envOf? v with
  | none => .ok (.ref {} (some ((aliases.lookup v).getD v)))
  | some e =>
    match (ctx.declarations.typeOf? e).bind (·.field? v) with
    | some f => (ctx.envRef site e).map (.field {} · f)
    | none => .error (.noField v.name)

/-- The receiver on which the method of a closure is called or bound; a static method has none. -/
def callReceiver (ctx : LoweringContext) (site : Site) (m : LoweredMethod) :
    Except Cause (Option Expr) :=
  match m.host with
  | some e => some <$> ctx.envRef site e
  | none => if m.symbol.isStatic then .ok none else some <$> ctx.receiverRef site

/-! ## Creating environments -/

/-- Stores a value in a field of the environment that `holder` holds. -/
def store (holder : Variable) (f : Field) (value : Expr) : Stmt :=
  .expr {} (.assign {} (.field {} (.ref {} (some holder)) f) value)

/-- Sets the parent link of a new environment, if its type has one. The parent has to be the
environment created last. -/
def storeParent (ctx : LoweringContext) (site : Site) (e : EnvId) (t : EnvType)
    (holder : Variable) : Except Cause (List Stmt) :=
  match t.link with
  | none => .ok []
  | some link =>
    if ctx.graph.runtimeParent? e = site.innermost then do
      let parent ← match site.innermost with
        | some p => ctx.envRef site p
        | none => ctx.receiverRef site
      return [store holder link parent]
    else .error (.parentNotCurrent t.name)

/-- Stores in a new environment what its variable already holds: a parameter, or the receiver where
it has a field. A declared variable gets its value when its declaration is reached. -/
def storeVariable (ctx : LoweringContext) (site : Site) (aliases : List (Variable × Variable))
    (t : EnvType) (holder : Variable) (v : Variable) : Except Cause (List Stmt) :=
  match v.role, t.field? v with
  | .receiver, some f => do return [store holder f (← ctx.receiverRef site)]
  | .parameter, some f => .ok [store holder f (.ref {} (some ((aliases.lookup v).getD v)))]
  | _, _ => .ok []

/-- The statements that create environment `e` in `holder`, and the place after them. -/
def createEnv (ctx : LoweringContext) (site : Site) (aliases : List (Variable × Variable))
    (e : EnvId) (t : EnvType) (holder : Variable) : Except Cause (List Stmt × Site) := do
  let env := ctx.graph.env e
  let init : Expr := if env.isValue then .zero {} holder.type else .newEnv {} holder.type
  let parent ← ctx.storeParent site e t holder
  let stores ← env.vars.toList.mapM (ctx.storeVariable site aliases t holder)
  return (.declare {} (some holder) (some init) :: parent ++ stores.flatten,
    { site with
      locals := (e, holder) :: site.locals
      innermost := if env.isValue then site.innermost else some e })

end LoweringContext

end Unnest
