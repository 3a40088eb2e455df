import Unnest.Data.OrderedSet
import Unnest.Syntax.Basic

/-!
# The graph of a method body

Scopes, closures and environments of one method body, each kind numbered in order of creation. A
scope is a block or the body of a nested function; a closure is a nested function together with what
it captures; an environment gathers the captured variables of one scope.

Everything known about a variable, a function or a block is found by looking through these three
tables: `declaringScope?`, `closureOf?` and `scopeOf?`.
-/

namespace Unnest

inductive ScopeKind where
  | methodBody
  | block
  | lambdaBody
  | localFunctionBody
  deriving DecidableEq, Repr, Inhabited

/-- Where the variables of an environment live. -/
inductive EnvKind where
  /-- In the frame that creates it; callees are handed a reference. -/
  | value
  /-- On the heap. -/
  | reference
  deriving DecidableEq, Repr, Inhabited

structure Scope where
  kind : ScopeKind
  parent : Option ScopeId
  children : List ScopeId := []
  vars : OrderedSet Variable := ∅
  /-- Nested functions declared directly in this scope. -/
  closures : List ClosureId := []
  /-- The nested function this scope is the body of. -/
  owner : Option ClosureId := none
  env : Option EnvId := none
  block : Option Block := none
  depth : Nat := 0
  deriving Inhabited

structure Closure where
  function : NestedFunction
  home : ScopeId
  body : ScopeId := 0
  /-- Captured by a reference in the body itself, not in a function nested inside. -/
  direct : OrderedSet Variable := ∅
  /-- Captured directly or through another closure. -/
  captured : OrderedSet Variable := ∅
  /-- The closures this one calls, uses as values or has directly inside its body. -/
  dependencies : OrderedSet ClosureId := ∅
  isDelegate : Bool := false
  capturesReceiver : Bool := false
  /-- The environments that hold captured variables. -/
  envs : OrderedSet EnvId := ∅
  /-- The environment whose type gets the lowered method. -/
  host : Option EnvId := none
  /-- Environments the lowered method takes as parameters, in their order. -/
  envParams : List EnvId := []
  deriving Inhabited

/-- Captured state may be handed over by reference only to a local function that is always called
directly and runs to its end within the call. -/
def Closure.takesReferences (c : Closure) : Bool :=
  !c.function.isLambda && !c.isDelegate && !c.function.isAsync && !c.function.isIterator

structure Environment where
  scope : ScopeId
  kind : EnvKind
  /-- The hoisted variables, in the order of their declarations. -/
  vars : OrderedSet Variable := ∅
  /-- Needs a link to the environment around it. -/
  needsParent : Bool := false
  /-- A removed environment keeps its number. -/
  removed : Bool := false
  /-- The closures hosted here. -/
  closures : List ClosureId := []
  deriving Inhabited

namespace Environment

def isValue (e : Environment) : Bool := e.kind = .value

def isLiveReference (e : Environment) : Bool := !e.removed && !e.isValue

def isReceiverOnly (e : Environment) : Bool :=
  match e.vars.toList with
  | [v] => v.isReceiver
  | _ => false

end Environment

structure Graph where
  /-- The body, with its blocks numbered. -/
  body : MethodBody
  scopes : Array Scope := #[]
  closures : Array Closure := #[]
  envs : Array Environment := #[]
  deriving Inhabited

namespace Graph

/-- The graph of a body before anything is known about it. -/
def ofBody (body : MethodBody) : Graph := { body := body.numbered }

def receiver (g : Graph) : Option Variable := g.body.receiver

/-- The outermost scope is always the first one. -/
def root : ScopeId := 0

def scope (g : Graph) (s : ScopeId) : Scope := g.scopes.getD s default

def closure (g : Graph) (c : ClosureId) : Closure := g.closures.getD c default

def env (g : Graph) (e : EnvId) : Environment := g.envs.getD e default

def modifyScope (g : Graph) (s : ScopeId) (f : Scope → Scope) : Graph :=
  { g with scopes := g.scopes.modify s f }

def modifyClosure (g : Graph) (c : ClosureId) (f : Closure → Closure) : Graph :=
  { g with closures := g.closures.modify c f }

def modifyEnv (g : Graph) (e : EnvId) (f : Environment → Environment) : Graph :=
  { g with envs := g.envs.modify e f }

/-! ## Growing the graph -/

/-- Adds a scope and enters it among the children of its parent. Its number is the number of scopes
before. -/
def pushScope (g : Graph) (kind : ScopeKind) (parent : Option ScopeId) (block : Option Block) :
    Graph :=
  let id := g.scopes.size
  match parent with
  | none => { g with scopes := g.scopes.push { kind, parent, block } }
  | some p =>
    let g' := g.modifyScope p fun s => { s with children := s.children ++ [id] }
    { g' with scopes := g'.scopes.push { kind, parent, block, depth := (g.scope p).depth + 1 } }

/-- Adds the closure of a nested function declared in scope `s`; it gets its body later. -/
def pushClosure (g : Graph) (function : NestedFunction) (s : ScopeId) : Graph :=
  let id := g.closures.size
  let closure : Closure := { function, home := s, isDelegate := function.isDelegate }
  { g with closures := g.closures.push closure }.modifyScope s
    fun sc => { sc with closures := sc.closures ++ [id] }

/-- Makes scope `s` the body of closure `c`. -/
def setBody (g : Graph) (c : ClosureId) (s : ScopeId) : Graph :=
  (g.modifyScope s fun sc => { sc with owner := some c }).modifyClosure c
    fun cl => { cl with body := s }

def pushEnv (g : Graph) (s : ScopeId) (kind : EnvKind) : Graph :=
  let id := g.envs.size
  { g with envs := g.envs.push { scope := s, kind } }.modifyScope s
    fun sc => { sc with env := some id }

/-! ## Looking things up -/

def declaringScope? (g : Graph) (v : Variable) : Option ScopeId :=
  g.scopes.findIdx? fun s => v ∈ s.vars

/-- The closure of a function: the last one made for it. -/
def closureOf? (g : Graph) (f : NestedFunction) : Option ClosureId :=
  (List.range g.closures.size).reverse.find? fun c => (g.closure c).function = f

def scopeOf? (g : Graph) (b : BlockId) : Option ScopeId :=
  g.scopes.findIdx? fun s => s.block.any (·.id = b)

/-- Declares a variable in a scope, unless it is already declared in some scope. -/
def declare? (g : Graph) (s : ScopeId) (v : Variable) : Option Graph :=
  match g.declaringScope? v with
  | some _ => none
  | none => some (g.modifyScope s fun sc => { sc with vars := sc.vars.insert v })

/-- The place blamed when a closure cannot be laid out: its body. -/
def bodyLoc (g : Graph) (c : ClosureId) : Loc :=
  match (g.scope (g.closure c).body).block with
  | some b => b.loc
  | none => {}

end Graph

end Unnest
