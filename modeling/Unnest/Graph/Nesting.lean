import Unnest.Graph.Basic

/-!
# Nesting of scopes

The parent links of the scopes form a forest in which a parent has a smaller number than its
children. `Graph.ancestors` follows them outwards; where a variable may be seen, in whose frame a
scope runs and which environment surrounds another at run time are read off that list.
-/

namespace Unnest.Graph

/-- A scope and the scopes around it, innermost first. -/
def ancestors (g : Graph) (s : ScopeId) : List ScopeId :=
  s :: match (g.scope s).parent with
    | some p => if _ : p < s then g.ancestors p else []
    | none => []
termination_by s

/-- Searches a chain of scopes for `a`, and gives up at the first scope that is no deeper. -/
def findAtDepth (g : Graph) (a : ScopeId) : List ScopeId → Bool
  | [] => false
  | s :: outer =>
    if s = a then true
    else if (g.scope s).depth ≤ (g.scope a).depth then false
    else g.findAtDepth a outer

/-- Whether `a` is `s` or a scope around it. -/
def encloses (g : Graph) (a s : ScopeId) : Bool := g.findAtDepth a (g.ancestors s)

/-- Whether a variable is declared somewhere inside the body of a closure. -/
def bodyDeclares (g : Graph) (c : ClosureId) (v : Variable) : Bool :=
  match g.declaringScope? v with
  | some s => g.encloses (g.closure c).body s
  | none => false

/-- The closure in whose body a scope lies, `none` in the method itself. -/
def frame? (g : Graph) (s : ScopeId) : Option ClosureId :=
  (g.ancestors s).findSome? fun t => (g.scope t).owner

/-- The environment of a scope, if it is a live one on the heap. -/
def liveReferenceEnv? (g : Graph) (s : ScopeId) : Option EnvId :=
  (g.scope s).env.filter fun e => (g.env e).isLiveReference

/-- The first live heap environment around the head of a chain of scopes. The search ends at the
body of a closure: what surrounds its frame is the closure's own host. -/
def surroundingEnv? (g : Graph) : List ScopeId → Option EnvId
  | [] => none
  | s :: outer =>
    match (g.scope s).owner with
    | some c => (g.closure c).host
    | none =>
      match outer with
      | [] => none
      | p :: _ =>
        match g.liveReferenceEnv? p with
        | some e => some e
        | none => g.surroundingEnv? outer

/-- The environment that the parent link of `e` points to at run time; `none` stands for the
enclosing receiver. -/
def runtimeParent? (g : Graph) (e : EnvId) : Option EnvId :=
  g.surroundingEnv? (g.ancestors (g.env e).scope)

/-- The live environment into which a variable is hoisted. -/
def envOf? (g : Graph) (v : Variable) : Option EnvId :=
  match g.declaringScope? v with
  | some s => (g.scope s).env.filter fun e => !(g.env e).removed && v ∈ (g.env e).vars
  | none => none

/-- The live environment that holds the receiver. -/
def receiverEnv? (g : Graph) : Option EnvId := g.receiver.bind g.envOf?

/-- Visits the scopes on a stack, each before its children, as long as there is fuel. -/
def visitScopes (g : Graph) : Nat → List ScopeId → List ScopeId
  | 0, _ => []
  | _ + 1, [] => []
  | fuel + 1, s :: stack => s :: g.visitScopes fuel ((g.scope s).children ++ stack)

/-- The scopes inside the root, each before its children. No scope is visited twice, so there are at
most as many visits as scopes. -/
def preorder (g : Graph) : List ScopeId :=
  if g.scopes.isEmpty then [] else g.visitScopes g.scopes.size [root]

end Unnest.Graph
