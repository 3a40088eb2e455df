import Unnest.Failure
import Unnest.Graph.Nesting

/-!
# Environments for captured variables

Every scope that declares a captured variable gets one environment, which holds all of them. It is a
value in its frame if each closure that reads from it can be handed a reference, and lives on the
heap otherwise.
-/

namespace Unnest

/-- The closure reads one of the given variables. -/
def Closure.readsAny (c : Closure) (vs : List Variable) : Bool := vs.any (· ∈ c.captured)

namespace Graph

/-- The variables of a scope that some closure captures, in the order of their declarations. -/
def hoistedVariables (g : Graph) (s : ScopeId) : List Variable :=
  (g.scope s).vars.toList.filter fun v => g.closures.any (v ∈ ·.captured)

/-- The kind of environment that suits all readers of the variables. -/
def envKindFor (g : Graph) (vs : List Variable) : EnvKind :=
  if g.closures.all fun c => !c.readsAny vs || c.takesReferences then .value else .reference

/-- Gives a scope its environment, if it needs one. -/
def allocateScope (g : Graph) (s : ScopeId) : Graph :=
  let vs := g.hoistedVariables s
  if vs.isEmpty then g
  else
    let e := g.envs.size
    let g' := (g.pushEnv s (g.envKindFor vs)).modifyEnv e
      fun env => { env with vars := env.vars.insertAll vs }
    { g' with closures := g'.closures.map fun c =>
        if c.readsAny vs then { c with envs := c.envs.insert e } else c }

/-- Gives every scope its environment, in preorder. It is done once. -/
def allocate (g : Graph) : Except Failure Graph :=
  if g.envs.isEmpty then .ok (g.preorder.foldl allocateScope g)
  else .error { cause := .alreadyAllocated }

end Graph

end Unnest
