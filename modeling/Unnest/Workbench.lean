import Unnest.Conversion
import Unnest.Syntax.Variables

/-!
# Stage by stage

A `Workbench` holds one method body on which the stages are run one at a time, in any order, and
whose graph and declarations may be changed in between. A failure stays on the bench until it is
cleared or another one takes its place; the stages that walk the body take note of it. A stage
gives the failure that it ends with.
-/

namespace Unnest

structure Workbench where
  graph : Graph
  declarations : Declarations := {}
  supply : Supply := {}
  failure : Option Failure := none
  deriving Inhabited

namespace Workbench

def ofBody (body : MethodBody) : Workbench := { graph := Graph.ofBody body }

/-- The bench after a walk over the body, which succeeds if no failure is left. -/
def walk (w : Workbench) (run : Draft → Draft) : Workbench × Option Failure :=
  let d := run { graph := w.graph, failure := w.failure }
  ({ w with graph := d.graph, failure := d.failure }, d.failure)

/-- The bench after a stage that looks at no earlier failure. -/
def settle (w : Workbench) (failure : Option Failure) : Workbench × Option Failure :=
  ({ w with failure := failure <|> w.failure }, failure)

def build (w : Workbench) : Workbench × Option Failure := w.walk Draft.build

def findCaptures (w : Workbench) : Workbench × Option Failure := w.walk Draft.findCaptures

def propagate (w : Workbench) (bound : Nat) : Workbench × Option Failure :=
  let (graph, failure) := w.graph.propagate bound
  { w with graph }.settle failure

def allocate (w : Workbench) : Workbench × Option Failure :=
  match w.graph.allocate with
  | .ok graph => { w with graph }.settle none
  | .error f => w.settle (some f)

def assignHosts (w : Workbench) : Workbench × Option Failure :=
  let (graph, failure) := w.graph.assignHosts
  { w with graph }.settle failure

/-- Also gives the number of environments removed. -/
def prune (w : Workbench) : Workbench × Nat :=
  let (graph, n) := w.graph.prune
  ({ w with graph }, n)

def draft (w : Workbench) : DeclarationDraft :=
  { graph := w.graph, declarations := w.declarations, supply := w.supply }

def declare (w : Workbench) : Workbench × Option Failure :=
  let (s, failure) := w.draft.declareAll
  { w with graph := s.graph, declarations := s.declarations, supply := s.supply }.settle failure

def checkFields (w : Workbench) : Workbench × Option Failure :=
  w.settle w.declarations.storedValueEnv?

def verify (w : Workbench) : Workbench × Option Failure :=
  w.settle (w.declarations.defect? w.graph)

def lower (w : Workbench) : Workbench × Option MethodBody :=
  let (body, s, failure) := w.draft.lower w.failure
  ({ w with declarations := s.declarations, supply := s.supply, failure }, body)

/-! ## Changes by hand -/

/-- Every closure captures again only what it refers to. -/
def resetCaptures (w : Workbench) : Workbench :=
  { w with graph := { w.graph with
      closures := w.graph.closures.map fun c => { c with captured := c.direct } } }

/-- The `i`-th environment parameter of a method is passed by value from now on. -/
def passByValue (w : Workbench) (method i : Nat) : Workbench :=
  match (w.declarations.methods[method]?.bind fun m => m.envParams[i]?) with
  | none => w
  | some (_, p) =>
    let change (v : Variable) : Variable := if v = p then { v with byRef := false } else v
    { w with declarations :=
        { types := w.declarations.types.map fun t =>
            { t with methods := t.methods.map (·.mapVariables change) }
          methods := w.declarations.methods.map fun m =>
            { m with
              symbol := m.symbol.mapVariables change
              envParams := m.envParams.map fun (e, v) => (e, change v)
              body := m.body.map (·.mapVariables change) } } }

end Workbench

end Unnest
