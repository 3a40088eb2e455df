import Unnest.Captures.Collect

/-!
# Captures through other closures

A closure that depends on another captures what that one captures, except what it declares itself.
`Graph.propagate` closes the capture sets under this rule. It works in rounds: a round visits every
closure whose set grew in the round before, and hands its set on to the closures that depend on it.
The number of visits is bounded; a run that needs more is given up.
-/

namespace Unnest

/-- The state of a propagation: the graph, the closures to visit in the next round, and how much has
been done. -/
structure Propagation where
  graph : Graph
  next : OrderedSet ClosureId := ∅
  visits : Nat := 0
  rounds : Nat := 0
  /-- The bound on visits was reached before the sets were closed. -/
  exceeded : Bool := false

namespace Graph

/-- The other closures that depend on `c`. -/
def dependents (g : Graph) (c : ClosureId) : List ClosureId :=
  (List.range g.closures.size).filter fun d => d ≠ c ∧ c ∈ (g.closure d).dependencies

/-- What `caller` captures because `callee` does. -/
def inherited (g : Graph) (caller callee : ClosureId) : List Variable :=
  (g.closure callee).captured.toList.filter fun v => !g.bodyDeclares caller v

end Graph

namespace Propagation

/-- Hands the captures of `callee` to `caller`, which is to be visited if its set grows. -/
def handOn (callee : ClosureId) (p : Propagation) (caller : ClosureId) : Propagation :=
  let vs := p.graph.inherited caller callee
  let cl := p.graph.closure caller
  if vs.all (· ∈ cl.captured) then p
  else
    { p with
      graph := p.graph.modifyClosure caller fun cl =>
        { cl with captured := cl.captured.insertAll vs }
      next := p.next.insert caller }

def visit (p : Propagation) (callee : ClosureId) : Propagation :=
  (p.graph.dependents callee).foldl (handOn callee) { p with visits := p.visits + 1 }

/-- Visits closures one after the other until the bound is reached. -/
def visitAll (bound : Nat) : List ClosureId → Propagation → Propagation
  | [], p => p
  | c :: cs, p =>
    if p.visits < bound then visitAll bound cs (p.visit c) else { p with exceeded := true }

/-- Runs rounds until no set grows. Every round makes a visit, so the bound on visits also bounds
the rounds. -/
def run (bound : Nat) : Nat → Propagation → Propagation
  | 0, p => { p with exceeded := !p.next.isEmpty }
  | fuel + 1, p =>
    if p.next.isEmpty then p
    else
      let p := visitAll bound p.next.toList { p with next := ∅, rounds := p.rounds + 1 }
      if p.exceeded then p else run bound fuel p

end Propagation

namespace Graph

/-- The closures that capture something. -/
def capturing (g : Graph) : OrderedSet ClosureId :=
  (∅ : OrderedSet ClosureId).insertAll
    ((List.range g.closures.size).filter fun c => !(g.closure c).captured.isEmpty)

/-- The number of visits allowed when the caller asks for none in particular. -/
def visitBound (g : Graph) (bound : Nat) : Nat :=
  if bound = 0 then g.closures.size * g.closures.size + g.closures.size else bound

/-- The whole run, with its counts. -/
def propagation (g : Graph) (bound : Nat) : Propagation :=
  let bound := g.visitBound bound
  Propagation.run bound (bound + 1) { graph := g, next := g.capturing }

/-- Closes the capture sets, within `bound` visits (`0` for the default bound). -/
def propagate (g : Graph) (bound : Nat) : Graph × Option Failure :=
  let p := g.propagation bound
  (p.graph, if p.exceeded then some { cause := .notConverged (g.visitBound bound) } else none)

/-- Marks the closures that capture the receiver. -/
def markReceiverCaptures (g : Graph) : Graph :=
  { g with closures := g.closures.map fun cl =>
      { cl with capturesReceiver := g.receiver.any (· ∈ cl.captured) } }

end Graph

namespace Draft

/-- Collects and closes the capture sets. -/
def findCaptures (d : Draft) : Draft :=
  let d := d.collect
  if d.isOk then
    match d.graph.propagate 0 with
    | (g, none) => { d with graph := g.markReceiverCaptures }
    | (g, some f) => { graph := g, failure := some f }
  else d

end Draft

end Unnest
