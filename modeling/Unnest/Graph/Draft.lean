import Unnest.Failure
import Unnest.Graph.Basic

/-!
# Graphs under construction

A body is walked to its end even where something is wrong with it, as far as that makes sense: a
`Draft` is the graph so far together with the failure found so far.
-/

namespace Unnest

structure Draft where
  graph : Graph
  failure : Option Failure := none
  deriving Inhabited

namespace Draft

def isOk (d : Draft) : Bool := d.failure.isNone

/-- Records a failure in place of any earlier one. -/
def fail (d : Draft) (cause : Cause) (loc : Loc := {}) : Draft :=
  { d with failure := some { cause, loc } }

/-- Records a failure unless there is one already. -/
def failFirst (d : Draft) (cause : Cause) (loc : Loc) : Draft :=
  if d.isOk then d.fail cause loc else d

def modify (d : Draft) (f : Graph → Graph) : Draft := { d with graph := f d.graph }

end Draft

end Unnest
