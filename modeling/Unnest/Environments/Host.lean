import Unnest.Failure
import Unnest.Graph.Nesting

/-!
# Hosts and parent links

A closure that reads from heap environments becomes a method of the nearest one, its host. From
there it reaches the others along parent links, so every environment it has to pass is marked as
needing its parent. Closures are taken in the order of their numbers: a frame's own closure has its
host before the closures inside the frame ask for what surrounds them.
-/

namespace Unnest.Graph

/-- The heap environment of the nearest scope around a closure that the closure reads from. -/
def nearestHost? (g : Graph) (cl : Closure) : Option EnvId :=
  (g.ancestors cl.home).findSome? fun s =>
    (g.scope s).env.filter fun e => !(g.env e).isValue && e ∈ cl.envs

/-- Marks the environments passed on the way from `e` outwards until no target is left. Gives the
targets that cannot be reached. A way passes no environment twice, so as many steps as there are
environments are enough. -/
def linkTargets : Nat → EnvId → List EnvId → Graph → Graph × List EnvId
  | _, _, [], g => (g, [])
  | 0, _, targets, g => (g, targets)
  | fuel + 1, e, targets, g =>
    let g := g.modifyEnv e fun env => { env with needsParent := true }
    match g.runtimeParent? e with
    | some parent => linkTargets fuel parent (targets.filter (· ≠ parent)) g
    | none => (g, targets)

/-- A closure that captures the receiver reaches it through the environment that holds it, if that
one lives on the heap. -/
def linkReceiver (g : Graph) (c : ClosureId) : Graph :=
  match g.receiverEnv? with
  | some e =>
    if (g.closure c).capturesReceiver && !(g.env e).isValue then
      g.modifyEnv e fun env => { env with needsParent := true }
    else g
  | none => g

/-- Finds the host of a closure and links it to all it reads from. -/
def hostClosure (g : Graph) (c : ClosureId) : Graph × Option Failure :=
  let host := g.nearestHost? (g.closure c)
  let g := g.modifyClosure c fun cl => { cl with host }
  match host with
  | none => (g, none)
  | some e =>
    let g := g.modifyEnv e fun env => { env with closures := env.closures ++ [c] }
    let targets := (g.closure c).envs.toList.filter fun t => t ≠ e && !(g.env t).isValue
    match linkTargets g.envs.size e targets g with
    | (g, []) => (g.linkReceiver c, none)
    | (g, t :: _) =>
      (g, some { cause := .unreachableEnv (g.closure c).function.name t, loc := g.bodyLoc c })

/-- Hosts closures one after the other up to the first failure. -/
def hostClosures : List ClosureId → Graph → Graph × Option Failure
  | [], g => (g, none)
  | c :: cs, g =>
    match g.hostClosure c with
    | (g, none) => hostClosures cs g
    | (g, some f) => (g, some f)

/-- Finds the hosts of all closures. -/
def assignHosts (g : Graph) : Graph × Option Failure :=
  hostClosures (List.range g.closures.size) g

end Unnest.Graph
