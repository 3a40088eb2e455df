import Unnest.Graph.Basic

/-!
# Environments that hold only the receiver

An environment whose one variable is the receiver is not worth having: the closures on it can be
methods of the enclosing type, which have the receiver anyway. `Graph.prune` removes such
environments. One on the heap goes with its closures losing their host; one that is a value goes if
none of its readers has a host.
-/

namespace Unnest.Graph

/-- Removes an environment from its scope and from every closure. -/
def detachEnv (g : Graph) (e : EnvId) : Graph :=
  let g' := (g.modifyEnv e fun env => { env with removed := true, closures := [] }).modifyScope
    (g.env e).scope fun s => { s with env := none }
  { g' with closures := g'.closures.map fun c => { c with envs := c.envs.erase e } }

/-- The closures lose their hosts. -/
def unhost (g : Graph) (cs : List ClosureId) : Graph :=
  cs.foldl (fun g c => g.modifyClosure c fun cl => { cl with host := none }) g

/-- Removes `e` if it is live, holds only the receiver and can go. -/
def pruneEnv? (g : Graph) (e : EnvId) : Option Graph :=
  let env := g.env e
  if env.removed || !env.isReceiverOnly then none
  else if env.isValue then
    if g.closures.any fun c => decide (e ∈ c.envs) && c.host.isSome then none
    else some (g.detachEnv e)
  else some ((g.unhost env.closures).detachEnv e)

/-- Goes once through the environments; counts those removed. -/
def sweep : List EnvId → Graph × Nat → Graph × Nat
  | [], r => r
  | e :: es, (g, n) =>
    match g.pruneEnv? e with
    | some g => sweep es (g, n + 1)
    | none => sweep es (g, n)

/-- Sweeps until nothing more goes. A sweep that is not the last removes an environment, so there
are at most as many as environments. -/
def sweeps : Nat → Graph × Nat → Graph × Nat
  | 0, r => r
  | fuel + 1, (g, n) =>
    let (g', n') := sweep (List.range g.envs.size) (g, n)
    if n' = n then (g', n') else sweeps fuel (g', n')

/-- The graph without environments that hold only the receiver, and how many were removed. -/
def prune (g : Graph) : Graph × Nat := sweeps g.envs.size (g, 0)

end Unnest.Graph
