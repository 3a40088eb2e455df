import Unnest.Declarations.Make

/-!
# Checking the declarations

`Declarations.defect?` compares declarations with the graph they were made for and gives the first
thing that does not fit. A defect is a fault of the conversion, never of the method converted.
-/

namespace Unnest.Declarations

/-- A live environment needs a type, a parent link if it needs its parent, and variables of its
own scope only. -/
def envDefect? (d : Declarations) (g : Graph) (e : EnvId) : Option Cause :=
  match d.typeOf? e with
  | none => some (.undeclaredEnv e)
  | some t =>
    let env := g.env e
    if env.needsParent && t.link.isNone then some (.noParentField t.name)
    else
      (env.vars.toList.find? fun v => g.declaringScope? v ≠ some env.scope).map
        fun v => .hoistedElsewhere v.name t.name

/-- A variable with a place in two types, and the first of them. -/
def sharedVariable? (d : Declarations) : Option Cause :=
  (List.range d.types.length).findSome? fun i =>
    d.types[i]?.bind fun t =>
      t.fieldOf.findSome? fun (v, _) =>
        ((d.types.take i).find? fun u => u.fieldOf.any (·.1 = v)).map
          fun u => .hoistedTwice v.name u.name t.name

/-- A method takes environments only by reference and only if it may, and its host is a live
environment on the heap. -/
def methodDefect? (d : Declarations) (g : Graph) (m : LoweredMethod) : Option Cause :=
  if !m.envParams.isEmpty && !(g.closure m.closure).takesReferences then
    some (.ineligibleForReferences m.symbol.name)
  else
    match m.host.filter fun e => !(g.env e).isLiveReference with
    | some e => some (.deadHost m.symbol.name (d.typeName e))
    | none =>
      (m.envParams.find? fun p => !p.2.byRef).map
        fun p => .paramNotByReference p.2.name m.symbol.name

/-- The first defect of the declarations. -/
def defect? (d : Declarations) (g : Graph) : Option Failure :=
  let at? (c : Option Cause) : Option Failure := c.map fun cause => { cause }
  at? (g.liveEnvs.findSome? (d.envDefect? g)) <|>
    (if g.liveEnvs.length ≠ d.types.length then some { cause := .typeCountMismatch } else none) <|>
    at? d.sharedVariable? <|>
    d.storedValueEnv? <|>
    (if d.methods.length ≠ g.closures.size then some { cause := .methodCountMismatch }
      else none) <|>
    at? (d.methods.findSome? (d.methodDefect? g))

end Unnest.Declarations
