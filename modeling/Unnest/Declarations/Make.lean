import Unnest.Declarations.Basic
import Unnest.Failure
import Unnest.Graph.Nesting

/-!
# Declaring types and methods

`DeclarationDraft.declareAll` declares a type for every live environment and a method for every
nested function of a graph. A method that is hosted on an environment type sees only the renamed
type parameters, so the types in its signature are respelled; any other method keeps them as they
are.

Environments that are values may never be stored: a field of such a type is refused.
-/

namespace Unnest

/-! ## Types -/

namespace Graph

def liveEnvs (g : Graph) : List EnvId :=
  (List.range g.envs.size).filter fun e => !(g.env e).removed

/-- The field for a variable in an environment type of method `m`. A heap environment has none for
the receiver. -/
def hoistedField? (m : Method) (typeName : String) (e : EnvId) (kind : EnvKind) (v : Variable) :
    Option Field :=
  if v.isReceiver then
    match kind with
    | .value => some ⟨.hoisted e v.id, "__this", m.owner, typeName⟩
    | .reference => none
  else some ⟨.hoisted e v.id, v.name, TypeName.renameParams m.typeParams v.type, typeName⟩

/-- The type of environment `e`, still without its parent link. -/
def envType (g : Graph) (m : Method) (e : EnvId) (ordinal : Nat) : EnvType :=
  let env := g.env e
  let name := m.name ++ "$Env" ++ toString ordinal
  let fields := env.vars.toList.filterMap fun v =>
    (hoistedField? m name e env.kind v).map fun f => (v, f)
  { name
    kind := env.kind
    env := e
    typeParams := m.typeParams.map TypeName.renamedParam
    fields := fields.map (·.2)
    fieldOf := fields.map fun (v, f) => (v, some f) }

/-- The link from an environment to its parent, or to the enclosing receiver. -/
def linkField (g : Graph) (m : Method) (d : Declarations) (t : EnvType) : Field :=
  match g.runtimeParent? t.env with
  | some p =>
    let type := TypeName.reference (d.typeName p) (m.typeParams.map TypeName.renamedParam)
    ⟨.parent t.env, "__parent", type, t.name⟩
  | none => ⟨.parent t.env, "__this", m.owner, t.name⟩

/-- Adds the link to types whose environment needs its parent. -/
def withLink (g : Graph) (m : Method) (d : Declarations) (t : EnvType) : EnvType :=
  if (g.env t.env).needsParent then
    let link := g.linkField m d t
    { t with fields := t.fields ++ [link], link := some link }
  else t

/-- The types of all live environments, numbered in their order. -/
def envTypes (g : Graph) (m : Method) : List EnvType :=
  let types := g.liveEnvs.mapIdx fun i e => g.envType m e i
  types.map (g.withLink m { types })

/-- The values a closure reads from: those of the deepest scopes first, then in the order of their
numbers. -/
def valueEnvsOf (g : Graph) (cl : Closure) : List EnvId :=
  let depth (e : EnvId) : Nat := (g.scope (g.env e).scope).depth
  (cl.envs.toList.filter fun e => (g.env e).isValue).mergeSort fun a b =>
    depth b < depth a || depth a = depth b && a ≤ b

end Graph

/-! ## Methods -/

/-- Declarations in the making. -/
structure DeclarationDraft where
  graph : Graph
  declarations : Declarations := {}
  supply : Supply := {}
  deriving Inhabited

namespace Supply

/-- Copies of parameters, with their types respelled by `spell`. -/
def copyParams (spell : String → String) :
    List Variable → Supply → List (Variable × Variable) × Supply
  | [], s => ([], s)
  | p :: ps, s =>
    let (copy, s) := s.copy p .parameter (spell p.type)
    let (copies, s) := copyParams spell ps s
    ((p, copy) :: copies, s)

/-- Parameters for environments, of the types that `type` gives. -/
def holderParams (type : EnvId → String) :
    List EnvId → Supply → List (EnvId × Variable) × Supply
  | [], s => ([], s)
  | e :: es, s =>
    let (holder, s) := s.holderParam e (type e)
    let (holders, s) := holderParams type es s
    ((e, holder) :: holders, s)

end Supply

namespace DeclarationDraft

/-- Declares the method of closure `c` on the type `host`, or on the enclosing type. -/
def declareOn (s : DeclarationDraft) (m : Method) (c : ClosureId) (host : Option EnvType) :
    DeclarationDraft × Option Failure :=
  let cl := s.graph.closure c
  let fn := cl.function
  let spell (type : String) : String :=
    if host.isSome then TypeName.renameParams m.typeParams type else type
  let typeArgs := if host.isSome then m.typeParams.map TypeName.renamedParam else m.typeParams
  let envs := s.graph.valueEnvsOf cl
  let (copies, supply) := s.supply.copyParams spell fn.params.reduceOption
  let s := { s with
    graph := s.graph.modifyClosure c fun cl => { cl with envParams := envs }
    supply }
  if !envs.isEmpty && !cl.takesReferences then
    (s, some { cause := .cannotTakeReferences fn.name, loc := s.graph.bodyLoc c })
  else
    let (holders, supply) := s.supply.holderParams
      (fun e => TypeName.reference (s.declarations.typeName e) typeArgs) envs
    let symbol : Method :=
      { id := .lowered c
        name := m.name ++ "$" ++ fn.name ++ "$" ++ toString c
        owner := (host.map (·.name)).getD m.owner
        isStatic := host.isNone && !(cl.capturesReceiver && s.graph.receiverEnv?.isNone)
        typeParams := if host.isSome then [] else m.typeParams
        params := (copies.map (·.2) ++ holders.map (·.2)).map some
        returnType := spell fn.returnType }
    let method : LoweredMethod :=
      { symbol
        closure := c
        host := host.map (·.env)
        copies := copies.reverse
        envParams := holders }
    ({ s with declarations := s.declarations.push method, supply }, none)

/-- Declares the method of closure `c`. Its host must be live. -/
def declareMethod (s : DeclarationDraft) (m : Method) (c : ClosureId) :
    DeclarationDraft × Option Failure :=
  match (s.graph.closure c).host with
  | none => s.declareOn m c none
  | some e =>
    match s.declarations.typeOf? e with
    | some t => s.declareOn m c (some t)
    | none => (s, some { cause := .removedHost (s.graph.closure c).function.name })

/-- Declares methods one after the other up to the first failure. -/
def declareMethods (m : Method) :
    List ClosureId → DeclarationDraft → DeclarationDraft × Option Failure
  | [], s => (s, none)
  | c :: cs, s =>
    match s.declareMethod m c with
    | (s, none) => declareMethods m cs s
    | (s, some f) => (s, some f)

end DeclarationDraft

/-- The first field whose type is an environment that is a value. -/
def Declarations.storedValueEnv? (d : Declarations) : Option Failure :=
  let values := (d.types.filter (·.isValue)).map (·.name)
  d.types.findSome? fun t =>
    t.fields.findSome? fun f =>
      if TypeName.base f.type ∈ values then
        some { cause := .valueEnvInField f.type t.name f.name }
      else none

namespace DeclarationDraft

/-- Declares everything a graph needs. It is done once. -/
def declareAll (s : DeclarationDraft) : DeclarationDraft × Option Failure :=
  if s.declarations.isEmpty then
    match s.graph.body.method with
    | none => (s, none)
    | some m =>
      let s := { s with declarations := { types := s.graph.envTypes m } }
      match declareMethods m (List.range s.graph.closures.size) s with
      | (s, none) => (s, s.declarations.storedValueEnv?)
      | (s, some f) => (s, some f)
  else (s, some { cause := .alreadyDeclared })

end DeclarationDraft

end Unnest
