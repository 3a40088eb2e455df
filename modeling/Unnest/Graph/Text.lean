import Unnest.Graph.Nesting

/-!
# The graph as text

One line for each scope in preorder and, below it, one for each closure declared in it. Environments
stand on the lines of their scopes.
-/

namespace Unnest

def ScopeKind.label : ScopeKind → String
  | methodBody => "method-body"
  | block => "block"
  | lambdaBody => "lambda-body"
  | localFunctionBody => "local-function-body"

def EnvKind.label : EnvKind → String
  | value => "struct"
  | reference => "class"

namespace Graph

private def indentation (depth : Nat) : String := String.ofList (List.replicate (2 * depth) ' ')

private def variableNames (vs : OrderedSet Variable) : String :=
  String.intercalate ", " (vs.toList.map (·.name))

def scopeLine (g : Graph) (s : ScopeId) : String :=
  let sc := g.scope s
  indentation sc.depth ++ "scope #" ++ toString s ++ " " ++ sc.kind.label ++
    (if sc.vars.isEmpty then "" else " vars(" ++ variableNames sc.vars ++ ")") ++
    (match sc.env with
      | some e =>
        " env #" ++ toString e ++ " " ++ (g.env e).kind.label ++
          if (g.env e).needsParent then " captures-parent" else ""
      | none => "") ++
    "\n"

def closureLine (g : Graph) (depth : Nat) (c : ClosureId) : String :=
  let cl := g.closure c
  indentation depth ++ "closure #" ++ toString c ++ " '" ++ cl.function.name ++ "' captures(" ++
    variableNames cl.captured ++ ")" ++
    (match cl.host with
      | some e => " in env #" ++ toString e
      | none => "") ++
    (if cl.takesReferences then "" else " by-value") ++ "\n"

/-- The scopes and closures of a method, under its name. -/
def text (g : Graph) : String :=
  "scope tree for '" ++ (g.body.method.map (·.fullName)).getD "" ++ "'\n" ++
    String.join (g.preorder.map fun s =>
      let sc := g.scope s
      g.scopeLine s ++ String.join (sc.closures.map (g.closureLine (sc.depth + 1))))

end Graph

end Unnest
