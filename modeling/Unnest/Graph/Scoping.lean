import Unnest.Graph.Draft

/-!
# Scopes and closures of a body

`Draft.build` walks a body in reading order and enters every block as a scope, every nested function
as a closure with its body as a scope, and every declaration in the scope around it.

A failure does not end the walk at once. No further statement is begun and no further function is
entered, but blocks that remain in the statement at hand still get their scopes, and a later failure
takes the place of an earlier one.
-/

namespace Unnest

namespace Draft

/-- Declares a parameter, a local or the receiver. -/
def declare (d : Draft) (loc : Loc) (s : ScopeId) : Option Variable → Draft
  | none => d.fail .missingParameter loc
  | some v =>
    match d.graph.declare? s v with
    | some g => { d with graph := g }
    | none => d.fail (.variableDeclaredTwice v.name) loc

/-- Enters a nested function found in scope `s`, with its body as a scope and its parameters
declared there. Gives the body's scope if the function could be entered. -/
def openFunction (d : Draft) (s : ScopeId) (kind : ScopeKind) (loc : Loc)
    (fn : Option NestedFunction) (body : Block) : Draft × Option ScopeId :=
  if d.isOk then
    match fn with
    | none => (d.fail .functionWithoutSymbol loc, none)
    | some f =>
      match d.graph.closureOf? f with
      | some _ => (d.fail (.functionDeclaredTwice f.name) loc, none)
      | none =>
        let c := d.graph.closures.size
        let inner := d.graph.scopes.size
        let d := d.modify fun g =>
          ((g.pushClosure f s).pushScope kind (some s) (some body)).setBody c inner
        (f.params.foldl (fun d p => d.declare loc inner p) d, some inner)
  else (d, none)

end Draft

mutual

/-- Enters what an expression in scope `s` contains. -/
def Expr.enter (s : ScopeId) : Expr → Draft → Draft
  | .literal .., d | .ref .., d | .self .., d | .functionRef .., d | .newEnv .., d
  | .zero .., d => d
  | .assign _ target value, d => value.enter s (target.enter s d)
  | .binary _ _ lhs rhs, d => rhs.enter s (lhs.enter s d)
  | .lambda loc fn body, d => body.enterBody s .lambdaBody loc fn d
  | .localCall _ _ args, d => Expr.enterAll s args d
  | .call _ _ receiver args, d =>
    Expr.enterAll s args
      (match receiver with
        | some e => e.enter s d
        | none => d)
  | .invoke _ callee args, d => Expr.enterAll s args (callee.enter s d)
  | .field _ receiver _, d => receiver.enter s d
  | .delegate _ receiver _, d =>
    match receiver with
    | some e => e.enter s d
    | none => d

def Expr.enterAll (s : ScopeId) : List Expr → Draft → Draft
  | [], d => d
  | e :: es, d => Expr.enterAll s es (e.enter s d)

/-- A variable is declared after its initial value has been entered. -/
def Stmt.enter (s : ScopeId) : Stmt → Draft → Draft
  | .block b, d => b.enter s d
  | .declare loc target init, d =>
    match target with
    | none => d.fail .declarationWithoutVariable loc
    | some v =>
      (match init with
        | some e => e.enter s d
        | none => d).declare loc s (some v)
  | .expr _ value, d => value.enter s d
  | .ret _ value, d =>
    match value with
    | some e => e.enter s d
    | none => d
  | .cond _ test thenBlock elseBlock, d =>
    let d := thenBlock.enter s (test.enter s d)
    match elseBlock with
    | some b => b.enter s d
    | none => d
  | .loop _ test body, d => body.enter s (test.enter s d)
  | .localFunction loc fn body, d => body.enterBody s .localFunctionBody loc fn d

/-- No statement is begun after a failure. -/
def Stmt.enterAll (s : ScopeId) : List Stmt → Draft → Draft
  | [], d => d
  | st :: ss, d => if d.isOk then Stmt.enterAll s ss (st.enter s d) else d

def Block.enter (s : ScopeId) : Block → Draft → Draft
  | .mk id loc stmts, d =>
    Stmt.enterAll d.graph.scopes.size stmts
      (d.modify (·.pushScope .block (some s) (some (.mk id loc stmts))))

/-- The block of a nested function is the scope of its body; it is no scope besides. -/
def Block.enterBody (s : ScopeId) (kind : ScopeKind) (loc : Loc) (fn : Option NestedFunction) :
    Block → Draft → Draft
  | .mk id blockLoc stmts, d =>
    match d.openFunction s kind loc fn (.mk id blockLoc stmts) with
    | (d, some inner) => Stmt.enterAll inner stmts d
    | (d, none) => d

end

namespace Draft

/-- Enters the receiver, the parameters and the statements of the method. -/
def enterMethod (d : Draft) (m : Method) (b : Block) : Draft :=
  let d := d.modify (·.pushScope .methodBody none (some b))
  let d :=
    match d.graph.receiver with
    | some r => d.declare b.loc Graph.root (some r)
    | none => d
  Stmt.enterAll Graph.root b.stmts
    (m.params.foldl (fun d p => d.declare b.loc Graph.root p) d)

/-- Builds the scopes and closures of the body. A graph is built once. -/
def build (d : Draft) : Draft :=
  if d.graph.scopes.isEmpty then
    match d.graph.body.method, d.graph.body.block with
    | some m, some b => d.enterMethod m b
    | _, _ => d.fail .incompleteBody
  else d.fail .alreadyBuilt

end Draft

end Unnest
