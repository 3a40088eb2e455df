import Unnest.Syntax.Basic

/-!
# Outlines

The text form of a tree: one node a line, children drawn below their parent with `|-`, the last one
with a corner. An `Outline` is the labelled tree that is drawn; `Outline.text` draws it.
-/

namespace Unnest

inductive Outline where
  | mk (label : String) (children : List Outline)

namespace Outline

mutual

/-- The lines of an outline: `lead` stands before its label, `indent` before its children. -/
def lines (lead indent : String) : Outline → List String
  | .mk label children => (lead ++ label) :: childLines indent children

/-- Every child but the last has a line running past it to the next one. -/
def childLines (indent : String) : List Outline → List String
  | [] => []
  | [c] => c.lines (indent ++ "`-") (indent ++ "  ")
  | c :: d :: cs =>
    c.lines (indent ++ "|-") (indent ++ "| ") ++ childLines indent (d :: cs)

end

/-- Each line ends with a newline, the last one too. -/
def text (o : Outline) : String := String.join ((o.lines "" "").map (· ++ "\n"))

end Outline

def quoted (name : String) : String := "'" ++ name ++ "'"

def staticMark (m : Method) : String := if m.isStatic then " static" else ""

def variableName (v : Option Variable) : String := (v.map (·.name)).getD ""

def functionName (fn : Option NestedFunction) : String := (fn.map (·.name)).getD ""

mutual

def Expr.outline : Expr → Outline
  | .literal _ value type => .mk ("NLiteral " ++ value ++ " : " ++ type) []
  | .ref _ target =>
    .mk ("NVariableRef " ++ quoted (variableName target) ++
      if target.any (·.byRef) then " ref" else "") []
  | .self _ type => .mk ("NThisRef : " ++ type) []
  | .assign _ target value => .mk "NAssignment" [target.outline, value.outline]
  | .binary _ op lhs rhs => .mk ("NBinaryOperator " ++ quoted op) [lhs.outline, rhs.outline]
  | .lambda _ fn body => .mk ("NLambda " ++ quoted (functionName fn)) [body.outline]
  | .functionRef _ fn => .mk ("NFunctionRef " ++ quoted (functionName fn)) []
  | .localCall _ fn args => .mk ("NCall local " ++ quoted fn.name) (Expr.outlines args)
  | .call _ method receiver args =>
    .mk ("NCall " ++ quoted method.fullName ++ staticMark method)
      ((match receiver with
        | some r => [.mk "receiver:" [r.outline]]
        | none => []) ++ Expr.outlines args)
  | .invoke _ callee args => .mk "NInvoke" (callee.outline :: Expr.outlines args)
  | .field _ receiver f =>
    .mk ("NFieldAccess " ++ quoted (f.owner ++ "." ++ f.name)) [receiver.outline]
  | .newEnv _ type => .mk ("NNewEnvironment " ++ type) []
  | .zero _ type => .mk ("NDefaultValue " ++ type) []
  | .delegate _ receiver method =>
    .mk ("NDelegateCreation " ++ quoted method.fullName ++ staticMark method)
      (match receiver with
        | some r => [r.outline]
        | none => [])

def Expr.outlines : List Expr → List Outline
  | [] => []
  | e :: es => e.outline :: Expr.outlines es

def Stmt.outline : Stmt → Outline
  | .block b => b.outline
  | .declare _ target init =>
    .mk ("NVariableDeclaration " ++ quoted (variableName target) ++ " : " ++
        (target.map (·.type)).getD "")
      (match init with
        | some e => [e.outline]
        | none => [])
  | .expr _ value => .mk "NExpressionStatement" [value.outline]
  | .ret _ value =>
    .mk "NReturnStatement"
      (match value with
        | some e => [e.outline]
        | none => [])
  | .cond _ test thenBlock elseBlock =>
    .mk "NIfStatement"
      (.mk "condition:" [test.outline] :: .mk "then:" [thenBlock.outline] ::
        match elseBlock with
        | some b => [.mk "else:" [b.outline]]
        | none => [])
  | .loop _ test body => .mk "NWhileStatement" [test.outline, body.outline]
  | .localFunction _ fn body =>
    .mk ("NLocalFunctionStatement " ++ quoted (functionName fn)) [body.outline]

def Stmt.outlines : List Stmt → List Outline
  | [] => []
  | s :: ss => s.outline :: Stmt.outlines ss

def Block.outline : Block → Outline
  | .mk _ _ stmts => .mk "NBlock" (Stmt.outlines stmts)

end

/-- The method's name heads the outline of its block. -/
def MethodBody.outline (m : MethodBody) : Outline :=
  .mk
    (match m.method with
      | some method => "NMethodBody " ++ quoted method.fullName ++ staticMark method
      | none => "NMethodBody")
    (m.block.toList.map Block.outline)

end Unnest
