import Unnest.Syntax.Basic

/-!
# Changing the variables of a tree

`mapVariables` applies a function to every variable that a tree mentions, also in the signatures of
the functions and methods it mentions. The shape of the tree stays.
-/

namespace Unnest

def NestedFunction.mapVariables (f : Variable → Variable) (fn : NestedFunction) : NestedFunction :=
  { fn with params := fn.params.map (·.map f) }

def Method.mapVariables (f : Variable → Variable) (m : Method) : Method :=
  { m with params := m.params.map (·.map f) }

mutual

def Expr.mapVariables (f : Variable → Variable) : Expr → Expr
  | .literal loc value type => .literal loc value type
  | .ref loc target => .ref loc (target.map f)
  | .self loc type => .self loc type
  | .assign loc target value => .assign loc (target.mapVariables f) (value.mapVariables f)
  | .binary loc op lhs rhs => .binary loc op (lhs.mapVariables f) (rhs.mapVariables f)
  | .lambda loc fn body => .lambda loc (fn.map (·.mapVariables f)) (body.mapVariables f)
  | .functionRef loc fn => .functionRef loc (fn.map (·.mapVariables f))
  | .localCall loc fn args => .localCall loc (fn.mapVariables f) (Expr.mapVariablesAll f args)
  | .call loc method receiver args =>
    .call loc (method.mapVariables f)
      (match receiver with
        | some e => some (e.mapVariables f)
        | none => none)
      (Expr.mapVariablesAll f args)
  | .invoke loc callee args => .invoke loc (callee.mapVariables f) (Expr.mapVariablesAll f args)
  | .field loc receiver fd => .field loc (receiver.mapVariables f) fd
  | .newEnv loc type => .newEnv loc type
  | .zero loc type => .zero loc type
  | .delegate loc receiver method =>
    .delegate loc
      (match receiver with
        | some e => some (e.mapVariables f)
        | none => none)
      (method.mapVariables f)

def Expr.mapVariablesAll (f : Variable → Variable) : List Expr → List Expr
  | [] => []
  | e :: es => e.mapVariables f :: Expr.mapVariablesAll f es

def Stmt.mapVariables (f : Variable → Variable) : Stmt → Stmt
  | .block b => .block (b.mapVariables f)
  | .declare loc target init =>
    .declare loc (target.map f)
      (match init with
        | some e => some (e.mapVariables f)
        | none => none)
  | .expr loc value => .expr loc (value.mapVariables f)
  | .ret loc value =>
    .ret loc
      (match value with
        | some e => some (e.mapVariables f)
        | none => none)
  | .cond loc test thenBlock elseBlock =>
    .cond loc (test.mapVariables f) (thenBlock.mapVariables f)
      (match elseBlock with
        | some b => some (b.mapVariables f)
        | none => none)
  | .loop loc test body => .loop loc (test.mapVariables f) (body.mapVariables f)
  | .localFunction loc fn body =>
    .localFunction loc (fn.map (·.mapVariables f)) (body.mapVariables f)

def Stmt.mapVariablesAll (f : Variable → Variable) : List Stmt → List Stmt
  | [] => []
  | s :: ss => s.mapVariables f :: Stmt.mapVariablesAll f ss

def Block.mapVariables (f : Variable → Variable) : Block → Block
  | .mk id loc stmts => .mk id loc (Stmt.mapVariablesAll f stmts)

end

end Unnest
