import Unnest.Syntax.Basic

/-!
# The nodes of a tree in reading order

`Block.nodes` lists every node of a block, a node before the nodes inside it and those from left to
right. It is the order in which every analysis visits a body.
-/

namespace Unnest

/-- A node of a tree. A block that is a statement is listed once, as a block. -/
inductive Node where
  | expr (e : Expr)
  | stmt (s : Stmt)
  | block (b : Block)

mutual

def Expr.nodes : Expr → List Node
  | e@(.literal ..) | e@(.ref ..) | e@(.self ..) | e@(.functionRef ..) | e@(.newEnv ..)
  | e@(.zero ..) => [.expr e]
  | e@(.assign _ target value) => .expr e :: (target.nodes ++ value.nodes)
  | e@(.binary _ _ lhs rhs) => .expr e :: (lhs.nodes ++ rhs.nodes)
  | e@(.lambda _ _ body) => .expr e :: body.nodes
  | e@(.localCall _ _ args) => .expr e :: Expr.nodesAll args
  | e@(.call _ _ receiver args) =>
    .expr e :: ((match receiver with
      | some r => r.nodes
      | none => []) ++ Expr.nodesAll args)
  | e@(.invoke _ callee args) => .expr e :: (callee.nodes ++ Expr.nodesAll args)
  | e@(.field _ receiver _) => .expr e :: receiver.nodes
  | e@(.delegate _ receiver _) =>
    .expr e :: match receiver with
      | some r => r.nodes
      | none => []

def Expr.nodesAll : List Expr → List Node
  | [] => []
  | e :: es => e.nodes ++ Expr.nodesAll es

def Stmt.nodes : Stmt → List Node
  | .block b => b.nodes
  | s@(.declare _ _ init) =>
    .stmt s :: match init with
      | some e => e.nodes
      | none => []
  | s@(.expr _ value) => .stmt s :: value.nodes
  | s@(.ret _ value) =>
    .stmt s :: match value with
      | some e => e.nodes
      | none => []
  | s@(.cond _ test thenBlock elseBlock) =>
    .stmt s :: (test.nodes ++ thenBlock.nodes ++ match elseBlock with
      | some b => b.nodes
      | none => [])
  | s@(.loop _ test body) => .stmt s :: (test.nodes ++ body.nodes)
  | s@(.localFunction _ _ body) => .stmt s :: body.nodes

def Stmt.nodesAll : List Stmt → List Node
  | [] => []
  | s :: ss => s.nodes ++ Stmt.nodesAll ss

def Block.nodes : Block → List Node
  | b@(.mk _ _ stmts) => .block b :: Stmt.nodesAll stmts

end

/-- The node is a lambda or a local function. -/
def Node.isNestedFunction : Node → Bool
  | .expr (.lambda ..) => true
  | .stmt (.localFunction ..) => true
  | _ => false

/-- Whether there is anything to convert. A body without a block has nothing. -/
def MethodBody.hasNestedFunctions (m : MethodBody) : Bool :=
  match m.block with
  | some b => b.nodes.any Node.isNestedFunction
  | none => false

end Unnest
