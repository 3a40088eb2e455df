import Unnest.Symbol

/-!
# Method bodies

The typed tree of one method body, after binding: names are resolved to symbols and literals keep
their spelling. A missing symbol (`none`) is a defect of whoever made the tree, and is reported when
the tree is analysed.

Blocks are told apart by their `id`, since two blocks may read the same. `MethodBody.numbered` hands
out the ids in reading order; everything that maps blocks to scopes works on a numbered body.
-/

namespace Unnest

/-- Line and column in the source text, `0` when unknown. -/
structure Loc where
  line : Int := 0
  column : Int := 0
  deriving DecidableEq, Repr, Inhabited

/-- Only a positive line points anywhere. -/
def Loc.isKnown (l : Loc) : Bool := 0 < l.line

abbrev BlockId := Nat

mutual

inductive Expr where
  /-- A constant of any type, by its spelling. -/
  | literal (loc : Loc) (value type : String)
  | ref (loc : Loc) (target : Option Variable)
  /-- The receiver of the method around this node. -/
  | self (loc : Loc) (type : String)
  | assign (loc : Loc) (target value : Expr)
  | binary (loc : Loc) (op : String) (lhs rhs : Expr)
  | lambda (loc : Loc) (fn : Option NestedFunction) (body : Block)
  /-- A local function used as a value. -/
  | functionRef (loc : Loc) (fn : Option NestedFunction)
  | localCall (loc : Loc) (fn : NestedFunction) (args : List Expr)
  /-- A call of a method; static calls have no receiver. -/
  | call (loc : Loc) (method : Method) (receiver : Option Expr) (args : List Expr)
  /-- A call through a callable value. -/
  | invoke (loc : Loc) (callee : Expr) (args : List Expr)
  | field (loc : Loc) (receiver : Expr) (field : Field)
  /-- A new environment on the heap. -/
  | newEnv (loc : Loc) (type : String)
  /-- The zero-initialised value of a type. -/
  | zero (loc : Loc) (type : String)
  /-- A callable value bound to a method. -/
  | delegate (loc : Loc) (receiver : Option Expr) (method : Method)

inductive Stmt where
  | block (block : Block)
  | declare (loc : Loc) (target : Option Variable) (init : Option Expr)
  | expr (loc : Loc) (value : Expr)
  | ret (loc : Loc) (value : Option Expr)
  | cond (loc : Loc) (test : Expr) (thenBlock : Block) (elseBlock : Option Block)
  /-- The body is a fresh scope on every iteration. -/
  | loop (loc : Loc) (test : Expr) (body : Block)
  | localFunction (loc : Loc) (fn : Option NestedFunction) (body : Block)

inductive Block where
  | mk (id : BlockId) (loc : Loc) (stmts : List Stmt)

end

instance : Inhabited Block := ⟨.mk 0 {} []⟩

instance : Inhabited Expr := ⟨.self {} ""⟩

instance : Inhabited Stmt := ⟨.block default⟩

namespace Block

def id : Block → BlockId
  | mk id _ _ => id

def loc : Block → Loc
  | mk _ loc _ => loc

def stmts : Block → List Stmt
  | mk _ _ stmts => stmts

end Block

def Expr.loc : Expr → Loc
  | literal loc .. | ref loc .. | self loc .. | assign loc .. | binary loc .. | lambda loc ..
  | functionRef loc .. | localCall loc .. | call loc .. | invoke loc .. | field loc ..
  | newEnv loc .. | zero loc .. | delegate loc .. => loc

/-- The same expression at another place. -/
def Expr.withLoc (loc : Loc) : Expr → Expr
  | literal _ value type => literal loc value type
  | ref _ target => ref loc target
  | self _ type => self loc type
  | assign _ target value => assign loc target value
  | binary _ op lhs rhs => binary loc op lhs rhs
  | lambda _ fn body => lambda loc fn body
  | functionRef _ fn => functionRef loc fn
  | localCall _ fn args => localCall loc fn args
  | call _ method receiver args => call loc method receiver args
  | invoke _ callee args => invoke loc callee args
  | field _ receiver f => field loc receiver f
  | newEnv _ type => newEnv loc type
  | zero _ type => zero loc type
  | delegate _ receiver method => delegate loc receiver method

def Stmt.loc : Stmt → Loc
  | block b => b.loc
  | declare loc .. | expr loc .. | ret loc .. | cond loc .. | loop loc ..
  | localFunction loc .. => loc

/-- One method as its binder left it. A static method has no receiver. -/
structure MethodBody where
  method : Option Method
  receiver : Option Variable
  block : Option Block
  deriving Inhabited

/-! ## Numbering the blocks -/

mutual

/-- How many blocks stand in an expression. -/
def Expr.blockCount : Expr → Nat
  | .literal .. | .ref .. | .self .. | .functionRef .. | .newEnv .. | .zero .. => 0
  | .assign _ target value => target.blockCount + value.blockCount
  | .binary _ _ lhs rhs => lhs.blockCount + rhs.blockCount
  | .lambda _ _ body => body.blockCount
  | .localCall _ _ args => Expr.blockCounts args
  | .call _ _ receiver args =>
    (match receiver with
      | some e => e.blockCount
      | none => 0) + Expr.blockCounts args
  | .invoke _ callee args => callee.blockCount + Expr.blockCounts args
  | .field _ receiver _ => receiver.blockCount
  | .delegate _ receiver _ =>
    match receiver with
    | some e => e.blockCount
    | none => 0

def Expr.blockCounts : List Expr → Nat
  | [] => 0
  | e :: es => e.blockCount + Expr.blockCounts es

def Stmt.blockCount : Stmt → Nat
  | .block b => b.blockCount
  | .declare _ _ init =>
    match init with
    | some e => e.blockCount
    | none => 0
  | .expr _ value => value.blockCount
  | .ret _ value =>
    match value with
    | some e => e.blockCount
    | none => 0
  | .cond _ test thenBlock elseBlock =>
    test.blockCount + thenBlock.blockCount +
      match elseBlock with
      | some b => b.blockCount
      | none => 0
  | .loop _ test body => test.blockCount + body.blockCount
  | .localFunction _ _ body => body.blockCount

def Stmt.blockCounts : List Stmt → Nat
  | [] => 0
  | s :: ss => s.blockCount + Stmt.blockCounts ss

/-- How many blocks stand in a block, itself included. -/
def Block.blockCount : Block → Nat
  | .mk _ _ stmts => Stmt.blockCounts stmts + 1

end

mutual

/-- Numbers the blocks of an expression in reading order, starting with `n`. -/
def Expr.number (n : Nat) : Expr → Expr
  | .assign loc target value =>
    .assign loc (target.number n) (value.number (n + target.blockCount))
  | .binary loc op lhs rhs => .binary loc op (lhs.number n) (rhs.number (n + lhs.blockCount))
  | .lambda loc fn body => .lambda loc fn (body.number n)
  | .localCall loc fn args => .localCall loc fn (Expr.numberAll n args)
  | .call loc method receiver args =>
    match receiver with
    | some e =>
      .call loc method (some (e.number n)) (Expr.numberAll (n + e.blockCount) args)
    | none => .call loc method none (Expr.numberAll n args)
  | .invoke loc callee args =>
    .invoke loc (callee.number n) (Expr.numberAll (n + callee.blockCount) args)
  | .field loc receiver f => .field loc (receiver.number n) f
  | .delegate loc receiver method =>
    match receiver with
    | some e => .delegate loc (some (e.number n)) method
    | none => .delegate loc none method
  | .literal loc value type => .literal loc value type
  | .ref loc target => .ref loc target
  | .self loc type => .self loc type
  | .functionRef loc fn => .functionRef loc fn
  | .newEnv loc type => .newEnv loc type
  | .zero loc type => .zero loc type

def Expr.numberAll (n : Nat) : List Expr → List Expr
  | [] => []
  | e :: es => e.number n :: Expr.numberAll (n + e.blockCount) es

def Stmt.number (n : Nat) : Stmt → Stmt
  | .block b => .block (b.number n)
  | .declare loc target init =>
    match init with
    | some e => .declare loc target (some (e.number n))
    | none => .declare loc target none
  | .expr loc value => .expr loc (value.number n)
  | .ret loc value =>
    match value with
    | some e => .ret loc (some (e.number n))
    | none => .ret loc none
  | .cond loc test thenBlock elseBlock =>
    let thenAt := n + test.blockCount
    match elseBlock with
    | some b =>
      .cond loc (test.number n) (thenBlock.number thenAt)
        (some (b.number (thenAt + thenBlock.blockCount)))
    | none => .cond loc (test.number n) (thenBlock.number thenAt) none
  | .loop loc test body => .loop loc (test.number n) (body.number (n + test.blockCount))
  | .localFunction loc fn body => .localFunction loc fn (body.number n)

def Stmt.numberAll (n : Nat) : List Stmt → List Stmt
  | [] => []
  | s :: ss => s.number n :: Stmt.numberAll (n + s.blockCount) ss

/-- A block comes before the blocks inside it. -/
def Block.number (n : Nat) : Block → Block
  | .mk _ loc stmts => .mk n loc (Stmt.numberAll (n + 1) stmts)

end

/-- The body with the ids of its blocks handed out in reading order, the outermost one first. -/
def MethodBody.numbered (m : MethodBody) : MethodBody :=
  { m with block := m.block.map (Block.number 0) }

end Unnest
