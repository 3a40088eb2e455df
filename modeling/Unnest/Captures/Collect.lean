import Unnest.Graph.Draft
import Unnest.Graph.Nesting

/-!
# Captures by reference

`Draft.collect` walks a body and notes, for every closure, the variables that its own body refers to
but does not declare, and the closures it depends on: those it calls, uses as values or contains.
What a closure captures only through others is left to propagation.

The walk enters a nested function through the graph, by the block of the closure's body scope.
-/

namespace Unnest

/-- Where in the graph a node stands: in which scope and in which closure's frame. -/
structure Place where
  scope : ScopeId
  closure : Option ClosureId := none

namespace Draft

/-- Notes that the closure at `p` depends on `c`. -/
def depend (d : Draft) (p : Place) (c : ClosureId) : Draft :=
  match p.closure with
  | some outer =>
    d.modify (·.modifyClosure outer fun cl => { cl with dependencies := cl.dependencies.insert c })
  | none => d

/-- Notes a reference to a variable. It has to be declared in a scope around the reference, and is
captured if that scope lies outside the closure at hand. -/
def refer (d : Draft) (p : Place) (loc : Loc) : Option Variable → Draft
  | none => d.failFirst .referenceWithoutVariable loc
  | some v =>
    match d.graph.declaringScope? v with
    | none => d.failFirst (.undeclaredVariable v.name) loc
    | some s =>
      if d.graph.encloses s p.scope then
        match p.closure with
        | some c =>
          if d.graph.bodyDeclares c v then d
          else d.modify (·.modifyClosure c fun cl =>
            { cl with direct := cl.direct.insert v, captured := cl.captured.insert v })
        | none => d
      else d.failFirst (.outOfScope v.name) loc

/-- The closure of a function that is called or used as a value. -/
def callee? (d : Draft) (fn : Option NestedFunction) : Option ClosureId :=
  fn.bind d.graph.closureOf?

def unknownFunction (d : Draft) (loc : Loc) (fn : Option NestedFunction) : Draft :=
  d.failFirst (.unknownFunction (fn.map (·.name))) loc

/-- Walks into a nested function by means of `enter`. -/
def enterClosure (d : Draft) (enter : ClosureId → Draft → Draft) (p : Place) (loc : Loc)
    (fn : Option NestedFunction) : Draft :=
  match d.callee? fn with
  | some c => enter c (d.depend p c)
  | none => d.failFirst .functionNotInGraph loc

end Draft

mutual

def Expr.collect (enter : ClosureId → Draft → Draft) (p : Place) : Expr → Draft → Draft
  | .literal .., d | .newEnv .., d | .zero .., d => d
  | .ref loc target, d => d.refer p loc target
  | .self loc _, d =>
    match d.graph.receiver with
    | some r => d.refer p loc (some r)
    | none => d.failFirst .receiverInStaticMethod loc
  | .assign _ target value, d => value.collect enter p (target.collect enter p d)
  | .binary _ _ lhs rhs, d => rhs.collect enter p (lhs.collect enter p d)
  | .lambda loc fn _, d => d.enterClosure enter p loc fn
  | .functionRef loc fn, d =>
    match d.callee? fn with
    | some c => (d.modify (·.modifyClosure c fun cl => { cl with isDelegate := true })).depend p c
    | none => d.unknownFunction loc fn
  | .localCall loc fn args, d =>
    match d.callee? (some fn) with
    | some c => Expr.collectAll enter p args (d.depend p c)
    | none => d.unknownFunction loc (some fn)
  | .call _ _ receiver args, d =>
    Expr.collectAll enter p args
      (match receiver with
        | some e => e.collect enter p d
        | none => d)
  | .invoke _ callee args, d => Expr.collectAll enter p args (callee.collect enter p d)
  | .field _ receiver _, d => receiver.collect enter p d
  | .delegate _ receiver _, d =>
    match receiver with
    | some e => e.collect enter p d
    | none => d

def Expr.collectAll (enter : ClosureId → Draft → Draft) (p : Place) : List Expr → Draft → Draft
  | [], d => d
  | e :: es, d => Expr.collectAll enter p es (e.collect enter p d)

def Stmt.collect (enter : ClosureId → Draft → Draft) (p : Place) : Stmt → Draft → Draft
  | .block b, d => b.collect enter p d
  | .declare _ _ init, d =>
    match init with
    | some e => e.collect enter p d
    | none => d
  | .expr _ value, d => value.collect enter p d
  | .ret _ value, d =>
    match value with
    | some e => e.collect enter p d
    | none => d
  | .cond _ test thenBlock elseBlock, d =>
    let d := thenBlock.collect enter p (test.collect enter p d)
    match elseBlock with
    | some b => b.collect enter p d
    | none => d
  | .loop _ test body, d => body.collect enter p (test.collect enter p d)
  | .localFunction loc fn _, d => d.enterClosure enter p loc fn

/-- No statement is begun after a failure. -/
def Stmt.collectAll (enter : ClosureId → Draft → Draft) (p : Place) : List Stmt → Draft → Draft
  | [], d => d
  | st :: ss, d => if d.isOk then Stmt.collectAll enter p ss (st.collect enter p d) else d

def Block.collect (enter : ClosureId → Draft → Draft) (p : Place) : Block → Draft → Draft
  | .mk id loc stmts, d =>
    match d.graph.scopeOf? id with
    | some s => Stmt.collectAll enter { p with scope := s } stmts d
    | none => d.failFirst .blockNotInGraph loc

end

namespace Draft

/-- Walks the body of a closure, and the functions nested in it to the given depth. -/
def collectClosure : Nat → ClosureId → Draft → Draft
  | 0, _, d => d
  | depth + 1, c, d =>
    let s := (d.graph.closure c).body
    match (d.graph.scope s).block with
    | some b => Stmt.collectAll (collectClosure depth) ⟨s, some c⟩ b.stmts d
    | none => d

/-- Collects the captures of all closures. Functions are nested no deeper than there are
closures. -/
def collect (d : Draft) : Draft :=
  match d.graph.body.block with
  | some b => Stmt.collectAll (collectClosure d.graph.closures.size) ⟨Graph.root, none⟩ b.stmts d
  | none => d

end Draft

end Unnest
