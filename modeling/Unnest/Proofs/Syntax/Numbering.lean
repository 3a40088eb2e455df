import Unnest.Proofs.Syntax.Sites

/-!
# Numbered bodies

Once the blocks of a body are numbered, the blocks below any node carry consecutive numbers in
reading order. In particular a block comes before the blocks inside it, and no number is used twice.
-/

namespace Unnest

open List (range')

mutual

theorem Expr.blockIds_number (e : Expr) (n : Nat) :
    (Node.expr (e.number n)).blockIds = range' n e.blockCount := by
  rw [Node.blockIds_eq]
  cases e with
  | literal | ref | self | functionRef | newEnv | zero => rfl
  | assign loc target value =>
    simp [Expr.number, Node.opened?, Node.inner, Expr.operands, Expr.blockCount,
      target.blockIds_number, value.blockIds_number]
  | binary loc op lhs rhs =>
    simp [Expr.number, Node.opened?, Node.inner, Expr.operands, Expr.blockCount,
      lhs.blockIds_number, rhs.blockIds_number]
  | lambda loc fn body => exact body.blockIds_stmts_number n
  | localCall loc fn args => exact Expr.blockIds_numberAll args n
  | call loc method receiver args =>
    cases receiver with
    | none =>
      simpa [Expr.number, Node.opened?, Node.inner, Expr.operands, Expr.blockCount] using
        Expr.blockIds_numberAll args n
    | some receiver =>
      have := Expr.blockIds_numberAll args (n + receiver.blockCount)
      simp_all [Expr.number, Node.opened?, Node.inner, Expr.operands, Expr.blockCount,
        receiver.blockIds_number]
  | invoke loc callee args =>
    have := Expr.blockIds_numberAll args (n + callee.blockCount)
    simp_all [Expr.number, Node.opened?, Node.inner, Expr.operands, Expr.blockCount,
      callee.blockIds_number]
  | field loc receiver f =>
    simp [Expr.number, Node.opened?, Node.inner, Expr.operands, Expr.blockCount,
      receiver.blockIds_number]
  | delegate loc receiver method =>
    cases receiver with
    | none => rfl
    | some receiver =>
      simp [Expr.number, Node.opened?, Node.inner, Expr.operands, Expr.blockCount,
        receiver.blockIds_number]

theorem Expr.blockIds_numberAll (es : List Expr) (n : Nat) :
    ((Expr.numberAll n es).map Node.expr).flatMap Node.blockIds =
      range' n (Expr.blockCounts es) := by
  cases es with
  | nil => rfl
  | cons e es =>
    have := Expr.blockIds_numberAll es (n + e.blockCount)
    simp_all [Expr.numberAll, Expr.blockCounts, e.blockIds_number]

theorem Stmt.blockIds_number (s : Stmt) (n : Nat) :
    (Node.stmt (s.number n)).blockIds = range' n s.blockCount := by
  rw [Node.blockIds_eq]
  cases s with
  | block b => exact b.blockIds_stmts_number n
  | declare loc target init =>
    cases init with
    | none => rfl
    | some init =>
      simp [Stmt.number, Node.opened?, Node.inner, Stmt.blockCount, init.blockIds_number]
  | expr loc value =>
    simp [Stmt.number, Node.opened?, Node.inner, Stmt.blockCount, value.blockIds_number]
  | ret loc value =>
    cases value with
    | none => rfl
    | some value =>
      simp [Stmt.number, Node.opened?, Node.inner, Stmt.blockCount, value.blockIds_number]
  | cond loc test thenBlock elseBlock =>
    cases elseBlock with
    | none =>
      simp [Stmt.number, Node.opened?, Node.inner, Stmt.blockCount, test.blockIds_number,
        thenBlock.blockIds_number]
    | some elseBlock =>
      simp [Stmt.number, Node.opened?, Node.inner, Stmt.blockCount, test.blockIds_number,
        thenBlock.blockIds_number, elseBlock.blockIds_number]
      omega
  | loop loc test body =>
    simp [Stmt.number, Node.opened?, Node.inner, Stmt.blockCount, test.blockIds_number,
      body.blockIds_number]
  | localFunction loc fn body => exact body.blockIds_stmts_number n

theorem Stmt.blockIds_numberAll (ss : List Stmt) (n : Nat) :
    ((Stmt.numberAll n ss).map Node.stmt).flatMap Node.blockIds =
      range' n (Stmt.blockCounts ss) := by
  cases ss with
  | nil => rfl
  | cons s ss =>
    have := Stmt.blockIds_numberAll ss (n + s.blockCount)
    simp_all [Stmt.numberAll, Stmt.blockCounts, s.blockIds_number]

theorem Block.blockIds_number (b : Block) (n : Nat) :
    (Node.block (b.number n)).blockIds = range' n b.blockCount := by
  rw [Node.blockIds_eq]
  exact b.blockIds_stmts_number n

theorem Block.blockIds_stmts_number (b : Block) (n : Nat) :
    [(b.number n).id] ++ ((b.number n).stmts.map Node.stmt).flatMap Node.blockIds =
      range' n b.blockCount := by
  cases b with
  | mk id loc stmts =>
    have := Stmt.blockIds_numberAll stmts (n + 1)
    simp_all [Block.number, Block.id, Block.stmts, Block.blockCount, List.range'_succ]

end

end Unnest
