import Mathlib.Data.List.Basic
import Unnest.Syntax.Node

/-!
# Where a node stands

Every analysis of a body is a walk over its nodes in which only three things matter: which nodes
stand directly inside a node, whether the node opens a block, and whether it is a nested function.
`Node.inner`, `Node.opened?` and `Node.nested?` say this for all kinds of node at once, and
`Node.sites` lists every node below a node together with the blocks and functions around it.

## Main definitions

* `Path` : the blocks and the nested functions around a node, innermost first.
* `Node.sites` : the nodes below a node in reading order, each with its path.
* `MethodBody.sites` : the same for a whole body.
* `Node.induction` : induction over the nodes directly inside a node.
-/

namespace Unnest

/-! ## The nodes directly inside a node -/

/-- The expressions directly inside an expression. The body of a lambda is none. -/
def Expr.operands : Expr → List Expr
  | .literal .. | .ref .. | .self .. | .functionRef .. | .newEnv .. | .zero .. | .lambda .. => []
  | .assign _ target value => [target, value]
  | .binary _ _ lhs rhs => [lhs, rhs]
  | .localCall _ _ args => args
  | .call _ _ receiver args => receiver.toList ++ args
  | .invoke _ callee args => callee :: args
  | .field _ receiver _ => [receiver]
  | .delegate _ receiver _ => receiver.toList

theorem Expr.nodesAll_append (es es' : List Expr) :
    nodesAll (es ++ es') = nodesAll es ++ nodesAll es' := by
  induction es with
  | nil => rfl
  | cons e es ih => simp [nodesAll, ih]

theorem Stmt.nodesAll_append (ss ss' : List Stmt) :
    nodesAll (ss ++ ss') = nodesAll ss ++ nodesAll ss' := by
  induction ss with
  | nil => rfl
  | cons s ss ih => simp [nodesAll, ih]

theorem Expr.nodesAll_eq (es : List Expr) : nodesAll es = es.flatMap nodes := by
  induction es with
  | nil => rfl
  | cons e es ih => rw [nodesAll, List.flatMap_cons, ih]

theorem Stmt.nodesAll_eq (ss : List Stmt) : nodesAll ss = ss.flatMap nodes := by
  induction ss with
  | nil => rfl
  | cons s ss ih => rw [nodesAll, List.flatMap_cons, ih]

theorem Expr.mem_nodesAll {n : Node} {es : List Expr} :
    n ∈ nodesAll es ↔ ∃ e ∈ es, n ∈ e.nodes := by
  rw [nodesAll_eq, List.mem_flatMap]

theorem Stmt.mem_nodesAll {n : Node} {ss : List Stmt} :
    n ∈ nodesAll ss ↔ ∃ s ∈ ss, n ∈ s.nodes := by
  rw [nodesAll_eq, List.mem_flatMap]

theorem Stmt.nodes_declare (loc : Loc) (v : Option Variable) (init : Option Expr) :
    (Stmt.declare loc v init).nodes =
      .stmt (.declare loc v init) :: Expr.nodesAll init.toList := by
  cases init <;> simp [nodes, Expr.nodesAll]

theorem Stmt.nodes_ret (loc : Loc) (value : Option Expr) :
    (Stmt.ret loc value).nodes = .stmt (.ret loc value) :: Expr.nodesAll value.toList := by
  cases value <;> simp [nodes, Expr.nodesAll]

namespace Node

/-- The block that a node opens. -/
def opened? : Node → Option Block
  | .expr (.lambda _ _ body) => some body
  | .stmt (.localFunction _ _ body) => some body
  | .stmt (.block b) => some b
  | .block b => some b
  | _ => none

/-- The symbol of a nested function, which may be missing, and its body. -/
def nested? : Node → Option (Option NestedFunction × Block)
  | .expr (.lambda _ fn body) => some (fn, body)
  | .stmt (.localFunction _ fn body) => some (fn, body)
  | _ => none

/-- The nested function that a node introduces. -/
def function? (n : Node) : Option NestedFunction := n.nested?.bind (·.1)

/-- The nodes directly inside a node. Those inside a block or a nested function are its
statements. -/
def inner : Node → List Node
  | .expr (.lambda _ _ body) => body.stmts.map .stmt
  | .expr e => e.operands.map .expr
  | .stmt (.localFunction _ _ body) => body.stmts.map .stmt
  | .stmt (.block b) => b.stmts.map .stmt
  | .stmt (.declare _ _ init) => init.toList.map .expr
  | .stmt (.expr _ value) => [.expr value]
  | .stmt (.ret _ value) => value.toList.map .expr
  | .stmt (.cond _ test thenBlock elseBlock) =>
    .expr test :: .block thenBlock :: elseBlock.toList.map .block
  | .stmt (.loop _ test body) => [.expr test, .block body]
  | .block b => b.stmts.map .stmt

/-- The variable that a statement declares. -/
def declared? : Node → Option Variable
  | .stmt (.declare _ target _) => target
  | _ => none

end Node

/-- An expression that opens no block consists of itself and its operands. -/
theorem Expr.nodes_eq {e : Expr} (hnone : (Node.expr e).opened? = none) :
    e.nodes = .expr e :: nodesAll e.operands := by
  cases e with
  | lambda => exact nomatch hnone
  | call loc method receiver args => cases receiver <;> simp [nodes, operands, nodesAll]
  | delegate loc receiver method => cases receiver <;> simp [nodes, operands, nodesAll]
  | _ => simp [nodes, operands, nodesAll]

namespace Node

/-- The nodes below a node in reading order, itself included. -/
def nodes : Node → List Node
  | .expr e => e.nodes
  | .stmt s => s.nodes
  | .block b => b.nodes

theorem flatMap_nodes_expr (es : List Expr) :
    (es.map Node.expr).flatMap nodes = Expr.nodesAll es := by
  rw [Expr.nodesAll_eq, List.flatMap_map]
  rfl

theorem nodes_block (b : Block) : b.nodes = .block b :: (b.stmts.map Node.stmt).flatMap nodes := by
  cases b with
  | mk id loc stmts =>
    rw [Block.nodes, Stmt.nodesAll_eq, List.flatMap_map]
    rfl

/-- The node itself and the block that it opens. A block that is a statement is listed once. -/
def heads : Node → List Node
  | .stmt (.block b) | .block b => [.block b]
  | n => n :: n.opened?.toList.map .block

/-- Besides the node itself and what stands inside it only blocks are listed. -/
theorem nodes_eq (n : Node) : n.nodes = n.heads ++ n.inner.flatMap nodes := by
  cases n with
  | expr e =>
    cases e with
    | lambda loc fn body => simp [nodes, heads, inner, opened?, Expr.nodes, nodes_block]
    | _ => exact (Expr.nodes_eq rfl).trans (congrArg _ (flatMap_nodes_expr _).symm)
  | stmt s =>
    cases s with
    | declare loc target init => cases init <;> simp [nodes, heads, inner, opened?, Stmt.nodes]
    | ret loc value => cases value <;> simp [nodes, heads, inner, opened?, Stmt.nodes]
    | cond loc test b b' => cases b' <;> simp [nodes, heads, inner, opened?, Stmt.nodes]
    | _ => simp [nodes, heads, inner, opened?, Stmt.nodes, nodes_block]
  | block b => exact nodes_block b

end Node

/-- The variables that the statements of a block declare. -/
def Block.declared (b : Block) : List Variable :=
  (b.stmts.map Node.stmt).filterMap Node.declared?

theorem Block.sizeOf_stmt_lt {b : Block} {s : Stmt} (h : s ∈ b.stmts) : sizeOf s < sizeOf b := by
  cases b with
  | mk id loc stmts =>
    have := List.sizeOf_lt_of_mem (show s ∈ stmts from h)
    simp only [Block.mk.sizeOf_spec]
    omega

theorem Expr.sizeOf_operand_lt {e x : Expr} (h : x ∈ e.operands) : sizeOf x < sizeOf e := by
  cases e with
  | literal | ref | self | functionRef | newEnv | zero | lambda => simp [operands] at h
  | assign loc target value =>
    obtain rfl | rfl : x = target ∨ x = value := by simpa [operands] using h
    all_goals simp only [Expr.assign.sizeOf_spec]; omega
  | binary loc op lhs rhs =>
    obtain rfl | rfl : x = lhs ∨ x = rhs := by simpa [operands] using h
    all_goals simp only [Expr.binary.sizeOf_spec]; omega
  | localCall loc fn args =>
    have := List.sizeOf_lt_of_mem (show x ∈ args from h)
    simp only [Expr.localCall.sizeOf_spec]
    omega
  | call loc method receiver args =>
    rcases List.mem_append.mp h with h | h
    · obtain rfl : receiver = some x := by simpa using h
      simp only [Expr.call.sizeOf_spec, Option.some.sizeOf_spec]
      omega
    · have := List.sizeOf_lt_of_mem h
      simp only [Expr.call.sizeOf_spec]
      omega
  | invoke loc callee args =>
    rcases List.mem_cons.mp h with rfl | h
    · simp only [Expr.invoke.sizeOf_spec]
      omega
    · have := List.sizeOf_lt_of_mem h
      simp only [Expr.invoke.sizeOf_spec]
      omega
  | field loc receiver f =>
    obtain rfl : x = receiver := by simpa [operands] using h
    simp only [Expr.field.sizeOf_spec]
    omega
  | delegate loc receiver method =>
    obtain rfl : receiver = some x := by simpa [operands] using h
    simp only [Expr.delegate.sizeOf_spec, Option.some.sizeOf_spec]
    omega

namespace Node

theorem sizeOf_inner_lt {n m : Node} (h : m ∈ n.inner) : sizeOf m < sizeOf n := by
  cases n with
  | expr e =>
    cases e with
    | lambda loc fn body =>
      obtain ⟨s, hs, rfl⟩ := List.mem_map.mp h
      have := Block.sizeOf_stmt_lt hs
      simp only [Node.expr.sizeOf_spec, Node.stmt.sizeOf_spec, Expr.lambda.sizeOf_spec]
      omega
    | _ =>
      obtain ⟨x, hx, rfl⟩ := List.mem_map.mp h
      have := Expr.sizeOf_operand_lt hx
      simp only [Node.expr.sizeOf_spec]
      omega
  | stmt s =>
    cases s with
    | localFunction loc fn body =>
      obtain ⟨s, hs, rfl⟩ := List.mem_map.mp h
      have := Block.sizeOf_stmt_lt hs
      simp only [Node.stmt.sizeOf_spec, Stmt.localFunction.sizeOf_spec]
      omega
    | block b =>
      obtain ⟨s, hs, rfl⟩ := List.mem_map.mp h
      have := Block.sizeOf_stmt_lt hs
      simp only [Node.stmt.sizeOf_spec, Stmt.block.sizeOf_spec]
      omega
    | declare loc target init =>
      obtain ⟨x, rfl, rfl⟩ : ∃ x, init = some x ∧ .expr x = m := by simpa [inner] using h
      simp only [Node.expr.sizeOf_spec, Node.stmt.sizeOf_spec, Stmt.declare.sizeOf_spec,
        Option.some.sizeOf_spec]
      omega
    | expr loc value =>
      obtain rfl : m = .expr value := by simpa [inner] using h
      simp only [Node.expr.sizeOf_spec, Node.stmt.sizeOf_spec, Stmt.expr.sizeOf_spec]
      omega
    | ret loc value =>
      obtain ⟨x, rfl, rfl⟩ : ∃ x, value = some x ∧ .expr x = m := by simpa [inner] using h
      simp only [Node.expr.sizeOf_spec, Node.stmt.sizeOf_spec, Stmt.ret.sizeOf_spec,
        Option.some.sizeOf_spec]
      omega
    | cond loc test thenBlock elseBlock =>
      obtain rfl | rfl | ⟨x, rfl, rfl⟩ : m = .expr test ∨ m = .block thenBlock ∨
          ∃ x, elseBlock = some x ∧ .block x = m := by simpa [inner] using h
      all_goals
        simp only [Node.expr.sizeOf_spec, Node.block.sizeOf_spec, Node.stmt.sizeOf_spec,
          Stmt.cond.sizeOf_spec, Option.some.sizeOf_spec]
        omega
    | loop loc test body =>
      obtain rfl | rfl : m = .expr test ∨ m = .block body := by simpa [inner] using h
      all_goals
        simp only [Node.expr.sizeOf_spec, Node.block.sizeOf_spec, Node.stmt.sizeOf_spec,
          Stmt.loop.sizeOf_spec]
        omega
  | block b =>
    obtain ⟨s, hs, rfl⟩ := List.mem_map.mp h
    have := Block.sizeOf_stmt_lt hs
    simp only [Node.stmt.sizeOf_spec, Node.block.sizeOf_spec]
    omega

/-- What holds of a node whenever it holds of the nodes directly inside holds of all nodes. -/
theorem induction {P : Node → Prop} (step : ∀ n, (∀ m ∈ n.inner, P m) → P n) (n : Node) : P n :=
  step n fun m _ => induction step m
termination_by sizeOf n
decreasing_by exact sizeOf_inner_lt ‹_›

end Node

/-! ## Paths and sites -/

/-- The blocks and the nested functions around a node, innermost first. -/
structure Path where
  blocks : List BlockId
  functions : List NestedFunction := []
  deriving DecidableEq, Repr

/-- The path of the nodes directly inside `n`, which stands at `p`. -/
def Path.into (p : Path) (n : Node) : Path where
  blocks := (n.opened?.map (·.id)).toList ++ p.blocks
  functions := n.function?.toList ++ p.functions

/-- The nodes below a node in reading order, itself included, each with its path. -/
def Node.sites (p : Path) (n : Node) : List (Path × Node) :=
  (p, n) :: n.inner.attach.flatMap fun m => m.1.sites (p.into n)
termination_by sizeOf n
decreasing_by exact Node.sizeOf_inner_lt m.2

/-- The nodes of a body, each with its path. The outermost block is around all of them. -/
def MethodBody.sites (m : MethodBody) : List (Path × Node) :=
  match m.block with
  | some b => (b.stmts.map Node.stmt).flatMap (Node.sites ⟨[b.id], []⟩)
  | none => []

namespace Node

theorem sites_eq (p : Path) (n : Node) :
    n.sites p = (p, n) :: n.inner.flatMap (Node.sites (p.into n)) := by
  rw [Node.sites, List.flatMap_subtype (g := Node.sites (p.into n)) (by simp)]
  simp

theorem mem_sites {p : Path} {n : Node} {s : Path × Node} :
    s ∈ n.sites p ↔ s = (p, n) ∨ ∃ m ∈ n.inner, s ∈ m.sites (p.into n) := by
  rw [sites_eq, List.mem_cons, List.mem_flatMap]

theorem self_mem_sites (p : Path) (n : Node) : (p, n) ∈ n.sites p := mem_sites.mpr (.inl rfl)

theorem mem_sites_of_inner {p : Path} {n m : Node} {s : Path × Node} (hm : m ∈ n.inner)
    (hs : s ∈ m.sites (p.into n)) : s ∈ n.sites p := mem_sites.mpr (.inr ⟨m, hm, hs⟩)

/-- The path of a node below `n` extends the path of `n`. -/
theorem suffix_of_mem_sites {p : Path} {n : Node} {s : Path × Node} (hs : s ∈ n.sites p) :
    p.blocks <:+ s.1.blocks ∧ p.functions <:+ s.1.functions := by
  induction n using Node.induction generalizing p with
  | step n ih =>
    obtain rfl | ⟨m, hm, hs⟩ := mem_sites.mp hs
    · exact ⟨List.suffix_rfl, List.suffix_rfl⟩
    · obtain ⟨hb, hf⟩ := ih m hm hs
      exact ⟨(List.suffix_append _ _).trans hb, (List.suffix_append _ _).trans hf⟩

/-- A node below `n` is `n` itself or stands directly inside a node below `n`. -/
theorem eq_or_inner_of_mem_sites {p : Path} {n : Node} {s : Path × Node} (hs : s ∈ n.sites p) :
    s = (p, n) ∨ ∃ t ∈ n.sites p, s.2 ∈ t.2.inner ∧ s.1 = t.1.into t.2 := by
  induction n using Node.induction generalizing p with
  | step n ih =>
    obtain rfl | ⟨m, hm, hs⟩ := mem_sites.mp hs
    · exact .inl rfl
    · refine .inr ?_
      obtain rfl | ⟨t, ht, hst⟩ := ih m hm hs
      · exact ⟨(p, n), self_mem_sites p n, hm, rfl⟩
      · exact ⟨t, mem_sites_of_inner hm ht, hst⟩

/-- Whatever stands directly inside a node below `n` is below `n` as well. -/
theorem inner_mem_sites {p : Path} {n m : Node} {t : Path × Node} (ht : t ∈ n.sites p)
    (hm : m ∈ t.2.inner) : (t.1.into t.2, m) ∈ n.sites p := by
  induction n using Node.induction generalizing p with
  | step n ih =>
    obtain rfl | ⟨k, hk, ht⟩ := mem_sites.mp ht
    · exact mem_sites_of_inner hm (self_mem_sites _ _)
    · exact mem_sites_of_inner hk (ih k hk ht)

/-- Where a node stands does not matter for which nodes are below it. -/
theorem map_snd_sites (p q : Path) (n : Node) : (n.sites p).map (·.2) = (n.sites q).map (·.2) := by
  induction n using Node.induction generalizing p q with
  | step n ih =>
    rw [sites_eq, sites_eq, List.map_cons, List.map_cons, List.map_flatMap, List.map_flatMap]
    congr 1
    exact List.flatMap_congr fun m hm => ih m hm _ _

/-! ## Blocks and functions below a node -/

/-- The blocks opened below a node, in reading order. -/
def blockIds (n : Node) : List BlockId :=
  (n.sites ⟨[], []⟩).filterMap fun s => s.2.opened?.map (·.id)

/-- The nested functions below a node, in reading order. -/
def functions (n : Node) : List NestedFunction :=
  (n.sites ⟨[], []⟩).filterMap fun s => s.2.function?

private theorem filterMap_sites {α : Type} (f : Node → Option α) (p : Path) (n : Node) :
    (n.sites p).filterMap (fun s => f s.2) =
      (f n).toList ++ n.inner.flatMap fun m =>
        (m.sites ⟨[], []⟩).filterMap fun s => f s.2 := by
  have hany (p : Path) (m : Node) : (m.sites p).filterMap (fun s => f s.2) =
      (m.sites ⟨[], []⟩).filterMap fun s => f s.2 := by
    have h := congrArg (List.filterMap f) (map_snd_sites p ⟨[], []⟩ m)
    rwa [List.filterMap_map, List.filterMap_map] at h
  rw [sites_eq, List.filterMap_cons, List.filterMap_flatMap]
  simp only [hany]
  cases f n <;> rfl

theorem blockIds_eq (n : Node) :
    n.blockIds = (n.opened?.map (·.id)).toList ++ n.inner.flatMap blockIds :=
  filterMap_sites (fun m => m.opened?.map Block.id) _ n

theorem functions_eq (n : Node) : n.functions = n.function?.toList ++ n.inner.flatMap functions :=
  filterMap_sites function? _ n

theorem filterMap_opened_sites (p : Path) (n : Node) :
    (n.sites p).filterMap (fun s => s.2.opened?.map (·.id)) = n.blockIds :=
  (filterMap_sites (fun m => m.opened?.map Block.id) p n).trans (blockIds_eq n).symm

theorem filterMap_function_sites (p : Path) (n : Node) :
    (n.sites p).filterMap (fun s => s.2.function?) = n.functions :=
  (filterMap_sites function? p n).trans (functions_eq n).symm

end Node

end Unnest
