import Unnest.Proofs.Captures.Acceptance
import Unnest.Proofs.Captures.Order

/-!
# Closed trees

A tree is closed if it has no nested functions and refers to nothing but variables that are known
around it or are declared in a block around the reference. `Node.Closed` says so without the numbers
of the blocks, so that numbering them anew does not matter. A closed tree in which no variable is
declared twice is accepted.

## Main definitions

* `Node.Closed` : all nodes of a tree are in scope.
* `MethodBody.Standalone` : a body that needs no conversion.

## Main statements

* `Node.Closed.number` : numbering the blocks keeps a tree closed.
* `MethodBody.Closes.wellFormed`, `MethodBody.Closes.standalone` : a body that is closed and
  declares no variable twice is well-formed and stands on its own.
-/

namespace Unnest

/-! ## Numbering nodes -/

namespace Node

def blockCount : Node → Nat
  | .expr e => e.blockCount
  | .stmt s => s.blockCount
  | .block b => b.blockCount

def number (k : Nat) : Node → Node
  | .expr e => .expr (e.number k)
  | .stmt s => .stmt (s.number k)
  | .block b => .block (b.number k)

def numberEach (k : Nat) : List Node → List Node
  | [] => []
  | n :: ns => n.number k :: numberEach (k + n.blockCount) ns

private theorem map_numberAll_expr (k : Nat) (es : List Expr) :
    (Expr.numberAll k es).map .expr = numberEach k (es.map .expr) := by
  induction es generalizing k with
  | nil => rfl
  | cons e es ih => exact congrArg _ (ih _)

private theorem stmts_number (k : Nat) (b : Block) :
    (b.number k).stmts.map .stmt = numberEach (k + 1) (b.stmts.map .stmt) := by
  have hall (k : Nat) (ss : List Stmt) :
      (Stmt.numberAll k ss).map .stmt = numberEach k (ss.map .stmt) := by
    induction ss generalizing k with
    | nil => rfl
    | cons s ss ih => exact congrArg _ (ih _)
  cases b with
  | mk id loc stmts => exact hall (k + 1) stmts

/-- Numbering a node numbers the nodes inside it. -/
theorem inner_number (n : Node) (k : Nat) : ∃ j, (n.number k).inner = numberEach j n.inner := by
  cases n with
  | expr e =>
    cases e with
    | lambda loc fn body => exact ⟨k + 1, stmts_number k body⟩
    | localCall loc fn args => exact ⟨k, map_numberAll_expr k args⟩
    | call loc method receiver args =>
      cases receiver with
      | none => exact ⟨k, map_numberAll_expr k args⟩
      | some e => exact ⟨k, congrArg (Node.expr (e.number k) :: ·) (map_numberAll_expr _ args)⟩
    | invoke loc callee args =>
      exact ⟨k, congrArg (Node.expr (callee.number k) :: ·) (map_numberAll_expr _ args)⟩
    | delegate loc receiver method => cases receiver <;> exact ⟨k, rfl⟩
    | _ => exact ⟨k, rfl⟩
  | stmt s =>
    cases s with
    | block b => exact ⟨k + 1, stmts_number k b⟩
    | localFunction loc fn body => exact ⟨k + 1, stmts_number k body⟩
    | declare loc target init => cases init <;> exact ⟨k, rfl⟩
    | ret loc value => cases value <;> exact ⟨k, rfl⟩
    | cond loc test thenBlock elseBlock => cases elseBlock <;> exact ⟨k, rfl⟩
    | _ => exact ⟨k, rfl⟩
  | block b => exact ⟨k + 1, stmts_number k b⟩

theorem mem_numberEach {ns : List Node} {j : Nat} {n : Node} (h : n ∈ numberEach j ns) :
    ∃ m ∈ ns, ∃ i, n = m.number i := by
  induction ns generalizing j with
  | nil => exact absurd h List.not_mem_nil
  | cons m ns ih =>
    rcases List.mem_cons.mp h with rfl | h
    · exact ⟨m, List.mem_cons_self, j, rfl⟩
    · obtain ⟨m', hm', hi⟩ := ih h
      exact ⟨m', List.mem_cons_of_mem m hm', hi⟩

/-- What does not depend on the number of a node is found in the same order. -/
theorem flatMap_numberEach {α : Type} {f : Node → List α} {ns : List Node}
    (h : ∀ n ∈ ns, ∀ k, f (n.number k) = f n) (j : Nat) :
    (numberEach j ns).flatMap f = ns.flatMap f := by
  induction ns generalizing j with
  | nil => rfl
  | cons n ns ih =>
    rw [numberEach, List.flatMap_cons, List.flatMap_cons, h n List.mem_cons_self,
      ih fun m hm => h m (List.mem_cons_of_mem n hm)]

theorem gather_number {α : Type} {f : Node → List α} (h : ∀ n k, f (n.number k) = f n) (n : Node)
    (k : Nat) : (n.number k).gather f = n.gather f := by
  induction n using Node.induction generalizing k with
  | step n ih =>
    obtain ⟨j, hj⟩ := n.inner_number k
    rw [gather_eq, gather_eq, h, hj, flatMap_numberEach ih]

theorem declared_number (n : Node) (k : Nat) : (n.number k).declared? = n.declared? := by
  cases n with
  | expr e => rfl
  | stmt s =>
    cases s with
    | declare loc target init => cases init <;> rfl
    | ret loc value => cases value <;> rfl
    | cond loc test thenBlock elseBlock => cases elseBlock <;> rfl
    | _ => rfl
  | block b => rfl

/-! ## Closed trees -/

/-- The node by itself has nothing to do with nested functions, names the variable that it declares,
and refers only to variables in `V`, and to the receiver only if there is one. -/
def InScope (bound : Bool) (V : List Variable) : Node → Prop
  | .expr (.ref _ target) => ∃ v ∈ V, target = some v
  | .expr (.self ..) => bound = true
  | .expr (.lambda ..) | .expr (.functionRef ..) | .expr (.localCall ..)
  | .stmt (.localFunction ..) => False
  | .stmt (.declare _ target _) => target ≠ none
  | _ => True

/-- Every node is in scope, where a block adds the variables that it declares. -/
inductive Closed (bound : Bool) : List Variable → Node → Prop where
  | mk {V : List Variable} {n : Node} (own : n.InScope bound V)
      (inner : ∀ k ∈ n.inner, Closed bound (n.inner.filterMap declared? ++ V) k) : Closed bound V n

/-- The variables declared below a node, in reading order. -/
def allDeclared (n : Node) : List Variable := n.gather fun k => k.declared?.toList

variable {bound : Bool} {V W : List Variable} {n : Node}

theorem inScope_number (n : Node) (k : Nat) : (n.number k).InScope bound V ↔ n.InScope bound V := by
  cases n with
  | expr e =>
    cases e with
    | call loc method receiver args => cases receiver <;> rfl
    | delegate loc receiver method => cases receiver <;> rfl
    | _ => rfl
  | stmt s =>
    cases s with
    | declare loc target init => cases init <;> rfl
    | ret loc value => cases value <;> rfl
    | cond loc test thenBlock elseBlock => cases elseBlock <;> rfl
    | _ => rfl
  | block b => rfl

theorem InScope.nested (h : n.InScope bound V) : n.nested? = none := by
  cases n with
  | expr e => cases e <;> first | rfl | exact absurd h id
  | stmt s => cases s <;> first | rfl | exact absurd h id
  | block b => rfl

theorem InScope.use (h : n.InScope bound V) : n.use? = none := by
  cases n with
  | expr e => cases e <;> first | rfl | exact absurd h id
  | _ => rfl

/-- A reference is to a variable in scope or to the receiver. -/
theorem InScope.reference (h : n.InScope bound V) {receiver t : Option Variable}
    (ht : n.reference? receiver = some t) :
    (∃ v ∈ V, t = some v) ∨ bound = true ∧ t = receiver := by
  unfold reference? at ht
  split at ht
  · exact .inl (Option.some.inj ht ▸ h)
  · exact .inr ⟨h, (Option.some.inj ht).symm⟩
  · exact nomatch ht

theorem InScope.mem_of_mention (h : n.InScope bound V) {v : Variable}
    (hv : n.mention? = some (.reference v)) : v ∈ V := by
  unfold mention? at hv
  split at hv
  · obtain ⟨w, hw, rfl⟩ := h
    obtain rfl : w = v := by simpa using hv
    exact hw
  · simp at hv
  · exact nomatch hv

theorem InScope.targets (h : n.InScope bound V) : n.targets = n.declared?.toList.map some := by
  cases n with
  | expr e => cases e <;> first | rfl | exact absurd h id
  | stmt s =>
    cases s with
    | declare loc target init =>
      cases target with
      | none => exact absurd rfl h
      | some v => rfl
    | localFunction => exact absurd h id
    | _ => rfl
  | block b => rfl

namespace Closed

/-- A node that opens nothing adds no variables. -/
theorem of_isNone (hb : n.opened? = none) (own : n.InScope bound V)
    (inner : ∀ k ∈ n.inner, k.Closed bound V) : n.Closed bound V := by
  refine .mk own fun k hk => ?_
  rw [declared_inner_of_isNone hb]
  exact inner k hk

theorem expr {e : Expr} (hb : (Node.expr e).opened? = none) (own : (Node.expr e).InScope bound V)
    (operands : ∀ x ∈ e.operands, (Node.expr x).Closed bound V) : (Node.expr e).Closed bound V := by
  refine .of_isNone hb own fun k hk => ?_
  rw [inner_expr hb] at hk
  obtain ⟨x, hx, rfl⟩ := List.mem_map.mp hk
  exact operands x hx

theorem withLoc {e : Expr} (h : (Node.expr e).Closed bound V) (loc : Loc) :
    (Node.expr (e.withLoc loc)).Closed bound V := by
  obtain ⟨own, inner⟩ := h
  cases e <;> exact .mk own inner

/-- Numbering the blocks keeps a tree closed. -/
theorem number (h : n.Closed bound V) (k : Nat) : (n.number k).Closed bound V := by
  induction h generalizing k with
  | @mk V n own _ ih =>
    obtain ⟨j, hj⟩ := n.inner_number k
    have hdeclared : (n.number k).inner.filterMap declared? = n.inner.filterMap declared? := by
      rw [hj, List.filterMap_eq_flatMap_toList, List.filterMap_eq_flatMap_toList]
      exact flatMap_numberEach (fun m _ i => by rw [declared_number]) j
    refine .mk ((inScope_number n k).mpr own) fun m hm => ?_
    rw [hdeclared]
    rw [hj] at hm
    obtain ⟨m', hm', i, rfl⟩ := mem_numberEach hm
    exact ih m' hm' i

theorem function_of_mem_sites (h : n.Closed bound V) {p : Path} {s : Path × Node}
    (hs : s ∈ n.sites p) : s.2.function? = none := by
  induction h generalizing p with
  | mk own _ ih =>
    obtain rfl | ⟨k, hk, hs⟩ := mem_sites.mp hs
    · simp [function?, own.nested]
    · exact ih k hk hs

theorem heading_eq (h : n.Closed bound V) : n.gather heading = [] := by
  induction h with
  | mk own _ ih =>
    rw [gather_eq, heading_of_isNone own.nested, List.nil_append, List.flatMap_eq_nil_iff]
    exact ih

theorem targets_eq (h : n.Closed bound V) : n.gather targets = n.allDeclared.map some := by
  induction h with
  | @mk V n own _ ih =>
    rw [allDeclared, gather_eq, gather_eq, own.targets, List.map_append, List.map_flatMap]
    exact congrArg _ (List.flatMap_congr ih)

end Closed

end Node

/-! ## Closed bodies -/

namespace MethodBody

/-- At `p` variable `v` is known: it is a parameter of the method, or a statement in a block around
`p` declares it. -/
def Knows (m : MethodBody) (p : Path) (v : Variable) : Prop :=
  (∃ method, m.method = some method ∧ some v ∈ method.params) ∨
    ∃ q k, (q, k) ∈ m.numbered.sites ∧ k.declared? = some v ∧ q.scope ∈ p.blocks

/-- A body that stands on its own: it has no nested functions and uses none, it is accepted without
any closures, it mentions only variables that are known and declares none of them twice, and the
receiver comes up only if there is one. -/
structure Standalone (m : MethodBody) : Prop where
  flat : ∀ p n, (p, n) ∈ m.numbered.sites → n.nested? = none ∧ n.use? = none
  accepted : m.Accepted
  closures : m.captured.graph.closures = #[]
  known : ∀ p n v, (p, n) ∈ m.numbered.sites →
    n.mention? = some (.reference v) ∨ n.mention? = some (.declaration v) → m.Knows p v
  once : m.declared.Nodup
  receiver : ∀ p loc type, (p, .expr (.self loc type)) ∈ m.numbered.sites → m.receiver ≠ none

/-- The body has parameters `V` and block `b`, which is closed but for them, and declares no
variable twice. -/
structure Closes (m : MethodBody) (V : List Variable) (b : Block) : Prop where
  head : m.method.map (·.params) = some (V.map some)
  block : m.block = some b
  closed : (Node.block b).Closed m.receiver.isSome V
  once : m.declared.Nodup

variable {m : MethodBody} {p : Path} {n : Node} {v : Variable} {bound : Bool} {V W : List Variable}
  {b : Block}

theorem Leads.root_mem (hp : m.Leads p) : Graph.root ∈ p.blocks := by
  induction hp with
  | outermost => exact List.mem_cons_self
  | into _ _ _ ih => exact List.mem_append_right _ ih

theorem Knows.declares (h : m.Knows p v) (hp : m.Leads p) :
    ∃ q, m.Declares q v ∧ q.scope ∈ p.blocks := by
  rcases h with ⟨method, hm, hv⟩ | ⟨q, k, hk, hv, hq⟩
  · exact ⟨.outermost, .methodParam hm hv, hp.root_mem⟩
  · exact ⟨q, .statement hk hv, hq⟩

theorem Knows.mono {q : Path} (h : m.Knows p v) (hq : p.blocks ⊆ q.blocks) : m.Knows q v :=
  h.imp_right fun ⟨r, k, hk, hv, hmem⟩ => ⟨r, k, hk, hv, hq hmem⟩

theorem knows_of_declared (hn : (p, n) ∈ m.numbered.sites) (hv : n.declared? = some v) :
    m.Knows p v := .inr ⟨p, n, hn, hv, (leads_of_mem_sites hn).scope_mem⟩

/-- Every node below a closed one is in scope of what is known there. -/
theorem inScope_of_closed (h : n.Closed bound V) (hn : (p, n) ∈ m.numbered.sites)
    (hV : ∀ v ∈ V, m.Knows p v) {s : Path × Node} (hs : s ∈ n.sites p) :
    ∃ W, s.2.InScope bound W ∧ ∀ v ∈ W, m.Knows s.1 v := by
  induction h generalizing p with
  | @mk V n own _ ih =>
    obtain rfl | ⟨k, hk, hs⟩ := Node.mem_sites.mp hs
    · exact ⟨V, own, hV⟩
    · refine ih k hk (mem_sites_of_inner hn hk) (fun v hv => ?_) hs
      rcases List.mem_append.mp hv with hv | hv
      · obtain ⟨k', hk', hv⟩ := List.mem_filterMap.mp hv
        exact knows_of_declared (mem_sites_of_inner hn hk') hv
      · exact (hV v hv).mono (List.subset_append_right _ _)

section Block

variable (hb : m.block = some b) (hc : (Node.block b).Closed bound W)

include hb

theorem topNodes_of_block : m.topNodes = ((Node.block b).number 0).inner := by
  simp only [topNodes, numbered, hb]
  rfl

/-- What is found in the block is found in its numbered statements. -/
theorem flatMap_topNodes {α : Type} {f : Node → List α} (hf : ∀ n k, f (n.number k) = f n)
    (hnil : f (.block b) = []) : m.topNodes.flatMap (Node.gather f) = (Node.block b).gather f := by
  rw [topNodes_of_block hb, ← Node.gather_number hf (.block b) 0,
    Node.gather_eq f (Node.number 0 _), hf, hnil, List.nil_append]

theorem flatMap_allDeclared :
    m.topNodes.flatMap Node.allDeclared = (Node.block b).allDeclared :=
  flatMap_topNodes hb (f := fun k => k.declared?.toList)
    (fun n k => by rw [Node.declared_number]) rfl

include hc

theorem closed_of_topNodes (hn : n ∈ m.topNodes) : ∃ V, n.Closed bound V := by
  obtain ⟨_, hinner⟩ := hc.number 0
  exact ⟨_, hinner n (topNodes_of_block hb ▸ hn)⟩

theorem headings_of_closed : m.headings = [] := by
  refine List.flatMap_eq_nil_iff.mpr fun n hn => ?_
  obtain ⟨V, hclosed⟩ := closed_of_topNodes hb hc hn
  exact hclosed.heading_eq

/-- In a closed body only the receiver, the parameters and statements declare variables. -/
theorem declared_of_closed {method : Method} (hm : m.method = some method)
    (hparams : method.params = V.map some) :
    m.declared = m.receiver.toList ++ V ++ (Node.block b).allDeclared := by
  have hreduce : (V.map some).reduceOption = V := by simp [List.reduceOption]
  have hsites : (m.numbered.sites.flatMap fun s =>
      (s.2.function?.toList.flatMap fun f => f.params.reduceOption) ++ s.2.declared?.toList) =
        m.topNodes.flatMap Node.allDeclared := by
    rw [m.sites_numbered, List.flatMap_assoc]
    refine List.flatMap_congr fun n hn => ?_
    obtain ⟨V, hclosed⟩ := closed_of_topNodes hb hc hn
    rw [Node.allDeclared, ← Node.gather_sites _ .outermost]
    refine List.flatMap_congr fun s hs => ?_
    simp [hclosed.function_of_mem_sites hs]
  simp only [declared, hm, hparams, hreduce, hsites, flatMap_allDeclared hb, Option.toList_some,
    List.flatMap_singleton]

theorem targets_of_closed {method : Method} (hm : m.method = some method)
    (hparams : method.params = V.map some) : m.targets = m.declared.map some := by
  have hnodes : m.topNodes.flatMap (Node.gather Node.targets) =
      (m.topNodes.flatMap Node.allDeclared).map some := by
    rw [List.map_flatMap]
    refine List.flatMap_congr fun n hn => ?_
    obtain ⟨V, hclosed⟩ := closed_of_topNodes hb hc hn
    exact hclosed.targets_eq
  simp only [declared_of_closed hb hc hm hparams, targets, hm, hparams, hnodes,
    flatMap_allDeclared hb, Option.toList_some, List.flatMap_singleton, List.map_append]

end Block

namespace Closes

variable (h : m.Closes V b)

include h

theorem exists_method : ∃ method, m.method = some method ∧ method.params = V.map some := by
  simpa using h.head

theorem inScope (hn : (p, n) ∈ m.numbered.sites) :
    ∃ W, n.InScope m.receiver.isSome W ∧ ∀ v ∈ W, m.Knows p v := by
  obtain ⟨method, hm, hparams⟩ := h.exists_method
  obtain ⟨_, hinner⟩ := h.closed.number 0
  have htop := topNodes_of_block h.block
  rw [m.sites_numbered] at hn
  obtain ⟨k, hk, hs⟩ := List.mem_flatMap.mp hn
  refine inScope_of_closed (hinner k (htop ▸ hk)) (mem_sites_of_topNodes hk) (fun v hv => ?_) hs
  rcases List.mem_append.mp hv with hv | hv
  · obtain ⟨k', hk', hv⟩ := List.mem_filterMap.mp hv
    exact knows_of_declared (mem_sites_of_topNodes (htop ▸ hk')) hv
  · exact .inl ⟨method, hm, hparams ▸ List.mem_map_of_mem hv⟩

/-- A body that is closed and declares no variable twice is well-formed. -/
theorem wellFormed : m.WellFormed where
  method := by
    obtain ⟨method, hm, -⟩ := h.exists_method
    exact hm ▸ Option.some_ne_none method
  block := h.block ▸ Option.some_ne_none b
  vars := by
    obtain ⟨method, hm, hparams⟩ := h.exists_method
    rw [targets_of_closed h.block h.closed hm hparams]
    exact ⟨by simp, h.once.map fun _ _ => Option.some.inj⟩
  functions := by
    rw [headings_of_closed h.block h.closed]
    exact ⟨List.not_mem_nil, List.nodup_nil⟩
  reference p n t hn ht := by
    obtain ⟨W, hscope, hknown⟩ := h.inScope hn
    have hp := leads_of_mem_sites hn
    rcases hscope.reference ht with ⟨v, hv, rfl⟩ | ⟨hself, rfl⟩
    · obtain ⟨q, hq, hmem⟩ := (hknown v hv).declares hp
      exact ⟨v, q, rfl, hq, hmem⟩
    · obtain ⟨v, hv⟩ := Option.isSome_iff_exists.mp hself
      exact ⟨v, .outermost, hv, .receiver hv, hp.root_mem⟩
  use p n t hn ht := by
    obtain ⟨W, hscope, -⟩ := h.inScope hn
    exact nomatch hscope.use.symm.trans ht

/-- A body that is closed and declares no variable twice stands on its own. -/
theorem standalone : m.Standalone where
  flat p n hn := by
    obtain ⟨W, hscope, -⟩ := h.inScope hn
    exact ⟨hscope.nested, hscope.use⟩
  accepted := (h.wellFormed.accepted (headings_of_closed h.block h.closed)).1
  closures := (h.wellFormed.accepted (headings_of_closed h.block h.closed)).2
  known p n v hn hv := by
    obtain ⟨W, hscope, hknown⟩ := h.inScope hn
    rcases hv with hv | hv
    · exact hknown v (Node.InScope.mem_of_mention hscope hv)
    · exact knows_of_declared hn (Node.mention_eq_declaration.mp hv)
  once := h.once
  receiver p loc type hn := by
    obtain ⟨W, hscope, -⟩ := h.inScope hn
    exact Option.isSome_iff_ne_none.mp hscope

end Closes

end MethodBody

end Unnest
