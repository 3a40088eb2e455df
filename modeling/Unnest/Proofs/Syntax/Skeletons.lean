import Unnest.Proofs.Syntax.Outlines
import Unnest.Syntax.Node

/-!
# An outline shows the shape of its tree

The label of a node begins with a word that belongs to one kind of node only, and what is drawn
below it are the nodes inside it. So two trees that are printed alike have the same shape, whatever
the names in them look like, as long as no name breaks a line.

## Main definitions

* `Kind`, `Kind.opening` : the kinds of node and the text their labels begin with.
* `Block.skeleton`, `MethodBody.skeleton` : a tree without the data in its nodes.
* `Block.printed`, `MethodBody.printed` : the names, types, values and operators that are printed.
-/

namespace Unnest

/-! ## Kinds of node -/

/-- The kinds of node. A call of a nested function is told from a call of a method. -/
inductive Kind where
  | literal
  | ref
  | self
  | assign
  | binary
  | lambda
  | functionRef
  | localCall
  | call
  | invoke
  | field
  | newEnv
  | zero
  | delegate
  | block
  | declare
  | expr
  | ret
  | cond
  | loop
  | localFunction
  deriving DecidableEq

/-- What the label of a node begins with. -/
def Kind.opening : Kind → String
  | literal => "NLiteral "
  | ref => "NVariableRef "
  | self => "NThisRef : "
  | assign => "NAssignment"
  | binary => "NBinaryOperator "
  | lambda => "NLambda "
  | functionRef => "NFunctionRef "
  | localCall => "NCall local "
  | call => "NCall '"
  | invoke => "NInvoke"
  | field => "NFieldAccess "
  | newEnv => "NNewEnvironment "
  | zero => "NDefaultValue "
  | delegate => "NDelegateCreation "
  | block => "NBlock"
  | declare => "NVariableDeclaration "
  | expr => "NExpressionStatement"
  | ret => "NReturnStatement"
  | cond => "NIfStatement"
  | loop => "NWhileStatement"
  | localFunction => "NLocalFunctionStatement "

def Kind.all : List Kind :=
  [literal, ref, self, assign, binary, lambda, functionRef, localCall, call, invoke, field, newEnv,
    zero, delegate, block, declare, expr, ret, cond, loop, localFunction]

theorem Kind.mem_all (k : Kind) : k ∈ all := by
  cases k <;> decide

/-- No opening goes on with another one, so no name behind it can turn it into that. -/
theorem Kind.eq_of_opening {k k' : Kind} (h : k.opening.toList <+: k'.opening.toList) :
    k = k' := by
  have hall : ∀ k ∈ all, ∀ k' ∈ all, k.opening.toList <+: k'.opening.toList → k = k' := by
    decide +kernel
  exact hall k k.mem_all k' k'.mem_all h

/-- The line above the receiver of a call is none of a node. -/
theorem Kind.not_opening_receiver (k : Kind) : ¬ k.opening.toList <+: "receiver:".toList := by
  have hall : ∀ k ∈ all, ¬ k.opening.toList <+: "receiver:".toList := by
    decide +kernel
  exact hall k k.mem_all

def Expr.kind : Expr → Kind
  | .literal .. => .literal
  | .ref .. => .ref
  | .self .. => .self
  | .assign .. => .assign
  | .binary .. => .binary
  | .lambda .. => .lambda
  | .functionRef .. => .functionRef
  | .localCall .. => .localCall
  | .call .. => .call
  | .invoke .. => .invoke
  | .field .. => .field
  | .newEnv .. => .newEnv
  | .zero .. => .zero
  | .delegate .. => .delegate

def Stmt.kind : Stmt → Kind
  | .block .. => .block
  | .declare .. => .declare
  | .expr .. => .expr
  | .ret .. => .ret
  | .cond .. => .cond
  | .loop .. => .loop
  | .localFunction .. => .localFunction

theorem Expr.label_outline (e : Expr) : e.kind.opening.toList <+: e.outline.label.toList := by
  cases e with
  | call loc method receiver args =>
    cases receiver <;>
      simp [Expr.kind, Kind.opening, Expr.outline, Outline.label, quoted, String.toList_append]
  | delegate loc receiver method =>
    cases receiver <;>
      simp [Expr.kind, Kind.opening, Expr.outline, Outline.label, String.toList_append]
  | _ => simp [Expr.kind, Kind.opening, Expr.outline, Outline.label, String.toList_append]

theorem Stmt.label_outline (s : Stmt) : s.kind.opening.toList <+: s.outline.label.toList := by
  cases s with
  | block b =>
    cases b with
    | mk id loc stmts => exact List.prefix_rfl
  | _ => simp [Stmt.kind, Kind.opening, Stmt.outline, Outline.label, String.toList_append]

/-- A label begins with the opening of one kind only. -/
theorem Kind.eq_of_label {k k' : Kind} {o : Outline} (h : k.opening.toList <+: o.label.toList)
    (h' : k'.opening.toList <+: o.label.toList) : k = k' := by
  rcases List.prefix_or_prefix_of_prefix h h' with hk | hk
  · exact Kind.eq_of_opening hk
  · exact (Kind.eq_of_opening hk).symm

theorem Expr.kind_eq {e e' : Expr} (h : e.outline = e'.outline) : e.kind = e'.kind :=
  Kind.eq_of_label e.label_outline (h ▸ e'.label_outline)

theorem Stmt.kind_eq {s s' : Stmt} (h : s.outline = s'.outline) : s.kind = s'.kind :=
  Kind.eq_of_label s.label_outline (h ▸ s'.label_outline)

theorem Expr.outline_ne_receiver (e : Expr) (children : List Outline) :
    e.outline ≠ .mk "receiver:" children := by
  intro h
  have hpre := e.label_outline
  rw [h, Outline.label] at hpre
  exact e.kind.not_opening_receiver hpre

theorem Expr.outlines_ne_receiver (es : List Expr) (children os : List Outline) :
    Expr.outlines es ≠ .mk "receiver:" children :: os := by
  intro h
  cases es with
  | nil => exact nomatch h
  | cons e es => exact e.outline_ne_receiver children (List.cons.inj h).1

/-! ## Skeletons -/

mutual

/-- An expression without its data: what is left are the kinds of its nodes and how they are put
together. -/
def Expr.skeleton : Expr → Expr
  | .literal .. => .literal {} "" ""
  | .ref .. => .ref {} none
  | .self .. => .self {} ""
  | .assign _ target value => .assign {} target.skeleton value.skeleton
  | .binary _ _ lhs rhs => .binary {} "" lhs.skeleton rhs.skeleton
  | .lambda _ _ body => .lambda {} none body.skeleton
  | .functionRef .. => .functionRef {} none
  | .localCall _ _ args => .localCall {} default (Expr.skeletons args)
  | .call _ _ receiver args =>
    .call {} default
      (match receiver with
        | some r => some r.skeleton
        | none => none)
      (Expr.skeletons args)
  | .invoke _ callee args => .invoke {} callee.skeleton (Expr.skeletons args)
  | .field _ receiver _ => .field {} receiver.skeleton default
  | .newEnv .. => .newEnv {} ""
  | .zero .. => .zero {} ""
  | .delegate _ receiver _ =>
    .delegate {}
      (match receiver with
        | some r => some r.skeleton
        | none => none)
      default

def Expr.skeletons : List Expr → List Expr
  | [] => []
  | e :: es => e.skeleton :: Expr.skeletons es

def Stmt.skeleton : Stmt → Stmt
  | .block b => .block b.skeleton
  | .declare _ _ init =>
    .declare {} none
      (match init with
        | some e => some e.skeleton
        | none => none)
  | .expr _ value => .expr {} value.skeleton
  | .ret _ value =>
    .ret {}
      (match value with
        | some e => some e.skeleton
        | none => none)
  | .cond _ test thenBlock elseBlock =>
    .cond {} test.skeleton thenBlock.skeleton
      (match elseBlock with
        | some b => some b.skeleton
        | none => none)
  | .loop _ test body => .loop {} test.skeleton body.skeleton
  | .localFunction _ _ body => .localFunction {} none body.skeleton

def Stmt.skeletons : List Stmt → List Stmt
  | [] => []
  | s :: ss => s.skeleton :: Stmt.skeletons ss

def Block.skeleton : Block → Block
  | .mk _ _ stmts => .mk 0 {} (Stmt.skeletons stmts)

end

/-- Whether a body has a method and a block, and the skeleton of its block. -/
def MethodBody.skeleton (m : MethodBody) : MethodBody :=
  ⟨m.method.map fun _ => default, none, m.block.map Block.skeleton⟩

mutual

theorem Expr.skeleton_eq (e e' : Expr) (h : e.outline = e'.outline) :
    e.skeleton = e'.skeleton := by
  have hkind := Expr.kind_eq h
  cases e with
  | literal =>
    cases e' with
    | literal => rfl
    | _ => exact nomatch hkind
  | ref =>
    cases e' with
    | ref => rfl
    | _ => exact nomatch hkind
  | self =>
    cases e' with
    | self => rfl
    | _ => exact nomatch hkind
  | functionRef =>
    cases e' with
    | functionRef => rfl
    | _ => exact nomatch hkind
  | newEnv =>
    cases e' with
    | newEnv => rfl
    | _ => exact nomatch hkind
  | zero =>
    cases e' with
    | zero => rfl
    | _ => exact nomatch hkind
  | assign loc target value =>
    cases e' with
    | assign loc' target' value' =>
      obtain ⟨htarget, hvalue⟩ : target.outline = target'.outline ∧
          value.outline = value'.outline := by
        simpa [Expr.outline] using h
      simp [Expr.skeleton, target.skeleton_eq target' htarget, value.skeleton_eq value' hvalue]
    | _ => exact nomatch hkind
  | binary loc op lhs rhs =>
    cases e' with
    | binary loc' op' lhs' rhs' =>
      obtain ⟨-, hlhs, hrhs⟩ : _ ∧ lhs.outline = lhs'.outline ∧ rhs.outline = rhs'.outline := by
        simpa [Expr.outline] using h
      simp [Expr.skeleton, lhs.skeleton_eq lhs' hlhs, rhs.skeleton_eq rhs' hrhs]
    | _ => exact nomatch hkind
  | lambda loc fn body =>
    cases e' with
    | lambda loc' fn' body' =>
      obtain ⟨-, hbody⟩ : _ ∧ body.outline = body'.outline := by simpa [Expr.outline] using h
      simp [Expr.skeleton, body.skeleton_eq body' hbody]
    | _ => exact nomatch hkind
  | localCall loc fn args =>
    cases e' with
    | localCall loc' fn' args' =>
      obtain ⟨-, hargs⟩ := Outline.mk.inj h
      simp [Expr.skeleton, Expr.skeletons_eq args args' hargs]
    | _ => exact nomatch hkind
  | call loc method receiver args =>
    cases e' with
    | call loc' method' receiver' args' =>
      match receiver, receiver' with
      | none, none =>
        have hargs : Expr.outlines args = Expr.outlines args' := (Outline.mk.inj h).2
        simp [Expr.skeleton, Expr.skeletons_eq args args' hargs]
      | some r, some r' =>
        obtain ⟨-, hr, hargs⟩ : _ ∧ r.outline = r'.outline ∧
            Expr.outlines args = Expr.outlines args' := by
          simpa [Expr.outline] using h
        simp [Expr.skeleton, r.skeleton_eq r' hr, Expr.skeletons_eq args args' hargs]
      | none, some r' => exact absurd (Outline.mk.inj h).2 (Expr.outlines_ne_receiver args _ _)
      | some r, none =>
        exact absurd (Outline.mk.inj h).2.symm (Expr.outlines_ne_receiver args' _ _)
    | _ => exact nomatch hkind
  | invoke loc callee args =>
    cases e' with
    | invoke loc' callee' args' =>
      obtain ⟨hcallee, hargs⟩ : callee.outline = callee'.outline ∧
          Expr.outlines args = Expr.outlines args' := by
        simpa [Expr.outline] using h
      simp [Expr.skeleton, callee.skeleton_eq callee' hcallee, Expr.skeletons_eq args args' hargs]
    | _ => exact nomatch hkind
  | field loc receiver f =>
    cases e' with
    | field loc' receiver' f' =>
      obtain ⟨-, hr⟩ : _ ∧ receiver.outline = receiver'.outline := by
        simpa [Expr.outline] using h
      simp [Expr.skeleton, receiver.skeleton_eq receiver' hr]
    | _ => exact nomatch hkind
  | delegate loc receiver method =>
    cases e' with
    | delegate loc' receiver' method' =>
      match receiver, receiver' with
      | none, none => rfl
      | some r, some r' =>
        obtain ⟨-, hr⟩ : _ ∧ r.outline = r'.outline := by simpa [Expr.outline] using h
        simp [Expr.skeleton, r.skeleton_eq r' hr]
      | none, some r' => simp [Expr.outline] at h
      | some r, none => simp [Expr.outline] at h
    | _ => exact nomatch hkind
termination_by structural e

theorem Expr.skeletons_eq (es es' : List Expr) (h : Expr.outlines es = Expr.outlines es') :
    Expr.skeletons es = Expr.skeletons es' := by
  match es, es' with
  | [], [] => rfl
  | e :: es, e' :: es' =>
    obtain ⟨he, hes⟩ := List.cons.inj h
    simp [Expr.skeletons, e.skeleton_eq e' he, Expr.skeletons_eq es es' hes]
  | [], e' :: es' => exact nomatch h
  | e :: es, [] => exact nomatch h
termination_by structural es

theorem Stmt.skeleton_eq (s s' : Stmt) (h : s.outline = s'.outline) :
    s.skeleton = s'.skeleton := by
  have hkind := Stmt.kind_eq h
  cases s with
  | block b =>
    cases s' with
    | block b' => simp [Stmt.skeleton, b.skeleton_eq b' h]
    | _ => exact nomatch hkind
  | declare loc target init =>
    cases s' with
    | declare loc' target' init' =>
      match init, init' with
      | none, none => rfl
      | some e, some e' =>
        obtain ⟨-, he⟩ : _ ∧ e.outline = e'.outline := by simpa [Stmt.outline] using h
        simp [Stmt.skeleton, e.skeleton_eq e' he]
      | none, some e' => simp [Stmt.outline] at h
      | some e, none => simp [Stmt.outline] at h
    | _ => exact nomatch hkind
  | expr loc value =>
    cases s' with
    | expr loc' value' =>
      have hvalue : value.outline = value'.outline := by simpa [Stmt.outline] using h
      simp [Stmt.skeleton, value.skeleton_eq value' hvalue]
    | _ => exact nomatch hkind
  | ret loc value =>
    cases s' with
    | ret loc' value' =>
      match value, value' with
      | none, none => rfl
      | some e, some e' =>
        have he : e.outline = e'.outline := by simpa [Stmt.outline] using h
        simp [Stmt.skeleton, e.skeleton_eq e' he]
      | none, some e' => simp [Stmt.outline] at h
      | some e, none => simp [Stmt.outline] at h
    | _ => exact nomatch hkind
  | cond loc test thenBlock elseBlock =>
    cases s' with
    | cond loc' test' thenBlock' elseBlock' =>
      match elseBlock, elseBlock' with
      | none, none =>
        obtain ⟨htest, hthen⟩ : test.outline = test'.outline ∧
            thenBlock.outline = thenBlock'.outline := by
          simpa [Stmt.outline] using h
        simp [Stmt.skeleton, test.skeleton_eq test' htest, thenBlock.skeleton_eq thenBlock' hthen]
      | some b, some b' =>
        obtain ⟨htest, hthen, helse⟩ : test.outline = test'.outline ∧
            thenBlock.outline = thenBlock'.outline ∧ b.outline = b'.outline := by
          simpa [Stmt.outline] using h
        simp [Stmt.skeleton, test.skeleton_eq test' htest, thenBlock.skeleton_eq thenBlock' hthen,
          b.skeleton_eq b' helse]
      | none, some b' => simp [Stmt.outline] at h
      | some b, none => simp [Stmt.outline] at h
    | _ => exact nomatch hkind
  | loop loc test body =>
    cases s' with
    | loop loc' test' body' =>
      obtain ⟨htest, hbody⟩ : test.outline = test'.outline ∧ body.outline = body'.outline := by
        simpa [Stmt.outline] using h
      simp [Stmt.skeleton, test.skeleton_eq test' htest, body.skeleton_eq body' hbody]
    | _ => exact nomatch hkind
  | localFunction loc fn body =>
    cases s' with
    | localFunction loc' fn' body' =>
      obtain ⟨-, hbody⟩ : _ ∧ body.outline = body'.outline := by simpa [Stmt.outline] using h
      simp [Stmt.skeleton, body.skeleton_eq body' hbody]
    | _ => exact nomatch hkind
termination_by structural s

theorem Stmt.skeletons_eq (ss ss' : List Stmt) (h : Stmt.outlines ss = Stmt.outlines ss') :
    Stmt.skeletons ss = Stmt.skeletons ss' := by
  match ss, ss' with
  | [], [] => rfl
  | s :: ss, s' :: ss' =>
    obtain ⟨hs, hss⟩ := List.cons.inj h
    simp [Stmt.skeletons, s.skeleton_eq s' hs, Stmt.skeletons_eq ss ss' hss]
  | [], s' :: ss' => exact nomatch h
  | s :: ss, [] => exact nomatch h
termination_by structural ss

theorem Block.skeleton_eq (b b' : Block) (h : b.outline = b'.outline) :
    b.skeleton = b'.skeleton := by
  cases b with
  | mk id loc stmts =>
    cases b' with
    | mk id' loc' stmts' =>
      obtain ⟨-, hstmts⟩ := Outline.mk.inj h
      simp [Block.skeleton, Stmt.skeletons_eq stmts stmts' hstmts]
termination_by structural b

end

/-! ## What is printed -/

/-- The texts of a node that are printed in its label. -/
def Node.printed : Node → List String
  | .expr (.literal _ value type) => [value, type]
  | .expr (.ref _ target) => [variableName target]
  | .expr (.self _ type) => [type]
  | .expr (.binary _ op _ _) => [op]
  | .expr (.lambda _ fn _) => [functionName fn]
  | .expr (.functionRef _ fn) => [functionName fn]
  | .expr (.localCall _ fn _) => [fn.name]
  | .expr (.call _ method _ _) => [method.owner, method.name]
  | .expr (.field _ _ f) => [f.owner, f.name]
  | .expr (.newEnv _ type) => [type]
  | .expr (.zero _ type) => [type]
  | .expr (.delegate _ _ method) => [method.owner, method.name]
  | .stmt (.declare _ target _) => [variableName target, (target.map (·.type)).getD ""]
  | .stmt (.localFunction _ fn _) => [functionName fn]
  | .expr (.assign ..) | .expr (.invoke ..) | .stmt _ | .block _ => []

def Block.printed (b : Block) : List String := b.nodes.flatMap Node.printed

def MethodBody.printed (m : MethodBody) : List String :=
  m.method.toList.flatMap (fun f => [f.owner, f.name]) ++ m.block.toList.flatMap Block.printed

def Node.OneLine (n : Node) : Prop := ∀ s ∈ n.printed, '\n' ∉ s.toList

theorem notMem_quoted {name : String} (h : '\n' ∉ name.toList) : '\n' ∉ (quoted name).toList := by
  simp [quoted, String.toList_append, h]

theorem notMem_fullName {m : Method} (howner : '\n' ∉ m.owner.toList)
    (hname : '\n' ∉ m.name.toList) : '\n' ∉ m.fullName.toList := by
  simp [Method.fullName, String.toList_append, howner, hname]

theorem notMem_staticMark (m : Method) : '\n' ∉ (staticMark m).toList := by
  cases h : m.isStatic <;> simp [staticMark, h]

theorem Expr.notMem_label {e : Expr} (h : (Node.expr e).OneLine) :
    '\n' ∉ e.outline.label.toList := by
  simp only [Node.OneLine] at h
  cases e with
  | ref loc target =>
    cases hmark : target.any (·.byRef) <;>
      simp_all [Node.printed, Expr.outline, Outline.label, String.toList_append, notMem_quoted]
  | call loc method receiver args =>
    cases receiver <;>
      simp_all [Node.printed, Expr.outline, Outline.label, String.toList_append, notMem_quoted,
        notMem_fullName, notMem_staticMark]
  | field loc receiver f =>
    simp_all [Node.printed, Expr.outline, Outline.label, String.toList_append, quoted]
  | delegate loc receiver method =>
    cases receiver <;>
      simp_all [Node.printed, Expr.outline, Outline.label, String.toList_append, notMem_quoted,
        notMem_fullName, notMem_staticMark]
  | _ =>
    simp_all [Node.printed, Expr.outline, Outline.label, String.toList_append, notMem_quoted]

theorem Stmt.notMem_label {s : Stmt} (h : (Node.stmt s).OneLine) :
    '\n' ∉ s.outline.label.toList := by
  simp only [Node.OneLine] at h
  cases s with
  | block b =>
    cases b with
    | mk id loc stmts => simp [Stmt.outline, Block.outline, Outline.label]
  | _ =>
    simp_all [Node.printed, Stmt.outline, Outline.label, String.toList_append, notMem_quoted]

theorem Expr.self_mem_nodes (e : Expr) : .expr e ∈ e.nodes := by
  cases e with
  | call loc method receiver args => cases receiver <;> simp [Expr.nodes]
  | delegate loc receiver method => cases receiver <;> simp [Expr.nodes]
  | _ => simp [Expr.nodes]

mutual

theorem Expr.oneLine_outline (e : Expr) (h : ∀ n ∈ e.nodes, n.OneLine) : e.outline.OneLine := by
  have hlabel : '\n' ∉ e.outline.label.toList := Expr.notMem_label (h _ e.self_mem_nodes)
  cases e with
  | literal | ref | self | functionRef | newEnv | zero =>
    exact .of_label hlabel (by simp [Expr.outline, Outline.children])
  | assign loc target value =>
    simp only [Expr.nodes, List.forall_mem_cons, List.forall_mem_append] at h
    exact .of_label hlabel (by
      simp [Expr.outline, Outline.children, target.oneLine_outline h.2.1,
        value.oneLine_outline h.2.2])
  | binary loc op lhs rhs =>
    simp only [Expr.nodes, List.forall_mem_cons, List.forall_mem_append] at h
    exact .of_label hlabel (by
      simp [Expr.outline, Outline.children, lhs.oneLine_outline h.2.1, rhs.oneLine_outline h.2.2])
  | lambda loc fn body =>
    simp only [Expr.nodes, List.forall_mem_cons] at h
    exact .of_label hlabel (by
      simp [Expr.outline, Outline.children, body.oneLine_outline h.2])
  | localCall loc fn args =>
    simp only [Expr.nodes, List.forall_mem_cons] at h
    exact .of_label hlabel (Expr.oneLine_outlines args h.2)
  | call loc method receiver args =>
    cases receiver with
    | none =>
      simp only [Expr.nodes, List.forall_mem_cons, List.nil_append] at h
      exact .of_label hlabel (Expr.oneLine_outlines args h.2)
    | some r =>
      simp only [Expr.nodes, List.forall_mem_cons, List.forall_mem_append] at h
      have hr : (Outline.mk "receiver:" [r.outline]).OneLine :=
        .mk (by decide) (by simp [r.oneLine_outline h.2.1])
      exact .of_label hlabel (List.forall_mem_cons.mpr ⟨hr, Expr.oneLine_outlines args h.2.2⟩)
  | invoke loc callee args =>
    simp only [Expr.nodes, List.forall_mem_cons, List.forall_mem_append] at h
    exact .of_label hlabel (List.forall_mem_cons.mpr
      ⟨callee.oneLine_outline h.2.1, Expr.oneLine_outlines args h.2.2⟩)
  | field loc receiver f =>
    simp only [Expr.nodes, List.forall_mem_cons] at h
    exact .of_label hlabel (by
      simp [Expr.outline, Outline.children, receiver.oneLine_outline h.2])
  | delegate loc receiver method =>
    cases receiver with
    | none => exact .of_label hlabel (by simp [Expr.outline, Outline.children])
    | some r =>
      simp only [Expr.nodes, List.forall_mem_cons] at h
      exact .of_label hlabel (by
        simp [Expr.outline, Outline.children, r.oneLine_outline h.2])

theorem Expr.oneLine_outlines (es : List Expr) (h : ∀ n ∈ Expr.nodesAll es, n.OneLine) :
    ∀ o ∈ Expr.outlines es, o.OneLine := by
  cases es with
  | nil => simp [Expr.outlines]
  | cons e es =>
    simp only [Expr.nodesAll, List.forall_mem_append] at h
    exact List.forall_mem_cons.mpr ⟨e.oneLine_outline h.1, Expr.oneLine_outlines es h.2⟩

theorem Stmt.oneLine_outline (s : Stmt) (h : ∀ n ∈ s.nodes, n.OneLine) : s.outline.OneLine := by
  cases s with
  | block b => exact b.oneLine_outline h
  | declare loc target init =>
    cases init with
    | none =>
      have hlabel := Stmt.notMem_label (h _ (List.mem_cons_self ..))
      exact .of_label hlabel (by simp [Stmt.outline, Outline.children])
    | some e =>
      simp only [Stmt.nodes, List.forall_mem_cons] at h
      exact .of_label (Stmt.notMem_label h.1) (by
        simp [Stmt.outline, Outline.children, e.oneLine_outline h.2])
  | expr loc value =>
    simp only [Stmt.nodes, List.forall_mem_cons] at h
    exact .mk (by decide) (by simp [value.oneLine_outline h.2])
  | ret loc value =>
    cases value with
    | none => exact .mk (by decide) (by simp)
    | some e =>
      simp only [Stmt.nodes, List.forall_mem_cons] at h
      exact .mk (by decide) (by simp [e.oneLine_outline h.2])
  | cond loc test thenBlock elseBlock =>
    cases elseBlock with
    | none =>
      simp only [Stmt.nodes, List.forall_mem_cons, List.forall_mem_append] at h
      have htest : (Outline.mk "condition:" [test.outline]).OneLine :=
        .mk (by decide) (by simp [test.oneLine_outline h.2.1.1])
      have hthen : (Outline.mk "then:" [thenBlock.outline]).OneLine :=
        .mk (by decide) (by simp [thenBlock.oneLine_outline h.2.1.2])
      exact .mk (by decide) (by simp [htest, hthen])
    | some b =>
      simp only [Stmt.nodes, List.forall_mem_cons, List.forall_mem_append] at h
      have htest : (Outline.mk "condition:" [test.outline]).OneLine :=
        .mk (by decide) (by simp [test.oneLine_outline h.2.1.1])
      have hthen : (Outline.mk "then:" [thenBlock.outline]).OneLine :=
        .mk (by decide) (by simp [thenBlock.oneLine_outline h.2.1.2])
      have helse : (Outline.mk "else:" [b.outline]).OneLine :=
        .mk (by decide) (by simp [b.oneLine_outline h.2.2])
      exact .mk (by decide) (by simp [htest, hthen, helse])
  | loop loc test body =>
    simp only [Stmt.nodes, List.forall_mem_cons, List.forall_mem_append] at h
    exact .mk (by decide) (by simp [test.oneLine_outline h.2.1, body.oneLine_outline h.2.2])
  | localFunction loc fn body =>
    simp only [Stmt.nodes, List.forall_mem_cons] at h
    exact .of_label (Stmt.notMem_label h.1) (by
      simp [Stmt.outline, Outline.children, body.oneLine_outline h.2])

theorem Stmt.oneLine_outlines (ss : List Stmt) (h : ∀ n ∈ Stmt.nodesAll ss, n.OneLine) :
    ∀ o ∈ Stmt.outlines ss, o.OneLine := by
  cases ss with
  | nil => simp [Stmt.outlines]
  | cons s ss =>
    simp only [Stmt.nodesAll, List.forall_mem_append] at h
    exact List.forall_mem_cons.mpr ⟨s.oneLine_outline h.1, Stmt.oneLine_outlines ss h.2⟩

theorem Block.oneLine_outline (b : Block) (h : ∀ n ∈ b.nodes, n.OneLine) :
    b.outline.OneLine := by
  cases b with
  | mk id loc stmts =>
    simp only [Block.nodes, List.forall_mem_cons] at h
    exact .mk (by decide) (Stmt.oneLine_outlines stmts h.2)

end

/-! ## From the text to the skeleton -/

namespace Block

theorem skeleton_eq_of_text {b b' : Block} (hb : ∀ s ∈ b.printed, '\n' ∉ s.toList)
    (hb' : ∀ s ∈ b'.printed, '\n' ∉ s.toList) (h : b.outline.text = b'.outline.text) :
    b.skeleton = b'.skeleton := by
  have hone : ∀ {c : Block}, (∀ s ∈ c.printed, '\n' ∉ s.toList) → c.outline.OneLine := by
    intro c hc
    apply c.oneLine_outline
    intro n hn s hs
    exact hc s (List.mem_flatMap_of_mem hn hs)
  exact skeleton_eq b b' ((hone hb).eq_of_text (hone hb') h)

end Block

namespace MethodBody

theorem oneLine_outline {m : MethodBody} (h : ∀ s ∈ m.printed, '\n' ∉ s.toList) :
    m.outline.OneLine := by
  rw [printed, List.forall_mem_append] at h
  obtain ⟨hmethod, hblock⟩ := h
  refine .mk ?_ ?_
  · cases hm : m.method with
    | none => decide
    | some f =>
      simp only [hm, Option.toList_some, List.flatMap_singleton, List.forall_mem_cons] at hmethod
      have hname := notMem_quoted (notMem_fullName hmethod.1 hmethod.2.1)
      simp [String.toList_append, hname, notMem_staticMark]
  · intro o ho
    obtain ⟨b, hb, rfl⟩ := List.mem_map.mp ho
    apply b.oneLine_outline
    intro n hn s hs
    exact hblock s (List.mem_flatMap_of_mem hb (List.mem_flatMap_of_mem hn hs))

/-- The first line says whether the method is known and the other lines draw its block. -/
theorem skeleton_eq {m m' : MethodBody} (h : m.outline = m'.outline) :
    m.skeleton = m'.skeleton := by
  obtain ⟨method, receiver, block⟩ := m
  obtain ⟨method', receiver', block'⟩ := m'
  obtain ⟨hlabel, hblock⟩ := Outline.mk.inj h
  have hmethod : method.map (fun _ => (default : Method)) = method'.map fun _ => default := by
    replace hlabel := congrArg String.toList hlabel
    cases method <;> cases method' <;> simp_all [String.toList_append]
  have hskeleton : block.map Block.skeleton = block'.map Block.skeleton := by
    match block, block' with
    | none, none => rfl
    | some b, some b' => simp [b.skeleton_eq b' (by simpa using hblock)]
    | none, some b' => simp at hblock
    | some b, none => simp at hblock
  simp [skeleton, hmethod, hskeleton]

end MethodBody

/-- Two blocks or two method bodies that are printed alike have the same skeleton, if nothing that
is printed for them holds a newline. -/
theorem skeleton_of_text :
    (∀ b b' : Block, (∀ s ∈ b.printed, '\n' ∉ s.toList) → (∀ s ∈ b'.printed, '\n' ∉ s.toList) →
      b.outline.text = b'.outline.text → b.skeleton = b'.skeleton) ∧
    ∀ m m' : MethodBody, (∀ s ∈ m.printed, '\n' ∉ s.toList) →
      (∀ s ∈ m'.printed, '\n' ∉ s.toList) → m.outline.text = m'.outline.text →
        m.skeleton = m'.skeleton := by
  refine ⟨fun b b' hb hb' h => Block.skeleton_eq_of_text hb hb' h, ?_⟩
  intro m m' hm hm' h
  apply MethodBody.skeleton_eq
  exact (MethodBody.oneLine_outline hm).eq_of_text (MethodBody.oneLine_outline hm') h

/-- Calls a method on a literal that reads like a line of an outline. -/
def Block.motto : Block :=
  .mk 0 {} [
    .expr {} (.call {} ⟨.given 0, "Print", "App.Log", false, [], [], "void"⟩
      (some (.literal {} "`-NBlock : 1" "text")) []),
    .ret {} (some (.ref {} none))]

/-- Printed like `Block.motto`, with other data in its nodes. -/
def Block.epigraph : Block :=
  .mk 7 ⟨3, 1⟩ [
    .expr ⟨4, 2⟩ (.call {} ⟨.given 5, "Log.Print", "App", false, ["T"], [], "int"⟩
      (some (.literal {} "`-NBlock" "1 : text")) []),
    .ret {} (some (.ref {} (some ⟨.given 1, .declared, "", "int", false⟩)))]

theorem skeleton_motto :
    (∀ s ∈ Block.motto.printed, '\n' ∉ s.toList) ∧
      (∀ s ∈ Block.epigraph.printed, '\n' ∉ s.toList) ∧
      Block.motto.outline.text = Block.epigraph.outline.text ∧
      Block.motto.skeleton = Block.epigraph.skeleton ∧
      MethodBody.skeleton ⟨none, none, some .motto⟩ =
        MethodBody.skeleton ⟨none, none, some .epigraph⟩ := by
  have hmotto : ∀ s ∈ Block.motto.printed, '\n' ∉ s.toList := by decide
  have hepigraph : ∀ s ∈ Block.epigraph.printed, '\n' ∉ s.toList := by decide
  have htext : Block.motto.outline.text = Block.epigraph.outline.text := by decide
  exact ⟨hmotto, hepigraph, htext, skeleton_of_text.1 _ _ hmotto hepigraph htext,
    skeleton_of_text.2 _ _ (by decide) (by decide) (by decide)⟩

end Unnest
