import Unnest.Graph.Scoping
import Unnest.Proofs.Syntax.Sites

/-!
# Building as a walk over nodes

`Draft.build` is defined by recursion over three kinds of syntax. Here it is brought into one form:
a node is entered by entering the nodes directly inside it one after the other, except that a
declaration declares its variable afterwards and that a block or a nested function first opens a
scope. Once something fails, the draft stays failed; so a draft without a failure has none behind
it.
-/

namespace Unnest

/-- Enters what stands at a node in scope `s`. -/
def Node.enter (s : ScopeId) : Node → Draft → Draft
  | .expr e, d => e.enter s d
  | .stmt st, d => st.enter s d
  | .block b, d => b.enter s d

/-- Enters nodes one after the other. -/
def Node.enterEach (s : ScopeId) (ns : List Node) (d : Draft) : Draft :=
  ns.foldl (fun d n => n.enter s d) d

namespace Node

@[simp] theorem enterEach_nil (s : ScopeId) (d : Draft) : enterEach s [] d = d := rfl

@[simp] theorem enterEach_cons (s : ScopeId) (n : Node) (ns : List Node) (d : Draft) :
    enterEach s (n :: ns) d = enterEach s ns (n.enter s d) := rfl

private theorem enterAll_exprs (s : ScopeId) (es : List Expr) (d : Draft) :
    Expr.enterAll s es d = enterEach s (es.map .expr) d := by
  induction es generalizing d with
  | nil => rfl
  | cons e es ih => exact ih _

/-! ## The four ways of entering a node -/

/-- The node is neither a declaration nor does it open a block. -/
def IsPlain (n : Node) : Prop :=
  n.opened? = none ∧ ∀ loc target init, n ≠ .stmt (.declare loc target init)

theorem enter_of_isPlain {n : Node} (h : n.IsPlain) (s : ScopeId) (d : Draft) :
    n.enter s d = enterEach s n.inner d := by
  cases n with
  | expr e =>
    cases e with
    | literal | ref | self | functionRef | newEnv | zero | assign | binary | field => rfl
    | lambda => exact absurd h.1 (by simp [opened?])
    | localCall loc fn args => exact enterAll_exprs s args d
    | call loc method receiver args => cases receiver <;> exact enterAll_exprs s args _
    | invoke loc callee args => exact enterAll_exprs s args _
    | delegate loc receiver method => cases receiver <;> rfl
  | stmt st =>
    cases st with
    | block | localFunction => exact absurd h.1 (by simp [opened?])
    | declare loc target init => exact absurd rfl (h.2 loc target init)
    | expr | loop => rfl
    | ret loc value => cases value <;> rfl
    | cond loc test thenBlock elseBlock => cases elseBlock <;> rfl
  | block b => exact absurd h.1 (by simp [opened?])

theorem enter_declare (s : ScopeId) (loc : Loc) (v : Variable) (init : Option Expr) (d : Draft) :
    (Node.stmt (.declare loc (some v) init)).enter s d =
      (enterEach s (Node.stmt (.declare loc (some v) init)).inner d).declare loc s (some v) := by
  cases init <;> rfl

theorem enter_block {n : Node} {b : Block} (hb : n.opened? = some b) (hn : n.nested? = none)
    (s : ScopeId) (d : Draft) :
    n.enter s d = Stmt.enterAll d.graph.scopes.size b.stmts
      (d.modify (·.pushScope .block (some s) (some b))) := by
  cases n with
  | expr e => cases e <;> simp_all [opened?, nested?]
  | stmt st =>
    cases st with
    | block b' =>
      obtain rfl : b' = b := by simpa [opened?] using hb
      cases b'
      rfl
    | _ => simp_all [opened?, nested?]
  | block b' =>
    obtain rfl : b' = b := by simpa [opened?] using hb
    cases b'
    rfl

theorem enter_nested {n : Node} {fn : Option NestedFunction} {b : Block}
    (hn : n.nested? = some (fn, b)) (s : ScopeId) (d : Draft) :
    ∃ kind loc, n.enter s d =
      match d.openFunction s kind loc fn b with
      | (d, some inner) => Stmt.enterAll inner b.stmts d
      | (d, none) => d := by
  cases n with
  | expr e =>
    cases e with
    | lambda loc fn' b' =>
      obtain ⟨rfl, rfl⟩ : fn' = fn ∧ b' = b := by simpa [nested?] using hn
      cases b'
      exact ⟨.lambdaBody, loc, rfl⟩
    | _ => simp [nested?] at hn
  | stmt st =>
    cases st with
    | localFunction loc fn' b' =>
      obtain ⟨rfl, rfl⟩ : fn' = fn ∧ b' = b := by simpa [nested?] using hn
      cases b'
      exact ⟨.localFunctionBody, loc, rfl⟩
    | _ => simp [nested?] at hn
  | block b' => simp [nested?] at hn

/-- A nested function opens its body. -/
theorem opened_of_nested {n : Node} {fn : Option NestedFunction} {b : Block}
    (h : n.nested? = some (fn, b)) : n.opened? = some b := by
  cases n with
  | expr e => cases e <;> simp_all [opened?, nested?]
  | stmt st => cases st <;> simp_all [opened?, nested?]
  | block b => simp [nested?] at h

theorem inner_of_opened {n : Node} {b : Block} (h : n.opened? = some b) :
    n.inner = b.stmts.map .stmt := by
  cases n with
  | expr e => cases e <;> simp_all [opened?, inner]
  | stmt st => cases st <;> simp_all [opened?, inner]
  | block b => simp_all [opened?, inner]

/-- A node that opens nothing does not show in the path of what stands inside it. -/
theorem into_of_isNone {n : Node} (hb : n.opened? = none) (p : Path) : p.into n = p := by
  have hn : n.nested? = none := by
    cases hn : n.nested? with
    | none => rfl
    | some f => simp [opened_of_nested hn] at hb
  simp [Path.into, function?, hb, hn]

/-- An expression that opens no block consists of its operands. -/
theorem inner_expr {e : Expr} (h : (Node.expr e).opened? = none) :
    (Node.expr e).inner = e.operands.map Node.expr := by
  cases e <;> first | rfl | exact nomatch h

theorem sites_of_isNone {n : Node} (hb : n.opened? = none) (p : Path) :
    n.sites p = (p, n) :: n.inner.flatMap (sites p) := by
  rw [sites_eq, into_of_isNone hb]

theorem function_of_isNone {n : Node} (hb : n.opened? = none) : n.function? = none := by
  cases hn : n.nested? with
  | none => simp [function?, hn]
  | some f => simp [opened_of_nested hn] at hb

/-- Only the nodes inside a block declare anything. -/
theorem declared_inner {n m : Node} (h : n.opened? = none) (hm : m ∈ n.inner) :
    m.declared? = none := by
  cases n with
  | expr e =>
    cases e with
    | lambda => simp [opened?] at h
    | _ =>
      obtain ⟨x, -, rfl⟩ := List.mem_map.mp hm
      rfl
  | stmt st =>
    cases st with
    | block | localFunction => simp [opened?] at h
    | declare | ret =>
      obtain ⟨x, -, rfl⟩ := List.mem_map.mp hm
      rfl
    | expr loc value =>
      obtain rfl : m = .expr value := by simpa [inner] using hm
      rfl
    | cond loc test thenBlock elseBlock =>
      obtain rfl | rfl | ⟨x, rfl, rfl⟩ : m = .expr test ∨ m = .block thenBlock ∨
          ∃ x, elseBlock = some x ∧ .block x = m := by simpa [inner] using hm
      all_goals rfl
    | loop loc test body =>
      obtain rfl | rfl : m = .expr test ∨ m = .block body := by simpa [inner] using hm
      all_goals rfl
  | block b => simp [opened?] at h

/-- The four ways in which a node can be entered. -/
theorem isPlain_or (n : Node) :
    n.IsPlain ∨ (∃ loc target init, n = .stmt (.declare loc target init)) ∨
      (∃ b, n.opened? = some b ∧ n.nested? = none) ∨ ∃ fn b, n.nested? = some (fn, b) := by
  by_cases hdecl : ∃ loc target init, n = .stmt (.declare loc target init)
  · exact .inr (.inl hdecl)
  · cases hb : n.opened? with
    | none =>
      refine .inl ⟨hb, fun loc target init h => hdecl ⟨loc, target, init, h⟩⟩
    | some b =>
      cases hn : n.nested? with
      | none => exact .inr (.inr (.inl ⟨b, rfl, rfl⟩))
      | some f => exact .inr (.inr (.inr ⟨f.1, f.2, rfl⟩))

end Node

/-! ## Failures stay -/

namespace Draft

@[simp] theorem isOk_fail (d : Draft) (cause : Cause) (loc : Loc) :
    (d.fail cause loc).isOk = false := rfl

@[simp] theorem isOk_modify (d : Draft) (f : Graph → Graph) : (d.modify f).isOk = d.isOk := rfl

@[simp] theorem graph_modify (d : Draft) (f : Graph → Graph) : (d.modify f).graph = f d.graph := rfl

theorem isOk_of_declare {d : Draft} {loc : Loc} {s : ScopeId} {v : Option Variable}
    (h : (d.declare loc s v).isOk) : d.isOk := by
  unfold declare at h
  split at h
  · simp at h
  · split at h
    · exact h
    · simp at h

theorem isOk_of_openFunction {d : Draft} {s : ScopeId} {kind : ScopeKind} {loc : Loc}
    {fn : Option NestedFunction} {b : Block} (h : (d.openFunction s kind loc fn b).1.isOk) :
    d.isOk := by
  by_contra hd
  simp [openFunction, hd] at h

end Draft

namespace Node

theorem isOk_of_enterEach {s : ScopeId} {ns : List Node} {d : Draft}
    (ih : ∀ n ∈ ns, ∀ d, (n.enter s d).isOk → d.isOk) (h : (enterEach s ns d).isOk) : d.isOk := by
  induction ns generalizing d with
  | nil => exact h
  | cons n ns ihs =>
    have hn : (n.enter s d).isOk := ihs (fun m hm => ih m (by simp [hm])) h
    exact ih n (by simp) d hn

/-- Statements that are entered without a failure are all entered. -/
theorem enterAll_of_isOk {s : ScopeId} {ss : List Stmt} {d : Draft}
    (h : (Stmt.enterAll s ss d).isOk) :
    Stmt.enterAll s ss d = enterEach s (ss.map .stmt) d := by
  induction ss generalizing d with
  | nil => rfl
  | cons st ss ih =>
    rw [Stmt.enterAll] at h ⊢
    split
    · rename_i hd
      rw [if_pos hd] at h
      exact ih h
    · rename_i hd
      rw [if_neg hd] at h
      exact absurd h hd

theorem isOk_of_enterAll {s : ScopeId} {ss : List Stmt} {d : Draft}
    (h : (Stmt.enterAll s ss d).isOk) : d.isOk := by
  cases ss with
  | nil => exact h
  | cons st ss =>
    by_contra hd
    rw [Stmt.enterAll, if_neg hd] at h
    exact hd h

theorem isOk_of_enter {n : Node} {s : ScopeId} {d : Draft} (h : (n.enter s d).isOk) : d.isOk := by
  induction n using Node.induction generalizing s d with
  | step n ih =>
    have hinner {d : Draft} (hd : (enterEach s n.inner d).isOk) : d.isOk :=
      isOk_of_enterEach (fun m hm d hm' => ih m hm hm') hd
    obtain hplain | ⟨loc, target, init, rfl⟩ | ⟨b, hb, hn⟩ | ⟨fn, b, hn⟩ := n.isPlain_or
    · rw [enter_of_isPlain hplain] at h
      exact hinner h
    · cases target with
      | none => exact absurd h (by simp [enter, Stmt.enter])
      | some v =>
        rw [enter_declare] at h
        exact hinner (Draft.isOk_of_declare h)
    · rw [enter_block hb hn] at h
      simpa using isOk_of_enterAll h
    · obtain ⟨kind, loc, he⟩ := enter_nested hn s d
      rw [he] at h
      split at h
      · rename_i d' inner heq
        have := isOk_of_enterAll h
        exact Draft.isOk_of_openFunction (by rw [heq]; exact this)
      · rename_i d' heq
        exact Draft.isOk_of_openFunction (by rw [heq]; exact h)

/-! ## What the walk keeps -/

/-- What every step of the walk keeps is kept by the walk. -/
theorem keeps_enter {P : Draft → Prop}
    (hdeclare : ∀ d loc s v, P d → P (d.declare loc s v))
    (hmissing : ∀ d loc, P d → P (d.fail .declarationWithoutVariable loc))
    (hpush : ∀ d s b, P d → P (d.modify (·.pushScope .block (some s) (some b))))
    (hopen : ∀ d s kind loc fn b, P d → P (d.openFunction s kind loc fn b).1)
    {n : Node} {s : ScopeId} {d : Draft} (h : P d) : P (n.enter s d) := by
  induction n using Node.induction generalizing s d with
  | step n ih =>
    have heach {ns : List Node} (hns : ∀ k ∈ ns, k ∈ n.inner) {s : ScopeId} {d : Draft}
        (h : P d) : P (enterEach s ns d) := by
      induction ns generalizing d with
      | nil => exact h
      | cons k ns ihs =>
        exact ihs (fun j hj => hns j (by simp [hj])) (ih k (hns k (by simp)) h)
    have hall {b : Block} (hb : n.opened? = some b) {s : ScopeId} {d : Draft} (h : P d) :
        P (Stmt.enterAll s b.stmts d) := by
      have hss : ∀ st ∈ b.stmts, .stmt st ∈ n.inner := fun st hst => by
        rw [inner_of_opened hb]
        exact List.mem_map_of_mem hst
      generalize b.stmts = ss at hss
      induction ss generalizing d with
      | nil => exact h
      | cons st ss ihs =>
        rw [Stmt.enterAll]
        split
        · exact ihs (ih (.stmt st) (hss st (by simp)) h) fun j hj => hss j (by simp [hj])
        · exact h
    obtain hplain | ⟨loc, target, init, rfl⟩ | ⟨b, hb, hn⟩ | ⟨fn, b, hn⟩ := n.isPlain_or
    · rw [enter_of_isPlain hplain]
      exact heach (fun _ hk => hk) h
    · cases target with
      | none => exact hmissing d loc h
      | some v =>
        rw [enter_declare]
        exact hdeclare _ loc s _ (heach (fun _ hk => hk) h)
    · rw [enter_block hb hn]
      exact hall hb (hpush d s b h)
    · obtain ⟨kind, loc, he⟩ := enter_nested hn s d
      have hd := hopen d s kind loc fn b h
      rw [he]
      split
      · rename_i d' inner heq
        rw [heq] at hd
        exact hall (opened_of_nested hn) hd
      · rename_i d' heq
        rwa [heq] at hd

end Node

end Unnest
