import Unnest.Proofs.Semantics.Blocks

/-!
# Statements in step

A statement and what it is lowered to run in step: the declaration of a hoisted variable becomes an
assignment to its field, or nothing, and the declaration of a nested function becomes nothing. By
induction over nodes, so do the statements of every block of a body.

## Main statements

* `Stmt.LowersIn.simulates` : statements run in step if the blocks inside do.
* `Node.inStep` : all statements and blocks of a body run in step.
-/

namespace Unnest

variable {L : Lowering} {m : MethodBody} {r : LoweredBody} {Γ : Layout} {M N : Machine} {i : Nat}
  {p : Path} {n : Node} {site : Site} {v : Variable} {b b' : Block} {ss ss' : List Stmt}

/-! ## Evaluation of statements -/

namespace Stmt

theorem evalAll_append (M : Machine) (i : Nat) (ss ts : List Stmt) :
    evalAll M i (ss ++ ts) = (do
      match ← evalAll M i ss with
      | some x => return some x
      | none => evalAll M i ts) := by
  induction ss with
  | nil => rw [evalAll, pure_bind, List.nil_append]
  | cons s ss ih =>
    rw [List.cons_append, evalAll, evalAll, bind_assoc, ih]
    refine bind_congr fun x => ?_
    cases x with
    | none => rfl
    | some x => rw [pure_bind]

theorem evalAll_singleton (M : Machine) (i : Nat) (s : Stmt) : evalAll M i [s] = s.eval M i := by
  rw [evalAll]
  conv_rhs => rw [← bind_pure (s.eval M i)]
  refine bind_congr fun x => ?_
  cases x with
  | none => rw [evalAll]
  | some x => rfl

theorem eval_cond (M : Machine) (i : Nat) (loc : Loc) (test : Expr) (thenBlock : Block)
    (elseBlock : Option Block) :
    (Stmt.cond loc test thenBlock elseBlock).eval M i = (do
      if M.world.truth (← Eval.scalar (← test.eval M i)) then thenBlock.eval M i
      else elseBlock.elim (pure none) (·.eval M i)) := by
  cases elseBlock <;> rw [eval] <;> rfl

theorem AllLowerIn.simulates {names : Names}
    (h : ∀ s ∈ ss, ∀ s', s.LowersIn L.ctx names site s' →
      Γ.Simulates L Eq (s.eval M i) (evalAll N i s'.toList))
    (hl : AllLowerIn L.ctx names site ss ss') :
    Γ.Simulates L Eq (evalAll M i ss) (evalAll N i ss') := by
  induction ss generalizing ss' with
  | nil =>
    cases hl
    exact Layout.simulates_pure rfl
  | cons s ss ih =>
    cases hl with
    | cons hs hss =>
      rw [evalAll, evalAll_append]
      refine (h s List.mem_cons_self _ hs).bind_eq fun x => ?_
      cases x with
      | some x => exact Layout.simulates_pure rfl
      | none => exact ih (fun t ht => h t (List.mem_cons_of_mem s ht)) hss

end Stmt

/-! ## Declarations -/

namespace Layout.Runs

variable (h : L.Of m r) (hr : Γ.Runs L i p.scope site) {loc : Loc} {init : Option Expr}
  (hn : (p, .stmt (.declare loc (some v) init)) ∈ m.numbered.sites)

include h hr hn

/-- The slot of a variable that is declared. -/
theorem sameSlot_declared : Γ.SameSlot L (.cell ⟨i, v⟩) (Γ.slot L i v) := by
  have hv := h.reaches_of_declared hn rfl
  exact ⟨i, hr.lt, v, hr.scope ▸ hv.mem, hv.role, rfl, rfl⟩

theorem slot_declared {σ τ : Store} (hm : Γ.Matches L σ τ) {way : Expr}
    (hw : L.ctx.variableRef site (L.names (L.graph.frame? p.scope)).aliases v = .ok way) :
    way.slot N i τ = (.ok (Γ.slot L i v), τ) := by
  have hv := h.reaches_of_declared hn rfl
  have hsees := hr.sees hm
  obtain ⟨hi, hscope, -⟩ := hr
  rw [← hscope] at hv hw
  exact (hsees.variableRef h hv.mem hv.role hv.around (hm.nested.self i hi) hv.frame hw).1

/-- A declaration and what it becomes. -/
theorem simulates_declare {init' : Option Expr} {s' : Option Stmt}
    (hinit : Option.Rel (fun e e' => Γ.Simulates L Content.Same (e.eval M i) (e'.eval N i))
      init init')
    (hd : L.ctx.DeclaresIn (L.names (L.graph.frame? p.scope)) site loc v init' s') :
    Γ.Simulates L Eq ((Stmt.declare loc (some v) init).eval M i) (Stmt.evalAll N i s'.toList) := by
  have hslot := hr.sameSlot_declared h hn
  -- an initial value is stored
  have hput {e e' : Expr} (he : Γ.Simulates L Content.Same (e.eval M i) (e'.eval N i)) :
      Γ.Simulates L (fun a b => a = b)
        (e.eval M i >>= fun x => Eval.put (.cell ⟨i, v⟩) x >>= fun _ => pure (none : Option Value))
        (e'.eval N i >>= fun x => Eval.put (Γ.slot L i v) x >>= fun _ => pure none) :=
    he.bind fun a b hab => (simulates_put h hslot hab).bind fun _ _ _ => simulates_pure rfl
  cases hd with
  | hoisted =>
    cases hinit
    exact simulates_pure rfl
  | @hoistedInit _ e' way _ hw =>
    cases hinit with
    | some he =>
      intro Γ' hext σ τ hm
      have hway := (hr.mono hext).slot_declared (N := N) h hn hm hw
      rw [hext.slot_eq hr.lt] at hway
      rw [Option.toList_some, Stmt.evalAll_singleton, Stmt.eval, Stmt.eval, Expr.eval,
        Eval.ofOption, pure_bind, bind_assoc, Eval.bind_ok hway]
      simp only [bind_assoc, pure_bind]
      exact hput he Γ' hext σ τ hm
  | plain hnone =>
    rw [slot_plain Γ i hnone, hr.scope] at hput
    rw [Option.toList_some, Stmt.evalAll_singleton]
    cases hinit with
    | none => exact simulates_pure rfl
    | some he => exact hput he

end Layout.Runs

/-! ## All nodes -/

/-- Statements and blocks run in step. -/
structure Node.InStep (L : Lowering) (m : MethodBody) (M N : Machine) (n : Node) : Prop where
  stmt : ∀ (p : Path) (site : Site) (Γ : Layout) (i : Nat), (p, n) ∈ m.numbered.sites →
    Γ.Runs L i p.scope site → ∀ s s', n = .stmt s →
    s.LowersIn L.ctx (L.names (L.graph.frame? p.scope)) site s' →
    Γ.Simulates L Eq (s.eval M i) (Stmt.evalAll N i s'.toList)
  block : ∀ (p : Path) (site : Site) (Γ : Layout) (i : Nat), (p, n) ∈ m.numbered.sites →
    Γ.Runs L i p.scope site → ∀ b b', n = .block b →
    b.LowersIn L.ctx (L.names (L.graph.frame? p.scope)) site b' →
    Γ.Simulates L Eq (b.eval M i) (b'.eval N i)

/-- The statements of a block run in step if each of them does. -/
theorem Lowering.stmtsInStep
    (hsites : ∀ s ∈ b.stmts, ∃ p, (p, .stmt s) ∈ m.numbered.sites ∧ p.scope = b.id)
    (h : ∀ s ∈ b.stmts, (Node.stmt s).InStep L m M N) : L.StmtsInStep M N b := by
  intro Γ i site stmts' hr hl
  refine Stmt.AllLowerIn.simulates (fun s hs s' hs' => ?_) hl
  obtain ⟨p, hp, hscope⟩ := hsites s hs
  rw [← hscope] at hr hs'
  exact (h s hs).stmt p site Γ i hp hr s s' rfl hs'

theorem Lowering.stmtsInStep_of_opened (hn : (p, n) ∈ m.numbered.sites) (hb : n.opened? = some b)
    (h : ∀ k ∈ n.inner, k.InStep L m M N) : L.StmtsInStep M N b := by
  have hmem (s : Stmt) (hs : s ∈ b.stmts) : .stmt s ∈ n.inner :=
    Node.inner_of_opened hb ▸ List.mem_map_of_mem hs
  exact L.stmtsInStep (fun s hs => ⟨p.into n, MethodBody.mem_sites_of_inner hn (hmem s hs),
    Path.scope_into hb p⟩) fun s hs => h _ (hmem s hs)

section Nodes

variable (h : L.Of m r) (hM : M.Simulates N L m r)

include h hM

theorem Stmt.LowersIn.simulates {s : Stmt} {s' : Option Stmt}
    (hn : (p, .stmt s) ∈ m.numbered.sites) (hr : Γ.Runs L i p.scope site)
    (hinner : ∀ k ∈ (Node.stmt s).inner, k.InStep L m M N)
    (hl : s.LowersIn L.ctx (L.names (L.graph.frame? p.scope)) site s') :
    Γ.Simulates L Eq (s.eval M i) (Stmt.evalAll N i s'.toList) := by
  have sub (hnone : (Node.stmt s).opened? = none) (k : Node) (hk : k ∈ (Node.stmt s).inner) :=
    MethodBody.mem_sites_of_isNone hn hnone hk
  have value (loc : Loc) {e e' : Expr} (he : (p, .expr e) ∈ m.numbered.sites)
      (hl : e.LowersTo L.ctx (site.locate loc) (L.names (L.graph.frame? p.scope)).aliases e') :=
    Expr.LowersTo.simulates h hM he (hr.locate loc) hl
  have block (hnone : (Node.stmt s).opened? = none) (loc : Loc) {b b' : Block}
      (hb : .block b ∈ (Node.stmt s).inner)
      (hl : b.LowersIn L.ctx (L.names (L.graph.frame? p.scope)) (site.locate loc) b') :
      Γ.Simulates L Eq (b.eval M i) (b'.eval N i) :=
    (hinner _ hb).block p _ Γ i (sub hnone _ hb) (hr.locate loc) b b' rfl hl
  cases hl with
  | @block _ b b' hb =>
    rw [Option.toList_some, evalAll_singleton, Stmt.eval, Stmt.eval]
    exact (hr.locate b.loc).simulates_block h hn rfl rfl hb
      (L.stmtsInStep_of_opened hn rfl hinner)
  | @declare _ loc v init init' s' hi hd =>
    refine (hr.locate loc).simulates_declare h hn ?_ hd
    cases hi with
    | none => exact .none
    | some he => exact .some (value loc (sub rfl _ (by simp [Node.inner])) he)
  | declareNothing =>
    rw [Option.toList_some, evalAll_singleton]
    exact Layout.simulates_throw .stuck
  | @expr _ loc e e' he =>
    rw [Option.toList_some, evalAll_singleton, Stmt.eval, Stmt.eval]
    exact (value loc (sub rfl _ (by simp [Node.inner])) he).bind fun _ _ _ =>
      Layout.simulates_pure rfl
  | @ret _ loc e e' he =>
    rw [Option.toList_some, evalAll_singleton]
    cases he with
    | none => exact Layout.simulates_pure rfl
    | some he =>
      rw [Stmt.eval, Stmt.eval]
      exact (value loc (sub rfl _ (by simp [Node.inner])) he).bind_scalar fun x =>
        Layout.simulates_pure rfl
  | @cond _ loc test test' thenBlock thenBlock' elseBlock elseBlock' ht hb he =>
    rw [Option.toList_some, evalAll_singleton, eval_cond, eval_cond, hM.world]
    refine (value loc (sub rfl _ (by simp [Node.inner])) ht).bind_scalar fun x => ?_
    split
    · exact block rfl loc (by simp [Node.inner]) hb
    · cases he with
      | none => exact Layout.simulates_pure rfl
      | some hb => exact block rfl loc (by simp [Node.inner]) hb
  | @loop _ loc test test' body body' ht hb =>
    rw [Option.toList_some, evalAll_singleton, Stmt.eval, Stmt.eval, hM.world, hM.fuel]
    refine Layout.Simulates.loop ?_ (block rfl loc (by simp [Node.inner]) hb) M.fuel
    exact (value loc (sub rfl _ (by simp [Node.inner])) ht).bind_scalar fun x =>
      Layout.simulates_pure rfl
  | localFunction => exact Layout.simulates_pure rfl

/-- All statements and blocks of a body run in step. -/
theorem Node.inStep (n : Node) : n.InStep L m M N := by
  induction n using Node.induction with
  | step n ih =>
    refine ⟨?_, ?_⟩
    · rintro p site Γ i hn hr s s' rfl hl
      exact hl.simulates h hM hn hr ih
    · rintro p site Γ i hn hr b b' rfl hl
      exact hr.simulates_block h hn rfl rfl hl (L.stmtsInStep_of_opened hn rfl ih)

end Nodes

end Unnest
