import Unnest.Proofs.Lowered.Declared
import Unnest.Proofs.Semantics.Expressions

/-!
# Blocks in step

A lowered block declares what stands for the variables of the block that are not hoisted, and the
holder of its environment. So two runs that enter a block and what it is lowered to have matching
stores once the environment is created, and its statements can be run in step: this is the same for
a block inside a body and for the body of a function or method.

## Main definitions

* `Lowering.Head` : the parameters and variables of a block.
* `Lowering.StmtsInStep` : the statements of a block run in step.

## Main statements

* `Lowering.Head.entry` : what two runs pass to a block and declare in it.
* `Layout.MatchesTo.agrees_entered` : entering a block and running its statements.
* `Layout.Runs.simulates_block` : a block inside a body.
-/

namespace Unnest

variable {L : Lowering} {m : MethodBody} {r : LoweredBody} {Γ Γ' : Layout} {σ τ : Store}
  {M N : Machine} {i j : Nat} {p : Path} {n : Node} {e : EnvId} {site site' : Site}
  {v x : Variable} {b b' : Block} {params : List Variable} {args args' : List (Variable × Argument)}
  {names : Names} {ctx : LoweringContext} {outer : ScopeId → Option Nat} {I I' : Instance}

/-! ## Parameters and variables -/

/-- The parameters of a block, as those of a function whose body it is, and its variables. -/
structure Lowering.Head (L : Lowering) (b : Block) (params : List Variable) : Prop where
  vars : ∀ v ∈ (L.graph.scope b.id).vars, v.role ≠ .receiver → v ∈ params ∨ v ∈ b.declared
  params : ∀ v ∈ params, v ∈ (L.graph.scope b.id).vars ∧ v.role = .parameter
  declared : ∀ v ∈ b.declared, v ∈ (L.graph.scope b.id).vars ∧ v.role = .declared

theorem Lowering.Of.head_opened (h : L.Of m r) (hn : (p, n) ∈ m.numbered.sites)
    (hb : n.opened? = some b) : L.Head b n.params := by
  have hvars := ((h.holds.lays p n hn).scope b hb).vars
  have hinner : n.inner.filterMap Node.declared? = b.declared := by
    rw [Node.inner_of_opened hb]
    rfl
  rw [hinner] at hvars
  have hmem (v : Variable) :
      v ∈ (L.graph.scope b.id).vars ↔ v ∈ n.params ∨ v ∈ b.declared := by
    rw [OrderedSet.mem_def, hvars, List.mem_append]
  refine ⟨fun v hv _ => (hmem v).mp hv, fun v hv => ⟨(hmem v).mpr (.inl hv), ?_⟩,
    fun v hv => ⟨(hmem v).mpr (.inr hv), ?_⟩⟩
  · cases hf : n.function? with
    | none => simp [Node.params, hf] at hv
    | some f =>
      refine h.fits.wellBound.role_param hn hf (List.reduceOption_mem_iff.mp ?_)
      simpa [Node.params, hf] using hv
  · rw [← hinner] at hv
    obtain ⟨k, hk, hv⟩ := List.mem_filterMap.mp hv
    exact h.fits.wellBound.role_declared (MethodBody.mem_sites_of_inner hn hk) hv

/-- What two runs pass to a block and declare in it. -/
theorem Lowering.Head.entry (hd : L.Head b params) (h : L.Of m r)
    (hl : b.LowersIn L.ctx (L.names (L.graph.frame? b.id)) site b')
    (hargs : ∀ v, args.lookup v ≠ none → v ∈ params)
    (hparams : ∀ v ∈ params, ∃ x, args.lookup v = some (.value (.value x)) ∧
      args'.lookup (L.standIn b.id v) = some (.value (.value x)))
    (hkeys : ∀ x, args'.lookup x ≠ none → (∃ w ∈ params, x.StandsFor w) ∨
      ∃ k e, x.id = .holder k e ∧ (L.graph.scope b.id).env ≠ some e) :
    L.Entry b.id b.declared b'.declared args args' := by
  -- what a lowered block is known to declare
  have hholder (e : EnvId) (he : (L.graph.scope b.id).env = some e) :
      (L.names (L.graph.frame? b.id)).holders.lookup e = some (L.holder e) := by
    cases hl with
    | mk ho _ =>
      cases ho with
      | bare hnone => cases hnone.symm.trans he
      | env henv _ hlookup _ =>
        obtain rfl := Option.some.inj (henv.symm.trans he)
        rw [Lowering.holder, (h.live_of_env he).2]
        exact hlookup.trans (by rw [hlookup, Option.getD_some])
  have hnamed (e : EnvId) (he : (L.graph.scope b.id).env = some e) :
      ∃ k, (L.holder e).id = .holder k e :=
    (h.lowers.made _).holders _ (mem_of_lookup (hholder e he))
  have hstand {v w : Variable} (hv : v ∈ (L.graph.scope b.id).vars)
      (hw : w ∈ params) (hx : (L.standIn b.id v).StandsFor w) : v = w :=
    h.eq_of_standsFor hv (hd.params w hw).1 (h.standsFor b.id v) hx
  constructor
  case own =>
    rintro v (hv | hv)
    · exact (hd.declared v hv).1
    · exact (hd.params v (hargs v hv)).1
  case parameter =>
    intro v hv hrole
    rcases hd.vars v hv (by rw [hrole]; decide) with hv | hv
    · exact hparams v hv
    · cases hrole.symm.trans (hd.declared v hv).2
  case declared =>
    intro v hv hrole
    have hout : v ∉ params := fun hmem => by
      cases hrole.symm.trans (hd.params v hmem).2
    have hmem := (hd.vars v hv (by rw [hrole]; decide)).resolve_left hout
    refine ⟨hmem, ?_, ?_, fun hnone => hl.declared.mpr (.inr ⟨v, hmem, hnone, rfl⟩)⟩
    · exact not_not.mp fun hne => hout (hargs v hne)
    · refine not_not.mp fun hne => ?_
      rcases hkeys _ hne with ⟨w, hw, hx⟩ | ⟨k, e, hx, -⟩
      · exact hout (hstand hv hw hx ▸ hw)
      · exact h.ne_of_holder hv (h.standsFor b.id v) ⟨k, hx⟩ rfl
  case holder =>
    intro e he
    refine ⟨hnamed e he, hl.declared.mpr (.inl ⟨e, he, hholder e he⟩), not_not.mp fun hne => ?_⟩
    rcases hkeys _ hne with ⟨w, hw, hx⟩ | ⟨k, e', hx, hne'⟩
    · exact h.ne_of_holder (hd.params w hw).1 hx (hnamed e he) rfl
    · obtain ⟨l, hl⟩ := hnamed e he
      rw [hl] at hx
      injection hx with _ hx
      exact hne' (hx ▸ he)
  case made =>
    intro x hx
    rcases hl.declared.mp hx with ⟨e, he, hlookup⟩ | ⟨v, hv, -, rfl⟩
    · exact .inr ⟨e, he, Option.some.inj (hlookup.symm.trans (hholder e he))⟩
    · exact .inl ⟨v, (hd.declared v hv).1, h.standsFor b.id v⟩

/-! ## Running what is entered -/

/-- The statements of a block run in step in all its instances. -/
def Lowering.StmtsInStep (L : Lowering) (M N : Machine) (b : Block) : Prop :=
  ∀ (Γ : Layout) (i : Nat) (site : Site) (stmts' : List Stmt), Γ.Runs L i b.id site →
    Stmt.AllLowerIn L.ctx (L.names (L.graph.frame? b.id)) site b.stmts stmts' →
    Γ.Simulates L Eq (Stmt.evalAll M i b.stmts) (Stmt.evalAll N i stmts')

namespace Layout

/-- Running the statements of a block that is entered. -/
theorem Begun.agrees_stmts (hb : Γ.Begun L i σ τ) (h : L.Of m r) (hscope : Γ.scope i = b.id)
    (hin : L.Begins b.id site)
    (hl : b.LowersIn L.ctx (L.names (L.graph.frame? b.id)) site b')
    (hstmts : L.StmtsInStep M N b) :
    Γ.Agrees L Eq (Stmt.evalAll M i b.stmts σ) (Stmt.evalAll N i b'.stmts τ) := by
  cases hl with
  | @mk _ id loc stmts created site' stmts' ho hs =>
    change Γ.scope i = id at hscope
    change L.Begins id site at hin
    change L.ctx.OpensIn (L.names (L.graph.frame? id)) site id created site' at ho
    rw [← hscope] at ho hin
    obtain ⟨⟨τ', hrun, hm⟩, hinside⟩ := hb.opens (M := N) h hin ho
    rw [hscope] at hinside
    change Γ.Agrees L Eq (Stmt.evalAll M i stmts σ) (Stmt.evalAll N i (created ++ stmts') τ)
    rw [hrun]
    exact hstmts Γ i site' stmts' ⟨hb.lt, hscope, hinside⟩ hs Γ (.refl Γ) σ τ' hm

/-- Entering a block in both runs and running its statements. -/
theorem MatchesTo.agrees_entered (hm : Γ.Matches L σ τ) (h : L.Of m r)
    (ha : Γ.Around L.graph b.id outer) (hent : L.Entry b.id b.declared b'.declared args args')
    (hsource : L.SourceAround b.id outer I)
    (htarget : (Γ.enter b.id outer τ.allocated).TargetAt L Γ.size
      ((τ.enter b.id b'.declared args' I').instances Γ.size))
    (hin : L.Begins b.id site) (hl : b.LowersIn L.ctx (L.names (L.graph.frame? b.id)) site b')
    (hstmts : L.StmtsInStep M N b) :
    Γ.Agrees L Eq
      (Stmt.evalAll M σ.entered b.stmts (σ.enter b.id b.declared args I))
      (Stmt.evalAll N τ.entered b'.stmts (τ.enter b'.id b'.declared args' I')) := by
  have hbegun := hm.enter ha hent (hent.sourceAt h hsource hm.entered_left τ.allocated) htarget
  have hid : b'.id = b.id := by cases hl; rfl
  rw [hid, hm.entered_left, hm.entered_right]
  exact (hbegun.agrees_stmts h (enter_scope_size Γ) hin hl hstmts).of_extends
    (Γ.extends_enter b.id outer τ.allocated)

namespace Runs

variable (h : L.Of m r) (hr : Γ.Runs L i p.scope site) (hn : (p, n) ∈ m.numbered.sites)
  (hopen : n.opened? = some b) (hnested : n.nested? = none)

include h hn hopen hnested

omit hr in
/-- A block inside a body belongs to the frame around it. -/
theorem frame_opened : L.graph.frame? b.id = L.graph.frame? p.scope :=
  Graph.frame_of_isNone (((h.holds.lays p n hn).scope b hopen).owner hnested)
    (h.holds.ancestors_opened hn hopen)

omit hr in
theorem begins_opened (hin : L.Inside p.scope site) : L.Begins b.id site := by
  have hchain := h.holds.ancestors_opened hn hopen
  have hframe := frame_opened h hn hopen hnested
  refine ⟨⟨hframe ▸ hin.frame, fun e holder hl => ?_⟩, fun e holder hl heq => ?_⟩
  · obtain ⟨rfl, hlive, hmem, hfr⟩ := hin.locals e holder hl
    exact ⟨rfl, hlive, hchain ▸ List.mem_cons_of_mem _ hmem, hfr.trans hframe.symm⟩
  · obtain ⟨-, -, hmem, -⟩ := hin.locals e holder hl
    have hlt := Nat.lt_of_le_of_lt (Graph.le_of_mem_ancestors hmem)
      (Graph.lt_of_ancestors_eq hchain)
    exact Nat.ne_of_lt hlt heq

include hr

/-- A block and what it is lowered to run in step. -/
theorem simulates_block
    (hl : b.LowersIn L.ctx (L.names (L.graph.frame? p.scope)) site b')
    (hstmts : L.StmtsInStep M N b) : Γ.Simulates L Eq (b.eval M i) (b'.eval N i) := by
  intro Γ' hext σ τ hm
  obtain ⟨hi, hscope, hin⟩ := hr.mono hext
  have hchain : L.graph.ancestors b.id = b.id :: L.graph.ancestors (Γ'.scope i) := by
    rw [hscope]
    exact h.holds.ancestors_opened hn hopen
  have hframe := frame_opened h hn hopen hnested
  have hparams : n.params = [] := by simp [Node.params, Node.function?, hnested]
  rw [← hframe] at hl
  have hent : L.Entry b.id b.declared b'.declared [] [] :=
    (h.head_opened hn hopen).entry h hl (by simp) (by simp [hparams]) (by simp)
  have hnamed (e : EnvId) (hlive : L.Live e)
      (hmem : (L.graph.env e).scope ∈ L.graph.ancestors (Γ'.scope i)) :
      ∃ k, (L.holder e).id = .holder k e := by
    obtain ⟨j, hj⟩ := hm.nested.exists_around hi hmem
    exact ((hm.sees hi (hscope ▸ hin)).envAt hlive hmem hj (hm.nested.lt_size hi hj)).named
  have htarget := hent.targetAt_block h rfl hm.nested hi (hm.target i hi) hm.entered_right hchain
    (by rw [hframe, hscope]) hnamed τ.allocated
  rw [Block.eval_eq, Block.eval_eq]
  exact hm.agrees_entered h (hm.nested.around hi hchain) hent
    ((hm.source i hi).sourceAround hchain) htarget (begins_opened h hn hopen hnested hin) hl hstmts

end Runs

end Layout

end Unnest
