import Unnest.Proofs.Hoisting

/-!
# Creating an environment once

An environment is created where its scope has been rewritten, and nowhere else. So it comes into
being whenever its scope is entered, and at no other time.

## Main statements

* `MethodBody.run_creates` : whatever is converted, every scope is rewritten once, and so is its
  environment created.
-/

namespace Unnest

/-! ## Locals for environments -/

/-- The environment that a variable holds. -/
def VariableId.held? : VariableId → Option EnvId
  | .holder _ e => some e
  | .given _ | .copy .. => none

theorem VariableId.held_eq_some {i : VariableId} {e : EnvId} :
    i.held? = some e ↔ ∃ k, i = .holder k e := by
  cases i <;> simp [held?]

/-- The mention declares a local for environment `e`. -/
def Mention.holds (e : EnvId) : Mention → Bool
  | .declaration w => w.id.held? = some e
  | .reference _ => false

/-- A variable that comes with the body is no local for an environment, and neither is a copy. -/
theorem MethodBody.weighs_holds {m : MethodBody} (hmade : ∀ v ∈ m.declared, v.isMade = false)
    (g : Graph) (e : EnvId) : g.Weighs m (Mention.holds e) fun _ => 0 where
  hoisted _ _ _ := ⟨rfl, rfl⟩
  reference _ _ _ _ _ := rfl
  declaration v hv _ w hw := by
    have hv := hmade v hv
    rw [if_neg]
    simp only [Mention.holds, decide_eq_true_eq, VariableId.held_eq_some]
    rintro ⟨k, hk⟩
    rcases hw with hw | ⟨i, hw⟩
    · rw [Variable.isMade, ← hw, hk] at hv
      cases hv
    · cases hk.symm.trans hw

theorem LoweringContext.charges_holds (ctx : LoweringContext) (e : EnvId) :
    ctx.Charges (Mention.holds e) fun e' => if e' = e then 1 else 0 where
  holder _ _ := rfl
  create {e' t w names} _ hid _ := by
    obtain ⟨k, hk⟩ := hid
    simp [Mention.holds, hk, VariableId.held?]

/-! ## Main statement -/

/-- Every scope is rewritten once, in the frame it belongs to, and its environment is created there
and nowhere else. -/
structure LoweredBody.CreatesOnce (r : LoweredBody) (ctx : LoweringContext) : Prop where
  /-- A local is declared for each live environment, and for no other one. -/
  declared : ∀ e, (r.blocks.map fun b => tally (Mention.holds e) b.nodes).sum =
    if e ∈ ctx.graph.liveEnvs then 1 else 0
  scopes : (r.scopeBlocks.map Block.id).Perm (List.range ctx.graph.scopes.size)
  created : ∀ e ∈ ctx.graph.liveEnvs, ∃ k ∈ r.scopeBlocks, k.id = (ctx.graph.env e).scope ∧
    ctx.CreatesIn e k
  bare : ∀ k ∈ r.scopeBlocks, (ctx.graph.scope k.id).env = none → ∃ b view,
    (ctx.graph.scope k.id).block = some b ∧ view.frame = ctx.frameAt (ctx.graph.frame? k.id) ∧
    Stmt.AllLowerBy ctx (.creating ctx.graph ctx.declarations) view b.stmts k.stmts
  body : ∃ b, r.body.block = some b ∧ b.id = Graph.root ∧
    ∀ s, s ∈ (blocksIn b.nodes).map Block.id ↔
      s < ctx.graph.scopes.size ∧ ctx.graph.frame? s = none
  /-- The method of a nested function has its body, and the blocks of that frame only. -/
  methods : r.declarations.methods.length = ctx.graph.closures.size ∧
    ∀ c < ctx.graph.closures.size, ∃ lm b, r.declarations.methodOf? c = some lm ∧ lm.closure = c ∧
      lm.body = some b ∧ b.id = (ctx.graph.closure c).body ∧
      ∀ s, s ∈ (blocksIn b.nodes).map Block.id ↔
        s < ctx.graph.scopes.size ∧ ctx.graph.frame? s = some c

namespace LoweredBody.Written

variable {r : LoweredBody} {ctx : LoweringContext} {m : MethodBody} (h : r.Written ctx m)

include h

/-- The scopes of a frame are the blocks of what it has become. -/
theorem mem_map_id {fr : Option ClosureId} (hfr : fr ∈ ctx.graph.frames) :
    ∃ b, r.blockOf? fr = some b ∧ b.id = ctx.graph.entry fr ∧
      ∀ s, s ∈ (blocksIn b.nodes).map Block.id ↔
        s < ctx.graph.scopes.size ∧ ctx.graph.frame? s = fr := by
  obtain ⟨b, hb, hid, hall⟩ := h.rewrites hfr
  refine ⟨b, hb, hid, fun s => ?_⟩
  rw [map_id_of_rewrites hall]
  exact h.suits.seated.exact.holds.mem_frameBlocks hfr

theorem createsOnce (hmade : ∀ v ∈ m.declared, v.isMade = false) :
    r.CreatesOnce { ctx with declarations := r.declarations } := by
  constructor
  case declared =>
    intro e
    rw [h.tally_blocks (MethodBody.weighs_holds hmade ctx.graph e) (ctx.charges_holds e)]
    have hnodup : ctx.graph.liveEnvs.Nodup := List.nodup_range.filter _
    by_cases he : e ∈ ctx.graph.liveEnvs
    · rw [if_pos he]
      exact sum_map_ite (c := True) hnodup he (by simp)
    · rw [if_neg he, List.sum_eq_zero_iff_forall_eq_nat]
      grind
  case scopes => exact h.perm_scopeBlocks
  case created => exact fun e he => h.exists_createsIn he
  case bare =>
    intro k hk hnone
    obtain ⟨b, view, hb, -, hframe, hl⟩ := h.rewrites_of_mem hk
    cases hl with
    | mk ho hs =>
      cases ho with
      | bare => exact ⟨_, view, hb, hframe, hs⟩
      | env hs' => exact nomatch hs'.symm.trans hnone
  case body =>
    have hmem : none ∈ ctx.graph.frames := List.mem_cons_self
    exact h.mem_map_id hmem
  case methods =>
    refine ⟨h.length, fun c hc => ?_⟩
    obtain ⟨b, hb, hid, hblocks⟩ := h.mem_map_id (Graph.mem_frames.mpr fun _ hc' =>
      Option.some.inj hc' ▸ hc)
    obtain ⟨lm, hlm, hbody⟩ := Option.bind_eq_some_iff.mp hb
    exact ⟨lm, b, hlm, (h.takes_of_methodOf hlm).1, hbody, hid, hblocks⟩

end LoweredBody.Written

/-- Whatever is converted, every scope is rewritten once, and its environment is created on entry to
it and nowhere else. -/
theorem MethodBody.run_creates {o : ConversionSettings} {m : MethodBody} {r : LoweredBody}
    (h : (Conversion.run o m).outcome = .ok r) (hmade : ∀ v ∈ m.declared, v.isMade = false) :
    ∃ method, m.method = some method ∧
      r.CreatesOnce ⟨(Conversion.run o m).graph, r.declarations, method⟩ := by
  obtain ⟨ctx, hgraph, hwritten, -⟩ := LoweredBody.written_of_run h
  rw [← hgraph]
  exact ⟨ctx.method, hwritten.suits.method, hwritten.createsOnce hmade⟩

open Counter in
/-- In `Count` both the outermost block and the local function begin with an environment, and the
lambda with none. -/
theorem MethodBody.creates_count : ∃ r, (Conversion.run {} count).outcome = .ok r ∧
    (∀ v ∈ count.declared, v.isMade = false) ∧
    (∃ method, count.method = some method ∧
      r.CreatesOnce ⟨(Conversion.run {} count).graph, r.declarations, method⟩) ∧
    (r.blocks.map fun b => tally (Mention.holds 0) b.nodes).sum = 1 ∧
    (r.blocks.map fun b => tally (Mention.holds 1) b.nodes).sum = 1 := by
  have hmade : ∀ v ∈ count.declared, v.isMade = false := by decide +kernel
  obtain ⟨r, hr⟩ := exists_of_isOk (x := (Conversion.run {} count).outcome) (by decide +kernel)
  obtain ⟨method, hmethod, honce⟩ := run_creates hr hmade
  have hlive : (Conversion.run {} count).graph.liveEnvs = [0, 1] := by decide +kernel
  refine ⟨r, hr, hmade, ⟨method, hmethod, honce⟩, ?_, ?_⟩
  · rw [honce.declared, hlive]
    decide
  · rw [honce.declared, hlive]
    decide

end Unnest
