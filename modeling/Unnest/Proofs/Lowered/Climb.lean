import Unnest.Proofs.Lowered.Reach

/-!
# Loops along parent links end

Three loops go from environment to environment along parent links: hosting marks the way from a host
to what its closure reads from, and lowering follows the links to an environment and to the
enclosing receiver. A link may lead out of the body of a closure to the host of that closure, which
hosting sets and pruning takes away, so no bound can be read off the links themselves. But in every
accepted body, also where functions are called out of their scope, a link leads to a live heap
environment of a scope further out. A loop therefore follows no more links than its first
environment's scope is deep, and no more than there are environments: the fuel it is given never
runs out.

`Climbs` is a loop along parent links without fuel, one constructor per way a turn can go. Each of
the three functions is shown to give what the loop with its own turn gives.

## Main statements

* `Graph.Seated.linksOutward` : parent links lead outwards.
* `Graph.Seated.exists_climbs` : a loop that follows parent links ends.
* `MethodBody.climbs_end` : hosting and lowering end.
-/

namespace Unnest

variable {g g' : Graph} {m : MethodBody} {s t : ScopeId} {c : ClosureId} {e p : EnvId}

/-! ## Loops -/

section Climbs

variable {σ ρ : Type} {turn : EnvId → σ → ρ ⊕ EnvId × σ} {n : Nat} {x y : σ} {r : ρ}

/-- At environment `e` in state `x`, `turn e x` is the result of a loop or where and how it goes on.
The loop that starts there follows `n` links and ends with `r`. -/
inductive Climbs (turn : EnvId → σ → ρ ⊕ EnvId × σ) : EnvId → σ → Nat → ρ → Prop where
  | stop {e : EnvId} {x : σ} {r : ρ} : turn e x = .inl r → Climbs turn e x 0 r
  | follow {e p : EnvId} {x y : σ} {n : Nat} {r : ρ} :
      turn e x = .inr (p, y) → Climbs turn p y n r → Climbs turn e x (n + 1) r

variable {P : σ → Prop} {μ : EnvId → Nat}

/-- A loop ends if every turn that goes on makes a measure smaller. -/
theorem exists_climbs_of_lt
    (hturn : ∀ e x p y, P x → turn e x = .inr (p, y) → P y ∧ μ p < μ e) (hx : P x) :
    ∃ n r, Climbs turn e x n r := by
  induction hμ : μ e using Nat.strongRecOn generalizing e x with
  | ind k ih =>
    cases h : turn e x with
    | inl r => exact ⟨0, r, .stop h⟩
    | inr next =>
      obtain ⟨hy, hlt⟩ := hturn e x next.1 next.2 hx h
      obtain ⟨n, r, hrest⟩ := ih (μ next.1) (hμ ▸ hlt) hy rfl
      exact ⟨n + 1, r, .follow h hrest⟩

/-- It follows at most as many links as the measure says. -/
theorem Climbs.le (h : Climbs turn e x n r)
    (hturn : ∀ e x p y, P x → turn e x = .inr (p, y) → P y ∧ μ p < μ e) (hx : P x) : n ≤ μ e := by
  induction h with
  | stop _ => exact Nat.zero_le _
  | follow hstep _ ih =>
    obtain ⟨hy, hlt⟩ := hturn _ _ _ _ hx hstep
    exact Nat.succ_le_of_lt (Nat.lt_of_le_of_lt (ih hy) hlt)

end Climbs

/-! ## Links lead outwards -/

namespace Graph

/-- How deep the scope of an environment is nested. -/
def envDepth (g : Graph) (e : EnvId) : Nat := (g.scope (g.env e).scope).depth

/-- A parent link leads to a live heap environment, that of a scope strictly around. -/
def LinksOutward (g : Graph) : Prop :=
  ∀ e p, g.runtimeParent? e = some p → (g.env p).isLiveReference = true ∧
    (g.scope (g.env p).scope).env = some p ∧
    (g.env p).scope ∈ g.ancestors (g.env e).scope ∧ (g.env p).scope ≠ (g.env e).scope

namespace Seated

variable (h : g.Seated m)

include h

/-- Parent links lead outwards. -/
theorem linksOutward : g.LinksOutward := by
  intro e p hp
  obtain ⟨hlive, hmem, hlt⟩ := h.surroundingEnv_spec hp
  refine ⟨hlive, (h.placed.scope_env _ p).mpr ⟨lt_of_isLiveReference hlive, rfl, ?_⟩, hmem, ?_⟩
  · exact removed_of_isLiveReference hlive
  · exact Nat.ne_of_lt hlt

theorem envDepth_lt (hp : g.runtimeParent? e = some p) : g.envDepth p < g.envDepth e := by
  obtain ⟨-, -, hmem, hne⟩ := h.linksOutward e p hp
  exact h.exact.holds.ranked.depth_lt hmem hne

/-- Environments are numbered from the outside in. -/
theorem runtimeParent_lt (hp : g.runtimeParent? e = some p) : p < e ∧ p < g.envs.size := by
  obtain ⟨hlive, -, hlt⟩ := h.surroundingEnv_spec hp
  have hsize := lt_of_isLiveReference hlive
  exact ⟨h.placed.lt_of_scope_lt hsize hlt, hsize⟩

/-- A loop that follows parent links ends. -/
theorem exists_climbs {σ ρ : Type} {turn : EnvId → σ → ρ ⊕ EnvId × σ} {P : σ → Prop} {x : σ}
    (hturn : ∀ e x p y, P x → turn e x = .inr (p, y) → P y ∧ g.runtimeParent? e = some p)
    (hx : P x) (e : EnvId) :
    ∃ n r, Climbs turn e x n r ∧ n ≤ g.envDepth e ∧ n ≤ e ∧ n ≤ g.envs.size := by
  have hdepth : ∀ e x p y, P x → turn e x = .inr (p, y) → P y ∧ g.envDepth p < g.envDepth e := by
    intro e x p y hx hxy
    obtain ⟨hy, hp⟩ := hturn e x p y hx hxy
    exact ⟨hy, h.envDepth_lt hp⟩
  have hnumber : ∀ e x p y, P x → turn e x = .inr (p, y) →
      P y ∧ min p g.envs.size < min e g.envs.size := by
    intro e x p y hx hxy
    obtain ⟨hy, hp⟩ := hturn e x p y hx hxy
    obtain ⟨hlt, hsize⟩ := h.runtimeParent_lt hp
    exact ⟨hy, by lia⟩
  obtain ⟨n, r, hclimbs⟩ := exists_climbs_of_lt (e := e) hdepth hx
  have hle := hclimbs.le hnumber hx
  exact ⟨n, r, hclimbs, hclimbs.le hdepth hx, by lia, by lia⟩

end Seated

/-! ## Marking the way -/

/-- One turn of the loop that marks the way to the targets that are left. -/
def linkTurn (e : EnvId) : List EnvId × Graph → (Graph × List EnvId) ⊕ EnvId × List EnvId × Graph
  | ([], g) => .inl (g, [])
  | (t :: ts, g) =>
    let g := g.modifyEnv e fun env => { env with needsParent := true }
    match g.runtimeParent? e with
    | some parent => .inr (parent, (t :: ts).filter (· ≠ parent), g)
    | none => .inl (g, t :: ts)

theorem linkTurn_eq_inr {x y : List EnvId × Graph} (h : linkTurn e x = .inr (p, y)) :
    Marks x.2 y.2 ∧ x.2.runtimeParent? e = some p := by
  obtain ⟨targets, g⟩ := x
  cases targets with
  | nil => exact nomatch h
  | cons t ts =>
    have hmark := Marks.mark g e
    rw [linkTurn] at h
    split at h
    · rename_i parent hparent
      cases h
      exact ⟨hmark, hmark.runtimeParent e ▸ hparent⟩
    · exact nomatch h

theorem linkTargets_of_climbs {x : List EnvId × Graph} {n fuel : Nat} {r : Graph × List EnvId}
    (h : Climbs linkTurn e x n r) (hfuel : n < fuel) : linkTargets fuel e x.1 x.2 = r := by
  induction h generalizing fuel with
  | @stop e x r hstop =>
    obtain ⟨fuel, rfl⟩ := Nat.exists_eq_succ_of_ne_zero (Nat.ne_of_gt hfuel)
    obtain ⟨_ | ⟨t, ts⟩, g⟩ := x
    · exact Sum.inl.inj hstop
    · rw [linkTurn] at hstop
      split at hstop
      · cases hstop
      · simp only [linkTargets, *]
        exact Sum.inl.inj hstop
  | @follow e p x y n r hstep _ ih =>
    obtain ⟨fuel, rfl⟩ := Nat.exists_eq_succ_of_ne_zero (Nat.ne_of_gt (Nat.zero_lt_of_lt hfuel))
    obtain ⟨_ | ⟨t, ts⟩, g⟩ := x
    · cases hstep
    · rw [linkTurn] at hstep
      split at hstep
      · cases hstep
        simp only [linkTargets, *]
        exact ih (Nat.lt_of_succ_lt_succ hfuel)
      · cases hstep

/-- The way to the targets of a closure is marked in no more turns than its host is deep. -/
theorem Seated.linkTargets_climbs (h : g.Seated m) (he : e < g.envs.size) (targets : List EnvId) :
    ∃ n ≤ g.envDepth e,
      Climbs linkTurn e (targets, g) n (linkTargets g.envs.size e targets g) := by
  -- the graph of the loop keeps the links of the graph it starts in
  have hturn : ∀ (e : EnvId) (x : List EnvId × Graph) (p : EnvId) (y : List EnvId × Graph),
      Marks g x.2 → linkTurn e x = .inr (p, y) → Marks g y.2 ∧ g.runtimeParent? e = some p := by
    intro e x p y hx hxy
    obtain ⟨hmarks, hp⟩ := linkTurn_eq_inr hxy
    exact ⟨hx.trans hmarks, hx.runtimeParent e ▸ hp⟩
  obtain ⟨n, r, hclimbs, hdepth, hle, -⟩ := h.exists_climbs hturn (x := (targets, g)) (.refl g) e
  have hrun := linkTargets_of_climbs hclimbs (Nat.lt_of_le_of_lt hle he)
  exact ⟨n, hdepth, hrun ▸ hclimbs⟩

/-- Hosting the closures of `g` comes to closure `c` and finds its host `e`; in `g'` the closure has
taken its seat. -/
def Seats (g : Graph) (c : ClosureId) (e : EnvId) (g' : Graph) : Prop :=
  c < g.closures.size ∧ ∃ before, hostClosures (List.range c) g = (before, none) ∧
    before.nearestHost? (before.closure c) = some e ∧ g' = before.seat c e

theorem Seats.seated (hs : g.Seats c e g') (h : g.Seated m) (hu : g.Unhosted) :
    g'.Seated m ∧ e < g'.envs.size := by
  obtain ⟨hc, before, hrun, hhost, rfl⟩ := hs
  obtain ⟨hseated, hsize, hfree⟩ := h.hostClosures (k := 0) (n := c) (by lia)
    fun d _ => hu.host d
  rw [← List.range_eq_range', hrun] at hseated hsize hfree
  have hlive := (nearestHost_spec hseated.placed hhost).1
  refine ⟨hseated.seat (hsize ▸ hc) (hfree c (by lia)) hhost, ?_⟩
  rw [seat, size_envs_modifyEnv]
  exact lt_of_isLiveReference hlive

end Graph

/-! ## Following the way -/

namespace LoweringContext

variable {ctx : LoweringContext} {host : EnvType} {target : EnvId} {n fuel : Nat} {way : Expr}
  {r : Except Cause Expr}

/-- One turn of the loop to environment `target`. -/
def pathTurn (ctx : LoweringContext) (host : EnvType) (target e : EnvId) (way : Expr) :
    Except Cause Expr ⊕ EnvId × Expr :=
  if e = target then .inl (.ok way)
  else
    match (ctx.declarations.typeOf? e).bind (·.link), ctx.graph.runtimeParent? e with
    | some link, some parent => .inr (parent, .field {} way link)
    | _, _ => .inl (.error (.envOffChain target host.name))

/-- One turn of the loop to the enclosing receiver. -/
def receiverTurn (ctx : LoweringContext) (host : EnvType) (e : EnvId) (way : Expr) :
    Except Cause Expr ⊕ EnvId × Expr :=
  match (ctx.declarations.typeOf? e).bind (·.link), ctx.graph.runtimeParent? e with
  | none, _ => .inl (.error (.receiverOffChain host.name))
  | some link, some parent => .inr (parent, .field {} way link)
  | some link, none => .inl (.ok (.field {} way link))

theorem pathTurn_eq_inr {way' : Expr} (h : ctx.pathTurn host target e way = .inr (p, way')) :
    ctx.graph.runtimeParent? e = some p := by
  rw [pathTurn] at h
  split at h
  · exact nomatch h
  · split at h
    · cases h
      assumption
    · exact nomatch h

theorem receiverTurn_eq_inr {way' : Expr} (h : ctx.receiverTurn host e way = .inr (p, way')) :
    ctx.graph.runtimeParent? e = some p := by
  rw [receiverTurn] at h
  split at h
  · exact nomatch h
  · cases h
    assumption
  · exact nomatch h

theorem linkPath_of_climbs (h : Climbs (ctx.pathTurn host target) e way n r) (hfuel : n ≤ fuel) :
    ctx.linkPath host target fuel e way = r := by
  induction h generalizing fuel with
  | stop hstop =>
    rw [pathTurn] at hstop
    split at hstop
    · rename_i heq
      rw [heq, ctx.linkPath_self]
      exact Sum.inl.inj hstop
    · rename_i hne
      split at hstop
      · exact nomatch hstop
      · rename_i hend
        rw [linkPath.eq_def]
        simp only [hne, if_false]
        split
        · exact absurd ‹_› (hend _ _ ‹_›)
        · exact Sum.inl.inj hstop
  | follow hstep _ ih =>
    obtain ⟨fuel, rfl⟩ := Nat.exists_eq_succ_of_ne_zero (Nat.ne_of_gt (Nat.zero_lt_of_lt hfuel))
    rw [pathTurn] at hstep
    split at hstep
    · exact nomatch hstep
    · rename_i hne
      split at hstep
      · rename_i hlink hparent
        cases hstep
        rw [linkPath_step hne hlink hparent]
        exact ih (Nat.le_of_succ_le_succ hfuel)
      · exact nomatch hstep

theorem receiverPath_of_climbs (h : Climbs (ctx.receiverTurn host) e way n r) (hfuel : n < fuel) :
    ctx.receiverPath host fuel e way = r := by
  induction h generalizing fuel with
  | stop hstop =>
    obtain ⟨fuel, rfl⟩ := Nat.exists_eq_succ_of_ne_zero (Nat.ne_of_gt hfuel)
    rw [receiverTurn] at hstop
    rw [receiverPath]
    split at hstop
    · simp only [*]
      exact Sum.inl.inj hstop
    · cases hstop
    · simp only [*]
      exact Sum.inl.inj hstop
  | follow hstep _ ih =>
    obtain ⟨fuel, rfl⟩ := Nat.exists_eq_succ_of_ne_zero (Nat.ne_of_gt (Nat.zero_lt_of_lt hfuel))
    rw [receiverTurn] at hstep
    rw [receiverPath]
    split at hstep
    · cases hstep
    · cases hstep
      simp only [*]
      exact ih (Nat.lt_of_succ_lt_succ hfuel)
    · cases hstep

/-- The loops from an environment to another one and to the enclosing receiver follow no more links
than the environment is deep. -/
def PathsEnd (ctx : LoweringContext) : Prop :=
  ∀ host e way,
    (∀ target, ∃ n ≤ ctx.graph.envDepth e, Climbs (ctx.pathTurn host target) e way n
      (ctx.linkPath host target ctx.graph.envs.size e way)) ∧
    ∃ n ≤ ctx.graph.envDepth e, Climbs (ctx.receiverTurn host) e way n
      (ctx.receiverPath host (ctx.graph.envs.size + 1) e way)

theorem pathsEnd (h : ctx.graph.Seated m) : ctx.PathsEnd := by
  intro host e way
  constructor
  · intro target
    have hturn : ∀ e x p y, True → ctx.pathTurn host target e x = .inr (p, y) →
        True ∧ ctx.graph.runtimeParent? e = some p :=
      fun _ _ _ _ _ hxy => ⟨trivial, pathTurn_eq_inr hxy⟩
    obtain ⟨n, r, hclimbs, hdepth, -, hle⟩ := h.exists_climbs hturn (x := way) trivial e
    have hrun := linkPath_of_climbs hclimbs hle
    exact ⟨n, hdepth, hrun ▸ hclimbs⟩
  · have hturn : ∀ e x p y, True → ctx.receiverTurn host e x = .inr (p, y) →
        True ∧ ctx.graph.runtimeParent? e = some p :=
      fun _ _ _ _ _ hxy => ⟨trivial, receiverTurn_eq_inr hxy⟩
    obtain ⟨n, r, hclimbs, hdepth, -, hle⟩ := h.exists_climbs hturn (x := way) trivial e
    have hrun := receiverPath_of_climbs hclimbs (Nat.lt_succ_of_le hle)
    exact ⟨n, hdepth, hrun ▸ hclimbs⟩

end LoweringContext

theorem Graph.Seated.declareAll (h : g.Seated m) :
    (DeclarationDraft.declareAll { graph := g }).1.graph.Seated m := by
  cases hm : m.method with
  | none =>
    have hbody : g.body.method = none := by
      rw [h.exact.holds.body]
      exact hm
    simp only [DeclarationDraft.declareAll, hbody]
    exact h
  | some method =>
    obtain ⟨s, hs, hsame, -⟩ := DeclarationDraft.declareAll_eq h hm
    rw [hs]
    exact hsame.seated h

/-- In an accepted body parent links lead outwards after hosting and after pruning, whether or not
hosting fails. So every way that hosting marks, and every way that lowering follows after either,
comes to an end after no more links than the environment it starts at is deep. -/
theorem MethodBody.climbs_end {m : MethodBody} (h : m.Accepted) :
    ∃ g, m.captured.graph.allocate = .ok g ∧
      (∀ c e g', g.Seats c e g' → ∃ n ≤ g'.envDepth e, Climbs Graph.linkTurn e
        (g'.targets c e, g') n (Graph.linkTargets g'.envs.size e (g'.targets c e) g')) ∧
      ∀ g' ∈ [g.assignHosts.1, g.assignHosts.1.prune.1], g'.LinksOutward ∧
        ∀ ctx : LoweringContext,
          ctx.graph = (DeclarationDraft.declareAll { graph := g' }).1.graph → ctx.PathsEnd := by
  obtain ⟨g, hg, hcap, hp, hu⟩ := Graph.placed_of_allocate h.analysed
  have hseated := Graph.seated_of_unhosted (hcap.exact h.analysed.toExact) hp hu
  have hhosted := hseated.assignHosts hu
  refine ⟨g, hg, fun c e g' hs => ?_, fun g' hg' => ?_⟩
  · obtain ⟨hseated', he⟩ := hs.seated hseated hu
    exact hseated'.linkTargets_climbs he _
  · have hseated' : g'.Seated m := by
      rcases List.mem_pair.mp hg' with rfl | rfl
      · exact hhosted
      · exact hhosted.prune
    refine ⟨hseated'.linksOutward, fun ctx hctx => LoweringContext.pathsEnd (m := m) ?_⟩
    rw [hctx]
    exact hseated'.declareAll

namespace Counter

def inner : Variable := ⟨.given 4, .declared, "inner", "int", false⟩

def other : Variable := ⟨.given 5, .declared, "other", "int", false⟩

def peek : NestedFunction :=
  { id := 0, form := .localFunction, name := "peek", returnType := "int" }

/-- `peek` reads the variable of the block that declares it, and a lambda in another block calls
it. -/
def detour : MethodBody where
  method := count.method
  receiver := some widget
  block := some (.mk 0 {}
    [.declare {} (some step) none,
      .block (.mk 0 {}
        [.declare {} (some inner) none,
          .localFunction {} (some peek) (.mk 0 {} [.ret {} (some (.ref {} (some inner)))])]),
      .block (.mk 0 {}
        [.declare {} (some other) none,
          .expr {} (.lambda {} (some read) (.mk 0 {}
            [.ret {} (some (.binary {} "+" (.ref {} (some step))
              (.binary {} "+" (.ref {} (some other)) (.localCall {} peek []))))]))])])

end Counter

open Counter in
/-- The lambda is hosted in its own block, and the environment that `peek` reads from lies on no
way from there. Hosting follows the one link there is, and fails. -/
theorem MethodBody.climbs_detour : detour.Accepted ∧ ¬ detour.CallsInScope ∧
    ∃ g g', detour.captured.graph.allocate = .ok g ∧ g.assignHosts.2.isSome = true ∧
      g.Seats 1 2 g' ∧ (∃ n ≤ 1, Climbs Graph.linkTurn 2 (g'.targets 1 2, g') n
        (Graph.linkTargets g'.envs.size 2 (g'.targets 1 2) g')) ∧
      g.assignHosts.1.runtimeParent? 2 = some 0 ∧ g.assignHosts.1.LinksOutward := by
  have haccepted : detour.Accepted := ⟨by decide +kernel, by decide +kernel⟩
  obtain ⟨g, hg, hhosting, hlinks⟩ := climbs_end haccepted
  have heval : (detour.captured.graph.allocate.toOption.any fun g =>
      let before := Graph.hostClosures (List.range 1) g
      decide (g.assignHosts.2.isSome = true ∧ g.assignHosts.1.runtimeParent? 2 = some 0 ∧
        1 < g.closures.size ∧ before.2.isNone = true ∧
        before.1.nearestHost? (before.1.closure 1) = some 2 ∧
        (before.1.seat 1 2).envDepth 2 = 1)) = true := by decide +kernel
  simp only [hg, Except.toOption, Option.any_some, decide_eq_true_eq] at heval
  obtain ⟨hfails, hparent, hsize, hbefore, hhost, hdepth⟩ := heval
  have hseats : g.Seats 1 2 ((Graph.hostClosures (List.range 1) g).1.seat 1 2) :=
    ⟨hsize, _, Prod.ext rfl (Option.isNone_iff_eq_none.mp hbefore), hhost, rfl⟩
  have hclimbs := hhosting 1 2 _ hseats
  rw [hdepth] at hclimbs
  refine ⟨haccepted, by decide +kernel, g, _, hg, hfails, hseats, hclimbs, hparent, ?_⟩
  exact (hlinks _ List.mem_cons_self).1

end Unnest
