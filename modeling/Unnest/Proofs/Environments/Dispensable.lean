import Unnest.Proofs.Environments.Chain

/-!
# Environments that can be done without

Pruning goes through the environments again and again, since an environment that goes may take the
host of a closure with it and so allow one to go that was passed over before. What it does in the
end does not depend on that order. The heap environments that hold only the receiver go in any case.
In the graph without them, the values go that hold only the receiver and have no hosted reader.
`Graph.isDispensable` says this without a loop, and pruning removes the dispensable environments
and no others.

Nothing is assumed here of the body a graph was built for: `Graph.Attached` only says that the three
tables agree on which environment belongs where.

## Main statements

* `Graph.Attached.pruneEnv_eq` : what one step of pruning does.
* `Graph.Attached.sheds_sweep` : what one sweep does.
* `Graph.prune_eq_without` : pruning removes the dispensable environments at once.
-/

namespace Unnest

namespace OrderedSet

variable {α : Type}

/-- The elements that satisfy a test, in their order. -/
def filter (s : OrderedSet α) (p : α → Bool) : OrderedSet α :=
  ⟨s.toList.filter p, s.nodup.filter p⟩

@[simp] theorem mem_filter {s : OrderedSet α} {p : α → Bool} {a : α} :
    a ∈ s.filter p ↔ a ∈ s ∧ p a = true := List.mem_filter

theorem filter_filter (s : OrderedSet α) (p q : α → Bool) :
    (s.filter p).filter q = s.filter fun a => q a && p a := by
  simp only [filter, List.filter_filter]

theorem filter_true (s : OrderedSet α) : (s.filter fun _ => true) = s := by
  simp only [filter, List.filter_true]

theorem erase_eq_filter [DecidableEq α] (s : OrderedSet α) (a : α) :
    s.erase a = s.filter (· != a) := by
  simp only [erase, filter, s.nodup.erase_eq_filter]

end OrderedSet

private theorem filter_of_forall {α : Type} {p : α → Bool} {o : Option α}
    (h : ∀ a, o = some a → p a = true) : o.filter p = o := by
  cases o with
  | none => rfl
  | some a => simp [Option.filter, h a rfl]

namespace Graph

variable {g g' : Graph} {P Q : EnvId → Bool} {m : MethodBody} {s : ScopeId} {c : ClosureId}
  {e : EnvId}

/-! ## Removing environments at once -/

/-- The graph without the environments in `P`: no scope and no closure mentions them any more. -/
def without (g : Graph) (P : EnvId → Bool) : Graph :=
  { g with
    scopes := g.scopes.map fun s => { s with env := s.env.filter (!P ·) }
    closures := g.closures.map fun c =>
      { c with envs := c.envs.filter (!P ·), host := c.host.filter (!P ·) }
    envs := g.envs.mapIdx fun e env =>
      if P e then { env with removed := true, closures := [] } else env }

@[simp] theorem size_envs_without (g : Graph) (P : EnvId → Bool) :
    (g.without P).envs.size = g.envs.size := by simp [without]

theorem scope_without (g : Graph) (P : EnvId → Bool) (s : ScopeId) :
    (g.without P).scope s = { g.scope s with env := (g.scope s).env.filter (!P ·) } := by
  by_cases hs : s < g.scopes.size
  · simp [without, scope, hs]
  · rw [scope_of_le (Nat.le_of_not_lt hs), scope_of_le (by simpa [without] using hs)]
    rfl

theorem closure_without (g : Graph) (P : EnvId → Bool) (c : ClosureId) :
    (g.without P).closure c =
      { g.closure c with
        envs := (g.closure c).envs.filter (!P ·), host := (g.closure c).host.filter (!P ·) } := by
  by_cases hc : c < g.closures.size
  · simp [without, closure, hc]
  · rw [closure_of_le (Nat.le_of_not_lt hc), closure_of_le (by simpa [without] using hc)]
    rfl

theorem env_without (g : Graph) (P : EnvId → Bool) (e : EnvId) :
    (g.without P).env e =
      if P e = true ∧ e < g.envs.size then { g.env e with removed := true, closures := [] }
      else g.env e := by
  by_cases he : e < g.envs.size
  · by_cases hP : P e = true <;> simp [without, env, he, hP]
  · rw [env_of_le (Nat.le_of_not_lt he), env_of_le (by simpa using he), if_neg fun h => he h.2]

/-- Graphs of one size are equal if their entries are. -/
theorem eq_of_entries (hbody : g'.body = g.body) (hscopes : g'.scopes.size = g.scopes.size)
    (hscope : ∀ s, g'.scope s = g.scope s) (hclosures : g'.closures.size = g.closures.size)
    (hclosure : ∀ c, g'.closure c = g.closure c) (henvs : g'.envs.size = g.envs.size)
    (henv : ∀ e, g'.env e = g.env e) : g' = g := by
  have hs : g'.scopes = g.scopes := Array.ext hscopes fun i h₁ h₂ => by
    simpa [scope, h₁, h₂] using hscope i
  have hc : g'.closures = g.closures := Array.ext hclosures fun i h₁ h₂ => by
    simpa [closure, h₁, h₂] using hclosure i
  have he : g'.envs = g.envs := Array.ext henvs fun i h₁ h₂ => by
    simpa [env, h₁, h₂] using henv i
  cases g
  cases g'
  simp_all

theorem without_without (g : Graph) (P Q : EnvId → Bool) :
    (g.without P).without Q = g.without fun e => P e || Q e := by
  refine eq_of_entries rfl (by simp [without]) (fun s => ?_) (by simp [without]) (fun c => ?_)
    (by simp) fun e => ?_
  · simp [scope_without, Option.filter_filter]
  · simp [closure_without, Option.filter_filter, OrderedSet.filter_filter, Bool.and_comm]
  · by_cases hP : P e = true <;> by_cases hQ : Q e = true <;> by_cases he : e < g.envs.size <;>
      simp [env_without, hP, hQ, he]

theorem without_false (g : Graph) : (g.without fun _ => false) = g := by
  refine eq_of_entries rfl (by simp [without]) (fun s => ?_) (by simp [without]) (fun c => ?_)
    (by simp) fun e => ?_
  · simp [scope_without, filter_of_forall]
  · simp [closure_without, filter_of_forall, OrderedSet.filter_true]
  · simp [env_without]

/-- What is left of an environment does not show that it is removed. -/
theorem proj_env_without {α : Type} (proj : Environment → α)
    (hproj : ∀ env, proj { env with removed := true, closures := [] } = proj env) (g : Graph)
    (P : EnvId → Bool) (e : EnvId) : proj ((g.without P).env e) = proj (g.env e) := by
  rw [env_without]
  split
  · exact hproj _
  · rfl

theorem isValue_without (g : Graph) (P : EnvId → Bool) (e : EnvId) :
    ((g.without P).env e).isValue = (g.env e).isValue :=
  proj_env_without Environment.isValue (fun _ => rfl) g P e

theorem isReceiverOnly_without (g : Graph) (P : EnvId → Bool) (e : EnvId) :
    ((g.without P).env e).isReceiverOnly = (g.env e).isReceiverOnly :=
  proj_env_without Environment.isReceiverOnly (fun _ => rfl) g P e

theorem removed_without : ((g.without P).env e).removed = true ↔
    (g.env e).removed = true ∨ P e = true ∧ e < g.envs.size := by
  rw [env_without]
  split
  · rename_i h
    simp [h]
  · rename_i h
    simp [h]

theorem removed_without_eq_false : ((g.without P).env e).removed = false ↔
    (g.env e).removed = false ∧ ¬ (P e = true ∧ e < g.envs.size) := by
  rw [← Bool.not_eq_true, removed_without, not_or, Bool.not_eq_true]

theorem mem_envs_without : e ∈ ((g.without P).closure c).envs ↔
    e ∈ (g.closure c).envs ∧ P e = false := by
  simp [closure_without]

theorem host_without_eq_some : ((g.without P).closure c).host = some e ↔
    (g.closure c).host = some e ∧ P e = false := by
  simp [closure_without, Option.filter_eq_some_iff]

/-! ## Attached environments -/

/-- The three tables agree on which environment belongs where: a scope refers to the live
environment that is its own, closures mention no removed environment, and a closure is hosted where
it is listed, on a live heap environment. -/
structure Attached (g : Graph) : Prop where
  scope_env : ∀ s e, (g.scope s).env = some e ↔
    e < g.envs.size ∧ (g.env e).scope = s ∧ (g.env e).removed = false
  envs : ∀ c, ∀ e ∈ (g.closure c).envs, (g.env e).removed = false
  host : ∀ c e, (g.closure c).host = some e → (g.env e).isLiveReference = true
  env_closures : ∀ e c, c ∈ (g.env e).closures ↔ (g.closure c).host = some e

theorem Seated.attached (h : g.Seated m) : g.Attached where
  scope_env := h.placed.scope_env
  envs c e he := ((h.placed.closure_envs c e).mp he).2.1
  host c e he := (h.host c e he).1
  env_closures := h.env_closures

namespace Attached

variable (h : g.Attached)

include h

theorem without (P : EnvId → Bool) : (g.without P).Attached where
  scope_env s e := by
    rw [size_envs_without, removed_without_eq_false,
      proj_env_without Environment.scope (fun _ => rfl), scope_without]
    simp only [Option.filter_eq_some_iff, h.scope_env]
    grind
  envs c e he := by
    obtain ⟨he, hP⟩ := mem_envs_without.mp he
    exact removed_without_eq_false.mpr ⟨h.envs c e he, fun hrem => by simp [hP] at hrem⟩
  host c e he := by
    obtain ⟨he, hP⟩ := host_without_eq_some.mp he
    rw [env_without, if_neg fun hrem => by simp [hP] at hrem]
    exact h.host c e he
  env_closures e c := by
    rw [host_without_eq_some, ← h.env_closures, env_without]
    by_cases he : e < g.envs.size
    · by_cases hP : P e = true <;> simp [hP, he]
    · rw [if_neg fun hrem => he hrem.2, env_of_le (Nat.le_of_not_lt he)]
      exact ⟨(nomatch ·), fun hc => nomatch hc.1⟩

/-- No parent link leads to a removed environment. -/
theorem removed_of_runtimeParent {p : EnvId} (hp : g.runtimeParent? e = some p) :
    (g.env p).removed = false := by
  rw [runtimeParent?] at hp
  generalize g.ancestors (g.env e).scope = chain at hp
  induction chain with
  | nil => cases hp
  | cons s outer ih =>
    cases ho : (g.scope s).owner with
    | some d =>
      rw [surroundingEnv_of_owner ho] at hp
      exact removed_of_isLiveReference (h.host d p hp)
    | none =>
      cases outer with
      | nil =>
        rw [surroundingEnv_singleton ho] at hp
        cases hp
      | cons t rest =>
        rw [surroundingEnv_of_isNone ho, Option.or_eq_some_iff] at hp
        rcases hp with hp | ⟨-, hp⟩
        · exact removed_of_isLiveReference (Option.filter_eq_some_iff.mp hp).2
        · exact ih hp

end Attached

/-! ## One step -/

/-- A live heap environment that holds only the receiver. -/
def isSpareReference (g : Graph) (e : EnvId) : Bool :=
  (g.env e).isLiveReference && (g.env e).isReceiverOnly

/-- A live value that holds only the receiver and is read by no closure with a host. -/
def isSpareValue (g : Graph) (e : EnvId) : Bool :=
  !(g.env e).removed && (g.env e).isValue && (g.env e).isReceiverOnly &&
    g.closures.all fun c => !decide (e ∈ c.envs) || c.host.isNone

theorem isSpareReference_iff : g.isSpareReference e = true ↔ (g.env e).removed = false ∧
    (g.env e).isReceiverOnly = true ∧ (g.env e).isValue = false := by
  simp only [isSpareReference, Environment.isLiveReference, Bool.and_eq_true, Bool.not_eq_true']
  grind

theorem isSpareValue_iff : g.isSpareValue e = true ↔ (g.env e).removed = false ∧
    (g.env e).isReceiverOnly = true ∧ (g.env e).isValue = true ∧
      ∀ c, e ∈ (g.closure c).envs → (g.closure c).host = none := by
  simp only [isSpareValue, Bool.and_eq_true, Bool.not_eq_true', closures_all, Bool.or_eq_true,
    decide_eq_false_iff_not, Option.isNone_iff_eq_none]
  have hall : (∀ c < g.closures.size, e ∉ (g.closure c).envs ∨ (g.closure c).host = none) ↔
      ∀ c, e ∈ (g.closure c).envs → (g.closure c).host = none :=
    ⟨fun h c he => (h c (lt_of_mem_envs he)).resolve_left (not_not_intro he),
      fun h c _ => or_iff_not_imp_left.mpr fun he => h c (not_not.mp he)⟩
  rw [hall]
  grind

/-- An environment that holds something is in the table. -/
theorem lt_of_isReceiverOnly (h : (g.env e).isReceiverOnly = true) : e < g.envs.size := by
  by_contra he
  rw [env_of_le (Nat.le_of_not_lt he)] at h
  exact nomatch h

/-- Taking an environment off its scope, its closures and their hosts. -/
theorem Attached.detachEnv_eq (h : g.Attached) (he : e < g.envs.size)
    (hlive : (g.env e).removed = false) :
    (g.unhost (g.env e).closures).detachEnv e = g.without (· == e) := by
  obtain ⟨hbody, hs, henvs, hc⟩ := g.unhost_eq (g.env e).closures
  have henv (i : EnvId) : (g.unhost (g.env e).closures).env i = g.env i := by
    rw [env, henvs, env]
  have hscope (s : ScopeId) : (g.unhost (g.env e).closures).scope s = g.scope s := by
    rw [scope, hs, scope]
  refine eq_of_entries hbody ?_ (fun s => ?_) ?_ (fun c => ?_) ?_ fun i => ?_
  · simp [detachEnv, modifyEnv, modifyScope, Graph.without, hs]
  · rw [scope_detachEnv, henv, hscope, scope_without,
      show (g.unhost (g.env e).closures).scopes.size = g.scopes.size by rw [hs]]
    by_cases hs' : (g.env e).scope = s
    · have hown : (g.scope s).env = some e := (h.scope_env s e).mpr ⟨he, hs', hlive⟩
      have hlt : s < g.scopes.size := lt_of_scope Scope.env hown fun h => by cases h
      simp [hs', hlt, hown, Option.filter]
    · have hother : (g.scope s).env.filter (fun i => !(i == e)) = (g.scope s).env := by
        refine filter_of_forall fun i hi => ?_
        have hne : i ≠ e := by
          rintro rfl
          exact hs' ((h.scope_env s i).mp hi).2.1
        simpa using hne
      rw [if_neg fun hand => hs' hand.1, hother]
  · simp [detachEnv, modifyEnv, modifyScope, Graph.without, hc]
  · rw [closure_detachEnv, closure_unhost, closure_without, OrderedSet.erase_eq_filter]
    simp only [h.env_closures]
    split
    · rename_i hhost
      simp [hhost, bne, Option.filter]
    · rename_i hhost
      have hother : (g.closure c).host.filter (fun i => !(i == e)) = (g.closure c).host := by
        refine filter_of_forall fun i hi => ?_
        have hne : i ≠ e := by
          rintro rfl
          exact hhost hi
        simpa using hne
      rw [hother]
      rfl
  · simp [detachEnv, modifyEnv, modifyScope, henvs]
  · rw [env_detachEnv (by rwa [henvs]), henv, henv, env_without]
    by_cases hi : i = e
    · subst hi
      simp [he]
    · simp [hi]

/-- A step removes an environment exactly if it is spare. -/
theorem Attached.pruneEnv_eq (h : g.Attached) (e : EnvId) :
    g.pruneEnv? e =
      if g.isSpareReference e || g.isSpareValue e then some (g.without (· == e)) else none := by
  by_cases hbare : (g.env e).removed = false ∧ (g.env e).isReceiverOnly = true
  · obtain ⟨hlive, honly⟩ := hbare
    have hdetach := h.detachEnv_eq (lt_of_isReceiverOnly honly) hlive
    cases hk : (g.env e).isValue with
    | true =>
      -- a value hosts no closure
      have hnone : (g.env e).closures = [] := by
        refine List.eq_nil_iff_forall_not_mem.mpr fun c hc => ?_
        have hhost := h.host c e ((h.env_closures e c).mp hc)
        exact nomatch hk.symm.trans (isValue_of_isLiveReference hhost)
      rw [hnone] at hdetach
      have hread : (g.closures.any fun c => decide (e ∈ c.envs) && c.host.isSome) =
          !g.closures.all fun c => !decide (e ∈ c.envs) || c.host.isNone := by
        simp [Array.any_eq_not_all_not]
      simp only [pruneEnv?, isSpareReference, isSpareValue, Environment.isLiveReference, hlive,
        honly, hk, hread, ← hdetach]
      cases g.closures.all fun c => !decide (e ∈ c.envs) || c.host.isNone <;> rfl
    | false =>
      simp [pruneEnv?, isSpareReference, Environment.isLiveReference, hlive, honly, hk, ← hdetach]
  · have hspare : ¬ (g.isSpareReference e || g.isSpareValue e) = true := by
      rw [Bool.or_eq_true, isSpareReference_iff, isSpareValue_iff]
      grind
    have hgone : ((g.env e).removed || !(g.env e).isReceiverOnly) = true := by
      grind
    rw [if_neg hspare, pruneEnv?]
    simp [hgone]

/-! ## What can be done without -/

/-- An environment that pruning removes: one on the heap that holds only the receiver, or a value
that does and has no hosted reader once those are gone. -/
def isDispensable (g : Graph) (e : EnvId) : Bool :=
  g.isSpareReference e || (g.without g.isSpareReference).isSpareValue e

theorem isSpareReference_without : (g.without P).isSpareReference e = true ↔
    g.isSpareReference e = true ∧ P e = false := by
  simp only [isSpareReference_iff, removed_without_eq_false, isReceiverOnly_without,
    isValue_without]
  have := @lt_of_isReceiverOnly g e
  grind

theorem isSpareValue_without : (g.without P).isSpareValue e = true ↔
    ((g.env e).removed = false ∧ (g.env e).isReceiverOnly = true ∧ (g.env e).isValue = true ∧
      ∀ c, e ∈ (g.closure c).envs → ∀ i, (g.closure c).host = some i → P i = true) ∧
      P e = false := by
  have hhost (c : ClosureId) : ((g.without P).closure c).host = none ↔
      ∀ i, (g.closure c).host = some i → P i = true := by
    rw [Option.eq_none_iff_forall_ne_some]
    simp only [ne_eq, host_without_eq_some, not_and, Bool.not_eq_false]
  simp only [isSpareValue_iff, removed_without_eq_false, isReceiverOnly_without, isValue_without,
    mem_envs_without, hhost]
  have := @lt_of_isReceiverOnly g e
  grind

theorem lt_of_isDispensable (h : g.isDispensable e = true) : e < g.envs.size := by
  rw [isDispensable, Bool.or_eq_true, isSpareReference_iff, isSpareValue_without] at h
  exact lt_of_isReceiverOnly (h.elim (·.2.1) (·.1.2.1))

/-- As long as only dispensable environments are gone, no other becomes spare. -/
theorem Attached.isDispensable_of_spare (h : g.Attached)
    (hP : ∀ e, P e = true → g.isDispensable e = true)
    (he : ((g.without P).isSpareReference e || (g.without P).isSpareValue e) = true) :
    g.isDispensable e = true ∧ P e = false := by
  rw [Bool.or_eq_true, isSpareReference_without, isSpareValue_without] at he
  rw [isDispensable, Bool.or_eq_true, isSpareValue_without]
  rcases he with ⟨hspare, hPe⟩ | ⟨⟨hlive, honly, hk, hread⟩, hPe⟩
  · exact ⟨.inl hspare, hPe⟩
  · have hother : g.isSpareReference e = false := by
      rw [← Bool.not_eq_true, isSpareReference_iff]
      simp [hk]
    refine ⟨.inr ⟨⟨hlive, honly, hk, fun c hc i hi => ?_⟩, hother⟩, hPe⟩
    -- a host is no value, so it is dispensable because it is a spare one on the heap
    have hdisp := hP i (hread c hc i hi)
    rw [isDispensable, Bool.or_eq_true, isSpareValue_without] at hdisp
    refine hdisp.resolve_right fun hvalue => ?_
    exact nomatch hvalue.1.2.2.1.symm.trans (isValue_of_isLiveReference (h.host c i hi))

/-- If nothing that is left is spare, all that is dispensable is gone. -/
theorem eq_isDispensable (hP : ∀ e, P e = true → g.isDispensable e = true)
    (hnone : ∀ e < g.envs.size,
      ((g.without P).isSpareReference e || (g.without P).isSpareValue e) = false) :
    P = g.isDispensable := by
  have hspare (e : EnvId) (he : g.isSpareReference e = true) : P e = true := by
    have hlt := lt_of_isReceiverOnly (isSpareReference_iff.mp he).2.1
    by_contra hPe
    have hstill := isSpareReference_without.mpr ⟨he, Bool.eq_false_iff.mpr hPe⟩
    have := hnone e hlt
    simp [hstill] at this
  funext e
  refine Bool.eq_iff_iff.mpr ⟨hP e, fun he => ?_⟩
  have hlt := lt_of_isDispensable he
  rw [isDispensable, Bool.or_eq_true, isSpareValue_without] at he
  rcases he with he | ⟨⟨hlive, honly, hk, hread⟩, -⟩
  · exact hspare e he
  · by_contra hPe
    have hstill : (g.without P).isSpareValue e = true := isSpareValue_without.mpr
      ⟨⟨hlive, honly, hk, fun c hc i hi => hspare i (hread c hc i hi)⟩, Bool.eq_false_iff.mpr hPe⟩
    have := hnone e hlt
    simp [hstill] at this

/-! ## Sweeps -/

/-- The environments in `P` are gone from `g` and counted, and all of them are dispensable. -/
structure Sheds (g : Graph) (P : EnvId → Bool) (r : Graph × Nat) : Prop where
  graph : r.1 = g.without P
  count : r.2 = (List.range g.envs.size).countP P
  dispensable : ∀ e, P e = true → g.isDispensable e = true

/-- The loop of `sweeps` without a bound: sweeps follow one another as long as each of them removes
something. -/
inductive Settles : Graph × Nat → Graph × Nat → Prop where
  | done {r : Graph × Nat} : (sweep (List.range r.1.envs.size) r).2 = r.2 →
      Settles r (sweep (List.range r.1.envs.size) r)
  | again {r r' : Graph × Nat} : (sweep (List.range r.1.envs.size) r).2 ≠ r.2 →
      Settles (sweep (List.range r.1.envs.size) r) r' → Settles r r'

private theorem countP_or_eq {n e : Nat} (he : e < n) (hPe : P e = false) :
    (List.range n).countP (fun i => P i || i == e) = (List.range n).countP P + 1 := by
  induction n with
  | zero => exact absurd he (Nat.not_lt_zero e)
  | succ n ih =>
    rw [List.range_succ, List.countP_append, List.countP_append]
    obtain rfl | hlt := Nat.eq_or_lt_of_le (Nat.le_of_lt_succ he)
    · have hbefore : (List.range e).countP (fun i => P i || i == e) = (List.range e).countP P := by
        refine List.countP_congr fun i hi => ?_
        simp [Nat.ne_of_lt (List.mem_range.mp hi)]
      simp [hbefore, hPe]
    · rw [ih hlt, Nat.add_right_comm]
      simp [Nat.ne_of_gt hlt]

namespace Attached

variable (h : g.Attached)

include h

theorem sheds_pruneEnv {g₁ g₂ : Graph} {n : Nat} (hr : g.Sheds P (g₁, n))
    (hp : g₁.pruneEnv? e = some g₂) : ∃ Q, g.Sheds Q (g₂, n + 1) := by
  obtain ⟨rfl, rfl, hP⟩ := hr
  rw [(h.without P).pruneEnv_eq] at hp
  split at hp
  · rename_i hspare
    obtain ⟨hdisp, hPe⟩ := h.isDispensable_of_spare hP hspare
    refine ⟨fun i => P i || i == e, ?_, ?_, fun i hi => ?_⟩
    · rw [← Option.some.inj hp, without_without]
    · rw [countP_or_eq (lt_of_isDispensable hdisp) hPe]
    · simp only [Bool.or_eq_true, beq_iff_eq] at hi
      exact hi.elim (hP i) (· ▸ hdisp)
  · exact nomatch hp

/-- A sweep removes something, or there is nothing spare among what it goes through. -/
theorem sheds_sweep {r : Graph × Nat} (hr : g.Sheds P r) (es : List EnvId) :
    ∃ Q, g.Sheds Q (sweep es r) ∧ (r.2 < (sweep es r).2 ∨
      sweep es r = r ∧ ∀ e ∈ es, r.1.pruneEnv? e = none) := by
  induction es generalizing P r with
  | nil => exact ⟨P, hr, .inr ⟨rfl, fun _ he => absurd he List.not_mem_nil⟩⟩
  | cons e es ih =>
    obtain ⟨g₁, n⟩ := r
    cases hp : g₁.pruneEnv? e with
    | none =>
      obtain ⟨Q, hQ, hcase⟩ := ih hr
      rw [sweep, hp]
      refine ⟨Q, hQ, hcase.imp_right fun hrest => ⟨hrest.1, fun i hi => ?_⟩⟩
      exact (List.mem_cons.mp hi).elim (· ▸ hp) (hrest.2 i)
    | some g₂ =>
      obtain ⟨P', hP'⟩ := h.sheds_pruneEnv hr hp
      obtain ⟨Q, hQ, hcase⟩ := ih hP'
      rw [sweep, hp]
      refine ⟨Q, hQ, .inl ?_⟩
      rcases hcase with hlt | ⟨heq, -⟩
      · exact Nat.lt_of_succ_lt hlt
      · exact Nat.lt_of_lt_of_eq (Nat.lt_succ_self n) (congrArg Prod.snd heq).symm

/-- When a sweep finds nothing spare, the loop ends and all that is dispensable is gone. -/
theorem settles_of_sweep_eq {r : Graph × Nat} (hr : g.Sheds P r)
    (heq : sweep (List.range r.1.envs.size) r = r)
    (hnone : ∀ e ∈ List.range r.1.envs.size, r.1.pruneEnv? e = none) :
    Settles r r ∧ g.Sheds g.isDispensable r := by
  constructor
  · have hdone := Settles.done (r := r)
    rw [heq] at hdone
    exact hdone rfl
  · rwa [← eq_isDispensable hr.dispensable fun e he => ?_]
    have hsize : r.1.envs.size = g.envs.size := by rw [hr.graph, size_envs_without]
    have hstill := hnone e (by rwa [hsize, List.mem_range])
    rw [hr.graph, (h.without P).pruneEnv_eq] at hstill
    simpa using hstill

/-- With enough sweeps the loop ends, and then exactly what is dispensable is gone. -/
theorem settles_sweeps {r : Graph × Nat} (hr : g.Sheds P r) {fuel : Nat}
    (hfuel : (List.range g.envs.size).countP g.isDispensable ≤ r.2 + fuel) :
    Settles r (sweeps fuel r) ∧ g.Sheds g.isDispensable (sweeps fuel r) := by
  induction fuel generalizing r P with
  | zero =>
    obtain ⟨Q, hQ, hlt | ⟨heq, hnone⟩⟩ := h.sheds_sweep hr (List.range r.1.envs.size)
    · -- more would be gone than is dispensable
      have hle : (List.range g.envs.size).countP Q ≤
          (List.range g.envs.size).countP g.isDispensable :=
        List.countP_mono_left fun e _ => hQ.dispensable e
      have := hQ.count
      omega
    · exact h.settles_of_sweep_eq hr heq hnone
  | succ fuel ih =>
    have hstep : sweeps (fuel + 1) r =
        if (sweep (List.range r.1.envs.size) r).2 = r.2 then sweep (List.range r.1.envs.size) r
        else sweeps fuel (sweep (List.range r.1.envs.size) r) := rfl
    rw [hstep]
    obtain ⟨Q, hQ, hlt | ⟨heq, hnone⟩⟩ := h.sheds_sweep hr (List.range r.1.envs.size)
    · rw [if_neg (Nat.ne_of_gt hlt)]
      obtain ⟨hsettles, hsheds⟩ := ih hQ (by omega)
      exact ⟨.again (Nat.ne_of_gt hlt) hsettles, hsheds⟩
    · rw [heq, if_pos rfl]
      exact h.settles_of_sweep_eq hr heq hnone

theorem settles_prune : Settles (g, 0) g.prune ∧ g.Sheds g.isDispensable g.prune := by
  have hstart : g.Sheds (fun _ => false) (g, 0) :=
    ⟨g.without_false.symm, by simp, fun _ he => nomatch he⟩
  refine h.settles_sweeps hstart ?_
  simpa using List.countP_le_length (p := g.isDispensable) (l := List.range g.envs.size)

end Attached

/-- The graph `g'` is `g` with some environments removed: a closure loses an environment or its host
only because that is removed, and everything else that decides about environments stays. -/
structure ThinnedTo (g g' : Graph) : Prop where
  captured : ∀ c, (g'.closure c).captured = (g.closure c).captured
  direct : ∀ c, (g'.closure c).direct = (g.closure c).direct
  envs : ∀ c e, e ∈ (g'.closure c).envs ↔ e ∈ (g.closure c).envs ∧ (g'.env e).removed = false
  host : ∀ c e, (g'.closure c).host = some e ↔
    (g.closure c).host = some e ∧ (g'.env e).removed = false
  vars : ∀ e, (g'.env e).vars = (g.env e).vars
  kind : ∀ e, (g'.env e).kind = (g.env e).kind
  needsParent : ∀ e, (g'.env e).needsParent = (g.env e).needsParent

theorem Attached.thinnedTo_without (h : g.Attached) (hP : ∀ e, P e = true → e < g.envs.size) :
    g.ThinnedTo (g.without P) := by
  have hlive (e : EnvId) (he : (g.env e).removed = false) :
      ((g.without P).env e).removed = false ↔ P e = false := by
    rw [removed_without_eq_false]
    refine ⟨fun hkept => Bool.eq_false_iff.mpr fun hPe => hkept.2 ⟨hPe, hP e hPe⟩, fun hPe => ?_⟩
    exact ⟨he, fun hgone => nomatch hPe.symm.trans hgone.1⟩
  constructor
  case captured => exact fun c => by rw [closure_without]
  case direct => exact fun c => by rw [closure_without]
  case envs =>
    intro c e
    rw [mem_envs_without]
    exact and_congr_right fun he => (hlive e (h.envs c e he)).symm
  case host =>
    intro c e
    rw [host_without_eq_some]
    exact and_congr_right fun he => (hlive e (removed_of_isLiveReference (h.host c e he))).symm
  case vars => exact proj_env_without Environment.vars (fun _ => rfl) g P
  case kind => exact proj_env_without Environment.kind (fun _ => rfl) g P
  case needsParent => exact proj_env_without Environment.needsParent (fun _ => rfl) g P

/-- Where environments are attached, the loop of pruning ends. It removes the dispensable
environments at once, and counts them. The tables still agree, so nothing mentions what is removed,
and no parent link leads there. Pruning again removes nothing. -/
theorem prune_eq_without (h : g.Attached) :
    Settles (g, 0) g.prune ∧
      g.prune = (g.without g.isDispensable, (List.range g.envs.size).countP g.isDispensable) ∧
      (∀ e, (g.prune.1.env e).removed = true ↔
        (g.env e).removed = true ∨ g.isDispensable e = true) ∧
      g.prune.1.Attached ∧
      (∀ e p, g.prune.1.runtimeParent? e = some p → (g.prune.1.env p).removed = false) ∧
      g.ThinnedTo g.prune.1 ∧ g.prune.1.prune = (g.prune.1, 0) := by
  obtain ⟨hsettles, hgraph, hcount, hdisp⟩ := h.settles_prune
  have hattached : g.prune.1.Attached := hgraph ▸ h.without g.isDispensable
  refine ⟨hsettles, Prod.ext hgraph hcount, fun e => ?_, hattached,
    fun e p => hattached.removed_of_runtimeParent, ?_, ?_⟩
  · rw [hgraph, removed_without, and_iff_left_of_imp lt_of_isDispensable]
  · rw [hgraph]
    exact h.thinnedTo_without fun e => lt_of_isDispensable
  · -- what were spare now would be dispensable, and is gone
    have hnone (e : EnvId) : g.prune.1.pruneEnv? e = none := by
      rw [hattached.pruneEnv_eq, if_neg fun hspare => ?_]
      rw [hgraph] at hspare
      obtain ⟨he, he'⟩ := h.isDispensable_of_spare hdisp hspare
      exact nomatch he.symm.trans he'
    exact sweeps_eq_self hnone _ 0

end Graph

namespace Counter

/-- A variable that has the role of the receiver, but is declared in a block. -/
def guest : Variable := ⟨.given 6, .receiver, "this", "Widget", false⟩

def look : NestedFunction :=
  { id := 0, form := .localFunction, name := "look", returnType := "void" }

/-- `look` reads the receiver and the variable of its block, and a lambda reads the latter. -/
def visit : MethodBody where
  method := count.method
  receiver := some widget
  block := some (.mk 0 {}
    [.block (.mk 0 {}
      [.declare {} (some guest) none,
        .localFunction {} (some look) (.mk 0 {}
          [.expr {} (.binary {} "==" (.self {} "Widget") (.ref {} (some guest)))]),
        .expr {} (.lambda {} (some read) (.mk 0 {} [.ret {} (some (.ref {} (some guest)))]))])])

end Counter

open Counter in
/-- `look` is hosted on the environment of its block, so the value that holds the receiver is passed
over at first. It goes in the second sweep, when that environment is gone and `look` has no host. -/
theorem Graph.prune_visit : ∃ g, visit.captured.graph.allocate = .ok g ∧
    g.assignHosts.1.Attached ∧ (g.assignHosts.1.closure 0).host = some 1 ∧
    0 ∈ (g.assignHosts.1.closure 0).envs ∧ g.assignHosts.1.pruneEnv? 0 = none ∧
    g.assignHosts.1.prune.2 = 2 ∧ (g.assignHosts.1.prune.1.env 0).removed = true := by
  have haccepted : visit.Accepted := ⟨by decide +kernel, by decide +kernel⟩
  obtain ⟨g, hg, hcap, hp, hu⟩ := Graph.placed_of_allocate haccepted.analysed
  have hseated :=
    (Graph.seated_of_unhosted (hcap.exact haccepted.analysed.toExact) hp hu).assignHosts hu
  obtain ⟨-, hprune, hremoved, -⟩ := prune_eq_without hseated.attached
  have heval : (visit.captured.graph.allocate.toOption.any fun g =>
      let g' := g.assignHosts.1
      decide ((g'.closure 0).host = some 1 ∧ 0 ∈ (g'.closure 0).envs ∧
        (g'.pruneEnv? 0).isNone = true ∧ (List.range g'.envs.size).countP g'.isDispensable = 2 ∧
        g'.isDispensable 0 = true)) = true := by decide +kernel
  simp only [hg, Except.toOption, Option.any_some, decide_eq_true_eq] at heval
  obtain ⟨hhost, hread, hkept, hcount, hdisp⟩ := heval
  exact ⟨g, hg, hseated.attached, hhost, hread, Option.isNone_iff_eq_none.mp hkept,
    (congrArg Prod.snd hprune).trans hcount, (hremoved 0).mpr (.inr hdisp)⟩

end Unnest
