import Mathlib.Logic.Relation
import Unnest.Environments.Host
import Unnest.Proofs.Environments.Allocate

/-!
# Hosts and chains of environments

A closure that reads from heap environments is hosted on the deepest one, and reaches the others
along parent links. The chain crosses from the frame of a closure into the frames around it through
the hosts of the closures passed on the way, so the argument rests on capture sets being closed
outwards: a closure between two environments of a chain reads from the outer one as well.

`Graph.hosted` gives every closure its host at once. The run that hosts closures one after the other
is compared with it: the links it follows for a closure depend only on closures hosted before.

## Main statements

* `Graph.surroundingEnv_of_mem` : the next environment on a chain is the target or stands before it.
* `Graph.linkTargets_eq` : following links from a host reaches everything its closures read from.
* `Graph.assignHosts_eq` : every closure is hosted and linked, and there is no failure.
-/

namespace Unnest

namespace Graph

variable {g g' : Graph} {m : MethodBody} {s t : ScopeId} {c d : ClosureId} {e h : EnvId}

/-! ## Environments of scopes -/

theorem lt_of_isLiveReference (he : (g.env e).isLiveReference = true) : e < g.envs.size := by
  by_contra hlt
  rw [env_of_le (Nat.le_of_not_lt hlt)] at he
  exact absurd he (by decide)

theorem removed_of_isLiveReference (he : (g.env e).isLiveReference = true) :
    (g.env e).removed = false := by
  simp only [Environment.isLiveReference, Bool.and_eq_true, Bool.not_eq_true'] at he
  exact he.1

theorem isValue_of_isLiveReference (he : (g.env e).isLiveReference = true) :
    (g.env e).isValue = false := by
  simp only [Environment.isLiveReference, Bool.and_eq_true, Bool.not_eq_true'] at he
  exact he.2

theorem ancestors_cases (g : Graph) (s : ScopeId) : g.ancestors s = [s] ∨ ∃ p rest, p < s ∧
    g.ancestors s = s :: p :: rest ∧ g.ancestors p = p :: rest := by
  rw [ancestors]
  split
  · rename_i p _
    split
    · rename_i hlt
      exact .inr ⟨p, _, hlt, by rw [ancestors], by rw [ancestors]⟩
    · exact .inl rfl
  · exact .inl rfl

theorem ancestors_eq_cons {a : ScopeId} (ha : a ∈ g.ancestors s) (hne : a ≠ s) :
    ∃ p < s, g.ancestors s = s :: g.ancestors p ∧ a ∈ g.ancestors p := by
  rw [ancestors, List.mem_cons] at ha
  have ha := ha.resolve_left hne
  rw [ancestors]
  split at ha
  · rename_i p hp
    split at ha
    · rename_i hlt
      exact ⟨p, hlt, by simp [hlt], ha⟩
    · simp at ha
  · simp at ha

namespace Placed

variable (hp : g.Placed)

include hp

theorem scope_inj (hd : d < g.envs.size) (he : e < g.envs.size)
    (heq : (g.env d).scope = (g.env e).scope) : d = e := by
  rcases Nat.lt_trichotomy d e with hlt | rfl | hlt
  · exact absurd heq (Nat.ne_of_lt (hp.ordered d e hlt he))
  · rfl
  · exact absurd heq.symm (Nat.ne_of_lt (hp.ordered e d hlt hd))

theorem liveReferenceEnv_eq_some :
    g.liveReferenceEnv? s = some e ↔ (g.env e).scope = s ∧ (g.env e).isLiveReference = true := by
  rw [liveReferenceEnv?, Option.filter_eq_some_iff, hp.scope_env]
  constructor
  · rintro ⟨⟨-, hs, -⟩, hlive⟩
    exact ⟨hs, hlive⟩
  · rintro ⟨hs, hlive⟩
    refine ⟨⟨lt_of_isLiveReference hlive, hs, ?_⟩, hlive⟩
    simp only [Environment.isLiveReference, Bool.and_eq_true, Bool.not_eq_true'] at hlive
    exact hlive.1

/-- A closure reads from an environment through a variable it captures. -/
theorem mem_envs_iff : e ∈ (g.closure c).envs ↔ e < g.envs.size ∧ (g.env e).removed = false ∧
    ∃ v ∈ (g.scope (g.env e).scope).vars, v ∈ (g.closure c).captured := by
  rw [hp.closure_envs]
  refine and_congr_right fun he => and_congr_right fun _ => ?_
  rw [Closure.readsAny_iff, hp.vars e he]
  constructor
  · rintro ⟨v, hv, hc⟩
    exact ⟨v, (mem_hoistedVariables.mp hv).1, hc⟩
  · rintro ⟨v, hv, hc⟩
    exact ⟨v, mem_hoistedVariables.mpr ⟨hv, c, hc⟩, hc⟩

theorem isLiveReference_of_mem (he : e ∈ (g.closure c).envs) (hk : (g.env e).isValue = false) :
    (g.env e).isLiveReference = true := by
  simp [Environment.isLiveReference, hk, ((hp.closure_envs c e).mp he).2.1]

/-- What a closure reads from belongs to the scopes around it. -/
theorem scope_mem_ancestors_home (hx : g.Exact m) (hcalls : m.CallsInScope)
    (he : e ∈ (g.closure c).envs) : (g.env e).scope ∈ g.ancestors (g.closure c).home := by
  obtain ⟨-, -, v, hv, hcap⟩ := hp.mem_envs_iff.mp he
  obtain ⟨s, hs, hvs⟩ := hx.mem_ancestors_home hcalls hcap
  rwa [hx.holds.tidy.vars_unique _ s v hv hvs]

/-- A closure around another reads from what that one reads from, if it lies outside both. -/
theorem mem_envs_of_nested (hx : g.Exact m) (he : e ∈ (g.closure c).envs)
    (hd : d < g.closures.size) (hbody : (g.closure d).body ∈ g.ancestors (g.closure c).home)
    (hout : (g.closure d).body ∉ g.ancestors (g.env e).scope) : e ∈ (g.closure d).envs := by
  obtain ⟨hlt, hrem, v, hv, hcap⟩ := hp.mem_envs_iff.mp he
  exact hp.mem_envs_iff.mpr ⟨hlt, hrem, v, hv, hx.captured_of_nested hcap hv hd hbody hout⟩

end Placed

/-! ## Hosts -/

/-- A host is the deepest heap environment from which the closure reads. -/
structure IsHost (g : Graph) (c : ClosureId) (h : EnvId) : Prop where
  mem : h ∈ (g.closure c).envs
  isReference : (g.env h).isValue = false
  around : (g.env h).scope ∈ g.ancestors (g.closure c).home
  deepest : ∀ e ∈ (g.closure c).envs, (g.env e).isValue = false →
    (g.env e).scope ∈ g.ancestors (g.env h).scope

theorem isHost_of_nearestHost (hp : g.Placed) (hx : g.Exact m) (hcalls : m.CallsInScope)
    (hh : g.nearestHost? (g.closure c) = some h) : g.IsHost c h := by
  obtain ⟨before, s, after, heq, hs, hnone⟩ := List.findSome?_eq_some_iff.mp hh
  obtain ⟨henv, hcond⟩ := Option.filter_eq_some_iff.mp hs
  simp only [Bool.and_eq_true, Bool.not_eq_true', decide_eq_true_eq] at hcond
  obtain ⟨hlt, rfl, -⟩ := (hp.scope_env _ _).mp henv
  refine ⟨hcond.2, hcond.1, by rw [heq]; simp, fun e he hk => ?_⟩
  rw [ancestors_of_append heq]
  have hmem := hp.scope_mem_ancestors_home hx hcalls he
  rw [heq, List.mem_append] at hmem
  -- nothing before the host is a heap environment from which the closure reads
  refine hmem.resolve_left fun hbefore => ?_
  have henv := (hp.scope_env _ _).mpr ⟨((hp.closure_envs c e).mp he).1, rfl,
    ((hp.closure_envs c e).mp he).2.1⟩
  simpa [henv, hk, he] using hnone _ hbefore

theorem exists_nearestHost (hp : g.Placed) (hx : g.Exact m) (hcalls : m.CallsInScope)
    (he : e ∈ (g.closure c).envs) (hk : (g.env e).isValue = false) :
    ∃ h, g.nearestHost? (g.closure c) = some h := by
  refine Option.isSome_iff_exists.mp (List.findSome?_isSome_iff.mpr
    ⟨_, hp.scope_mem_ancestors_home hx hcalls he, ?_⟩)
  have henv := (hp.scope_env _ _).mpr ⟨((hp.closure_envs c e).mp he).1, rfl,
    ((hp.closure_envs c e).mp he).2.1⟩
  simp [henv, hk, he]

theorem IsHost.eq (hp : g.Placed) (hc : g.IsHost c e) (hc' : g.IsHost c h) : e = h :=
  hp.scope_inj ((hp.closure_envs c e).mp hc.mem).1 ((hp.closure_envs c h).mp hc'.mem).1
    (ancestors_antisymm (hc'.deepest e hc.mem hc.isReference)
      (hc.deepest h hc'.mem hc'.isReference))

theorem nearestHost_eq_some (hp : g.Placed) (hx : g.Exact m) (hcalls : m.CallsInScope) :
    g.nearestHost? (g.closure c) = some h ↔ g.IsHost c h := by
  refine ⟨isHost_of_nearestHost hp hx hcalls, fun hh => ?_⟩
  obtain ⟨e, he⟩ := exists_nearestHost hp hx hcalls hh.mem hh.isReference
  rw [he, IsHost.eq hp (isHost_of_nearestHost hp hx hcalls he) hh]

/-- Every closure around a scope is hosted where it should be. -/
def HostedAround (g : Graph) (s : ScopeId) : Prop :=
  ∀ d < g.closures.size, (g.closure d).body ∈ g.ancestors s →
    (g.closure d).host = g.nearestHost? (g.closure d)

/-- Environment `e` lives on the heap around scope `s`, and every closure around `s` that does not
contain it reads from it. -/
structure Visible (g : Graph) (s : ScopeId) (e : EnvId) : Prop where
  live : (g.env e).isLiveReference = true
  mem : (g.env e).scope ∈ g.ancestors s
  reads : ∀ d < g.closures.size, (g.closure d).body ∈ g.ancestors s →
    (g.closure d).body ∉ g.ancestors (g.env e).scope → e ∈ (g.closure d).envs

theorem surroundingEnv_of_owner (howner : (g.scope s).owner = some c) (outer : List ScopeId) :
    g.surroundingEnv? (s :: outer) = (g.closure c).host := by
  rw [surroundingEnv?.eq_def]
  simp only [howner]

theorem surroundingEnv_singleton (howner : (g.scope s).owner = none) :
    g.surroundingEnv? [s] = none := by
  rw [surroundingEnv?.eq_def]
  simp only [howner]

theorem surroundingEnv_of_isNone (howner : (g.scope s).owner = none) (p : ScopeId)
    (outer : List ScopeId) : g.surroundingEnv? (s :: p :: outer) =
      (g.liveReferenceEnv? p).or (g.surroundingEnv? (p :: outer)) := by
  rw [surroundingEnv?.eq_def]
  simp only [howner]
  cases g.liveReferenceEnv? p <;> rfl

/-- The next environment outside a scope from which a visible one is still visible. -/
theorem surroundingEnv_of_visible (hp : g.Placed) (hx : g.Exact m) (hcalls : m.CallsInScope)
    (hhost : g.HostedAround s) (hv : g.Visible s e) (hne : (g.env e).scope ≠ s) :
    ∃ h, g.surroundingEnv? (g.ancestors s) = some h ∧ (g.env h).isLiveReference = true ∧
      (g.env h).scope < s ∧ (g.env h).scope ∈ g.ancestors s ∧
      (g.env e).scope ∈ g.ancestors (g.env h).scope := by
  induction s using Nat.strongRecOn with
  | ind s ih =>
    obtain ⟨p, hlt, hs, hmem⟩ := ancestors_eq_cons hv.mem hne
    have hsub {t : ScopeId} (ht : t ∈ g.ancestors p) : t ∈ g.ancestors s := by
      rw [hs]
      exact List.mem_cons_of_mem s ht
    rw [hs]
    cases howner : (g.scope s).owner with
    | some d =>
      -- the frame ends here, and the host of its closure comes next
      rw [surroundingEnv_of_owner howner]
      obtain ⟨hd, hbody⟩ := hx.holds.owner_eq_some.mp howner
      have hself : (g.closure d).body ∈ g.ancestors s := hbody ▸ g.self_mem_ancestors _
      have hhome : (g.closure d).home = p := by
        have hchain := hx.holds.ancestors_body hd
        rw [hbody, hs, List.cons.injEq] at hchain
        have := congrArg List.head? hchain.2
        rw [ancestors, ancestors] at this
        simpa using this.symm
      have hread : e ∈ (g.closure d).envs := hv.reads d hd hself fun hin =>
        hne (ancestors_antisymm hv.mem (hbody ▸ hin))
      have hkind : (g.env e).isValue = false := by
        have := hv.live
        simp only [Environment.isLiveReference, Bool.and_eq_true, Bool.not_eq_true'] at this
        exact this.2
      obtain ⟨h, hh⟩ := exists_nearestHost hp hx hcalls hread hkind
      have his := isHost_of_nearestHost hp hx hcalls hh
      have haround := hhome ▸ his.around
      exact ⟨h, (hhost d hd hself).trans hh, hp.isLiveReference_of_mem his.mem his.isReference,
        Nat.lt_of_le_of_lt (le_of_mem_ancestors haround) hlt, by simp [haround],
        his.deepest e hread hkind⟩
    | none =>
      obtain ⟨rest, hp'⟩ : ∃ rest, g.ancestors p = p :: rest := ⟨_, ancestors.eq_def g p⟩
      rw [hp', surroundingEnv_of_isNone howner, ← hp']
      cases hh : g.liveReferenceEnv? p with
      | some h =>
        obtain ⟨rfl, hlive⟩ := hp.liveReferenceEnv_eq_some.mp hh
        exact ⟨h, rfl, hlive, hlt, by simp [g.self_mem_ancestors], hmem⟩
      | none =>
        have hne' : (g.env e).scope ≠ p := by
          intro heq
          rw [hp.liveReferenceEnv_eq_some.mpr ⟨heq, hv.live⟩] at hh
          exact nomatch hh
        obtain ⟨h, hh, hlive, hlt', hmem', hvis⟩ := ih p hlt
          (fun d hd hbody => hhost d hd (hsub hbody))
          ⟨hv.live, hmem, fun d hd hbody => hv.reads d hd (hsub hbody)⟩ hne'
        exact ⟨h, hh, hlive, Nat.lt_trans hlt' hlt, by simp [hmem'], hvis⟩

/-! ## Links -/

/-- What surrounds a chain of scopes depends on the environments on it and on the hosts of the
closures that own a scope on it. -/
theorem surroundingEnv_congr {chain : List ScopeId}
    (howner : ∀ s ∈ chain, (g'.scope s).owner = (g.scope s).owner)
    (hlive : ∀ s ∈ chain, g'.liveReferenceEnv? s = g.liveReferenceEnv? s)
    (hhost : ∀ s ∈ chain, ∀ d, (g.scope s).owner = some d →
      (g'.closure d).host = (g.closure d).host) :
    g'.surroundingEnv? chain = g.surroundingEnv? chain := by
  induction chain with
  | nil => rfl
  | cons s outer ih =>
    have ih := ih (fun t ht => howner t (by simp [ht])) (fun t ht => hlive t (by simp [ht]))
      (fun t ht => hhost t (by simp [ht]))
    have hs := howner s (by simp)
    cases ho : (g.scope s).owner with
    | some d =>
      rw [surroundingEnv_of_owner ho, surroundingEnv_of_owner (hs.trans ho)]
      exact hhost s (by simp) d ho
    | none =>
      cases outer with
      | nil => simp [surroundingEnv?, ho, hs]
      | cons p rest =>
        rw [surroundingEnv_of_isNone ho, surroundingEnv_of_isNone (hs.trans ho),
          hlive p (by simp), ih]

/-- A parent link depends on the environments around it and on the hosts of the closures around
it. -/
theorem runtimeParent_congr (hh : g.Holds m) (hshape : g'.shape = g.shape)
    (hscope : ∀ s, (g'.scope s).env = (g.scope s).env)
    (henv : ∀ e, (g'.env e).scope = (g.env e).scope ∧
      (g'.env e).isLiveReference = (g.env e).isLiveReference)
    (hhost : ∀ d < g.closures.size, (g.closure d).body ∈ g.ancestors (g.env e).scope →
      (g'.closure d).host = (g.closure d).host) :
    g'.runtimeParent? e = g.runtimeParent? e := by
  rw [runtimeParent?, runtimeParent?, (henv e).1, ancestors_of_shape hshape]
  refine surroundingEnv_congr (fun s _ => owner_of_shape hshape s) (fun s _ => ?_) ?_
  · simp only [liveReferenceEnv?, hscope, (henv _).2]
  · intro s hs d howner
    obtain ⟨hd, rfl⟩ := hh.owner_eq_some.mp howner
    exact hhost d hd hs

/-- The graph `g'` is `g` with some more environments marked as needing their parent. -/
structure Marks (g g' : Graph) : Prop where
  body : g'.body = g.body
  scopes : g'.scopes = g.scopes
  closures : g'.closures = g.closures
  size : g'.envs.size = g.envs.size
  env : ∀ e, g'.env e = { g.env e with needsParent := (g'.env e).needsParent }
  grown : ∀ e, (g.env e).needsParent = true → (g'.env e).needsParent = true

namespace Marks

theorem refl (g : Graph) : Marks g g := ⟨rfl, rfl, rfl, rfl, fun _ => rfl, fun _ h => h⟩

theorem trans {g'' : Graph} (h : Marks g g') (h' : Marks g' g'') : Marks g g'' where
  body := h'.body.trans h.body
  scopes := h'.scopes.trans h.scopes
  closures := h'.closures.trans h.closures
  size := h'.size.trans h.size
  env e := by rw [h'.env e, h.env e]
  grown e he := h'.grown e (h.grown e he)

theorem mark (g : Graph) (e : EnvId) :
    Marks g (g.modifyEnv e fun env => { env with needsParent := true }) where
  body := rfl
  scopes := rfl
  closures := rfl
  size := by simp
  env i := by
    rw [env_modifyEnv]
    split <;> rfl
  grown i hi := by
    rw [env_modifyEnv]
    split
    · rfl
    · exact hi

theorem scope (h : Marks g g') (s : ScopeId) : g'.scope s = g.scope s := by
  rw [Graph.scope, h.scopes, Graph.scope]

theorem closure (h : Marks g g') (c : ClosureId) : g'.closure c = g.closure c := by
  rw [Graph.closure, h.closures, Graph.closure]

theorem shape (h : Marks g g') : g'.shape = g.shape := by
  simp only [Graph.shape, h.body, h.scopes, h.closures]

theorem isLiveReference (h : Marks g g') (e : EnvId) :
    (g'.env e).isLiveReference = (g.env e).isLiveReference := by
  rw [h.env e]
  rfl

theorem runtimeParent (h : Marks g g') (e : EnvId) : g'.runtimeParent? e = g.runtimeParent? e := by
  rw [runtimeParent?, runtimeParent?, ancestors_of_shape h.shape, h.env e]
  refine surroundingEnv_congr (fun s _ => by rw [h.scope]) (fun s _ => ?_)
    fun s _ d _ => by rw [h.closure]
  simp only [liveReferenceEnv?, h.scope, h.isLiveReference]

end Marks

/-- One step along a parent link that is set. -/
def Link (g : Graph) (a b : EnvId) : Prop :=
  g.runtimeParent? a = some b ∧ (g.env a).needsParent = true

theorem Placed.lt_of_scope_lt (hp : g.Placed) (he : e < g.envs.size)
    (hlt : (g.env e).scope < (g.env h).scope) : e < h := by
  rcases Nat.lt_trichotomy e h with hlt' | rfl | hlt'
  · exact hlt'
  · exact absurd hlt (Nat.lt_irrefl _)
  · exact absurd (hp.ordered h e hlt' he) (Nat.lt_asymm hlt)

/-- In a graph `g₁` where all closures are hosted, following links reaches every target. The search
runs on a graph with the same links outside `e`, and marks what it passes. Every step leads to an
environment with a smaller number, so there is fuel enough. -/
theorem linkTargets_eq {g₁ : Graph} (hp : g₁.Placed) (hx : g₁.Exact m) (hcalls : m.CallsInScope)
    (hhost : ∀ s, g₁.HostedAround s) {fuel : Nat} {targets : List EnvId} (hfuel : e < fuel)
    (hsize : g.envs.size = g₁.envs.size) (he : e < g.envs.size)
    (hsame : ∀ a, (g₁.env a).scope ∈ g₁.ancestors (g₁.env e).scope →
      g.runtimeParent? a = g₁.runtimeParent? a)
    (htargets : ∀ t ∈ targets, t ≠ e ∧ g₁.Visible (g₁.env e).scope t) :
    ∃ g', linkTargets fuel e targets g = (g', []) ∧ Marks g g' ∧
      (∀ t ∈ targets, Relation.ReflTransGen
        (fun a b => g₁.runtimeParent? a = some b ∧ (g'.env a).needsParent = true) e t) ∧
      ∀ a, (g'.env a).needsParent = true → (g.env a).needsParent = true ∨
        ∃ t, t ≠ a ∧ g₁.Visible (g₁.env a).scope t := by
  induction fuel generalizing g e targets with
  | zero => exact absurd hfuel (Nat.not_lt_zero e)
  | succ fuel ih =>
    cases targets with
    | nil => exact ⟨g, by simp [linkTargets], .refl g, by simp, fun a ha => .inl ha⟩
    | cons t ts =>
      set g₂ := g.modifyEnv e fun env => { env with needsParent := true } with hg₂
      have hmark : Marks g g₂ := .mark g e
      have hnext {t' : EnvId} (ht' : t' ∈ t :: ts) :=
        surroundingEnv_of_visible hp hx hcalls (hhost _) (htargets t' ht').2
          fun heq => (htargets t' ht').1
            (hp.scope_inj (lt_of_isLiveReference (htargets t' ht').2.live) (hsize ▸ he) heq)
      obtain ⟨h, hh, hlive, hlt, hmem, -⟩ := hnext (List.mem_cons_self)
      have hparent : g₁.runtimeParent? e = some h := hh
      have hlt' : h < e := hp.lt_of_scope_lt (lt_of_isLiveReference hlive) hlt
      have hstep : linkTargets (fuel + 1) e (t :: ts) g =
          linkTargets fuel h ((t :: ts).filter (· ≠ h)) g₂ := by
        have : g₂.runtimeParent? e = some h := by
          rw [hmark.runtimeParent, hsame e (g₁.self_mem_ancestors _), hparent]
        simp only [linkTargets, ← hg₂, this]
      obtain ⟨g', heq, hmarks, hreach, hnew⟩ := ih (g := g₂) (e := h)
        (by lia) (by rw [hmark.size, hsize]) (by rw [hmark.size]; lia)
        (fun a ha => by
          rw [hmark.runtimeParent]
          exact hsame a (mem_ancestors_trans ha hmem))
        (fun t' (ht' : t' ∈ (t :: ts).filter (· ≠ h)) => by
          obtain ⟨ht', hne⟩ := List.mem_filter.mp ht'
          obtain ⟨h', hh', -, -, -, hvis⟩ := hnext ht'
          obtain rfl : h = h' := Option.some.inj (hh.symm.trans hh')
          refine ⟨by simpa using hne, (htargets t' ht').2.live, hvis, fun d hd hbody => ?_⟩
          exact (htargets t' ht').2.reads d hd (mem_ancestors_trans hbody hmem))
      have hself : (g'.env e).needsParent = true := by
        refine hmarks.grown e ?_
        rw [hg₂, env_modifyEnv, if_pos ⟨rfl, he⟩]
      refine ⟨g', hstep.trans heq, hmark.trans hmarks, fun t' ht' => ?_, fun a ha => ?_⟩
      · by_cases hth : t' = h
        · exact .single (hth ▸ ⟨hparent, hself⟩)
        · exact .head ⟨hparent, hself⟩ (hreach t' (List.mem_filter.mpr ⟨ht', by simpa using hth⟩))
      · rcases hnew a ha with ha | ha
        · by_cases hae : a = e
          · exact .inr ⟨t, hae ▸ htargets t List.mem_cons_self⟩
          · rw [hg₂, env_modifyEnv, if_neg (fun hc => hae hc.1.symm)] at ha
            exact .inl ha
        · exact .inr ha

/-! ## All closures -/

/-- The graph with every closure on its host. -/
def hosted (g : Graph) : Graph :=
  { g with closures := g.closures.map fun cl => { cl with host := g.nearestHost? cl } }

theorem closure_hosted (hc : c < g.closures.size) :
    g.hosted.closure c = { g.closure c with host := g.nearestHost? (g.closure c) } := by
  simp [hosted, closure, hc]

theorem proj_closure_hosted {α : Type} (proj : Closure → α)
    (hproj : ∀ cl h, proj { cl with host := h } = proj cl) (g : Graph) (c : ClosureId) :
    proj (g.hosted.closure c) = proj (g.closure c) := by
  by_cases hc : c < g.closures.size
  · rw [closure_hosted hc, hproj]
  · rw [closure_of_le (Nat.le_of_not_lt hc), closure_of_le]
    simpa [hosted] using hc

theorem sameCaptures_hosted (g : Graph) : SameCaptures g g.hosted := by
  refine ⟨?_, fun c => proj_closure_hosted _ (fun _ _ => rfl) g c,
    fun c => proj_closure_hosted _ (fun _ _ => rfl) g c,
    fun c => proj_closure_hosted _ (fun _ _ => rfl) g c⟩
  simp only [shape, hosted, Array.map_map]
  rfl

/-- Environments stay where they are as long as the captures, the environments' own data and who
reads from them stay. -/
theorem Placed.of_eq (hp : g.Placed) (hcap : SameCaptures g g')
    (hscope : ∀ s, (g'.scope s).env = (g.scope s).env) (hsize : g'.envs.size = g.envs.size)
    (henv : ∀ e, (g'.env e).scope = (g.env e).scope ∧ (g'.env e).kind = (g.env e).kind ∧
      (g'.env e).vars = (g.env e).vars ∧ (g'.env e).removed = (g.env e).removed)
    (henvs : ∀ c, (g'.closure c).envs = (g.closure c).envs) : g'.Placed where
  scope_env s e := by
    rw [hscope, hsize, (henv e).1, (henv e).2.2.2]
    exact hp.scope_env s e
  vars e he := by
    rw [(henv e).1, (henv e).2.2.1, hcap.hoistedVariables]
    exact hp.vars e (hsize ▸ he)
  kind e he := by
    rw [(henv e).2.1, (henv e).2.2.1, hcap.envKindFor]
    exact hp.kind e (hsize ▸ he)
  nonempty e he := by
    rw [(henv e).1, hcap.hoistedVariables]
    exact hp.nonempty e (hsize ▸ he)
  hoisted s hs := by
    rw [hcap.hoistedVariables] at hs
    obtain ⟨e, he, heq⟩ := hp.hoisted s hs
    exact ⟨e, hsize ▸ he, (henv e).1.trans heq⟩
  ordered d e hde he := by
    rw [(henv d).1, (henv e).1]
    exact hp.ordered d e hde (hsize ▸ he)
  closure_envs c e := by
    rw [henvs, hsize, (henv e).2.2.2, (henv e).2.2.1, hcap.readsAny]
    exact hp.closure_envs c e

theorem nearestHost_congr (hshape : g'.shape = g.shape)
    (hscope : ∀ s, (g'.scope s).env = (g.scope s).env)
    (hkind : ∀ e, (g'.env e).kind = (g.env e).kind)
    (henvs : (g'.closure c).envs = (g.closure c).envs) :
    g'.nearestHost? (g'.closure c) = g.nearestHost? (g.closure c) := by
  simp only [nearestHost?, Environment.isValue, home_of_shape hshape, ancestors_of_shape hshape,
    hscope, hkind, henvs]

theorem placed_hosted (hp : g.Placed) : g.hosted.Placed :=
  hp.of_eq (sameCaptures_hosted g) (fun _ => rfl) rfl (fun _ => ⟨rfl, rfl, rfl, rfl⟩)
    fun c => proj_closure_hosted _ (fun _ _ => rfl) g c

theorem nearestHost_hosted (g : Graph) (c : ClosureId) :
    g.hosted.nearestHost? (g.hosted.closure c) = g.nearestHost? (g.closure c) :=
  nearestHost_congr (sameCaptures_hosted g).shape (fun _ => rfl) (fun _ => rfl)
    (proj_closure_hosted _ (fun _ _ => rfl) g c)

theorem hostedAround_hosted (g : Graph) (s : ScopeId) : g.hosted.HostedAround s := by
  intro d hd _
  rw [nearestHost_hosted, closure_hosted (by simpa [hosted] using hd)]

/-- The closures before `k` of graph `g` are hosted and linked in `g'`, and nothing else has
happened. -/
structure HostedTo (k : Nat) (g g' : Graph) : Prop where
  body : g'.body = g.body
  scopes : g'.scopes = g.scopes
  size : g'.closures.size = g.closures.size
  size_envs : g'.envs.size = g.envs.size
  closure : ∀ c, g'.closure c =
    { g.closure c with host := if c < k then (g.hosted.closure c).host else none }
  env : ∀ e, g'.env e = { g.env e with
    needsParent := (g'.env e).needsParent, closures := (g'.env e).closures }
  env_closures : ∀ e c, c ∈ (g'.env e).closures ↔ c < k ∧ (g.hosted.closure c).host = some e
  linked : ∀ c < k, ∀ h, (g.hosted.closure c).host = some h →
    ∀ e ∈ (g.closure c).envs, (g.env e).isValue = false → Relation.ReflTransGen
      (fun a b => g.hosted.runtimeParent? a = some b ∧ (g'.env a).needsParent = true) h e
  receiver : ∀ c < k, (g.hosted.closure c).host.isSome = true →
    (g.closure c).capturesReceiver = true → ∀ r, g.receiverEnv? = some r →
    (g.env r).isValue = false → (g'.env r).needsParent = true
  marked : ∀ e, (g'.env e).needsParent = true →
    (∃ t, t ≠ e ∧ g.hosted.Visible (g.hosted.env e).scope t) ∨ g.receiverEnv? = some e

/-! ### The receiver -/

theorem lt_of_receiverEnv (he : g.receiverEnv? = some e) : e < g.envs.size := by
  obtain ⟨r, -, he⟩ := Option.bind_eq_some_iff.mp he
  rw [envOf?] at he
  split at he
  · obtain ⟨-, hcond⟩ := Option.filter_eq_some_iff.mp he
    simp only [Bool.and_eq_true, decide_eq_true_eq] at hcond
    by_contra hlt
    rw [env_of_le (Nat.le_of_not_lt hlt)] at hcond
    exact OrderedSet.not_mem_empty r hcond.2
  · cases he

theorem receiverEnv_congr (hshape : g'.shape = g.shape)
    (hscope : ∀ s, (g'.scope s).env = (g.scope s).env)
    (henv : ∀ e, (g'.env e).vars = (g.env e).vars ∧ (g'.env e).removed = (g.env e).removed) :
    g'.receiverEnv? = g.receiverEnv? := by
  simp only [receiverEnv?, receiver_of_shape hshape]
  refine congrArg _ (funext fun r => ?_)
  simp only [envOf?, declaringScope_of_shape hshape, hscope, (henv _).1, (henv _).2]

theorem marks_linkReceiver (g : Graph) (c : ClosureId) : Marks g (g.linkReceiver c) := by
  unfold linkReceiver
  split
  · split
    · exact .mark g _
    · exact .refl g
  · exact .refl g

theorem needsParent_linkReceiver : ((g.linkReceiver c).env e).needsParent = true ↔
    (g.env e).needsParent = true ∨ (g.closure c).capturesReceiver = true ∧
      g.receiverEnv? = some e ∧ (g.env e).isValue = false := by
  rw [linkReceiver]
  cases hr : g.receiverEnv? with
  | none => simp
  | some r =>
    have hlt := lt_of_receiverEnv hr
    by_cases hre : r = e
    · subst hre
      by_cases hc : (g.closure c).capturesReceiver = true <;>
        by_cases hk : (g.env r).isValue = true <;> simp [hc, hk, env_modifyEnv, hlt]
    · simp only [Option.some.injEq, hre, false_and, and_false, or_false]
      split
      · rw [env_modifyEnv, if_neg fun hand => hre hand.1]
      · rfl

/-! ### One closure -/

namespace HostedTo

variable {k : Nat}

theorem sameCaptures (h : HostedTo k g g') : SameCaptures g g' := by
  refine ⟨?_, fun c => by rw [h.closure], fun c => by rw [h.closure], fun c => by rw [h.closure]⟩
  refine shape_of_entries h.body (by rw [h.scopes]) (fun s => ?_) h.size fun c => ?_
  · rw [Graph.scope, h.scopes, Graph.scope]
  · rw [h.closure]
    rfl

theorem scope (h : HostedTo k g g') (s : ScopeId) : g'.scope s = g.scope s := by
  rw [Graph.scope, h.scopes, Graph.scope]

theorem nearestHost (h : HostedTo k g g') (c : ClosureId) :
    g'.nearestHost? (g'.closure c) = g.nearestHost? (g.closure c) :=
  nearestHost_congr h.sameCaptures.shape (fun s => by rw [h.scope]) (fun e => by rw [h.env])
    (by rw [h.closure])

theorem zero (hu : g.Unhosted) : HostedTo 0 g g where
  body := rfl
  scopes := rfl
  size := rfl
  size_envs := rfl
  closure c := by simp [← hu.host c]
  env _ := rfl
  env_closures e c := by simp [(hu.env e).2.1]
  linked c hc := absurd hc (Nat.not_lt_zero c)
  receiver c hc := absurd hc (Nat.not_lt_zero c)
  marked e he := by simp [(hu.env e).1] at he

/-- A closure that reads from no heap environment gets no host. -/
theorem step_none (h : HostedTo k g g') (hhost : (g.hosted.closure k).host = none) :
    HostedTo (k + 1) g (g'.modifyClosure k fun cl => { cl with host := none }) where
  body := h.body
  scopes := h.scopes
  size := by simp [h.size]
  size_envs := h.size_envs
  closure c := by
    rw [closure_modifyClosure]
    by_cases hc : c = k
    · subst hc
      simp [hhost, h.closure c]
    · have : c < k ↔ c < k + 1 := by lia
      simp [Ne.symm hc, h.closure c, this]
  env := h.env
  env_closures e c := by
    refine (h.env_closures e c).trans (and_congr_left fun hc => ?_)
    have : c ≠ k := by
      rintro rfl
      exact nomatch hhost.symm.trans hc
    lia
  linked c hc e he := by
    have : c ≠ k := by
      rintro rfl
      exact nomatch hhost.symm.trans he
    exact h.linked c (by lia) e he
  receiver c hc hsome := by
    have : c ≠ k := by
      rintro rfl
      simp [hhost] at hsome
    exact h.receiver c (by lia) hsome
  marked := h.marked

end HostedTo

/-- Closure `k` on host `e`, before anything is linked. -/
def seat (g : Graph) (k : ClosureId) (e : EnvId) : Graph :=
  (g.modifyClosure k fun cl => { cl with host := some e }).modifyEnv e
    fun env => { env with closures := env.closures ++ [k] }

/-- The heap environments that closure `c` has to reach from its host `e`. -/
def targets (g : Graph) (c : ClosureId) (e : EnvId) : List EnvId :=
  (g.closure c).envs.toList.filter fun t => t ≠ e && !(g.env t).isValue

/-- What a closure has to reach is visible from its host. -/
theorem IsHost.visible_of_mem_targets (his : g.IsHost c e) (hp : g.Placed) (hx : g.Exact m)
    {t : EnvId} (ht : t ∈ g.targets c e) : t ≠ e ∧ g.hosted.Visible (g.hosted.env e).scope t := by
  have hcap := sameCaptures_hosted g
  obtain ⟨hmem, hcond⟩ := List.mem_filter.mp ht
  simp only [Bool.and_eq_true, decide_eq_true_eq, Bool.not_eq_true'] at hcond
  refine ⟨hcond.1, hp.isLiveReference_of_mem hmem hcond.2, ?_, fun d hd hbody hout => ?_⟩
  · rw [ancestors_of_shape hcap.shape]
    exact his.deepest t hmem hcond.2
  · rw [ancestors_of_shape hcap.shape, bodyScope_of_shape hcap.shape] at hbody hout
    rw [proj_closure_hosted Closure.envs fun _ _ => rfl]
    exact hp.mem_envs_of_nested hx hmem (by rwa [size_closures_of_shape hcap.shape] at hd)
      (mem_ancestors_trans hbody his.around) hout

/-- A closure with a host takes its seat there and is linked to its targets. -/
theorem hostClosure_of_some (hh : g.nearestHost? (g.closure c) = some e) : g.hostClosure c =
    match linkTargets (g.seat c e).envs.size e ((g.seat c e).targets c e) (g.seat c e) with
    | (g, []) => (g.linkReceiver c, none)
    | (g, t :: _) => (g, some
      { cause := .unreachableEnv (g.closure c).function.name t, loc := g.bodyLoc c }) := by
  simp only [hostClosure, hh]
  rfl

/-- Hosting a closure with a host succeeds only if all its targets are reached. -/
theorem linkTargets_of_hostClosure (hh : g.nearestHost? (g.closure c) = some e)
    (hrun : g.hostClosure c = (g', none)) : ∃ g₁, linkTargets (g.seat c e).envs.size e
      ((g.seat c e).targets c e) (g.seat c e) = (g₁, []) ∧ g' = g₁.linkReceiver c := by
  rw [hostClosure_of_some hh] at hrun
  split at hrun
  · rename_i g₁ heq
    exact ⟨g₁, heq, (Prod.mk.inj hrun).1.symm⟩
  · exact nomatch (Prod.mk.inj hrun).2

namespace HostedTo

variable {k : Nat}

theorem closure_seat (h : HostedTo k g g') (hk : k < g.closures.size)
    (hhost : (g.hosted.closure k).host = some e) (c : ClosureId) : (g'.seat k e).closure c =
      { g.closure c with host := if c < k + 1 then (g.hosted.closure c).host else none } := by
  change (g'.modifyClosure k _).closure c = _
  rw [closure_modifyClosure, h.closure, h.size]
  by_cases hc : c = k
  · subst hc
    simp [hk, hhost]
  · have : c < k + 1 ↔ c < k := by lia
    simp [Ne.symm hc, this]

theorem env_seat (h : HostedTo k g g') (he : e < g.envs.size) (i : EnvId) : (g'.seat k e).env i =
    { g.env i with
      needsParent := (g'.env i).needsParent
      closures := (g'.env i).closures ++ if i = e then [k] else [] } := by
  rw [seat, env_modifyEnv, env_modifyClosure]
  by_cases hi : i = e
  · subst hi
    rw [if_pos ⟨rfl, h.size_envs.symm ▸ he⟩, h.env i]
    simp
  · rw [if_neg (fun hc => hi hc.1.symm), h.env i]
    simp [hi]

theorem shape_seat (h : HostedTo k g g') (e : EnvId) : (g'.seat k e).shape = g.shape := by
  rw [← h.sameCaptures.shape]
  exact shape_modifyClosure g' k (f := fun cl => { cl with host := some e }) fun _ => rfl

/-- Links outside the home of a closure depend only on closures that come before it. -/
theorem runtimeParent_seat (hx : g.Exact m) (h : HostedTo k g g') (hk : k < g.closures.size)
    (he : e < g.envs.size) (hhost : (g.hosted.closure k).host = some e) {a : EnvId}
    (ha : (g.env a).scope ∈ g.ancestors (g.closure k).home) :
    (g'.seat k e).runtimeParent? a = g.hosted.runtimeParent? a := by
  have hcap := sameCaptures_hosted g
  refine runtimeParent_congr (hcap.exact hx).holds ((h.shape_seat e).trans hcap.shape.symm)
    (fun s => congrArg Scope.env (h.scope s)) (fun i => ?_) fun d hd hbody => ?_
  · rw [h.env_seat he]
    exact ⟨rfl, rfl⟩
  · rw [size_closures_of_shape hcap.shape] at hd
    rw [bodyScope_of_shape hcap.shape, ancestors_of_shape hcap.shape] at hbody
    have hlt := hx.holds.lt_of_body_mem hk hd (mem_ancestors_trans hbody ha)
    rw [h.closure_seat hk hhost, if_pos (Nat.lt_succ_of_lt hlt)]

theorem size_envs_seat (h : HostedTo k g g') (e : EnvId) :
    (g'.seat k e).envs.size = g.envs.size := by
  rw [seat, size_envs_modifyEnv]
  exact h.size_envs

/-- A host lists the closures that are in their seats there. -/
theorem mem_closures_seat (h : HostedTo k g g') (he : e < g.envs.size)
    (hhost : (g.hosted.closure k).host = some e) (i : EnvId) (c : ClosureId) :
    c ∈ ((g'.seat k e).env i).closures ↔ c < k + 1 ∧ (g.hosted.closure c).host = some i := by
  have hlist : ((g'.seat k e).env i).closures =
      (g'.env i).closures ++ if i = e then [k] else [] := by rw [h.env_seat he]
  rw [hlist, List.mem_append, h.env_closures]
  by_cases hc : c = k
  · subst hc
    simp only [Nat.lt_irrefl, false_and, false_or, hhost, Option.some.injEq, Nat.lt_succ_self,
      true_and]
    by_cases hie : i = e
    · simp [hie]
    · simp [hie, Ne.symm hie]
  · have : c < k + 1 ↔ c < k := by lia
    rw [this]
    refine or_iff_left fun hmem => ?_
    split at hmem
    · exact hc (List.mem_singleton.mp hmem)
    · simp at hmem

/-- From its seat a closure reaches all its targets. -/
theorem linkTargets_seat (h : HostedTo k g g') (hp : g.Placed) (hx : g.Exact m)
    (hcalls : m.CallsInScope) (hk : k < g.closures.size)
    (hhost : (g.hosted.closure k).host = some e) (his : g.IsHost k e) :
    ∃ g₁, linkTargets (g'.seat k e).envs.size e ((g'.seat k e).targets k e) (g'.seat k e) =
        (g₁, []) ∧ Marks (g'.seat k e) g₁ ∧
      (∀ t ∈ g.targets k e, Relation.ReflTransGen
        (fun a b => g.hosted.runtimeParent? a = some b ∧ (g₁.env a).needsParent = true) e t) ∧
      ∀ a, (g₁.env a).needsParent = true → ((g'.seat k e).env a).needsParent = true ∨
        ∃ t, t ≠ a ∧ g.hosted.Visible (g.hosted.env a).scope t := by
  have hcap := sameCaptures_hosted g
  have he : e < g.envs.size := ((hp.closure_envs k e).mp his.mem).1
  have hsize := h.size_envs_seat e
  have hfuel : e < (g'.seat k e).envs.size := by rwa [hsize]
  have htargets : (g'.seat k e).targets k e = g.targets k e := by
    simp only [targets, h.closure_seat hk hhost, h.env_seat he]
    rfl
  rw [htargets]
  refine linkTargets_eq (placed_hosted hp) (hcap.exact hx) hcalls (hostedAround_hosted g) hfuel
    hsize hfuel (fun a ha => ?_) fun t ht => his.visible_of_mem_targets hp hx ht
  rw [ancestors_of_shape hcap.shape] at ha
  exact h.runtimeParent_seat hx hk he hhost (mem_ancestors_trans ha his.around)

/-- Marking links does not change where the receiver is. -/
theorem receiverEnv_of_marks {g₁ : Graph} (h : HostedTo k g g') (he : e < g.envs.size)
    (hmarks : Marks (g'.seat k e) g₁) : g₁.receiverEnv? = g.receiverEnv? := by
  refine receiverEnv_congr (hmarks.shape.trans (h.shape_seat e)) (fun s => ?_) fun i => ?_
  · rw [hmarks.scope]
    exact congrArg Scope.env (h.scope s)
  · rw [hmarks.env, h.env_seat he]
    exact ⟨rfl, rfl⟩

/-- A closure that reads from heap environments gets its host, and the links to all of them. -/
theorem step_some (hp : g.Placed) (hx : g.Exact m) (hcalls : m.CallsInScope)
    (hk : k < g.closures.size) (h : HostedTo k g g') (hhost : (g.hosted.closure k).host = some e) :
    ∃ g'', g'.hostClosure k = (g'', none) ∧ HostedTo (k + 1) g g'' := by
  have hnearest : g'.nearestHost? (g'.closure k) = some e := by
    rw [h.nearestHost, ← hhost, closure_hosted hk]
  have his : g.IsHost k e := isHost_of_nearestHost hp hx hcalls (h.nearestHost k ▸ hnearest)
  have he : e < g.envs.size := ((hp.closure_envs k e).mp his.mem).1
  have hclosure := h.closure_seat hk hhost
  have henv := h.env_seat (k := k) he
  obtain ⟨g₁, heq, hmarks, hreach, hnew⟩ := h.linkTargets_seat hp hx hcalls hk hhost his
  have hreceiver := h.receiverEnv_of_marks he hmarks
  have hlink := marks_linkReceiver g₁ k
  have hall := hmarks.trans hlink
  have hrun : g'.hostClosure k = (g₁.linkReceiver k, none) := by
    rw [hostClosure_of_some hnearest, heq]
  have hgrown (i : EnvId) (hi : (g'.env i).needsParent = true) :
      ((g₁.linkReceiver k).env i).needsParent = true :=
    hall.grown i (by rw [henv]; exact hi)
  refine ⟨_, hrun, ?_⟩
  constructor
  case body => exact hall.body.trans h.body
  case scopes => exact hall.scopes.trans h.scopes
  case size =>
    rw [hall.closures]
    exact (size_closures_modifyClosure _ _ _).trans h.size
  case size_envs => rw [hall.size, h.size_envs_seat]
  case closure =>
    intro c
    rw [hall.closure, hclosure]
  case env =>
    intro i
    rw [hall.env, henv]
  case env_closures =>
    intro i c
    rw [hall.env]
    exact h.mem_closures_seat he hhost i c
  case linked =>
    intro c hc r hr i hi hval
    by_cases hck : c = k
    · subst hck
      obtain rfl := Option.some.inj (hhost.symm.trans hr)
      by_cases hie : i = e
      · exact hie ▸ .refl
      · exact Relation.ReflTransGen.mono (fun a b hab => ⟨hab.1, hlink.grown a hab.2⟩) _ _
          (hreach i (List.mem_filter.mpr ⟨hi, by simp [hie, hval]⟩))
    · exact Relation.ReflTransGen.mono (fun a b hab => ⟨hab.1, hgrown a hab.2⟩) _ _
        (h.linked c (by lia) r hr i hi hval)
  case receiver =>
    intro c hc hsome hcaptures r hr hval
    by_cases hck : c = k
    · subst hck
      refine needsParent_linkReceiver.mpr (.inr ⟨?_, hreceiver.trans hr, ?_⟩)
      · rw [hmarks.closure, hclosure]
        exact hcaptures
      · rw [hmarks.env, henv]
        exact hval
    · exact hgrown r (h.receiver c (by lia) hsome hcaptures r hr hval)
  case marked =>
    intro i hi
    rcases needsParent_linkReceiver.mp hi with hi | ⟨-, hi, -⟩
    · rcases hnew i hi with hi | hi
      · rw [henv] at hi
        exact h.marked i hi
      · exact .inl hi
    · exact .inr (hreceiver.symm.trans hi)

end HostedTo

/-- Every closure is hosted and linked, and there is no failure. -/
theorem assignHosts_eq (hp : g.Placed) (hx : g.Exact m) (hcalls : m.CallsInScope)
    (hu : g.Unhosted) :
    ∃ g', g.assignHosts = (g', none) ∧ HostedTo g.closures.size g g' := by
  -- the closures from `k` on are still to be hosted
  have hrun (n k : Nat) (hk : k + n = g.closures.size) (g' : Graph) (h : HostedTo k g g') :
      ∃ g'', hostClosures (List.range' k n) g' = (g'', none) ∧
        HostedTo g.closures.size g g'' := by
    induction n generalizing k g' with
    | zero => exact ⟨g', rfl, by rwa [← hk]⟩
    | succ n ih =>
      have hlt : k < g.closures.size := by omega
      rw [List.range'_succ, hostClosures]
      obtain ⟨g'', heq, hnext⟩ : ∃ g'', g'.hostClosure k = (g'', none) ∧
          HostedTo (k + 1) g g'' := by
        cases hhost : (g.hosted.closure k).host with
        | some e => exact h.step_some hp hx hcalls hlt hhost
        | none =>
          have hnearest : g'.nearestHost? (g'.closure k) = none := by
            rw [h.nearestHost, ← hhost, closure_hosted hlt]
          refine ⟨_, ?_, h.step_none hhost⟩
          simp only [hostClosure, hnearest]
      rw [heq]
      exact ih (k + 1) (by omega) g'' hnext
  rw [assignHosts, List.range_eq_range']
  exact hrun g.closures.size 0 (Nat.zero_add _) g (.zero hu)

end Graph

end Unnest
