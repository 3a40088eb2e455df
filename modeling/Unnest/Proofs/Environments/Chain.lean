import Unnest.Proofs.Environments.Seated

/-!
# Chains of environments

`Graph.Chained` is what the analysis guarantees about environments once closures are hosted: a
closure is hosted on the deepest heap environment it reads from, reaches the others along links that
are set, and reaches the enclosing receiver if it captures it. Removing the environments that hold
only the receiver keeps it: there is at most one, that of the outermost scope, and it can only be
the last one of a chain.

## Main statements

* `Graph.chained_of_hostedTo` : chains after hosting.
* `Graph.prune_eq` : at most one environment is removed.
* `Graph.Pruned.chained` : chains after pruning.
* `MethodBody.chain_sound` : chain soundness.
-/

namespace Unnest

namespace Graph

variable {g g' : Graph} {m : MethodBody} {s t : ScopeId} {c d : ClosureId} {e h r : EnvId}
  {v : Variable}

/-! ## Environments of variables -/

theorem Placed.mem_vars_iff (hp : g.Placed) (he : e < g.envs.size) : v ∈ (g.env e).vars ↔
    v ∈ (g.scope (g.env e).scope).vars ∧ ∃ c, v ∈ (g.closure c).captured := by
  rw [OrderedSet.mem_def, hp.vars e he, mem_hoistedVariables]

theorem Placed.envOf_eq_some (hp : g.Placed) (hh : g.Holds m) : g.envOf? v = some e ↔
    e < g.envs.size ∧ (g.env e).removed = false ∧ v ∈ (g.env e).vars := by
  constructor
  · intro he
    rw [envOf?] at he
    split at he
    · obtain ⟨henv, hcond⟩ := Option.filter_eq_some_iff.mp he
      simp only [Bool.and_eq_true, decide_eq_true_eq] at hcond
      obtain ⟨hlt, -, hrem⟩ := (hp.scope_env _ e).mp henv
      exact ⟨hlt, hrem, hcond.2⟩
    · exact nomatch he
  · rintro ⟨hlt, hrem, hv⟩
    have hdecl := hh.declaringScope_eq_some.mpr ((hp.mem_vars_iff hlt).mp hv).1
    simp [envOf?, hdecl, (hp.scope_env _ e).mpr ⟨hlt, rfl, hrem⟩, hrem, hv]

theorem Placed.exists_env (hp : g.Placed) (hs : v ∈ (g.scope s).vars)
    (hv : v ∈ (g.closure c).captured) :
    ∃ e < g.envs.size, (g.env e).scope = s ∧ v ∈ (g.env e).vars := by
  have hmem := mem_hoistedVariables.mpr ⟨hs, c, hv⟩
  obtain ⟨e, he, rfl⟩ := hp.hoisted s (List.ne_nil_of_mem hmem)
  exact ⟨e, he, rfl, (hp.mem_vars_iff he).mpr ⟨hs, c, hv⟩⟩

theorem Holds.receiver_mem_root (hh : g.Holds m) (hr : m.receiver = some v) :
    v ∈ (g.scope root).vars := hh.mem_vars_of_declares (.receiver hr)

/-- The environment of the receiver belongs to the outermost scope. -/
theorem Placed.receiverEnv_eq_some (hp : g.Placed) (hh : g.Holds m) (hr : m.receiver = some v) :
    g.receiverEnv? = some e ↔
      e < g.envs.size ∧ (g.env e).removed = false ∧ v ∈ (g.env e).vars := by
  rw [receiverEnv?, hh.receiver_eq, hr]
  exact hp.envOf_eq_some hh

theorem Placed.scope_of_receiver (hp : g.Placed) (hh : g.Holds m) (hr : m.receiver = some v)
    (he : e < g.envs.size) (hv : v ∈ (g.env e).vars) : (g.env e).scope = root :=
  hh.tidy.vars_unique _ _ v ((hp.mem_vars_iff he).mp hv).1 (hh.receiver_mem_root hr)

theorem Holds.ancestors_root (hh : g.Holds m) : g.ancestors root = [root] := by
  rw [ancestors, hh.root_parent]

theorem Holds.body_ne_root (hh : g.Holds m) (hd : d < g.closures.size) :
    (g.closure d).body ≠ root := by
  intro heq
  have howner := hh.owner_eq_some.mpr ⟨hd, heq⟩
  rw [hh.root_owner] at howner
  exact nomatch howner

/-! ## Chains -/

theorem Visible.of_eq (hv : g.Visible s e) (hshape : g'.shape = g.shape)
    (hscope : (g'.env e).scope = (g.env e).scope)
    (hlive : (g'.env e).isLiveReference = (g.env e).isLiveReference)
    (henvs : ∀ d, e ∈ (g.closure d).envs → e ∈ (g'.closure d).envs) : g'.Visible s e where
  live := hlive.trans hv.live
  mem := by
    rw [hscope, ancestors_of_shape hshape]
    exact hv.mem
  reads d hd hbody hout := by
    rw [size_closures_of_shape hshape] at hd
    rw [bodyScope_of_shape hshape, ancestors_of_shape hshape] at hbody hout
    exact henvs d (hv.reads d hd hbody (hscope ▸ hout))

/-- What the analysis guarantees about environments once closures are hosted. -/
structure Chained (g : Graph) (m : MethodBody) : Prop where
  exact : g.Exact m
  placed : g.Placed
  host : ∀ c < g.closures.size, (g.closure c).host = g.nearestHost? (g.closure c)
  env_closures : ∀ e c, c ∈ (g.env e).closures ↔ (g.closure c).host = some e
  linked : ∀ c h, (g.closure c).host = some h → ∀ e ∈ (g.closure c).envs,
    (g.env e).isValue = false → Relation.ReflTransGen g.Link h e
  /-- The environment of the receiver links to it for the hosted closures that capture it. -/
  receiver : ∀ c h, (g.closure c).host = some h → (g.closure c).capturesReceiver = true →
    ∀ r, g.receiverEnv? = some r → (g.env r).isValue = false → (g.env r).needsParent = true
  /-- If the receiver has no environment, a chain ends in a link to it. -/
  receiverLink : ∀ c h, (g.closure c).host = some h → (g.closure c).capturesReceiver = true →
    g.receiverEnv? = none → ∃ e, Relation.ReflTransGen g.Link h e ∧ g.runtimeParent? e = none ∧
      (g.env e).needsParent = true
  /-- A link leads to another environment, or to a receiver that all closures around capture. -/
  marked : ∀ e, (g.env e).needsParent = true →
    (∃ t, t ≠ e ∧ g.Visible (g.env e).scope t) ∨
      m.receiver.isSome = true ∧ ∀ d < g.closures.size,
        (g.closure d).body ∈ g.ancestors (g.env e).scope → (g.closure d).capturesReceiver = true
  /-- What is removed held only the receiver. -/
  removed : ∀ e, (g.env e).removed = true → ∀ v ∈ (g.env e).vars,
    m.receiver = some v ∧ v.isReceiver = true

theorem Chained.isHost (h : g.Chained m) (hcalls : m.CallsInScope)
    (hhost : (g.closure c).host = some e) : g.IsHost c e := by
  have hc : c < g.closures.size := by
    by_contra hc
    rw [closure_of_le (Nat.le_of_not_lt hc)] at hhost
    exact nomatch hhost
  exact isHost_of_nearestHost h.placed h.exact hcalls ((h.host c hc).symm.trans hhost)

theorem Chained.seated (h : g.Chained m) (hcalls : m.CallsInScope) : g.Seated m where
  exact := h.exact
  placed := h.placed
  host c e he := by
    have his := h.isHost hcalls he
    exact ⟨h.placed.isLiveReference_of_mem his.mem his.isReference, his.around⟩
  env_closures := h.env_closures
  removed e he v hv := (h.removed e he v hv).2

theorem Chained.surroundingEnv_spec (h : g.Chained m) (hcalls : m.CallsInScope)
    (he : g.surroundingEnv? (g.ancestors s) = some e) : (g.env e).isLiveReference = true ∧
      (g.env e).scope ∈ g.ancestors s ∧ (g.env e).scope < s :=
  (h.seated hcalls).surroundingEnv_spec he

namespace HostedTo

variable {k : Nat}

theorem placed (h : HostedTo k g g') (hp : g.Placed) : g'.Placed :=
  hp.of_eq h.sameCaptures (fun s => by rw [h.scope]) h.size_envs
    (fun e => by rw [h.env]; exact ⟨rfl, rfl, rfl, rfl⟩) fun c => by rw [h.closure]

theorem receiverEnv_eq (h : HostedTo k g g') : g'.receiverEnv? = g.receiverEnv? := by
  refine receiverEnv_congr h.sameCaptures.shape (fun s => by rw [h.scope]) fun e => ?_
  rw [h.env]
  exact ⟨rfl, rfl⟩

theorem lt_of_host (h : HostedTo k g g') (hhost : (g'.closure c).host = some e) : c < k := by
  rw [h.closure] at hhost
  by_contra hc
  simp [hc] at hhost

theorem host_eq (h : HostedTo g.closures.size g g') (hc : c < g.closures.size) :
    (g'.closure c).host = (g.hosted.closure c).host := by
  rw [h.closure, if_pos hc]

/-- When all closures are hosted, links lead where they lead with every closure on its host. -/
theorem runtimeParent_eq (h : HostedTo g.closures.size g g') (hx : g.Exact m) (e : EnvId) :
    g'.runtimeParent? e = g.hosted.runtimeParent? e := by
  have hcap := sameCaptures_hosted g
  refine runtimeParent_congr (hcap.exact hx).holds (h.sameCaptures.shape.trans hcap.shape.symm)
    (fun s => congrArg Scope.env (h.scope s)) (fun i => ?_) fun d hd _ => ?_
  · rw [h.env]
    exact ⟨rfl, rfl⟩
  · exact h.host_eq (by rwa [size_closures_of_shape hcap.shape] at hd)

theorem visible {t : EnvId} (h : HostedTo k g g') (hv : g.hosted.Visible s t) :
    g'.Visible s t := by
  refine hv.of_eq (h.sameCaptures.shape.trans (sameCaptures_hosted g).shape.symm) ?_ ?_
    fun d hd => ?_
  · rw [h.env]
    rfl
  · rw [h.env]
    rfl
  · rw [proj_closure_hosted Closure.envs fun _ _ => rfl] at hd
    rwa [h.closure]

end HostedTo

/-- Chains after hosting. -/
theorem chained_of_hostedTo (hp : g.Placed) (hx : g.Exact m) (hu : g.Unhosted)
    (h : HostedTo g.closures.size g g') : g'.Chained m := by
  have hx' := h.sameCaptures.exact hx
  have hplaced := h.placed hp
  constructor
  case exact => exact hx'
  case placed => exact hplaced
  case host =>
    intro c hc
    rw [h.size] at hc
    rw [h.nearestHost, h.host_eq hc, closure_hosted hc]
  case env_closures =>
    intro e c
    rw [h.env_closures]
    constructor
    · rintro ⟨hc, he⟩
      rw [h.host_eq hc, he]
    · intro he
      have hc := h.lt_of_host he
      exact ⟨hc, by rw [← h.host_eq hc, he]⟩
  case linked =>
    intro c r hr e he hk
    have hc := h.lt_of_host hr
    rw [h.closure] at he
    rw [h.env] at hk
    refine Relation.ReflTransGen.mono (fun a b hab => ?_) _ _
      (h.linked c hc r (by rw [← h.host_eq hc, hr]) e he hk)
    exact ⟨(h.runtimeParent_eq hx a).trans hab.1, hab.2⟩
  case receiver =>
    intro c r hr hcap e he hk
    have hc := h.lt_of_host hr
    rw [h.sameCaptures.capturesReceiver] at hcap
    rw [h.env] at hk
    exact h.receiver c hc (by rw [← h.host_eq hc, hr]; rfl) hcap e (h.receiverEnv_eq ▸ he) hk
  case receiverLink =>
    intro c r _ hc hnone
    -- a captured receiver has an environment
    obtain ⟨v, hv, hcv⟩ := (hx'.capturesReceiver c).mp hc
    obtain ⟨e, he, -, hve⟩ := hplaced.exists_env (hx'.holds.receiver_mem_root hv) hcv
    have hrem : (g'.env e).removed = false := by
      rw [h.env]
      exact (hu.env e).2.2
    rw [(hplaced.receiverEnv_eq_some hx'.holds hv).mpr ⟨he, hrem, hve⟩] at hnone
    exact nomatch hnone
  case marked =>
    intro e he
    have hscope : (g'.env e).scope = (g.env e).scope := by rw [h.env]
    rw [hscope]
    rcases h.marked e he with ⟨t, hne, hv⟩ | hr
    · exact .inl ⟨t, hne, h.visible hv⟩
    · -- the environment of the receiver is in no closure
      obtain ⟨v, hv, -⟩ := Option.bind_eq_some_iff.mp hr
      rw [hx.holds.receiver_eq] at hv
      refine .inr ⟨by rw [hv]; rfl, fun d hd hbody => ?_⟩
      obtain ⟨hlt, -, hve⟩ := (hp.receiverEnv_eq_some hx.holds hv).mp hr
      rw [hp.scope_of_receiver hx.holds hv hlt hve, hx'.holds.ancestors_root,
        List.mem_singleton] at hbody
      exact absurd hbody (hx'.holds.body_ne_root hd)
  case removed =>
    intro e he
    rw [h.env] at he
    exact absurd he (by simp [(hu.env e).2.2])

theorem Holds.root_mem_ancestors (hh : g.Holds m) (hs : s < g.scopes.size) :
    root ∈ g.ancestors s := by
  obtain ⟨p, hp, rfl⟩ := hh.exists_path hs
  rw [← hh.blocks_eq hp]
  induction hp with
  | outermost => simp [Path.outermost]
  | @into p n b hp hn hb ih =>
    rw [Path.blocks_into hb]
    exact List.mem_cons_of_mem _ (ih (hh.scope_lt hp))

/-! ## The environment of the outermost scope -/

/-- Environment `r` of the outermost scope holds the receiver and nothing else. -/
structure HoldsReceiver (g : Graph) (m : MethodBody) (r : EnvId) (v : Variable) : Prop where
  lt : r < g.envs.size
  live : (g.env r).removed = false
  scope : (g.env r).scope = root
  vars : (g.env r).vars.toList = [v]
  receiver : m.receiver = some v
  isReceiver : v.isReceiver = true

theorem HoldsReceiver.mem_vars (hr : g.HoldsReceiver m r v) : v ∈ (g.env r).vars := by
  rw [OrderedSet.mem_def, hr.vars]
  exact List.mem_singleton.mpr rfl

/-- Nothing lies outside the outermost scope. -/
theorem HoldsReceiver.runtimeParent (hr : g.HoldsReceiver m r v) (hh : g.Holds m) :
    g.runtimeParent? r = none := by
  rw [runtimeParent?, hr.scope, hh.ancestors_root, surroundingEnv?.eq_def]
  simp only [hh.root_owner]

/-- Its readers are the closures that capture the receiver. -/
theorem HoldsReceiver.mem_envs_iff (hr : g.HoldsReceiver m r v) (hp : g.Placed) (hx : g.Exact m) :
    r ∈ (g.closure c).envs ↔ (g.closure c).capturesReceiver = true := by
  rw [hp.closure_envs, Closure.readsAny_iff, hx.capturesReceiver, hr.vars, hr.receiver]
  constructor
  · rintro ⟨-, -, w, hw, hcap⟩
    exact ⟨v, rfl, List.mem_singleton.mp hw ▸ hcap⟩
  · rintro ⟨w, hw, hcap⟩
    refine ⟨hr.lt, hr.live, v, List.mem_singleton.mpr rfl, ?_⟩
    rwa [Option.some.inj hw]

/-- Every live environment that holds the receiver is this one. -/
theorem HoldsReceiver.eq (hr : g.HoldsReceiver m r v) (hp : g.Placed) (hh : g.Holds m)
    (he : e < g.envs.size) (hv : v ∈ (g.env e).vars) : e = r :=
  hp.scope_inj he hr.lt ((hp.scope_of_receiver hh hr.receiver he hv).trans hr.scope.symm)

namespace Pruned

variable (hpr : Pruned r g g') (hr : g.HoldsReceiver m r v)

include hpr hr

theorem isHost_iff (hp : g.Placed) (hh : g.Holds m) : g'.IsHost c e ↔ e ≠ r ∧ g.IsHost c e := by
  have hshape := hpr.captures.shape
  constructor
  · rintro ⟨hmem, href, haround, hdeep⟩
    obtain ⟨hne, hmem⟩ := (hpr.mem_envs c e).mp hmem
    rw [(hpr.env_fields e).1, ancestors_of_shape hshape, home_of_shape hshape] at haround
    refine ⟨hne, hmem, (hpr.isValue e).symm.trans href, haround, fun i hi hk => ?_⟩
    by_cases hir : i = r
    · obtain ⟨-, -, w, hw, -⟩ := hp.mem_envs_iff.mp hmem
      rw [hir, hr.scope]
      exact hh.root_mem_ancestors (lt_of_mem_vars hw)
    · have := hdeep i ((hpr.mem_envs c i).mpr ⟨hir, hi⟩) ((hpr.isValue i).trans hk)
      rwa [(hpr.env_fields e).1, (hpr.env_fields i).1, ancestors_of_shape hshape] at this
  · rintro ⟨hne, hmem, href, haround, hdeep⟩
    refine ⟨(hpr.mem_envs c e).mpr ⟨hne, hmem⟩, (hpr.isValue e).trans href, ?_, fun i hi hk => ?_⟩
    · rwa [(hpr.env_fields e).1, ancestors_of_shape hshape, home_of_shape hshape]
    · rw [(hpr.env_fields e).1, (hpr.env_fields i).1, ancestors_of_shape hshape]
      exact hdeep i ((hpr.mem_envs c i).mp hi).2 ((hpr.isValue i).symm.trans hk)

theorem liveReferenceEnv_eq (hp : g.Placed) (s : ScopeId) :
    g'.liveReferenceEnv? s = (g.liveReferenceEnv? s).filter (· ≠ r) := by
  refine Option.ext fun e => ?_
  rw [(hpr.placed hp hr.lt).liveReferenceEnv_eq_some, Option.filter_eq_some_iff,
    hp.liveReferenceEnv_eq_some, (hpr.env_fields e).1, Environment.isLiveReference,
    Environment.isLiveReference, hpr.isValue]
  have := hpr.removed_eq_false e
  simp only [Bool.and_eq_true, Bool.not_eq_true', decide_eq_true_eq, this]
  tauto

/-- The links to the environment that goes become links to the receiver; all others stay. -/
theorem surroundingEnv_eq (hp : g.Placed) (hh : g.Holds m) (s : ScopeId) :
    g'.surroundingEnv? (g.ancestors s) = (g.surroundingEnv? (g.ancestors s)).filter (· ≠ r) := by
  induction s using Nat.strongRecOn with
  | ind s ih =>
    have howner := owner_of_shape hpr.captures.shape s
    cases hs : (g.scope s).owner with
    | some d =>
      rw [ancestors, surroundingEnv_of_owner (howner.trans hs), surroundingEnv_of_owner hs]
      refine Option.ext fun e => ?_
      rw [hpr.host_eq_some, Option.filter_eq_some_iff]
      simp [and_comm]
    | none =>
      rcases g.ancestors_cases s with hsingle | ⟨p, rest, hlt, hcons, hp'⟩
      · rw [hsingle, surroundingEnv_singleton (howner.trans hs), surroundingEnv_singleton hs]
        rfl
      · rw [hcons, surroundingEnv_of_isNone (howner.trans hs), surroundingEnv_of_isNone hs, ← hp',
          ih p hlt, hpr.liveReferenceEnv_eq hr hp]
        cases hlive : g.liveReferenceEnv? p with
        | none => rfl
        | some e =>
          by_cases her : e = r
          · -- the outermost scope: nothing is left to be found
            have hroot : p = root := by
              rw [← (hp.liveReferenceEnv_eq_some.mp hlive).1, her, hr.scope]
            rw [hroot, hh.ancestors_root, surroundingEnv_singleton hh.root_owner]
            simp [her]
          · simp [Option.filter, her]

theorem runtimeParent_eq (hp : g.Placed) (hh : g.Holds m) (e : EnvId) :
    g'.runtimeParent? e = (g.runtimeParent? e).filter (· ≠ r) := by
  rw [runtimeParent?, (hpr.env_fields e).1, ancestors_of_shape hpr.captures.shape,
    hpr.surroundingEnv_eq hr hp hh, runtimeParent?]

/-- Chains that do not end in the environment that goes do not pass it. -/
theorem reaches (hp : g.Placed) (hh : g.Holds m) (hne : e ≠ r)
    (hpath : Relation.ReflTransGen g.Link h e) : Relation.ReflTransGen g'.Link h e := by
  induction hpath with
  | refl => exact .refl
  | @tail a b _ hlink ih =>
    have ha : a ≠ r := by
      rintro rfl
      exact nomatch (hr.runtimeParent hh).symm.trans hlink.1
    refine (ih ha).tail ⟨?_, (hpr.env_fields a).2.2.2.trans hlink.2⟩
    rw [hpr.runtimeParent_eq hr hp hh, hlink.1]
    simp [hne]

theorem receiverEnv_eq (hp : g.Placed) (hx : g.Exact m) : g'.receiverEnv? = none := by
  refine Option.eq_none_iff_forall_ne_some.mpr fun e he => ?_
  have hh' := (hpr.captures.exact hx).holds
  obtain ⟨hlt, hrem, hv⟩ := ((hpr.placed hp hr.lt).receiverEnv_eq_some hh' hr.receiver).mp he
  rw [(hpr.env_fields e).2.2.1] at hv
  exact ((hpr.removed_eq_false e).mp hrem).1 (hr.eq hp hx.holds (hpr.size_envs ▸ hlt) hv)

/-- Chains after pruning. -/
theorem chained (hc : g.Chained m) (hcalls : m.CallsInScope) : g'.Chained m := by
  obtain ⟨hx, hp, hhost, hclosures, hlinked, -, -, hmarked, hremoved⟩ := hc
  have hh := hx.holds
  have hx' := hpr.captures.exact hx
  have hp' := hpr.placed hp hr.lt
  have hsize := size_closures_of_shape hpr.captures.shape
  have hnone := hpr.receiverEnv_eq hr hp hx
  constructor
  case exact => exact hx'
  case placed => exact hp'
  case host =>
    intro c hc
    refine Option.ext fun e => ?_
    rw [hpr.host_eq_some, hhost c (hsize ▸ hc), nearestHost_eq_some hp hx hcalls,
      nearestHost_eq_some hp' hx' hcalls, hpr.isHost_iff hr hp hh]
  case env_closures =>
    intro e c
    rw [hpr.host_eq_some, hpr.env, ← hclosures]
    by_cases he : e = r <;> simp [he]
  case linked =>
    intro c i hi e he hk
    obtain ⟨-, hi⟩ := (hpr.host_eq_some c i).mp hi
    obtain ⟨hne, he⟩ := (hpr.mem_envs c e).mp he
    exact hpr.reaches hr hp hh hne (hlinked c i hi e he ((hpr.isValue e).symm.trans hk))
  case receiver =>
    intro c i _ _ e he
    rw [hnone] at he
    exact nomatch he
  case receiverLink =>
    intro c i hi hcap _
    obtain ⟨hne, hi⟩ := (hpr.host_eq_some c i).mp hi
    rw [hpr.captures.capturesReceiver] at hcap
    have hread := (hr.mem_envs_iff hp hx).mpr hcap
    have hk : (g.env r).isValue = false := by
      refine Bool.eq_false_iff.mpr fun hk => ?_
      rw [hpr.unread hk c hread] at hi
      exact nomatch hi
    -- the last link of the chain to the environment that goes
    obtain heq | ⟨a, hpath, hlink⟩ := (hlinked c i hi r hread hk).cases_tail
    · exact absurd heq.symm hne
    have ha : a ≠ r := by
      rintro rfl
      exact nomatch (hr.runtimeParent hh).symm.trans hlink.1
    refine ⟨a, hpr.reaches hr hp hh ha hpath, ?_, (hpr.env_fields a).2.2.2.trans hlink.2⟩
    rw [hpr.runtimeParent_eq hr hp hh, hlink.1]
    simp
  case marked =>
    intro e he
    rw [(hpr.env_fields e).2.2.2] at he
    rw [(hpr.env_fields e).1, ancestors_of_shape hpr.captures.shape]
    simp only [hsize, bodyScope_of_shape hpr.captures.shape, hpr.captures.capturesReceiver]
    rcases hmarked e he with ⟨t, hne, hv⟩ | hright
    · by_cases htr : t = r
      · refine .inr ⟨by rw [hr.receiver]; rfl, fun d hd hbody => ?_⟩
        refine (hr.mem_envs_iff hp hx).mp (htr ▸ hv.reads d hd hbody fun hin => ?_)
        rw [htr, hr.scope, hh.ancestors_root, List.mem_singleton] at hin
        exact hh.body_ne_root hd hin
      · refine .inl ⟨t, hne, hv.of_eq hpr.captures.shape (hpr.env_fields t).1 ?_ fun d hd => ?_⟩
        · rw [hpr.env, if_neg htr]
        · exact (hpr.mem_envs d t).mpr ⟨htr, hd⟩
    · exact .inr hright
  case removed =>
    intro e he w hw
    rw [(hpr.env_fields e).2.2.1] at hw
    by_cases her : e = r
    · rw [her, OrderedSet.mem_def, hr.vars, List.mem_singleton] at hw
      rw [hw]
      exact ⟨hr.receiver, hr.isReceiver⟩
    · rw [hpr.env, if_neg her] at he
      exact hremoved e he w hw

end Pruned

/-! ## Pruning -/

/-- An environment that can be removed holds the receiver. -/
theorem Chained.pruned_of_pruneEnv (hc : g.Chained m) (hcalls : m.CallsInScope)
    (hunique : m.ReceiverUnique) (h : g.pruneEnv? r = some g') :
    ∃ v, g.HoldsReceiver m r v ∧ Pruned r g g' := by
  obtain ⟨hlt, hlive, ⟨v, hvars, hv⟩, hpr⟩ := (hc.seated hcalls).pruned_of_pruneEnv h
  have hmem : v ∈ (g.env r).vars := by
    rw [OrderedSet.mem_def, hvars]
    exact List.mem_singleton.mpr rfl
  have hh := hc.exact.holds
  have hreceiver : m.receiver = some v := by
    obtain ⟨p, hdecl, -⟩ := hh.declares_of_mem_vars ((hc.placed.mem_vars_iff hlt).mp hmem).1
    exact hunique p v hdecl hv
  exact ⟨v, ⟨hlt, hlive, hc.placed.scope_of_receiver hh hreceiver hlt hmem, hvars, hreceiver, hv⟩,
    hpr⟩

theorem sweep_eq_self {es : List EnvId} (hnone : ∀ e ∈ es, g.pruneEnv? e = none) (n : Nat) :
    sweep es (g, n) = (g, n) := by
  induction es with
  | nil => rfl
  | cons e es ih =>
    rw [sweep, hnone e (by simp)]
    exact ih fun i hi => hnone i (by simp [hi])

theorem sweeps_eq_self (hnone : ∀ e, g.pruneEnv? e = none) (fuel n : Nat) :
    sweeps fuel (g, n) = (g, n) := by
  cases fuel with
  | zero => rfl
  | succ fuel => simp [sweeps, sweep_eq_self fun e _ => hnone e]

/-- Once the environment of the receiver is gone, no other can go. -/
theorem Chained.pruneEnv_eq_none (hc : g.Chained m) (hcalls : m.CallsInScope)
    (hunique : m.ReceiverUnique) (hr : g.HoldsReceiver m r v) (hpr : Pruned r g g') (e : EnvId) :
    g'.pruneEnv? e = none := by
  refine Option.eq_none_iff_forall_ne_some.mpr fun g'' h => ?_
  obtain ⟨w, hw, -⟩ := (hpr.chained hr hc hcalls).pruned_of_pruneEnv hcalls hunique h
  have hnone := hpr.receiverEnv_eq hr hc.placed hc.exact
  rw [((hpr.placed hc.placed hr.lt).receiverEnv_eq_some (hpr.captures.exact hc.exact).holds
    hw.receiver).mpr ⟨hw.lt, hw.live, hw.mem_vars⟩] at hnone
  exact nomatch hnone

theorem Chained.sweep_eq (hc : g.Chained m) (hcalls : m.CallsInScope)
    (hunique : m.ReceiverUnique) (es : List EnvId) (n : Nat) : sweep es (g, n) = (g, n) ∨
      ∃ r v g', g.HoldsReceiver m r v ∧ Pruned r g g' ∧ sweep es (g, n) = (g', n + 1) := by
  induction es with
  | nil => exact .inl rfl
  | cons e es ih =>
    cases h : g.pruneEnv? e with
    | none =>
      rw [sweep, h]
      exact ih
    | some g' =>
      obtain ⟨v, hr, hpr⟩ := hc.pruned_of_pruneEnv hcalls hunique h
      refine .inr ⟨e, v, g', hr, hpr, ?_⟩
      rw [sweep, h]
      exact sweep_eq_self (fun i _ => hc.pruneEnv_eq_none hcalls hunique hr hpr i) _

/-- Pruning removes nothing, or the environment of the receiver. -/
theorem Chained.prune_eq (hc : g.Chained m) (hcalls : m.CallsInScope)
    (hunique : m.ReceiverUnique) : g.prune.1 = g ∨
      ∃ r v, g.HoldsReceiver m r v ∧ Pruned r g g.prune.1 := by
  rw [prune]
  cases g.envs.size with
  | zero => exact .inl rfl
  | succ fuel =>
    obtain h | ⟨r, v, g', hr, hpr, h⟩ := hc.sweep_eq hcalls hunique (List.range g.envs.size) 0
    · exact .inl (by simp [sweeps, h])
    · refine .inr ⟨r, v, hr, ?_⟩
      have hrest := sweeps_eq_self (hc.pruneEnv_eq_none hcalls hunique hr hpr) fuel 1
      simpa [sweeps, h, hrest] using hpr

theorem Chained.prune (hc : g.Chained m) (hcalls : m.CallsInScope) (hunique : m.ReceiverUnique) :
    g.prune.1.Chained m := by
  obtain h | ⟨r, v, hr, hpr⟩ := hc.prune_eq hcalls hunique
  · rwa [h]
  · exact hpr.chained hr hc hcalls

/-! ## Chain soundness -/

/-- Every closure that reads from the heap is hosted on the deepest environment there from which it
reads, and reaches every other one along links that are set. -/
def ReachesAll (g : Graph) : Prop :=
  ∀ c, (∃ e ∈ (g.closure c).envs, (g.env e).isValue = false) →
    ∃ h ∈ (g.closure c).envs, (g.closure c).host = some h ∧ (g.env h).isValue = false ∧
      ∀ e ∈ (g.closure c).envs, (g.env e).isValue = false →
        (e ≠ h → (g.scope (g.env e).scope).depth < (g.scope (g.env h).scope).depth) ∧
          Relation.ReflTransGen g.Link h e

theorem Chained.reachesAll (hc : g.Chained m) (hcalls : m.CallsInScope) : g.ReachesAll := by
  rintro c ⟨e, he, hk⟩
  obtain ⟨h, hh⟩ := exists_nearestHost hc.placed hc.exact hcalls he hk
  have hhost : (g.closure c).host = some h := (hc.host c (lt_of_mem_envs he)).trans hh
  have his := hc.isHost hcalls hhost
  refine ⟨h, his.mem, hhost, his.isReference, fun i hi hki => ⟨fun hne => ?_, ?_⟩⟩
  · obtain ⟨hlt, -⟩ := hc.placed.mem_envs_iff.mp his.mem
    refine hc.exact.holds.ranked.depth_lt (his.deepest i hi hki) fun heq => hne ?_
    exact hc.placed.scope_inj (hc.placed.mem_envs_iff.mp hi).1 hlt heq
  · exact hc.linked c h hhost i hi hki

end Graph

/-- In an accepted body whose functions are called and named where they are declared, hosting
succeeds, and chains are sound after it and after pruning; pruning takes a closure off its host
only by removing the host. -/
theorem MethodBody.chain_sound {m : MethodBody} (h : m.Accepted) (hcalls : m.CallsInScope)
    (hunique : m.ReceiverUnique) : ∃ g, m.captured.graph.allocate = .ok g ∧
      g.assignHosts.2 = none ∧ g.assignHosts.1.ReachesAll ∧ g.assignHosts.1.prune.1.ReachesAll ∧
      ∀ c, (g.assignHosts.1.prune.1.closure c).host ≠ (g.assignHosts.1.closure c).host →
        ∃ e, (g.assignHosts.1.closure c).host = some e ∧
          (g.assignHosts.1.prune.1.env e).removed = true := by
  obtain ⟨g, hg, hcap, hp, hu⟩ := Graph.placed_of_allocate h.analysed
  have hx := hcap.exact h.analysed.toExact
  obtain ⟨g', hg', hhosted⟩ := Graph.assignHosts_eq hp hx hcalls hu
  have hc := Graph.chained_of_hostedTo hp hx hu hhosted
  refine ⟨g, hg, by rw [hg'], ?_⟩
  rw [hg']
  refine ⟨hc.reachesAll hcalls, (hc.prune hcalls hunique).reachesAll hcalls, fun c hne => ?_⟩
  obtain heq | ⟨r, v, -, hpr⟩ := hc.prune_eq hcalls hunique
  · rw [heq] at hne
    exact absurd rfl hne
  · rw [hpr.host] at hne
    split at hne
    · rename_i hhost
      exact ⟨r, hhost, by rw [hpr.env, if_pos rfl]⟩
    · exact absurd rfl hne

open Counter in
/-- The lambda inside `next` reaches the variables of `Count` from the environment of `next`. -/
theorem MethodBody.chain_count : count.Accepted ∧ count.CallsInScope ∧ count.ReceiverUnique ∧
    ∃ g h, count.captured.graph.allocate = .ok g ∧
      (g.assignHosts.1.closure 1).host = some h ∧ h ≠ 0 ∧
      Relation.ReflTransGen g.assignHosts.1.Link h 0 := by
  have hcalls : count.CallsInScope := by decide +kernel
  have hunique : count.ReceiverUnique := by decide +kernel
  obtain ⟨g, hg, -, hreach, -⟩ := chain_sound accepted_count hcalls hunique
  have heval : (count.captured.graph.allocate.toOption.any fun g =>
      decide (0 ∈ (g.assignHosts.1.closure 1).envs ∧ (g.assignHosts.1.env 0).isValue = false ∧
        (g.assignHosts.1.closure 1).host ≠ some 0)) = true := by decide +kernel
  obtain ⟨hmem, hk, hne⟩ : 0 ∈ (g.assignHosts.1.closure 1).envs ∧
      (g.assignHosts.1.env 0).isValue = false ∧
      (g.assignHosts.1.closure 1).host ≠ some 0 := by simpa [hg, Except.toOption] using heval
  obtain ⟨h, -, hhost, -, hall⟩ := hreach 1 ⟨0, hmem, hk⟩
  refine ⟨accepted_count, hcalls, hunique, g, h, hg, hhost, ?_, (hall 0 hmem hk).2⟩
  rintro rfl
  exact hne hhost

end Unnest
