import Unnest.Environments.Prune
import Unnest.Proofs.Environments.Host

/-!
# Closures on their hosts

A host is a live heap environment around its closure, and an environment lists the closures hosted
on it. `Graph.Seated` says this. It holds for every body that the analysis accepts, also where
functions are called out of their scope: hosting may then fail to link a closure to all it reads
from, but what is hosted is hosted well, and removing environments keeps it so.

## Main statements

* `Graph.Seated.assignHosts` : closures are seated after hosting, whether or not it fails.
* `Graph.Seated.prune` : closures are seated after pruning.
* `Graph.Seated.surroundingEnv_spec` : what surrounds a scope lives on the heap, further out.
-/

namespace Unnest

namespace Graph

variable {g g' : Graph} {m : MethodBody} {s : ScopeId} {c : ClosureId} {e r : EnvId}

theorem lt_of_mem_envs (he : e ∈ (g.closure c).envs) : c < g.closures.size := by
  by_contra hc
  rw [closure_of_le (Nat.le_of_not_lt hc)] at he
  exact OrderedSet.not_mem_empty e he

theorem Holds.home_lt_body (hh : g.Holds m) (hc : c < g.closures.size) :
    (g.closure c).home < (g.closure c).body := by
  have hbody := hh.ancestors_body hc
  rw [ancestors.eq_def g (g.closure c).home] at hbody
  rcases g.ancestors_cases (g.closure c).body with hsingle | ⟨p, rest, hlt, hcons, -⟩
  · rw [hsingle] at hbody
    exact nomatch hbody
  · rw [hcons] at hbody
    injection hbody with _ hbody
    injection hbody with hhome
    rwa [← hhome]

/-- Every host is a live heap environment around its closure, the environments list the closures
hosted on them, and what is removed held only a receiver. -/
structure Seated (g : Graph) (m : MethodBody) : Prop where
  exact : g.Exact m
  placed : g.Placed
  host : ∀ c e, (g.closure c).host = some e → (g.env e).isLiveReference = true ∧
    (g.env e).scope ∈ g.ancestors (g.closure c).home
  env_closures : ∀ e c, c ∈ (g.env e).closures ↔ (g.closure c).host = some e
  removed : ∀ e, (g.env e).removed = true → ∀ v ∈ (g.env e).vars, v.isReceiver = true

/-- What surrounds a scope lives on the heap, further out. -/
theorem Seated.surroundingEnv_spec (h : g.Seated m)
    (he : g.surroundingEnv? (g.ancestors s) = some e) : (g.env e).isLiveReference = true ∧
      (g.env e).scope ∈ g.ancestors s ∧ (g.env e).scope < s := by
  induction s using Nat.strongRecOn with
  | ind s ih =>
    cases hs : (g.scope s).owner with
    | some d =>
      rw [ancestors, surroundingEnv_of_owner hs] at he
      obtain ⟨hd, rfl⟩ := h.exact.holds.owner_eq_some.mp hs
      obtain ⟨hlive, haround⟩ := h.host d e he
      refine ⟨hlive, ?_, ?_⟩
      · rw [h.exact.holds.ancestors_body hd]
        exact List.mem_cons_of_mem _ haround
      · exact Nat.lt_of_le_of_lt (le_of_mem_ancestors haround) (h.exact.holds.home_lt_body hd)
    | none =>
      rcases g.ancestors_cases s with hsingle | ⟨p, rest, hlt, hcons, hp⟩
      · rw [hsingle, surroundingEnv_singleton hs] at he
        cases he
      · rw [hcons, surroundingEnv_of_isNone hs, ← hp, Option.or_eq_some_iff] at he
        have hsub {t : ScopeId} (ht : t ∈ g.ancestors p) : t ∈ g.ancestors s := by
          rw [hcons, ← hp]
          exact List.mem_cons_of_mem s ht
        rcases he with he | ⟨-, he⟩
        · obtain ⟨rfl, hlive⟩ := h.placed.liveReferenceEnv_eq_some.mp he
          exact ⟨hlive, hsub (g.self_mem_ancestors _), hlt⟩
        · obtain ⟨hlive, hmem, hlt'⟩ := ih p hlt he
          exact ⟨hlive, hsub hmem, Nat.lt_trans hlt' hlt⟩

/-! ## Hosting -/

theorem Marks.sameCaptures (h : Marks g g') : SameCaptures g g' :=
  ⟨h.shape, fun c => by rw [h.closure], fun c => by rw [h.closure], fun c => by rw [h.closure]⟩

theorem marks_linkTargets (fuel : Nat) (e : EnvId) (targets : List EnvId) (g : Graph) :
    Marks g (linkTargets fuel e targets g).1 := by
  induction fuel generalizing e targets g with
  | zero => cases targets <;> exact .refl g
  | succ fuel ih =>
    cases targets with
    | nil => exact .refl g
    | cons t ts =>
      have hmark := Marks.mark g e
      simp only [linkTargets]
      split
      · exact hmark.trans (ih _ _ _)
      · exact hmark

/-- Links do not matter to hosts. -/
theorem Seated.marks (h : g.Seated m) (hm : Marks g g') : g'.Seated m where
  exact := hm.sameCaptures.exact h.exact
  placed := h.placed.of_eq hm.sameCaptures (fun s => by rw [hm.scope]) hm.size
    (fun e => by rw [hm.env]; exact ⟨rfl, rfl, rfl, rfl⟩) fun c => by rw [hm.closure]
  host c e he := by
    rw [hm.closure] at he
    rw [hm.isLiveReference, ancestors_of_shape hm.shape, hm.closure, hm.env]
    exact h.host c e he
  env_closures e c := by
    rw [hm.env, hm.closure]
    exact h.env_closures e c
  removed e he := by
    rw [hm.env] at he ⊢
    exact h.removed e he

theorem seated_of_unhosted (hx : g.Exact m) (hp : g.Placed) (hu : g.Unhosted) : g.Seated m where
  exact := hx
  placed := hp
  host c e he := nomatch (hu.host c).symm.trans he
  env_closures e c := by simp [(hu.env e).2.1, hu.host c]
  removed e he := nomatch (hu.env e).2.2.symm.trans he

theorem nearestHost_spec (hp : g.Placed) (hh : g.nearestHost? (g.closure c) = some e) :
    (g.env e).isLiveReference = true ∧ (g.env e).scope ∈ g.ancestors (g.closure c).home := by
  obtain ⟨s, hs, hfound⟩ := List.exists_of_findSome?_eq_some hh
  obtain ⟨henv, hcond⟩ := Option.filter_eq_some_iff.mp hfound
  simp only [Bool.and_eq_true, Bool.not_eq_true', decide_eq_true_eq] at hcond
  obtain ⟨-, rfl, -⟩ := (hp.scope_env _ _).mp henv
  exact ⟨hp.isLiveReference_of_mem hcond.2 hcond.1, hs⟩

theorem closure_seat (g : Graph) (c : ClosureId) (e : EnvId) (d : ClosureId) :
    (g.seat c e).closure d = if c = d ∧ d < g.closures.size then
      { g.closure d with host := some e } else g.closure d :=
  closure_modifyClosure g c d _

theorem env_seat (g : Graph) (c : ClosureId) (e i : EnvId) : (g.seat c e).env i =
    if e = i ∧ i < g.envs.size then { g.env i with closures := (g.env i).closures ++ [c] }
    else g.env i :=
  env_modifyEnv (g.modifyClosure c _) e i _

theorem env_seat_fields (g : Graph) (c : ClosureId) (e i : EnvId) :
    ((g.seat c e).env i).scope = (g.env i).scope ∧ ((g.seat c e).env i).kind = (g.env i).kind ∧
      ((g.seat c e).env i).vars = (g.env i).vars ∧
      ((g.seat c e).env i).removed = (g.env i).removed := by
  rw [env_seat]
  split <;> exact ⟨rfl, rfl, rfl, rfl⟩

theorem isValue_seat (g : Graph) (c : ClosureId) (e i : EnvId) :
    ((g.seat c e).env i).isValue = (g.env i).isValue := by
  simp only [Environment.isValue, (g.env_seat_fields c e i).2.1]

theorem isLiveReference_seat (g : Graph) (c : ClosureId) (e i : EnvId) :
    ((g.seat c e).env i).isLiveReference = (g.env i).isLiveReference := by
  simp only [Environment.isLiveReference, isValue_seat, (g.env_seat_fields c e i).2.2.2]

theorem sameCaptures_seat (g : Graph) (c : ClosureId) (e : EnvId) :
    SameCaptures g (g.seat c e) := by
  have hproj {α : Type} (proj : Closure → α) (hproj : ∀ cl h, proj { cl with host := h } = proj cl)
      (d : ClosureId) : proj ((g.seat c e).closure d) = proj (g.closure d) := by
    rw [closure_seat]
    split
    · exact hproj _ _
    · rfl
  exact ⟨shape_modifyClosure g c (f := fun cl => { cl with host := some e }) fun _ => rfl,
    hproj _ fun _ _ => rfl, hproj _ fun _ _ => rfl, hproj _ fun _ _ => rfl⟩

/-- A closure without a host takes its seat. -/
theorem Seated.seat (h : g.Seated m) (hc : c < g.closures.size) (hfree : (g.closure c).host = none)
    (hh : g.nearestHost? (g.closure c) = some e) : (g.seat c e).Seated m := by
  obtain ⟨hlive, haround⟩ := nearestHost_spec h.placed hh
  have hcap := g.sameCaptures_seat c e
  have hfields := g.env_seat_fields c e
  constructor
  case exact => exact hcap.exact h.exact
  case placed =>
    refine h.placed.of_eq hcap (fun _ => rfl) (size_envs_modifyEnv _ _ _) hfields fun d => ?_
    rw [closure_seat]
    split <;> rfl
  case host =>
    intro d i hi
    rw [isLiveReference_seat, (hfields i).1, ancestors_of_shape hcap.shape,
      home_of_shape hcap.shape]
    rw [closure_seat] at hi
    split at hi
    · rename_i hcd
      obtain rfl := Option.some.inj hi
      exact hcd.1 ▸ ⟨hlive, haround⟩
    · exact h.host d i hi
  case env_closures =>
    intro i d
    have hhost : ((g.seat c e).closure d).host = if c = d then some e else (g.closure d).host := by
      rw [closure_seat]
      by_cases hcd : c = d
      · subst hcd
        simp [hc]
      · simp [hcd]
    rw [hhost, env_seat]
    by_cases hcd : c = d
    · subst hcd
      have hnot : c ∉ (g.env i).closures := fun hmem =>
        nomatch hfree.symm.trans ((h.env_closures i c).mp hmem)
      by_cases hei : e = i
      · subst hei
        simp [lt_of_isLiveReference hlive]
      · simp [hei, hnot]
    · rw [if_neg hcd, ← h.env_closures]
      split
      · simp [Ne.symm hcd]
      · rfl
  case removed =>
    intro i hi
    rw [(hfields i).2.2.1]
    exact h.removed i ((hfields i).2.2.2.symm.trans hi)

theorem modifyClosure_host_none (hfree : (g.closure c).host = none) :
    (g.modifyClosure c fun cl => { cl with host := none }) = g := by
  have hclosures : (g.closures.modify c fun cl => { cl with host := none }) = g.closures := by
    refine Array.ext (Array.size_modify ..) fun i hi hi' => ?_
    rw [Array.getElem_modify]
    split
    · rename_i hci
      subst hci
      have hget : g.closures[c] = g.closure c := by simp [closure, hi']
      rw [hget]
      exact congrArg (fun h => { g.closure c with host := h }) hfree.symm
    · rfl
  rw [modifyClosure, hclosures]

/-- Hosting a closure that has no host seats it and leaves the hosts of all others. -/
theorem Seated.hostClosure (h : g.Seated m) (hc : c < g.closures.size)
    (hfree : (g.closure c).host = none) : (g.hostClosure c).1.Seated m ∧
      (g.hostClosure c).1.closures.size = g.closures.size ∧
      ∀ d ≠ c, ((g.hostClosure c).1.closure d).host = (g.closure d).host := by
  cases hh : g.nearestHost? (g.closure c) with
  | none =>
    have heq : g.hostClosure c = (g, none) := by
      simp only [Graph.hostClosure, hh, modifyClosure_host_none hfree]
    rw [heq]
    exact ⟨h, rfl, fun _ _ => rfl⟩
  | some e =>
    have hmarks : Marks (g.seat c e) (g.hostClosure c).1 := by
      have hlink := marks_linkTargets (g.seat c e).envs.size e ((g.seat c e).targets c e)
        (g.seat c e)
      rw [hostClosure_of_some hh]
      split
      · rename_i heq
        rw [heq] at hlink
        exact hlink.trans (marks_linkReceiver _ c)
      · rename_i heq
        rw [heq] at hlink
        exact hlink
    refine ⟨(h.seat hc hfree hh).marks hmarks, ?_, fun d hd => ?_⟩
    · rw [hmarks.closures]
      exact size_closures_modifyClosure _ _ _
    · rw [hmarks.closure, closure_seat, if_neg fun hand => hd hand.1.symm]

/-- Hosting closures one after the other keeps all closures seated, and those not yet taken without
a host, whether or not it fails. -/
theorem Seated.hostClosures {n k : Nat} (h : g.Seated m) (hn : k + n ≤ g.closures.size)
    (hfree : ∀ d, k ≤ d → (g.closure d).host = none) :
    (Graph.hostClosures (List.range' k n) g).1.Seated m ∧
      (Graph.hostClosures (List.range' k n) g).1.closures.size = g.closures.size ∧
      ∀ d, k + n ≤ d → ((Graph.hostClosures (List.range' k n) g).1.closure d).host = none := by
  induction n generalizing k g with
  | zero => exact ⟨h, rfl, hfree⟩
  | succ n ih =>
    obtain ⟨hseated, hsize, hsame⟩ := h.hostClosure (c := k) (by lia) (hfree k (Nat.le_refl k))
    have hfree' (d : ClosureId) (hd : k + 1 ≤ d) :
        ((g.hostClosure k).1.closure d).host = none := by
      rw [hsame d (by lia)]
      exact hfree d (by lia)
    rw [List.range'_succ, Graph.hostClosures]
    split
    · rename_i heq
      rw [heq] at hseated hsize hfree'
      obtain ⟨hseated, hsize', hrest⟩ := ih hseated (by rw [hsize]; lia) hfree'
      exact ⟨hseated, hsize'.trans hsize, fun d hd => hrest d (by lia)⟩
    · rename_i heq
      rw [heq] at hseated hsize hfree'
      exact ⟨hseated, hsize, fun d hd => hfree' d (by lia)⟩

/-- Closures are seated after hosting, whether or not it fails. -/
theorem Seated.assignHosts (h : g.Seated m) (hu : g.Unhosted) : g.assignHosts.1.Seated m := by
  rw [Graph.assignHosts, List.range_eq_range']
  exact (h.hostClosures (Nat.le_of_eq (Nat.zero_add _)) fun d _ => hu.host d).1

/-! ## Removing an environment -/

/-- The graph `g'` comes from `g` by removing environment `r`. -/
structure Pruned (r : EnvId) (g g' : Graph) : Prop where
  captures : SameCaptures g g'
  size_envs : g'.envs.size = g.envs.size
  scope_env : ∀ s, (g'.scope s).env = if s = (g.env r).scope then none else (g.scope s).env
  env : ∀ e, g'.env e = if e = r then { g.env r with removed := true, closures := [] } else g.env e
  envs : ∀ c, (g'.closure c).envs = (g.closure c).envs.erase r
  host : ∀ c, (g'.closure c).host =
    if (g.closure c).host = some r then none else (g.closure c).host
  /-- A value goes only if its readers have no host. -/
  unread : (g.env r).isValue = true → ∀ c, r ∈ (g.closure c).envs → (g.closure c).host = none

theorem closure_unhost (g : Graph) (cs : List ClosureId) (c : ClosureId) :
    (g.unhost cs).closure c =
      if c ∈ cs then { g.closure c with host := none } else g.closure c := by
  induction cs generalizing g with
  | nil => simp [unhost]
  | cons d cs ih =>
    have hstep : g.unhost (d :: cs) =
        (g.modifyClosure d fun cl => { cl with host := none }).unhost cs := rfl
    rw [hstep, ih, closure_modifyClosure]
    by_cases hcd : c = d
    · subst hcd
      by_cases hc : c < g.closures.size
      · simp [hc]
      · have hdefault : ({ g.closure c with host := none } : Closure) = g.closure c := by
          rw [closure_of_le (Nat.le_of_not_lt hc)]
          rfl
        simp [hc, hdefault]
    · simp [hcd, Ne.symm hcd]

theorem unhost_eq (g : Graph) (cs : List ClosureId) :
    (g.unhost cs).body = g.body ∧ (g.unhost cs).scopes = g.scopes ∧ (g.unhost cs).envs = g.envs ∧
      (g.unhost cs).closures.size = g.closures.size := by
  induction cs generalizing g with
  | nil => exact ⟨rfl, rfl, rfl, rfl⟩
  | cons d cs ih =>
    obtain ⟨hb, hs, he, hc⟩ := ih (g.modifyClosure d fun cl => { cl with host := none })
    exact ⟨hb, hs, he, hc.trans (size_closures_modifyClosure _ _ _)⟩

theorem closure_detachEnv (g : Graph) (r : EnvId) (c : ClosureId) :
    (g.detachEnv r).closure c = { g.closure c with envs := (g.closure c).envs.erase r } := by
  by_cases hc : c < g.closures.size
  · simp [detachEnv, closure, hc, modifyEnv, modifyScope]
  · rw [closure_of_le (Nat.le_of_not_lt hc), closure_of_le]
    · rfl
    · simpa [detachEnv, modifyEnv, modifyScope] using hc

theorem env_detachEnv (hr : r < g.envs.size) (e : EnvId) : (g.detachEnv r).env e =
    if e = r then { g.env r with removed := true, closures := [] } else g.env e := by
  change (g.modifyEnv r _).env e = _
  rw [env_modifyEnv]
  by_cases he : e = r
  · subst he
    simp [hr]
  · simp [he, Ne.symm he]

theorem scope_detachEnv (g : Graph) (r : EnvId) (s : ScopeId) : (g.detachEnv r).scope s =
    if (g.env r).scope = s ∧ s < g.scopes.size then { g.scope s with env := none }
    else g.scope s := by
  change ((g.modifyEnv r _).modifyScope _ _).scope s = _
  rw [scope_modifyScope]
  rfl

theorem shape_detachEnv (g : Graph) (r : EnvId) : (g.detachEnv r).shape = g.shape := by
  refine shape_of_entries rfl ?_ (fun s => ?_) ?_ fun c => ?_
  · simp [detachEnv, modifyEnv, modifyScope]
  · rw [scope_detachEnv]
    split <;> rfl
  · simp [detachEnv, modifyEnv, modifyScope]
  · rw [closure_detachEnv]
    rfl

theorem shape_unhost (g : Graph) (cs : List ClosureId) : (g.unhost cs).shape = g.shape := by
  obtain ⟨hb, hs, -, hc⟩ := g.unhost_eq cs
  refine shape_of_entries hb (by rw [hs]) (fun s => by rw [scope, hs, scope]) hc fun c => ?_
  rw [closure_unhost]
  split <;> rfl

/-- Detaching an environment whose hosted closures have lost their host. -/
theorem pruned_detachEnv (cs : List ClosureId) (hr : r < g.envs.size)
    (hcs : ∀ c, c ∈ cs ↔ (g.closure c).host = some r)
    (hunread : (g.env r).isValue = true → ∀ c, r ∈ (g.closure c).envs →
      (g.closure c).host = none) : Pruned r g ((g.unhost cs).detachEnv r) := by
  obtain ⟨-, hs, he, -⟩ := g.unhost_eq cs
  have henv (e : EnvId) : (g.unhost cs).env e = g.env e := by rw [env, he, env]
  have hscope (s : ScopeId) : (g.unhost cs).scope s = g.scope s := by rw [scope, hs, scope]
  have hproj {α : Type} (proj : Closure → α) (hproj : ∀ cl es h,
      proj { cl with envs := es, host := h } = proj cl) (c : ClosureId) :
      proj (((g.unhost cs).detachEnv r).closure c) = proj (g.closure c) := by
    rw [closure_detachEnv, closure_unhost]
    split
    · exact hproj (g.closure c) _ none
    · exact hproj (g.closure c) _ (g.closure c).host
  refine ⟨⟨(shape_detachEnv _ r).trans (g.shape_unhost cs),
    fun c => hproj _ (fun _ _ _ => rfl) c, fun c => hproj _ (fun _ _ _ => rfl) c,
    fun c => hproj _ (fun _ _ _ => rfl) c⟩, ?_, fun s => ?_, fun e => ?_, fun c => ?_,
    fun c => ?_, hunread⟩
  · simp [detachEnv, modifyEnv, modifyScope, he]
  · rw [scope_detachEnv, henv, hscope, show (g.unhost cs).scopes.size = g.scopes.size by rw [hs]]
    by_cases hrs : s = (g.env r).scope
    · by_cases hlt : s < g.scopes.size
      · rw [if_pos ⟨hrs.symm, hlt⟩, if_pos hrs]
      · rw [if_neg (fun hc => hlt hc.2), if_pos hrs, scope_of_le (Nat.le_of_not_lt hlt)]
        rfl
    · rw [if_neg (fun hc => hrs hc.1.symm), if_neg hrs]
  · rw [env_detachEnv (by rwa [he]), henv, henv]
  · rw [closure_detachEnv, closure_unhost]
    split <;> rfl
  · rw [closure_detachEnv, closure_unhost]
    by_cases hc : (g.closure c).host = some r
    · rw [if_pos ((hcs c).mpr hc), if_pos hc]
    · rw [if_neg (fun hmem => hc ((hcs c).mp hmem)), if_neg hc]

namespace Pruned

variable (hpr : Pruned r g g')

include hpr

theorem env_fields (e : EnvId) : (g'.env e).scope = (g.env e).scope ∧
    (g'.env e).kind = (g.env e).kind ∧ (g'.env e).vars = (g.env e).vars ∧
    (g'.env e).needsParent = (g.env e).needsParent := by
  rw [hpr.env]
  split
  · rename_i he
    rw [he]
    exact ⟨rfl, rfl, rfl, rfl⟩
  · exact ⟨rfl, rfl, rfl, rfl⟩

theorem removed_eq_false (e : EnvId) :
    (g'.env e).removed = false ↔ e ≠ r ∧ (g.env e).removed = false := by
  rw [hpr.env]
  by_cases he : e = r <;> simp [he]

theorem isValue (e : EnvId) : (g'.env e).isValue = (g.env e).isValue := by
  simp only [Environment.isValue, (hpr.env_fields e).2.1]

theorem mem_envs (c : ClosureId) (e : EnvId) :
    e ∈ (g'.closure c).envs ↔ e ≠ r ∧ e ∈ (g.closure c).envs := by
  rw [hpr.envs, OrderedSet.mem_erase]

theorem host_eq_some (c : ClosureId) (e : EnvId) :
    (g'.closure c).host = some e ↔ e ≠ r ∧ (g.closure c).host = some e := by
  rw [hpr.host]
  by_cases hc : (g.closure c).host = some r
  · simp only [hc, if_true, Option.some.injEq]
    exact ⟨(nomatch ·), fun hn => absurd hn.2.symm hn.1⟩
  · rw [if_neg hc]
    refine ⟨fun he => ⟨?_, he⟩, And.right⟩
    rintro rfl
    exact hc he

theorem placed (hp : g.Placed) (hr : r < g.envs.size) : g'.Placed where
  scope_env s e := by
    rw [hpr.scope_env, hpr.size_envs, (hpr.env_fields e).1, hpr.removed_eq_false]
    split
    · rename_i hs
      refine ⟨(nomatch ·), ?_⟩
      rintro ⟨he, hse, hne, -⟩
      exact absurd (hp.scope_inj he hr (hse.trans hs)) hne
    · rename_i hs
      rw [hp.scope_env]
      refine and_congr_right fun he => and_congr_right fun hse => ?_
      refine ⟨fun hrem => ⟨?_, hrem⟩, And.right⟩
      rintro rfl
      exact hs hse.symm
  vars e he := by
    rw [(hpr.env_fields e).1, (hpr.env_fields e).2.2.1, hpr.captures.hoistedVariables]
    exact hp.vars e (hpr.size_envs ▸ he)
  kind e he := by
    rw [(hpr.env_fields e).2.1, (hpr.env_fields e).2.2.1, hpr.captures.envKindFor]
    exact hp.kind e (hpr.size_envs ▸ he)
  nonempty e he := by
    rw [(hpr.env_fields e).1, hpr.captures.hoistedVariables]
    exact hp.nonempty e (hpr.size_envs ▸ he)
  hoisted s hs := by
    rw [hpr.captures.hoistedVariables] at hs
    obtain ⟨e, he, heq⟩ := hp.hoisted s hs
    exact ⟨e, hpr.size_envs ▸ he, (hpr.env_fields e).1.trans heq⟩
  ordered d e hde he := by
    rw [(hpr.env_fields d).1, (hpr.env_fields e).1]
    exact hp.ordered d e hde (hpr.size_envs ▸ he)
  closure_envs c e := by
    rw [hpr.mem_envs, hp.closure_envs, hpr.size_envs, hpr.removed_eq_false,
      (hpr.env_fields e).2.2.1, hpr.captures.readsAny]
    constructor
    · rintro ⟨hne, he, hrem, hreads⟩
      exact ⟨he, ⟨hne, hrem⟩, hreads⟩
    · rintro ⟨he, ⟨hne, hrem⟩, hreads⟩
      exact ⟨hne, he, hrem, hreads⟩

end Pruned

/-! ## Pruning -/

theorem Pruned.seated (hpr : Pruned r g g') (h : g.Seated m) (hr : r < g.envs.size)
    (hv : ∀ v ∈ (g.env r).vars, v.isReceiver = true) : g'.Seated m where
  exact := hpr.captures.exact h.exact
  placed := hpr.placed h.placed hr
  host c e he := by
    obtain ⟨hne, he⟩ := (hpr.host_eq_some c e).mp he
    rw [(hpr.env_fields e).1, ancestors_of_shape hpr.captures.shape,
      home_of_shape hpr.captures.shape, hpr.env, if_neg hne]
    exact h.host c e he
  env_closures e c := by
    rw [hpr.host_eq_some, hpr.env, ← h.env_closures]
    by_cases he : e = r <;> simp [he]
  removed e he := by
    rw [(hpr.env_fields e).2.2.1]
    by_cases her : e = r
    · exact her ▸ hv
    · rw [hpr.env, if_neg her] at he
      exact h.removed e he

/-- What can be removed is a live environment whose only variable has the role of the receiver. -/
theorem Seated.pruned_of_pruneEnv (h : g.Seated m) (hp : g.pruneEnv? r = some g') :
    r < g.envs.size ∧ (g.env r).removed = false ∧
      (∃ v, (g.env r).vars.toList = [v] ∧ v.isReceiver = true) ∧ Pruned r g g' := by
  rw [pruneEnv?] at hp
  split at hp
  · exact nomatch hp
  rename_i hcond
  simp only [Bool.or_eq_true, Bool.not_eq_true', not_or, Bool.not_eq_true, Bool.not_eq_false]
    at hcond
  obtain ⟨hlive, honly⟩ := hcond
  obtain ⟨v, hvars, hv⟩ : ∃ v, (g.env r).vars.toList = [v] ∧ v.isReceiver = true := by
    rw [Environment.isReceiverOnly] at honly
    split at honly
    · exact ⟨_, ‹_›, honly⟩
    · exact nomatch honly
  have hlt : r < g.envs.size := by
    by_contra hlt
    rw [env_of_le (Nat.le_of_not_lt hlt)] at hvars
    exact nomatch hvars
  refine ⟨hlt, hlive, ⟨v, hvars, hv⟩, ?_⟩
  split at hp
  · -- a value hosts no closure
    rename_i hk
    split at hp
    · exact nomatch hp
    rename_i hany
    rw [← Option.some.inj hp]
    refine pruned_detachEnv [] hlt (fun c => ?_) fun _ c hread => ?_
    · refine ⟨fun hn => absurd hn List.not_mem_nil, fun hhost => ?_⟩
      exact nomatch hk.symm.trans (isValue_of_isLiveReference (h.host c r hhost).1)
    · by_contra hhost
      refine hany ((g.closures_any _).mpr ⟨c, lt_of_mem_envs hread, ?_⟩)
      simp [hread, Option.isSome_iff_ne_none, hhost]
  · rename_i hk
    rw [← Option.some.inj hp]
    exact pruned_detachEnv _ hlt (fun c => h.env_closures r c) fun hk' => absurd hk' hk

theorem Seated.sweep (h : g.Seated m) (es : List EnvId) (n : Nat) :
    (sweep es (g, n)).1.Seated m := by
  induction es generalizing g n with
  | nil => exact h
  | cons e es ih =>
    cases hp : g.pruneEnv? e with
    | none =>
      rw [Graph.sweep, hp]
      exact ih h n
    | some g' =>
      rw [Graph.sweep, hp]
      obtain ⟨hlt, -, ⟨v, hvars, hv⟩, hpr⟩ := h.pruned_of_pruneEnv hp
      refine ih (hpr.seated h hlt fun w hw => ?_) (n + 1)
      rw [OrderedSet.mem_def, hvars, List.mem_singleton] at hw
      exact hw ▸ hv

theorem Seated.sweeps (h : g.Seated m) (fuel n : Nat) : (sweeps fuel (g, n)).1.Seated m := by
  induction fuel generalizing g n with
  | zero => exact h
  | succ fuel ih =>
    have hsweep := h.sweep (List.range g.envs.size) n
    simp only [Graph.sweeps]
    split
    · exact hsweep
    · exact ih hsweep _

/-- Closures are seated after pruning. -/
theorem Seated.prune (h : g.Seated m) : g.prune.1.Seated m := h.sweeps _ 0

end Graph

end Unnest
