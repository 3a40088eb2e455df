import Mathlib.Data.List.Sort
import Unnest.Proofs.Environments.Chain

/-!
# Links are set exactly where they are needed

A parent link costs a field and keeps its target alive, so it should be set only where a closure
passes. Closures are linked one after the other, and each follows links that depend on the hosts of
the closures around it. These come before it, so a closure that is hosted later changes nothing
about the ways of those before: what a closure passes can be read off the final graph.

`Graph.Marked` says of a graph that its links are those its closures need, and that an environment
lists its closures in their order. Hosting a closure keeps it, and so does the whole run.

## Main statements

* `Graph.Seated.needsParent_linkTargets` : which links are set on the way to the targets.
* `Graph.Marked.hostClosure` : one closure.
* `Graph.Marked.hostClosures` : all closures.
* `MethodBody.marks_exact` : links after hosting an accepted body.
-/

namespace Unnest

namespace Graph

open Relation

variable {g g' : Graph} {m : MethodBody} {c k : ClosureId} {a e p t : EnvId}

/-! ## Ways along parent links -/

/-- The parent link of `a` leads to `b`, if it is set. -/
def Parent (g : Graph) (a b : EnvId) : Prop := g.runtimeParent? a = some b

/-- Environment `a` lies on the way from `e` to `t`, before its end. -/
def OnWay (g : Graph) (e a t : EnvId) : Prop :=
  ReflTransGen g.Parent e a ∧ ReflTransGen g.Parent a t ∧ a ≠ t

/-- A way goes on from the environment that its first link leads to. -/
theorem onWay_of_parent (hp : g.Parent e p) (hne : a ≠ e) : g.OnWay e a t ↔ g.OnWay p a t := by
  constructor
  · rintro ⟨hea, hat, hat'⟩
    obtain rfl | ⟨q, hq, hqa⟩ := hea.cases_head
    · exact absurd rfl hne
    · obtain rfl : p = q := Option.some.inj (hp.symm.trans hq)
      exact ⟨hqa, hat, hat'⟩
  · rintro ⟨hpa, hat, hat'⟩
    exact ⟨.head hp hpa, hat, hat'⟩

theorem Marks.parent (h : Marks g g') : g'.Parent = g.Parent := by
  funext a b
  rw [Parent, Parent, h.runtimeParent]

theorem Marks.onWay (h : Marks g g') : g'.OnWay e a t ↔ g.OnWay e a t := by
  rw [OnWay, OnWay, h.parent]

namespace Seated

variable (h : g.Seated m)

include h

/-- A way leads outwards. -/
theorem scope_mem_ancestors (hpath : ReflTransGen g.Parent e a) :
    (g.env a).scope ∈ g.ancestors (g.env e).scope := by
  induction hpath with
  | refl => exact g.self_mem_ancestors _
  | tail _ hp ih => exact mem_ancestors_trans (h.surroundingEnv_spec hp).2.1 ih

theorem eq_of_reaches (hea : ReflTransGen g.Parent e a) (hae : ReflTransGen g.Parent a e) :
    a = e := by
  obtain rfl | ⟨p, hp, hpe⟩ := hae.cases_head
  · rfl
  · have hlt := (h.surroundingEnv_spec hp).2.2
    have hle := le_of_mem_ancestors (h.scope_mem_ancestors hpe)
    have hle' := le_of_mem_ancestors (h.scope_mem_ancestors hea)
    exact absurd (Nat.lt_of_le_of_lt (Nat.le_trans hle' hle) hlt) (Nat.lt_irrefl _)

/-- A way back to its start passes nothing. -/
theorem not_onWay_self : ¬ g.OnWay e a e := by
  rintro ⟨hea, hae, hne⟩
  exact hne (h.eq_of_reaches hea hae)

section Agree

variable (hsame : ∀ a, (g.env a).scope ∈ g.ancestors (g.env e).scope →
  g'.runtimeParent? a = g.runtimeParent? a)

include hsame

/-- Graphs with the same links outside `e` have the same ways from `e`. -/
theorem reaches_iff : ReflTransGen g'.Parent e a ↔ ReflTransGen g.Parent e a := by
  constructor
  · intro hpath
    induction hpath with
    | refl => exact .refl
    | tail _ hp ih => exact ih.tail ((hsame _ (h.scope_mem_ancestors ih)).symm.trans hp)
  · intro hpath
    induction hpath with
    | refl => exact .refl
    | tail hpath hp ih => exact ih.tail ((hsame _ (h.scope_mem_ancestors hpath)).trans hp)

theorem onWay_iff : g'.OnWay e a t ↔ g.OnWay e a t := by
  rw [OnWay, OnWay, h.reaches_iff hsame]
  refine and_congr_right fun hea => and_congr_left fun _ => ?_
  refine h.reaches_iff fun b hb => hsame b ?_
  exact mem_ancestors_trans hb (h.scope_mem_ancestors hea)

end Agree

end Seated

/-! ## Linking one closure -/

/-- Where no target is left, all of them were on the way, and the links up to the last one are
set. -/
theorem Seated.needsParent_linkTargets {fuel : Nat} {targets : List EnvId} (h : g.Seated m)
    (he : e < g.envs.size) (hne : ∀ t ∈ targets, t ≠ e)
    (hrun : linkTargets fuel e targets g = (g', [])) :
    (∀ t ∈ targets, ReflTransGen g.Parent e t) ∧ ∀ a, (g'.env a).needsParent = true ↔
      (g.env a).needsParent = true ∨ ∃ t ∈ targets, g.OnWay e a t := by
  induction fuel generalizing g e targets with
  | zero =>
    cases targets with
    | nil =>
      cases hrun
      simp
    | cons t ts => cases hrun
  | succ fuel ih =>
    cases targets with
    | nil =>
      cases hrun
      simp
    | cons t ts =>
      have hmark := Marks.mark g e
      simp only [linkTargets] at hrun
      split at hrun
      · rename_i p hp
        have hparent : g.Parent e p := (hmark.runtimeParent e).symm.trans hp
        have hlt := lt_of_isLiveReference (h.surroundingEnv_spec hparent).1
        obtain ⟨hreach, hmarked⟩ := ih (h.marks hmark) (hmark.size ▸ hlt)
          (fun t' ht' => by simpa using (List.mem_filter.mp ht').2) hrun
        rw [hmark.parent] at hreach
        have hall : ∀ t' ∈ t :: ts, ReflTransGen g.Parent e t' := by
          intro t' ht'
          by_cases htp : t' = p
          · exact htp ▸ .single hparent
          · exact .head hparent (hreach t' (List.mem_filter.mpr ⟨ht', by simpa using htp⟩))
        refine ⟨hall, fun a => ?_⟩
        rw [hmarked a, env_modifyEnv]
        by_cases hae : a = e
        · -- the link set in this turn, which leads to the first target
          subst hae
          have hway : g.OnWay a a t := ⟨.refl, hall t List.mem_cons_self,
            (hne t List.mem_cons_self).symm⟩
          simp only [he, and_self, if_true, true_or, true_iff]
          exact .inr ⟨t, List.mem_cons_self, hway⟩
        · rw [if_neg fun hand => hae hand.1.symm]
          refine or_congr_right (exists_congr fun t' => ?_)
          rw [hmark.onWay, List.mem_filter, onWay_of_parent hparent hae]
          constructor
          · rintro ⟨⟨ht', -⟩, hway⟩
            exact ⟨ht', hway⟩
          · rintro ⟨ht', hway⟩
            refine ⟨⟨ht', ?_⟩, hway⟩
            rw [decide_eq_true_iff]
            rintro rfl
            exact h.not_onWay_self hway
      · cases hrun

/-! ## What closures need -/

/-- Closure `c` passes environment `a` on the way from its host to another heap environment it reads
from. -/
def Passes (g : Graph) (c : ClosureId) (a : EnvId) : Prop :=
  ∃ e t, (g.closure c).host = some e ∧ t ∈ (g.closure c).envs ∧ (g.env t).isValue = false ∧
    t ≠ e ∧ g.OnWay e a t

/-- Closure `c` reaches the receiver through environment `a`, which holds it on the heap. -/
def ReceivesFrom (g : Graph) (c : ClosureId) (a : EnvId) : Prop :=
  (g.closure c).capturesReceiver = true ∧ g.receiverEnv? = some a ∧ (g.env a).isValue = false

/-- Closure `c` has a host and needs the parent link of environment `a`. -/
def Needs (g : Graph) (c : ClosureId) (a : EnvId) : Prop :=
  g.Passes c a ∨ (g.closure c).host.isSome = true ∧ g.ReceivesFrom c a

theorem not_needs_of_unhosted (hfree : (g.closure c).host = none) : ¬ g.Needs c a := by
  rintro (⟨e, t, he, -⟩ | ⟨he, -⟩)
  · exact nomatch hfree.symm.trans he
  · simp [hfree] at he

/-- A closure needs the links on the way to its targets, and that to the receiver. -/
theorem needs_iff (he : (g.closure c).host = some e) :
    g.Needs c a ↔ (∃ t ∈ g.targets c e, g.OnWay e a t) ∨ g.ReceivesFrom c a := by
  rw [Needs, Passes, he]
  refine or_congr ?_ (and_iff_right rfl)
  constructor
  · rintro ⟨e', t, he', ht, hk, hne, hway⟩
    obtain rfl := Option.some.inj he'
    exact ⟨t, List.mem_filter.mpr ⟨ht, by simp [hne, hk]⟩, hway⟩
  · rintro ⟨t, ht, hway⟩
    obtain ⟨ht, hcond⟩ := List.mem_filter.mp ht
    simp only [Bool.and_eq_true, decide_eq_true_eq, Bool.not_eq_true'] at hcond
    exact ⟨e, t, rfl, ht, hcond.2, hcond.1, hway⟩

theorem Marks.receiverEnv (h : Marks g g') : g'.receiverEnv? = g.receiverEnv? :=
  receiverEnv_congr h.shape (fun s => by rw [h.scope]) fun e => by
    rw [h.env]
    exact ⟨rfl, rfl⟩

theorem Marks.isValue (h : Marks g g') (e : EnvId) : (g'.env e).isValue = (g.env e).isValue := by
  rw [h.env]
  rfl

theorem Marks.receivesFrom (h : Marks g g') : g'.ReceivesFrom c a ↔ g.ReceivesFrom c a := by
  rw [ReceivesFrom, ReceivesFrom, h.closure, h.receiverEnv, h.isValue]

/-- Links that are set do not matter to what closures need. -/
theorem Marks.needs (h : Marks g g') : g'.Needs c a ↔ g.Needs c a := by
  simp only [Needs, Passes, h.receivesFrom, h.closure, h.isValue, h.onWay]

/-- A closure that takes its seat changes nothing for those before it. -/
theorem Seated.needs_seat (h : g.Seated m) (hc : c < k) (hk : k < g.closures.size) (e : EnvId) :
    (g.seat k e).Needs c a ↔ g.Needs c a := by
  have hcap := g.sameCaptures_seat k e
  have hclosure : (g.seat k e).closure c = g.closure c := by
    rw [closure_seat, if_neg fun hand => Nat.ne_of_gt hc hand.1]
  have hfields := g.env_seat_fields k e
  have hreceiver : (g.seat k e).ReceivesFrom c a ↔ g.ReceivesFrom c a := by
    have henv : (g.seat k e).receiverEnv? = g.receiverEnv? :=
      receiverEnv_congr hcap.shape (fun _ => rfl) fun i => (hfields i).2.2
    rw [ReceivesFrom, ReceivesFrom, hclosure, henv, isValue_seat]
  have hway {i t : EnvId} (hi : (g.closure c).host = some i) :
      (g.seat k e).OnWay i a t ↔ g.OnWay i a t := by
    refine h.onWay_iff fun b hb => ?_
    refine runtimeParent_congr h.exact.holds hcap.shape (fun _ => rfl)
      (fun j => ⟨(hfields j).1, g.isLiveReference_seat k e j⟩) fun d hd hbody => ?_
    -- the closures on the way come before `c`
    have haround := mem_ancestors_trans (mem_ancestors_trans hbody hb) (h.host c i hi).2
    have hdc := h.exact.holds.lt_of_body_mem (Nat.lt_trans hc hk) hd haround
    rw [closure_seat, if_neg fun hand => Nat.ne_of_gt (Nat.lt_trans hdc hc) hand.1]
  rw [Needs, Needs, Passes, Passes, hreceiver, hclosure]
  refine or_congr_left (exists_congr fun i => exists_congr fun t => ?_)
  rw [isValue_seat]
  refine and_congr_right fun hi => ?_
  rw [hway hi]

/-- With a closure that takes its seat, only what it needs itself is new. -/
theorem Seated.exists_needs_seat (h : g.Seated m) (hk : k < g.closures.size)
    (hfree : ∀ d, k ≤ d → (g.closure d).host = none) (e : EnvId) :
    (∃ c, (g.seat k e).Needs c a) ↔ (∃ c, g.Needs c a) ∨ (g.seat k e).Needs k a := by
  have hother (c : ClosureId) (hc : c ≠ k) : (g.seat k e).Needs c a ↔ g.Needs c a := by
    rcases Nat.lt_or_gt_of_ne hc with hlt | hlt
    · exact h.needs_seat hlt hk e
    · have hnone := hfree c (Nat.le_of_lt hlt)
      refine iff_of_false (not_needs_of_unhosted ?_) (not_needs_of_unhosted hnone)
      rw [closure_seat, if_neg fun hand => hc hand.1.symm, hnone]
  constructor
  · rintro ⟨c, hc⟩
    by_cases hck : c = k
    · exact .inr (hck ▸ hc)
    · exact .inl ⟨c, (hother c hck).mp hc⟩
  · rintro (⟨c, hc⟩ | hc)
    · refine ⟨c, (hother c ?_).mpr hc⟩
      rintro rfl
      exact not_needs_of_unhosted (hfree c (Nat.le_refl c)) hc
    · exact ⟨k, hc⟩

/-! ## All closures -/

/-- The links that are set are those that closures need, and an environment lists its closures in
their order. -/
structure Marked (g : Graph) : Prop where
  needsParent : ∀ a, (g.env a).needsParent = true ↔ ∃ c, g.Needs c a
  sorted : ∀ a, (g.env a).closures.Pairwise (· < ·)

namespace Marked

theorem of_unhosted (hu : g.Unhosted) : g.Marked where
  needsParent a := by
    rw [(hu.env a).1]
    simp [not_needs_of_unhosted (hu.host _)]
  sorted a := by
    rw [(hu.env a).2.1]
    exact .nil

/-- Hosting a closure sets the links that it needs. -/
theorem hostClosure (hm : g.Marked) (h : g.Seated m) (hk : k < g.closures.size)
    (hfree : ∀ d, k ≤ d → (g.closure d).host = none) (hrun : g.hostClosure k = (g', none)) :
    g'.Marked := by
  cases hh : g.nearestHost? (g.closure k) with
  | none =>
    simp only [Graph.hostClosure, hh, modifyClosure_host_none (hfree k (Nat.le_refl k)),
      Prod.mk.injEq, and_true] at hrun
    exact hrun ▸ hm
  | some e =>
    have hseat := h.seat hk (hfree k (Nat.le_refl k)) hh
    have he : e < (g.seat k e).envs.size := by
      rw [seat, size_envs_modifyEnv]
      exact lt_of_isLiveReference (nearestHost_spec h.placed hh).1
    have hhost : ((g.seat k e).closure k).host = some e := by
      rw [closure_seat, if_pos ⟨rfl, hk⟩]
    obtain ⟨g₁, hlink, rfl⟩ := linkTargets_of_hostClosure hh hrun
    have hmarks : Marks (g.seat k e) g₁ := by
      have := marks_linkTargets (g.seat k e).envs.size e ((g.seat k e).targets k e) (g.seat k e)
      rwa [hlink] at this
    have hall := hmarks.trans (marks_linkReceiver g₁ k)
    obtain ⟨-, hlinked⟩ := hseat.needsParent_linkTargets he
      (fun t ht => by simpa using (Bool.and_eq_true_iff.mp (List.mem_filter.mp ht).2).1) hlink
    constructor
    case needsParent =>
      intro a
      have hbefore : ((g.seat k e).env a).needsParent = (g.env a).needsParent := by
        rw [env_seat]
        split <;> rfl
      -- the links to the targets, and then the one to the receiver
      have hnew : (∃ t ∈ (g.seat k e).targets k e, (g.seat k e).OnWay e a t) ∨
          g₁.ReceivesFrom k a ↔ (g.seat k e).Needs k a := by
        rw [hmarks.receivesFrom, needs_iff hhost]
      rw [needsParent_linkReceiver, hlinked a, hbefore, hm.needsParent a, or_assoc]
      refine (or_congr_right hnew).trans ?_
      rw [← h.exists_needs_seat hk hfree]
      exact exists_congr fun c => hall.needs.symm
    case sorted =>
      intro a
      rw [hall.env, env_seat]
      split
      · refine List.pairwise_append.mpr ⟨hm.sorted a, List.pairwise_singleton _ _, ?_⟩
        intro c hc d hd
        obtain rfl := List.mem_singleton.mp hd
        by_contra hlt
        cases (hfree c (Nat.le_of_not_lt hlt)).symm.trans ((h.env_closures a c).mp hc)
      · exact hm.sorted a

/-- So does hosting all closures, one after the other. -/
theorem hostClosures {n : Nat} (hm : g.Marked) (h : g.Seated m) (hn : k + n ≤ g.closures.size)
    (hfree : ∀ d, k ≤ d → (g.closure d).host = none)
    (hrun : hostClosures (List.range' k n) g = (g', none)) : g'.Marked := by
  induction n generalizing k g with
  | zero =>
    cases hrun
    exact hm
  | succ n ih =>
    have hk : k < g.closures.size := by lia
    obtain ⟨hseated, hsize, hsame⟩ := h.hostClosure hk (hfree k (Nat.le_refl k))
    rw [List.range'_succ, Graph.hostClosures] at hrun
    split at hrun
    · rename_i g₁ heq
      rw [heq] at hseated hsize hsame
      refine ih (hm.hostClosure h hk hfree heq) hseated (by rw [hsize]; lia) (fun d hd => ?_) hrun
      rw [hsame d (by lia)]
      exact hfree d (by lia)
    · cases (Prod.mk.inj hrun).2

theorem assignHosts (h : g.Seated m) (hu : g.Unhosted) (hrun : g.assignHosts = (g', none)) :
    g'.Marked := by
  rw [Graph.assignHosts, List.range_eq_range'] at hrun
  exact (of_unhosted hu).hostClosures h (Nat.le_of_eq (Nat.zero_add _)) (fun d _ => hu.host d) hrun

end Marked

/-- An environment lists exactly the closures on it, in their order. -/
theorem Marked.closures_eq (hm : g.Marked) (h : g.Seated m) (e : EnvId) : (g.env e).closures =
    (List.range g.closures.size).filter fun c => (g.closure c).host = some e := by
  refine (hm.sorted e).eq_of_mem_iff (List.pairwise_lt_range.filter _) fun c => ?_
  rw [h.env_closures, List.mem_filter, decide_eq_true_iff, List.mem_range]
  refine ⟨fun hc => ⟨?_, hc⟩, And.right⟩
  by_contra hlt
  rw [closure_of_le (Nat.le_of_not_lt hlt)] at hc
  exact nomatch hc

/-- A value hosts no closure. -/
theorem Seated.closures_of_isValue (h : g.Seated m) (hk : (g.env e).isValue = true) :
    (g.env e).closures = [] := by
  refine List.eq_nil_iff_forall_not_mem.mpr fun c hc => ?_
  have hlive := (h.host c e ((h.env_closures e c).mp hc)).1
  exact nomatch hk.symm.trans (isValue_of_isLiveReference hlive)

/-- A closure that captures a receiver on the heap has a host. -/
theorem Chained.exists_host (h : g.Chained m) (hcalls : m.CallsInScope)
    (hc : g.ReceivesFrom c a) : (g.closure c).host.isSome = true := by
  obtain ⟨hcaptures, hr, hk⟩ := hc
  obtain ⟨v, hv, hcap⟩ := (h.exact.capturesReceiver c).mp hcaptures
  obtain ⟨hlt, hrem, hva⟩ := (h.placed.receiverEnv_eq_some h.exact.holds hv).mp hr
  have hread : a ∈ (g.closure c).envs :=
    h.placed.mem_envs_iff.mpr ⟨hlt, hrem, v, ((h.placed.mem_vars_iff hlt).mp hva).1, hcap⟩
  obtain ⟨e, he⟩ := exists_nearestHost h.placed h.exact hcalls hread hk
  rw [h.host c (lt_of_mem_envs hread), he]
  rfl

end Graph

/-- In an accepted body whose functions are called and named where they are declared, hosting sets
the parent link of an environment exactly if a closure passes it on the way from its host to another
heap environment it reads from, or if it holds the receiver on the heap and a closure captures the
receiver. An environment lists exactly the closures on it, in their order, and a value has none. -/
theorem MethodBody.marks_exact {m : MethodBody} (h : m.Accepted) (hcalls : m.CallsInScope) :
    ∃ g g', m.captured.graph.allocate = .ok g ∧ g.assignHosts = (g', none) ∧
      (∀ e, (g'.env e).needsParent = true ↔ (∃ c, g'.Passes c e) ∨
        g'.receiverEnv? = some e ∧ (g'.env e).isValue = false ∧
          ∃ c, (g'.closure c).capturesReceiver = true) ∧
      ∀ e, (g'.env e).closures = ((List.range g'.closures.size).filter fun c =>
          (g'.closure c).host = some e) ∧
        ((g'.env e).isValue = true → (g'.env e).closures = []) := by
  obtain ⟨g, hg, hcap, hp, hu⟩ := Graph.placed_of_allocate h.analysed
  have hx := hcap.exact h.analysed.toExact
  obtain ⟨g', hrun, hhosted⟩ := Graph.assignHosts_eq hp hx hcalls hu
  have hchained := Graph.chained_of_hostedTo hp hx hu hhosted
  have hseated := hchained.seated hcalls
  have hmarked := Graph.Marked.assignHosts (Graph.seated_of_unhosted hx hp hu) hu hrun
  refine ⟨g, g', hg, hrun, fun e => ?_, fun e => ?_⟩
  · rw [hmarked.needsParent e]
    constructor
    · rintro ⟨c, hpasses | ⟨-, hcaptures, hr, hk⟩⟩
      · exact .inl ⟨c, hpasses⟩
      · exact .inr ⟨hr, hk, c, hcaptures⟩
    · rintro (⟨c, hpasses⟩ | ⟨hr, hk, c, hcaptures⟩)
      · exact ⟨c, .inl hpasses⟩
      · exact ⟨c, .inr ⟨hchained.exists_host hcalls ⟨hcaptures, hr, hk⟩, hcaptures, hr, hk⟩⟩
  · exact ⟨hmarked.closures_eq hseated e, hseated.closures_of_isValue⟩

open Counter in
/-- The environment of `next` hosts the lambda and is passed by it. The link of that of `Count` is
set as well, because the lambda captures the receiver. -/
theorem MethodBody.marks_count : count.Accepted ∧ count.CallsInScope ∧
    ∃ g g', count.captured.graph.allocate = .ok g ∧ g.assignHosts = (g', none) ∧
      (∃ c, g'.Passes c 1) ∧ (g'.env 1).closures = [1] ∧ (g'.env 0).needsParent = true := by
  have hcalls : count.CallsInScope := by decide +kernel
  obtain ⟨g, g', hg, hrun, hmarks, hclosures⟩ := marks_exact accepted_count hcalls
  have heval : (count.captured.graph.allocate.toOption.any fun g =>
      let g' := g.assignHosts.1
      decide ((g'.env 1).needsParent = true ∧ g'.receiverEnv? = some 0 ∧
        (g'.env 0).isValue = false ∧ (g'.closure 1).capturesReceiver = true ∧
        ((List.range g'.closures.size).filter fun c => (g'.closure c).host = some 1) = [1])) =
      true := by decide +kernel
  simp only [hg, Except.toOption, Option.any_some, decide_eq_true_eq, hrun] at heval
  obtain ⟨hset, hr, hk, hcaptures, hhosted⟩ := heval
  refine ⟨accepted_count, hcalls, g, g', hg, hrun, ?_, (hclosures 1).1.trans hhosted, ?_⟩
  · obtain hpasses | ⟨hr', -⟩ := (hmarks 1).mp hset
    · exact hpasses
    · exact absurd (hr.symm.trans hr') (by decide)
  · exact (hmarks 0).mpr (.inr ⟨hr, hk, 1, hcaptures⟩)

end Unnest
