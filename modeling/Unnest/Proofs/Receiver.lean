import Unnest.Proofs.Conversion

/-!
# Reaching the receiver

A closure that captures the receiver of the method has one way to it, which depends on where the
receiver is kept after the analysis. If its environment is on the heap, the links from the host of
the closure lead there, and that environment links to the receiver. If its environment is a value,
the closure reads from that value. If no environment holds it, as after pruning, the closure either
has no host, and its method has the receiver itself, or the links from its host end at the receiver.

## Main statements

* `MethodBody.receiver_reached` : exactly one of the three ways is open, with and without pruning.
-/

namespace Unnest

namespace Graph

variable {g : Graph} {m : MethodBody} {c : ClosureId} {e r : EnvId}

/-! ## The three ways -/

/-- Environment `e` is live and holds the receiver. -/
def KeepsReceiver (g : Graph) (e : EnvId) : Prop :=
  e < g.envs.size ∧ (g.env e).removed = false ∧ ∃ v, g.receiver = some v ∧ v ∈ (g.env e).vars

/-- The receiver is kept on the heap: the links from the host of `c` lead to its environment, which
is the outermost one and links to the receiver itself. -/
def ReachesReceiverEnv (g : Graph) (c : ClosureId) : Prop :=
  ∃ r h, g.KeepsReceiver r ∧ (g.env r).isValue = false ∧ (g.env r).needsParent = true ∧
    g.runtimeParent? r = none ∧ (g.closure c).host = some h ∧ Relation.ReflTransGen g.Link h r

/-- The receiver is kept in a value, and `c` reads from it. -/
def ReadsReceiverValue (g : Graph) (c : ClosureId) : Prop :=
  ∃ r, g.KeepsReceiver r ∧ (g.env r).isValue = true ∧ r ∈ (g.closure c).envs

/-- The receiver is kept nowhere: `c` has no host, or the links from its host end at the receiver,
every environment on the way having its link. -/
def ReachesReceiver (g : Graph) (c : ClosureId) : Prop :=
  (∀ e, ¬ g.KeepsReceiver e) ∧ ((g.closure c).host = none ∨
    ∃ h e, (g.closure c).host = some h ∧ Relation.ReflTransGen g.Link h e ∧
      g.runtimeParent? e = none ∧ (g.env e).needsParent = true)

namespace Chained

variable (hc : g.Chained m)

include hc

theorem receiverEnv_eq_some : g.receiverEnv? = some e ↔ g.KeepsReceiver e := by
  have hh := hc.exact.holds
  constructor
  · intro he
    obtain ⟨v, hv, -⟩ := Option.bind_eq_some_iff.mp he
    obtain ⟨hlt, hlive, hmem⟩ :=
      (hc.placed.receiverEnv_eq_some hh (hh.receiver_eq.symm.trans hv)).mp he
    exact ⟨hlt, hlive, v, hv, hmem⟩
  · rintro ⟨hlt, hlive, v, hv, hmem⟩
    apply (hc.placed.receiverEnv_eq_some hh (hh.receiver_eq.symm.trans hv)).mpr
    exact ⟨hlt, hlive, hmem⟩

/-- At most one environment holds the receiver. -/
theorem keepsReceiver_unique (he : g.KeepsReceiver e) (hr : g.KeepsReceiver r) : e = r := by
  have he := hc.receiverEnv_eq_some.mpr he
  exact Option.some.inj (he.symm.trans (hc.receiverEnv_eq_some.mpr hr))

/-- The environment of the receiver is read by the closures that capture the receiver. -/
theorem mem_envs_of_capturesReceiver (hcap : (g.closure c).capturesReceiver = true)
    (hr : g.KeepsReceiver r) : r ∈ (g.closure c).envs := by
  obtain ⟨hlt, hlive, v, hv, hmem⟩ := hr
  obtain ⟨w, hw, hcw⟩ := (hc.exact.capturesReceiver c).mp hcap
  rw [hc.exact.holds.receiver_eq, hw] at hv
  obtain rfl := Option.some.inj hv
  apply (hc.placed.closure_envs c r).mpr
  exact ⟨hlt, hlive, Closure.readsAny_iff.mpr ⟨w, hmem, hcw⟩⟩

theorem reachesReceiverEnv (hcalls : m.CallsInScope)
    (hcap : (g.closure c).capturesReceiver = true) (hr : g.KeepsReceiver r)
    (hk : (g.env r).isValue = false) : g.ReachesReceiverEnv c := by
  have hh := hc.exact.holds
  have hmem := hc.mem_envs_of_capturesReceiver hcap hr
  obtain ⟨h, hnear⟩ := exists_nearestHost hc.placed hc.exact hcalls hmem hk
  have hhost : (g.closure c).host = some h := (hc.host c (lt_of_mem_envs hmem)).trans hnear
  have henv := hc.receiverEnv_eq_some.mpr hr
  have hparent : g.runtimeParent? r = none := by
    obtain ⟨hlt, -, v, hv, hmem⟩ := hr
    have hscope := hc.placed.scope_of_receiver hh (hh.receiver_eq.symm.trans hv) hlt hmem
    rw [runtimeParent?, hscope, hh.ancestors_root, surroundingEnv_singleton hh.root_owner]
  exact ⟨r, h, hr, hk, hc.receiver c h hhost hcap r henv hk, hparent, hhost,
    hc.linked c h hhost r hmem hk⟩

theorem reachesReceiver (hcap : (g.closure c).capturesReceiver = true)
    (hnone : ∀ e, ¬ g.KeepsReceiver e) : g.ReachesReceiver c := by
  have hno : g.receiverEnv? = none :=
    Option.eq_none_iff_forall_ne_some.mpr fun e he => hnone e (hc.receiverEnv_eq_some.mp he)
  refine ⟨hnone, ?_⟩
  cases hhost : (g.closure c).host with
  | none => exact .inl rfl
  | some h =>
    obtain ⟨e, hpath, hparent, hneeds⟩ := hc.receiverLink c h hhost hcap hno
    exact .inr ⟨h, e, rfl, hpath, hparent, hneeds⟩

/-- Exactly one way to the receiver is open. -/
theorem receiver_cases (hcalls : m.CallsInScope)
    (hcap : (g.closure c).capturesReceiver = true) :
    (g.ReachesReceiverEnv c ∧ ¬ g.ReadsReceiverValue c ∧ ¬ g.ReachesReceiver c) ∨
    (¬ g.ReachesReceiverEnv c ∧ g.ReadsReceiverValue c ∧ ¬ g.ReachesReceiver c) ∨
    (¬ g.ReachesReceiverEnv c ∧ ¬ g.ReadsReceiverValue c ∧ g.ReachesReceiver c) := by
  by_cases hkept : ∃ r, g.KeepsReceiver r
  · obtain ⟨r, hr⟩ := hkept
    have hthird : ¬ g.ReachesReceiver c := fun h => h.1 r hr
    cases hk : (g.env r).isValue with
    | false =>
      refine .inl ⟨hc.reachesReceiverEnv hcalls hcap hr hk, ?_, hthird⟩
      rintro ⟨e, he, hke, -⟩
      rw [hc.keepsReceiver_unique he hr, hk] at hke
      exact nomatch hke
    | true =>
      have hreads := hc.mem_envs_of_capturesReceiver hcap hr
      refine .inr (.inl ⟨?_, ⟨r, hr, hk, hreads⟩, hthird⟩)
      rintro ⟨e, -, he, hke, -⟩
      rw [hc.keepsReceiver_unique he hr, hk] at hke
      exact nomatch hke
  · have hnone (e : EnvId) : ¬ g.KeepsReceiver e := fun he => hkept ⟨e, he⟩
    refine .inr (.inr ⟨?_, ?_, hc.reachesReceiver hcap hnone⟩)
    · rintro ⟨r, -, hr, -⟩
      exact hnone r hr
    · rintro ⟨r, hr, -⟩
      exact hnone r hr

/-- The method of a closure that has no host and captures a receiver that is kept nowhere belongs to
the enclosing type, and is not static. -/
theorem exists_instanceMethod (hcalls : m.CallsInScope)
    (hcap : (g.closure c).capturesReceiver = true) (hnone : ∀ e, ¬ g.KeepsReceiver e)
    (hhost : (g.closure c).host = none) : ∃ method lm, m.method = some method ∧
      (DeclarationDraft.declareAll { graph := g }).1.declarations.methodOf? c = some lm ∧
      lm.host = none ∧ lm.symbol.isStatic = false ∧ lm.symbol.owner = method.owner := by
  obtain ⟨method, -, hm, -⟩ := hc.exact.holds.complete
  obtain ⟨s, hs, hsame, hdeclared⟩ := DeclarationDraft.declareAll_eq (hc.seated hcalls) hm
  have hlt : c < s.graph.closures.size := by
    rw [hsame.size]
    by_contra hlt
    rw [closure_of_le (Nat.le_of_not_lt hlt)] at hcap
    exact nomatch hcap
  have hno : g.receiverEnv? = none :=
    Option.eq_none_iff_forall_ne_some.mpr fun e he => hnone e (hc.receiverEnv_eq_some.mp he)
  obtain ⟨lm, hlm, hd⟩ := hdeclared.methodOf hlt
  have hhost' : lm.host = none := by
    rw [hd.host, hsame.proj Closure.host fun _ _ => rfl, hhost]
  refine ⟨method, lm, hm, by rw [hs]; exact hlm, hhost', ?_, ?_⟩
  · rw [hd.isStatic, hsame.sameCaptures.capturesReceiver, hsame.receiverEnv, hcap, hno]
    simp
  · have howner := hdeclared.owner c lm hlm
    rwa [Declarations.Owns, hhost'] at howner

end Chained

end Graph

/-- In an accepted body whose functions are called and named where they are declared, the analysis
succeeds, with and without pruning, and a closure that captures the receiver has exactly one way to
it: along links to the heap environment that keeps it, in a value that it reads from, or, if no live
environment keeps it, along links that end at it or without any host. In the last case the method of
the closure is one of the enclosing type and not static. -/
theorem MethodBody.receiver_reached {m : MethodBody} (h : m.Accepted) (hcalls : m.CallsInScope)
    (hunique : m.ReceiverUnique) (o : ConversionSettings) : ∃ g, (Analysis.run o m).1.graph = g ∧
      (Analysis.run o m).2 = none ∧ ∀ c, (g.closure c).capturesReceiver = true →
        ((g.ReachesReceiverEnv c ∧ ¬ g.ReadsReceiverValue c ∧ ¬ g.ReachesReceiver c) ∨
          (¬ g.ReachesReceiverEnv c ∧ g.ReadsReceiverValue c ∧ ¬ g.ReachesReceiver c) ∨
          (¬ g.ReachesReceiverEnv c ∧ ¬ g.ReadsReceiverValue c ∧ g.ReachesReceiver c)) ∧
        (g.ReachesReceiver c → (g.closure c).host = none → ∃ method lm, m.method = some method ∧
          (DeclarationDraft.declareAll { graph := g }).1.declarations.methodOf? c = some lm ∧
          lm.host = none ∧ lm.symbol.isStatic = false ∧ lm.symbol.owner = method.owner) := by
  obtain ⟨hnone, hc⟩ := m.chained_of_accepted h hcalls hunique o
  refine ⟨_, rfl, hnone, fun c hcap => ⟨hc.receiver_cases hcalls hcap, fun hr hhost => ?_⟩⟩
  exact hc.exists_instanceMethod hcalls hcap hr.1 hhost

open Counter in
/-- The lambda inside `next` reaches the receiver of `Count` through the environment that keeps
it. -/
theorem MethodBody.receiver_count : count.Accepted ∧ count.CallsInScope ∧ count.ReceiverUnique ∧
    ((Analysis.run {} count).1.graph.closure 1).capturesReceiver = true ∧
    (Analysis.run {} count).1.graph.ReachesReceiverEnv 1 ∧
    ¬ (Analysis.run {} count).1.graph.ReachesReceiver 1 := by
  have hcalls : count.CallsInScope := by decide +kernel
  have hunique : count.ReceiverUnique := by decide +kernel
  have hcap : ((Analysis.run {} count).1.graph.closure 1).capturesReceiver = true := by
    decide +kernel
  obtain ⟨g, rfl, -, hways⟩ := receiver_reached accepted_count hcalls hunique {}
  have hheld : (Analysis.run {} count).1.graph.receiverEnv? = some 0 ∧
      ((Analysis.run {} count).1.graph.env 0).isValue = false := by decide +kernel
  have hc := (count.chained_of_accepted accepted_count hcalls hunique {}).2
  have hkept := hc.receiverEnv_eq_some.mp hheld.1
  refine ⟨accepted_count, hcalls, hunique, hcap, ?_⟩
  obtain ⟨hway, -, hthird⟩ | ⟨-, ⟨r, hr, hk, -⟩, -⟩ | ⟨-, -, hthird⟩ := (hways 1 hcap).1
  · exact ⟨hway, hthird⟩
  · rw [hc.keepsReceiver_unique hr hkept, hheld.2] at hk
    exact nomatch hk
  · exact absurd hkept (hthird.1 0)

end Unnest
