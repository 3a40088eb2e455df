import Mathlib.Data.Finset.Card
import Mathlib.Data.Finset.Range
import Unnest.Proofs.Captures.Propagate

/-!
# How long propagation takes

With `n` closures a propagation is over after at most `n` rounds of at most `n` visits each,
whatever the dependencies and the sets it starts with. So the default bound on visits is never
reached.

A variable that is still on its way after `k` rounds has been handed on in every one of them, and
each time a closure got it that did not have it before. So more than `k` closures hold it, and there
are only `n` of them. `Propagation.Paced` is this invariant. It does not matter for it that a set
may grow between two visits of one round.

## Main statements

* `Propagation.Paced.round` : what one round does to the closures that hold a variable.
* `Propagation.Paced.run_spec` : how many rounds and visits a run makes.
* `Graph.propagate_zero_eq_none` : within the default bound propagation never fails.
-/

namespace Unnest

namespace Propagation

open Unnest.Graph

variable {p : Propagation} {c d : ClosureId} {v : Variable}

/-- The closures that capture `v` by now. -/
def holders (p : Propagation) (v : Variable) : Finset ClosureId :=
  (Finset.range p.graph.closures.size).filter fun c => v ∈ (p.graph.closure c).captured

/-- All that depend on `d` have got `v` from it, except those that declare it. -/
def Handed (p : Propagation) (d : ClosureId) (v : Variable) : Prop :=
  ∀ c, d ∈ (p.graph.closure c).dependencies → p.graph.bodyDeclares c v = false →
    v ∈ (p.graph.closure c).captured

/-- After `k` rounds a variable that is still to be handed on is held by more than `k` closures, and
those that hold such a variable are to be visited. -/
structure Paced (k : Nat) (p : Propagation) : Prop where
  handed : ∀ d v, v ∈ (p.graph.closure d).captured →
    p.Handed d v ∨ d ∈ p.next ∧ k < (p.holders v).card
  growing : ∀ d ∈ p.next, ∃ v ∈ (p.graph.closure d).captured, k < (p.holders v).card

@[simp] theorem mem_holders : c ∈ p.holders v ↔ v ∈ (p.graph.closure c).captured := by
  simp only [holders, Finset.mem_filter, Finset.mem_range, and_iff_right_iff_imp]
  exact lt_of_mem_captured

theorem card_holders_le (p : Propagation) (v : Variable) :
    (p.holders v).card ≤ p.graph.closures.size := by
  calc (p.holders v).card
      ≤ (Finset.range p.graph.closures.size).card := Finset.card_filter_le _ _
    _ = p.graph.closures.size := Finset.card_range _

/-! ## One round -/

/-- A state grows out of itself. -/
theorem Sound.refl (p : Propagation) : p.Sound p.graph :=
  ⟨rfl, rfl, rfl, fun _ => rfl, fun _ _ hv => hv, fun _ _ hv => .own hv⟩

/-- What is handed on stays so while the sets grow. -/
theorem Handed.mono {q : Propagation} (h : p.Handed d v) (hq : q.Sound p.graph) :
    q.Handed d v := by
  intro c hc hbody
  rw [hq.dependencies] at hc
  rw [bodyDeclares_of_shape hq.shape] at hbody
  exact hq.grown c v (h c hc hbody)

/-- A visit hands on what the closure holds. -/
theorem handed_visit (hv : v ∈ (p.graph.closure d).captured) : (p.visit d).Handed d v := by
  have hsound := (Sound.refl p).visit d
  intro c hc hbody
  rw [hsound.dependencies] at hc
  rw [bodyDeclares_of_shape hsound.shape] at hbody
  by_cases hcd : c = d
  · exact hcd ▸ hsound.grown d v hv
  · refine (mem_captured_handOnAll (fun hd => (mem_dependents.mp hd).1 rfl) fun e he => ?_).mpr
      (.inr ⟨mem_dependents.mpr ⟨hcd, hc⟩, mem_inherited.mpr ⟨hv, hbody⟩⟩)
    exact lt_of_mem_dependencies (mem_dependents.mp he).2

theorem counts_handOnAll (d : ClosureId) (cs : List ClosureId) (p : Propagation) :
    (cs.foldl (handOn d) p).visits = p.visits ∧ (cs.foldl (handOn d) p).rounds = p.rounds ∧
      (cs.foldl (handOn d) p).exceeded = p.exceeded := by
  induction cs generalizing p with
  | nil => exact ⟨rfl, rfl, rfl⟩
  | cons c cs ih =>
    obtain ⟨hvisits, hrounds, hexceeded⟩ := ih (handOn d p c)
    rw [List.foldl_cons, hvisits, hrounds, hexceeded]
    unfold handOn
    dsimp only
    split <;> exact ⟨rfl, rfl, rfl⟩

@[simp] theorem visits_visit (p : Propagation) (d : ClosureId) :
    (p.visit d).visits = p.visits + 1 := (counts_handOnAll d _ _).1

@[simp] theorem rounds_visit (p : Propagation) (d : ClosureId) : (p.visit d).rounds = p.rounds :=
  (counts_handOnAll d _ _).2.1

@[simp] theorem exceeded_visit (p : Propagation) (d : ClosureId) :
    (p.visit d).exceeded = p.exceeded := (counts_handOnAll d _ _).2.2

/-- Within the bound all closures of a round are visited. -/
theorem counts_visitAll {bound : Nat} {cs : List ClosureId} (h : p.visits + cs.length ≤ bound) :
    (visitAll bound cs p).visits = p.visits + cs.length ∧
      (visitAll bound cs p).rounds = p.rounds ∧
      (visitAll bound cs p).exceeded = p.exceeded := by
  induction cs generalizing p with
  | nil => exact ⟨rfl, rfl, rfl⟩
  | cons c cs ih =>
    rw [List.length_cons] at h ⊢
    obtain ⟨hvisits, hrounds, hexceeded⟩ := ih (p := p.visit c) (by rw [visits_visit]; omega)
    rw [visitAll, if_pos (by omega), hvisits, hrounds, hexceeded]
    simp
    omega

/-- A round in which all closures are visited hands on what they held at its start. -/
theorem handed_visitAll {bound : Nat} {cs : List ClosureId} (h : p.visits + cs.length ≤ bound)
    (hd : d ∈ cs) (hv : v ∈ (p.graph.closure d).captured) :
    (visitAll bound cs p).Handed d v := by
  induction cs generalizing p with
  | nil => exact absurd hd List.not_mem_nil
  | cons c cs ih =>
    rw [List.length_cons] at h
    rw [visitAll, if_pos (by omega)]
    rcases List.mem_cons.mp hd with rfl | hd
    · exact (handed_visit hv).mono (Sound.refl _).visitAll
    · exact ih (by rw [visits_visit]; omega) hd (((Sound.refl p).visit c).grown d v hv)

/-- From `p` to `q` sets have only grown, and the closures whose sets have are to be visited. -/
structure Advances (p q : Propagation) : Prop where
  grown : ∀ d v, v ∈ (p.graph.closure d).captured → v ∈ (q.graph.closure d).captured
  next : ∀ d, d ∈ q.next ↔ d ∈ p.next ∨
    ∃ v ∈ (q.graph.closure d).captured, v ∉ (p.graph.closure d).captured

namespace Advances

variable {q r : Propagation}

theorem refl (p : Propagation) : Advances p p where
  grown _ _ hv := hv
  next _ := ⟨.inl, fun h => h.resolve_right fun ⟨_, hv, hnew⟩ => hnew hv⟩

theorem trans (h : Advances p q) (h' : Advances q r) : Advances p r where
  grown d v hv := h'.grown d v (h.grown d v hv)
  next d := by
    rw [h'.next, h.next]
    constructor
    · rintro ((hd | ⟨v, hv, hnew⟩) | ⟨v, hv, hnew⟩)
      · exact .inl hd
      · exact .inr ⟨v, h'.grown d v hv, hnew⟩
      · exact .inr ⟨v, hv, fun hold => hnew (h.grown d v hold)⟩
    · rintro (hd | ⟨v, hv, hnew⟩)
      · exact .inl (.inl hd)
      · by_cases hmid : v ∈ (q.graph.closure d).captured
        · exact .inl (.inr ⟨v, hmid, hnew⟩)
        · exact .inr ⟨v, hv, hmid⟩

theorem handOn (d : ClosureId) (hc : c < p.graph.closures.size) :
    Advances p (handOn d p c) where
  grown e v hv := mem_captured_handOn.mpr (.inl hv)
  next e := by
    refine ⟨fun he => ?_, ?_⟩
    · by_cases hall : (p.graph.inherited c d).all (· ∈ (p.graph.closure c).captured)
      · rw [Propagation.handOn, if_pos hall] at he
        exact .inl he
      · obtain ⟨v, hv, hnew⟩ : ∃ v ∈ p.graph.inherited c d,
            v ∉ (p.graph.closure c).captured := by simpa using hall
        rw [Propagation.handOn, if_neg hall] at he
        rcases OrderedSet.mem_insert.mp he with he | rfl
        · exact .inl he
        · exact .inr ⟨v, mem_captured_handOn.mpr (.inr ⟨rfl, hc, hv⟩), hnew⟩
    · rintro (he | ⟨v, hv, hnew⟩)
      · exact next_handOn he
      · exact mem_next_handOn hv hnew

theorem handOnAll (d : ClosureId) {cs : List ClosureId}
    (hcs : ∀ c ∈ cs, c < p.graph.closures.size) :
    Advances p (cs.foldl (Propagation.handOn d) p) := by
  induction cs generalizing p with
  | nil => exact refl p
  | cons c cs ih =>
    refine (handOn d (hcs c List.mem_cons_self)).trans (ih fun e he => ?_)
    rw [size_closures_of_shape (shape_handOn d p c)]
    exact hcs e (List.mem_cons_of_mem c he)

theorem visit (p : Propagation) (d : ClosureId) : Advances p (p.visit d) := by
  have hcs : ∀ c ∈ p.graph.dependents d, c < p.graph.closures.size :=
    fun c hc => lt_of_mem_dependencies (mem_dependents.mp hc).2
  obtain ⟨hgrown, hnext⟩ := handOnAll d (p := { p with visits := p.visits + 1 }) hcs
  exact ⟨hgrown, hnext⟩

theorem visitAll (bound : Nat) (cs : List ClosureId) (p : Propagation) :
    Advances p (visitAll bound cs p) := by
  induction cs generalizing p with
  | nil => exact refl p
  | cons c cs ih =>
    rw [Propagation.visitAll]
    split
    · exact (visit p c).trans (ih (p.visit c))
    · exact ⟨(refl p).grown, (refl p).next⟩

end Advances

namespace Paced

variable {k bound : Nat} (h : p.Paced k)

include h

/-- A closure that gets a variable in a round gets it from one that still had to hand it on. -/
theorem lt_card_of_new {q : Propagation} (hq : q.Sound p.graph)
    (hv : v ∈ (q.graph.closure d).captured) (hnew : v ∉ (p.graph.closure d).captured) :
    k < (p.holders v).card := by
  by_contra hfew
  -- otherwise the closures that hold the variable are closed under handing it on
  have hclosed (c : ClosureId) (w : Variable) (hw : p.graph.Inherits c w) :
      w = v → w ∈ (p.graph.closure c).captured := by
    induction hw with
    | own hw => exact fun _ => hw
    | @through c e w he _ hbody ih =>
      rintro rfl
      rcases h.handed e w (ih rfl) with hhanded | ⟨-, hmany⟩
      · exact hhanded c he hbody
      · exact absurd hmany hfew
  exact hnew (hclosed d v (hq.sound d v hv) rfl)

/-- A round brings every variable that is still on its way to one more closure at least. -/
theorem round {q : Propagation} (hbound : p.visits + p.next.toList.length ≤ bound)
    (hq : q = visitAll bound p.next.toList { p with next := ∅, rounds := p.rounds + 1 }) :
    q.Paced (k + 1) := by
  obtain ⟨p', hp'⟩ : ∃ p', p' = { p with next := ∅, rounds := p.rounds + 1 } := ⟨_, rfl⟩
  have hgraph : p'.graph = p.graph := by rw [hp']
  rw [← hp'] at hq
  have hsound : q.Sound p.graph := by
    rw [hq, ← hgraph]
    exact (Sound.refl p').visitAll
  have hadvances : Advances p' q := hq ▸ .visitAll bound p.next.toList p'
  -- what is new at a closure is held by it besides all that held it before
  have hmore (d : ClosureId) (v : Variable) (hv : v ∈ (q.graph.closure d).captured)
      (hnew : v ∉ (p.graph.closure d).captured) : k + 1 < (q.holders v).card := by
    have hlt := h.lt_card_of_new hsound hv hnew
    have hsub : p.holders v ⊂ q.holders v := by
      refine (Finset.ssubset_iff_of_subset fun c hc => ?_).mpr ⟨d, mem_holders.mpr hv, ?_⟩
      · exact mem_holders.mpr (hsound.grown c v (mem_holders.mp hc))
      · exact fun hd => hnew (mem_holders.mp hd)
    have := Finset.card_lt_card hsub
    omega
  have hnext (d : ClosureId) : d ∈ q.next ↔
      ∃ v ∈ (q.graph.closure d).captured, v ∉ (p.graph.closure d).captured := by
    rw [hadvances.next, hgraph, hp']
    exact or_iff_right (OrderedSet.not_mem_empty d)
  constructor
  case handed =>
    intro d v hv
    by_cases hold : v ∈ (p.graph.closure d).captured
    · left
      rcases h.handed d v hold with hhanded | ⟨hd, -⟩
      · exact hhanded.mono hsound
      · rw [hq]
        refine handed_visitAll (p := p') ?_ hd (by rwa [hgraph])
        rwa [hp']
    · exact .inr ⟨(hnext d).mpr ⟨v, hv, hold⟩, hmore d v hv hold⟩
  case growing =>
    intro d hd
    obtain ⟨v, hv, hnew⟩ := (hnext d).mp hd
    exact ⟨v, hv, hmore d v hv hnew⟩

/-- There are no more than `n` closures to visit, and the round is not beyond the `n`-th. -/
theorem length_next_le : p.next.toList.length ≤ p.graph.closures.size := by
  have hsub : p.next.toList.toFinset ⊆ Finset.range p.graph.closures.size := by
    intro d hd
    obtain ⟨v, hv, -⟩ := h.growing d (List.mem_toFinset.mp hd)
    exact Finset.mem_range.mpr (lt_of_mem_captured hv)
  have hcard := Finset.card_le_card hsub
  rwa [List.toFinset_card_of_nodup p.next.nodup, Finset.card_range] at hcard

theorem lt_of_next (hnext : ¬ p.next.isEmpty) : k < p.graph.closures.size := by
  obtain ⟨d, hd⟩ : ∃ d, d ∈ p.next.toList :=
    List.exists_mem_of_ne_nil _ (by simpa [OrderedSet.isEmpty] using hnext)
  obtain ⟨v, -, hlt⟩ := h.growing d hd
  exact Nat.lt_of_lt_of_le hlt (p.card_holders_le v)

/-- A run that may visit every closure once in each of `n` rounds makes no more rounds and visits
than that. -/
theorem run_spec {n fuel : Nat} (hn : p.graph.closures.size = n) (hbound : n * n ≤ bound)
    (hfuel : n < k + fuel) (hk : k ≤ n) (hexceeded : p.exceeded = false) (hrounds : p.rounds = k)
    (hvisits : p.visits ≤ k * n) :
    (run bound fuel p).exceeded = false ∧ (run bound fuel p).rounds ≤ n ∧
      (run bound fuel p).visits ≤ n * n := by
  induction fuel generalizing k p with
  | zero => omega
  | succ fuel ih =>
    rw [run]
    split
    · exact ⟨hexceeded, hrounds.le.trans hk, hvisits.trans (Nat.mul_le_mul_right n hk)⟩
    · rename_i hnext
      have hlt := hn ▸ h.lt_of_next hnext
      have hlength := hn ▸ h.length_next_le
      have hround : (k + 1) * n ≤ n * n := Nat.mul_le_mul_right n hlt
      rw [Nat.succ_mul] at hround
      have hall : p.visits + p.next.toList.length ≤ bound := by omega
      obtain ⟨hvisits', hrounds', hexceeded'⟩ := counts_visitAll
        (p := { p with next := ∅, rounds := p.rounds + 1 }) hall
      have hsize : (visitAll bound p.next.toList
          { p with next := ∅, rounds := p.rounds + 1 }).graph.closures.size = n := by
        rw [size_closures_of_shape (Sound.refl _).visitAll.shape, hn]
      dsimp only
      rw [if_neg (by rw [hexceeded']; simpa using hexceeded)]
      refine ih (h.round hall rfl) hsize (by omega) hlt (hexceeded'.trans hexceeded)
        (hrounds'.trans (congrArg (· + 1) hrounds)) ?_
      rw [hvisits', Nat.succ_mul]
      exact Nat.add_le_add hvisits hlength

end Paced

end Propagation

namespace Graph

/-- To begin with, a closure that holds a variable is to be visited. -/
theorem paced_capturing (g : Graph) : Propagation.Paced 0 { graph := g, next := g.capturing } := by
  have hnext (d : ClosureId) : d ∈ g.capturing ↔ ∃ v, v ∈ (g.closure d).captured := by
    simp only [capturing, OrderedSet.mem_insertAll, OrderedSet.not_mem_empty, false_or,
      List.mem_filter, List.mem_range, OrderedSet.isEmpty, Bool.not_eq_true',
      List.isEmpty_eq_false_iff_exists_mem]
    exact ⟨fun h => h.2, fun ⟨v, hv⟩ => ⟨lt_of_mem_captured hv, v, hv⟩⟩
  have hheld (d : ClosureId) (v : Variable) (hv : v ∈ (g.closure d).captured) :
      0 < (Propagation.holders { graph := g, next := g.capturing } v).card :=
    Finset.card_pos.mpr ⟨d, Propagation.mem_holders.mpr hv⟩
  refine ⟨fun d v hv => .inr ⟨(hnext d).mpr ⟨v, hv⟩, hheld d v hv⟩, fun d hd => ?_⟩
  obtain ⟨v, hv⟩ := (hnext d).mp hd
  exact ⟨v, hv, hheld d v hv⟩

/-- If every closure may be visited as often as there are closures, propagation comes to its end. -/
theorem propagation_spec (g : Graph) {bound : Nat}
    (h : g.closures.size * g.closures.size ≤ g.visitBound bound) :
    (g.propagation bound).exceeded = false ∧
      (g.propagation bound).rounds ≤ g.closures.size ∧
      (g.propagation bound).visits ≤ g.closures.size * g.closures.size := by
  have hfuel : g.closures.size < 0 + (g.visitBound bound + 1) := by
    have := Nat.le_mul_self g.closures.size
    omega
  exact g.paced_capturing.run_spec rfl h hfuel (Nat.zero_le _) rfl rfl (Nat.zero_le _)

theorem visitBound_zero (g : Graph) :
    g.visitBound 0 = g.closures.size * g.closures.size + g.closures.size := rfl

theorem mul_self_le_visitBound_zero (g : Graph) :
    g.closures.size * g.closures.size ≤ g.visitBound 0 := Nat.le_add_right _ _

/-- Within the default bound propagation reports no failure. -/
theorem propagate_zero_snd (g : Graph) : (g.propagate 0).2 = none := by
  obtain ⟨hexceeded, -, -⟩ := g.propagation_spec g.mul_self_le_visitBound_zero
  simp [propagate, hexceeded]

/-- Within the default bound propagation never fails: with `n` closures there are at most `n` rounds
and at most `n * n` visits, which is less by `n` than the bound. -/
theorem propagate_zero_eq_none (g : Graph) :
    (g.propagate 0).2 = none ∧
      (g.propagation 0).rounds ≤ g.closures.size ∧
      (g.propagation 0).visits ≤ g.closures.size * g.closures.size ∧
      g.closures.size * g.closures.size + g.closures.size = g.visitBound 0 := by
  obtain ⟨-, hrounds, hvisits⟩ := g.propagation_spec g.mul_self_le_visitBound_zero
  exact ⟨g.propagate_zero_snd, hrounds, hvisits, g.visitBound_zero.symm⟩

end Graph

end Unnest
