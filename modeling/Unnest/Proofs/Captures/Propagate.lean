import Unnest.Captures.Propagate
import Unnest.Proofs.Graph.Basic

/-!
# Capture sets are closed

A run of the propagation that is not given up leaves every closure with exactly what it inherits:
its own captures and those of the closures it depends on, except what it declares itself.

The invariant of the run has two halves. Whatever a set holds is inherited (`Propagation.Sound`),
and a closure whose set has not been handed on yet is still to be visited
(`Propagation.Pending`).

## Main statements

* `Graph.mem_captured_propagate` : after propagation a closure captures what it inherits.
-/

namespace Unnest

namespace Graph

/-- Closure `c` captures `v` itself or through a closure it depends on. -/
inductive Inherits (g : Graph) : ClosureId → Variable → Prop where
  | own {c : ClosureId} {v : Variable} (h : v ∈ (g.closure c).captured) : g.Inherits c v
  | through {c d : ClosureId} {v : Variable} (hd : d ∈ (g.closure c).dependencies)
      (h : g.Inherits d v) (hv : g.bodyDeclares c v = false) : g.Inherits c v

variable {g : Graph} {c d : ClosureId} {v : Variable}

theorem lt_of_mem_captured (h : v ∈ (g.closure c).captured) : c < g.closures.size := by
  by_contra hc
  rw [closure_of_le (Nat.le_of_not_lt hc)] at h
  exact OrderedSet.not_mem_empty v h

theorem lt_of_mem_dependencies (h : d ∈ (g.closure c).dependencies) : c < g.closures.size := by
  by_contra hc
  rw [closure_of_le (Nat.le_of_not_lt hc)] at h
  exact OrderedSet.not_mem_empty d h

theorem mem_dependents : c ∈ g.dependents d ↔ c ≠ d ∧ d ∈ (g.closure c).dependencies := by
  simp only [dependents, List.mem_filter, List.mem_range, decide_eq_true_eq]
  exact ⟨fun h => h.2, fun h => ⟨lt_of_mem_dependencies h.2, h⟩⟩

theorem mem_inherited :
    v ∈ g.inherited c d ↔ v ∈ (g.closure d).captured ∧ g.bodyDeclares c v = false := by
  simp [inherited, OrderedSet.mem_def]

end Graph

namespace Propagation

open Unnest.Graph

variable {g : Graph} {p p' : Propagation} {c d e : ClosureId} {v : Variable}

/-- The state grew out of graph `g` and has only made closures capture what they inherit. -/
structure Sound (g : Graph) (p : Propagation) : Prop where
  shape : p.graph.shape = g.shape
  scopes : p.graph.scopes = g.scopes
  envs : p.graph.envs = g.envs
  closure : ∀ c, p.graph.closure c = { g.closure c with captured := (p.graph.closure c).captured }
  grown : ∀ c v, v ∈ (g.closure c).captured → v ∈ (p.graph.closure c).captured
  sound : ∀ c v, v ∈ (p.graph.closure c).captured → g.Inherits c v

theorem Sound.dependencies (h : p.Sound g) (c : ClosureId) :
    (p.graph.closure c).dependencies = (g.closure c).dependencies := by rw [h.closure c]

/-- Nothing is left to hand on from `d`. -/
def Settled (p : Propagation) (d : ClosureId) : Prop :=
  ∀ c v, d ∈ (p.graph.closure c).dependencies → v ∈ (p.graph.closure d).captured →
    p.graph.bodyDeclares c v = false → v ∈ (p.graph.closure c).captured

/-- A closure that is not settled will be visited in this round or in the next. -/
def Pending (todo : List ClosureId) (p : Propagation) : Prop :=
  ∀ d, p.Settled d ∨ d ∈ p.next ∨ d ∈ todo

/-! ## Handing on -/

theorem shape_handOn (d : ClosureId) (p : Propagation) (c : ClosureId) :
    (handOn d p c).graph.shape = p.graph.shape := by
  simp only [handOn]
  split
  · rfl
  · exact shape_modifyClosure _ _ fun _ => rfl

theorem mem_captured_handOn :
    v ∈ ((handOn d p c).graph.closure e).captured ↔
      v ∈ (p.graph.closure e).captured ∨
        e = c ∧ c < p.graph.closures.size ∧ v ∈ p.graph.inherited c d := by
  simp only [handOn]
  split
  · rename_i hall
    refine ⟨.inl, ?_⟩
    rintro (hv | ⟨rfl, -, hv⟩)
    · exact hv
    · simpa using List.all_eq_true.mp hall v hv
  · rw [closure_modifyClosure]
    split
    · rename_i he
      obtain ⟨rfl, hlt⟩ := he
      simp [hlt]
    · rename_i he
      refine ⟨.inl, ?_⟩
      rintro (hv | ⟨rfl, hlt, -⟩)
      · exact hv
      · exact absurd ⟨rfl, hlt⟩ he

theorem next_handOn (h : e ∈ p.next) : e ∈ (handOn d p c).next := by
  simp only [handOn]
  split
  · exact h
  · exact OrderedSet.mem_insert.mpr (.inl h)

theorem mem_next_handOn (hv : v ∈ ((handOn d p c).graph.closure e).captured)
    (hv' : v ∉ (p.graph.closure e).captured) : e ∈ (handOn d p c).next := by
  obtain hv | ⟨rfl, -, hv⟩ := mem_captured_handOn.mp hv
  · exact absurd hv hv'
  · simp only [handOn]
    split
    · rename_i hall
      exact absurd (by simpa using List.all_eq_true.mp hall v hv) hv'
    · simp

theorem Sound.handOn (h : p.Sound g) (hd : d ∈ (g.closure c).dependencies) :
    (handOn d p c).Sound g := by
  have hsound : ∀ e v, v ∈ ((Propagation.handOn d p c).graph.closure e).captured →
      g.Inherits e v := by
    intro e v hv
    obtain hv | ⟨rfl, -, hv⟩ := mem_captured_handOn.mp hv
    · exact h.sound e v hv
    · obtain ⟨hv, hbody⟩ := mem_inherited.mp hv
      rw [bodyDeclares_of_shape h.shape] at hbody
      exact .through hd (h.sound d v hv) hbody
  refine ⟨?_, ?_, ?_, fun e => ?_, fun e v hv => ?_, hsound⟩
  · exact (shape_handOn d p c).trans h.shape
  · simp only [Propagation.handOn]
    split <;> exact h.scopes
  · simp only [Propagation.handOn]
    split <;> exact h.envs
  · simp only [Propagation.handOn]
    split
    · exact h.closure e
    · rw [closure_modifyClosure]
      split
      · rw [h.closure e]
      · exact h.closure e
  · exact mem_captured_handOn.mpr (.inl (h.grown e v hv))

/-! ## Visits -/

/-- What a closure hands on to some others. -/
theorem mem_captured_handOnAll {cs : List ClosureId} (hd : d ∉ cs)
    (hcs : ∀ c ∈ cs, c < p.graph.closures.size) :
    v ∈ ((cs.foldl (handOn d) p).graph.closure e).captured ↔
      v ∈ (p.graph.closure e).captured ∨ e ∈ cs ∧ v ∈ p.graph.inherited e d := by
  induction cs generalizing p with
  | nil => simp
  | cons c cs ih =>
    simp only [List.mem_cons, not_or] at hd
    have hshape := shape_handOn d p c
    have hinherited (w : Variable) : w ∈ (handOn d p c).graph.inherited e d ↔
        w ∈ p.graph.inherited e d := by
      rw [mem_inherited, mem_inherited, mem_captured_handOn, bodyDeclares_of_shape hshape]
      simp [hd.1]
    rw [List.foldl_cons, ih hd.2 (fun c' hc' => ?_), hinherited, mem_captured_handOn]
    · have hlt := hcs c (by simp)
      constructor
      · rintro ((hv | ⟨rfl, -, hv⟩) | ⟨he, hv⟩)
        · exact .inl hv
        · exact .inr ⟨by simp, hv⟩
        · exact .inr ⟨by simp [he], hv⟩
      · rintro (hv | ⟨he, hv⟩)
        · exact .inl (.inl hv)
        · rcases List.mem_cons.mp he with rfl | he
          · exact .inl (.inr ⟨rfl, hlt, hv⟩)
          · exact .inr ⟨he, hv⟩
    · rw [size_closures_of_shape hshape]
      exact hcs c' (by simp [hc'])

theorem next_handOnAll {cs : List ClosureId} (h : e ∈ p.next) :
    e ∈ (cs.foldl (handOn d) p).next := by
  induction cs generalizing p with
  | nil => exact h
  | cons c cs ih => exact ih (next_handOn h)

theorem mem_next_handOnAll {cs : List ClosureId}
    (hv : v ∈ ((cs.foldl (handOn d) p).graph.closure e).captured)
    (hv' : v ∉ (p.graph.closure e).captured) : e ∈ (cs.foldl (handOn d) p).next := by
  induction cs generalizing p with
  | nil => exact absurd hv hv'
  | cons c cs ih =>
    by_cases hmid : v ∈ ((handOn d p c).graph.closure e).captured
    · exact next_handOnAll (p := handOn d p c) (mem_next_handOn hmid hv')
    · exact ih hv hmid

theorem Sound.handOnAll {cs : List ClosureId} (h : p.Sound g)
    (hcs : ∀ c ∈ cs, d ∈ (g.closure c).dependencies) :
    (cs.foldl (Propagation.handOn d) p).Sound g := by
  induction cs generalizing p with
  | nil => exact h
  | cons c cs ih =>
    exact ih (h.handOn (hcs c (by simp))) fun c' hc' => hcs c' (by simp [hc'])

theorem Sound.visit (h : p.Sound g) (d : ClosureId) : (p.visit d).Sound g := by
  refine Sound.handOnAll ⟨h.shape, h.scopes, h.envs, h.closure, h.grown, h.sound⟩ fun c hc => ?_
  rw [← h.dependencies]
  exact (mem_dependents.mp hc).2

/-- A visit settles the closure visited. Any other closure stays settled unless its set grows, and
then it is to be visited again. -/
theorem Pending.visit {todo : List ClosureId} (h : p.Pending (d :: todo)) :
    (p.visit d).Pending todo := by
  have hcaptured (e : ClosureId) (v : Variable) :
      v ∈ ((p.visit d).graph.closure e).captured ↔ v ∈ (p.graph.closure e).captured ∨
        e ∈ p.graph.dependents d ∧ v ∈ p.graph.inherited e d := by
    refine mem_captured_handOnAll (fun hd => (mem_dependents.mp hd).1 rfl) fun c hc => ?_
    exact lt_of_mem_dependencies (mem_dependents.mp hc).2
  have hsound : (p.visit d).Sound p.graph :=
    Sound.visit ⟨rfl, rfl, rfl, fun _ => rfl, fun _ _ hv => hv, fun _ _ hv => .own hv⟩ d
  intro e
  by_cases hgrows : ∃ v, v ∈ ((p.visit d).graph.closure e).captured ∧
      v ∉ (p.graph.closure e).captured
  · obtain ⟨v, hv, hv'⟩ := hgrows
    exact .inr (.inl (mem_next_handOnAll hv hv'))
  · have hsame (v : Variable) (hv : v ∈ ((p.visit d).graph.closure e).captured) :
        v ∈ (p.graph.closure e).captured := by
      by_contra hv'
      exact hgrows ⟨v, hv, hv'⟩
    by_cases hed : e = d
    · subst hed
      refine .inl fun c v hc hv hbody => (hcaptured c v).mpr ?_
      rw [hsound.dependencies] at hc
      rw [bodyDeclares_of_shape hsound.shape] at hbody
      by_cases hce : c = e
      · exact .inl (hce ▸ hsame v hv)
      · exact .inr ⟨mem_dependents.mpr ⟨hce, hc⟩, mem_inherited.mpr ⟨hsame v hv, hbody⟩⟩
    · rcases h e with hsettled | hnext | htodo
      · refine .inl fun c v hc hv hbody => (hcaptured c v).mpr (.inl ?_)
        rw [hsound.dependencies] at hc
        rw [bodyDeclares_of_shape hsound.shape] at hbody
        exact hsettled c v hc (hsame v hv) hbody
      · exact .inr (.inl (next_handOnAll hnext))
      · exact .inr (.inr ((List.mem_cons.mp htodo).resolve_left hed))

/-! ## Rounds -/

theorem Sound.visitAll {bound : Nat} {cs : List ClosureId} (h : p.Sound g) :
    (visitAll bound cs p).Sound g := by
  induction cs generalizing p with
  | nil => exact h
  | cons c cs ih =>
    rw [Propagation.visitAll]
    split
    · exact ih (h.visit c)
    · exact ⟨h.shape, h.scopes, h.envs, h.closure, h.grown, h.sound⟩

theorem Pending.visitAll {bound : Nat} {cs : List ClosureId} (h : p.Pending cs)
    (hend : (visitAll bound cs p).exceeded = false) : (visitAll bound cs p).Pending [] := by
  induction cs generalizing p with
  | nil => exact h
  | cons c cs ih =>
    rw [Propagation.visitAll] at hend ⊢
    split at hend
    · rename_i hlt
      rw [if_pos hlt]
      exact ih h.visit hend
    · simp at hend

theorem Sound.run {bound fuel : Nat} (h : p.Sound g) : (run bound fuel p).Sound g := by
  induction fuel generalizing p with
  | zero => exact ⟨h.shape, h.scopes, h.envs, h.closure, h.grown, h.sound⟩
  | succ fuel ih =>
    rw [Propagation.run]
    split
    · exact h
    · have hround : (Propagation.visitAll bound p.next.toList
          { p with next := ∅, rounds := p.rounds + 1 }).Sound g :=
        Sound.visitAll ⟨h.shape, h.scopes, h.envs, h.closure, h.grown, h.sound⟩
      simp only
      split
      · exact hround
      · exact ih hround

/-- A run that is not given up leaves every closure settled. -/
theorem settled_of_run {bound fuel : Nat} (h : p.Pending [])
    (hend : (run bound fuel p).exceeded = false) : ∀ d, (run bound fuel p).Settled d := by
  have hdone {p : Propagation} (h : p.Pending []) (hempty : p.next.isEmpty) (d : ClosureId) :
      p.Settled d := by
    rcases h d with hd | hd | hd
    · exact hd
    · rw [OrderedSet.mem_def, List.isEmpty_iff.mp hempty] at hd
      simp at hd
    · simp at hd
  induction fuel generalizing p with
  | zero =>
    rw [run] at hend ⊢
    exact hdone h (by simpa using hend)
  | succ fuel ih =>
    rw [run] at hend ⊢
    split at hend
    · rename_i hempty
      rw [if_pos hempty]
      exact hdone h hempty
    · rename_i hempty
      rw [if_neg hempty]
      simp only at hend ⊢
      split at hend
      · rename_i hexceeded
        simp [hexceeded] at hend
      · rename_i hexceeded
        rw [if_neg hexceeded]
        refine ih (Pending.visitAll (fun d => ?_) (by simpa using hexceeded)) hend
        -- what was to be visited is the work of this round
        rcases h d with hd | hd | hd
        · exact .inl hd
        · exact .inr (.inr hd)
        · simp at hd

end Propagation

namespace Graph

variable {g : Graph} {c : ClosureId} {v : Variable}

theorem sound_propagation (g : Graph) (bound : Nat) : (g.propagation bound).Sound g :=
  Propagation.Sound.run ⟨rfl, rfl, rfl, fun _ => rfl, fun _ _ hv => hv, fun _ _ hv => .own hv⟩

theorem pending_capturing (g : Graph) :
    Propagation.Pending [] { graph := g, next := g.capturing } := by
  intro d
  by_cases hd : ∃ v, v ∈ (g.closure d).captured
  · obtain ⟨v, hv⟩ := hd
    refine .inr (.inl ?_)
    simp only [capturing, OrderedSet.mem_insertAll, List.mem_filter, List.mem_range]
    refine .inr ⟨lt_of_mem_captured hv, ?_⟩
    rw [OrderedSet.mem_def] at hv
    simp [OrderedSet.isEmpty, List.ne_nil_of_mem hv]
  · exact .inl fun c v _ hv => absurd ⟨v, hv⟩ hd

/-- After propagation a closure captures what it inherits. -/
theorem mem_captured_propagate {bound : Nat} (h : (g.propagate bound).2 = none) :
    v ∈ ((g.propagate bound).1.closure c).captured ↔ g.Inherits c v := by
  have hsound := g.sound_propagation bound
  refine ⟨hsound.sound c v, fun hv => ?_⟩
  have hsettled : ∀ d, (g.propagation bound).Settled d := by
    have hend : (g.propagation bound).exceeded = false := by simpa [propagate] using h
    exact Propagation.settled_of_run g.pending_capturing hend
  induction hv with
  | own hv => exact hsound.grown _ _ hv
  | @through c d v hd _ hbody ih =>
    refine hsettled d c v ?_ ih ?_
    · rwa [hsound.dependencies]
    · rwa [bodyDeclares_of_shape hsound.shape]

end Graph

end Unnest
