import Mathlib.Order.Bounds.Basic
import Unnest.Proofs.Captures.Propagate

/-!
# Capture sets are the least closed family

A family of sets of variables, one for each closure, is closed if each set holds what its closure
captures to begin with, and what the sets of the closures it depends on hold, except what its
closure declares. Propagation computes the least closed family, or it is given up on the way there,
and touches nothing else. It is only given up for its bound on visits: a run that comes to its end
is the same run under every larger bound.

## Main definitions

* `Graph.Closes` : a family of sets is closed.

## Main statements

* `Graph.isLeast_inherits` : what the closures inherit is the least closed family.
* `Propagation.run_of_le` : a larger bound does not change a run that comes to its end.
* `Graph.propagate_isLeast` : what propagation computes, within every bound.
-/

namespace Unnest

namespace Graph

variable {g : Graph}

/-- The capture sets of a graph as a family of sets. -/
def captureSets (g : Graph) (c : ClosureId) : Set Variable := {v | v ∈ (g.closure c).captured}

/-- The family holds the capture sets of `g`, and every set of it holds what the sets of the
closures hold on which its own closure depends, except what that one declares. -/
structure Closes (g : Graph) (F : ClosureId → Set Variable) : Prop where
  captured : g.captureSets ≤ F
  inherited : ∀ c, ∀ d ∈ (g.closure c).dependencies, ∀ v ∈ F d, g.bodyDeclares c v = false → v ∈ F c

/-- What the closures inherit is the least closed family. -/
theorem isLeast_inherits (g : Graph) : IsLeast {F | g.Closes F} fun c => {v | g.Inherits c v} := by
  refine ⟨⟨fun c v hv => .own hv, fun c d hd v hv hbody => .through hd hv hbody⟩, ?_⟩
  intro F hF c v hv
  induction hv with
  | own hv => exact hF.captured _ hv
  | through hd _ hbody ih => exact hF.inherited _ _ hd _ ih hbody

/-- The graph with all capture sets emptied: what propagation has to leave as it is. -/
def uncaptured (g : Graph) : Graph :=
  { g with closures := g.closures.map fun cl => { cl with captured := ∅ } }

end Graph

namespace Propagation

open Unnest.Graph

variable {g : Graph} {p : Propagation}

/-- What grew out of a graph differs from it only in the capture sets. -/
theorem Sound.uncaptured_eq (h : p.Sound g) : p.graph.uncaptured = g.uncaptured := by
  have hclosures : (p.graph.closures.map fun cl => { cl with captured := ∅ }) =
      g.closures.map fun cl => { cl with captured := ∅ } := by
    refine Array.ext (by simpa using size_closures_of_shape h.shape) fun c hc hc' => ?_
    rw [Array.size_map] at hc hc'
    have hentry := h.closure c
    rw [Graph.closure, Graph.closure, Array.getD, dif_pos hc, Array.getD, dif_pos hc'] at hentry
    rw [Array.getElem_map, Array.getElem_map]
    exact congrArg (fun cl : Closure => { cl with captured := ∅ }) hentry
  simp only [uncaptured, body_of_shape h.shape, h.scopes, h.envs, hclosures]

/-! ## Larger bounds -/

variable {bound bound' : Nat}

/-- A round that is not given up makes the same visits under a larger bound. -/
theorem visitAll_of_le {cs : List ClosureId} (hle : bound ≤ bound')
    (hend : (visitAll bound cs p).exceeded = false) :
    visitAll bound' cs p = visitAll bound cs p := by
  induction cs generalizing p with
  | nil => rfl
  | cons c cs ih =>
    rw [visitAll] at hend ⊢
    split at hend
    · rename_i hlt
      rw [if_pos (Nat.lt_of_lt_of_le hlt hle), visitAll, if_pos hlt]
      exact ih hend
    · cases hend

theorem run_of_isEmpty (hp : p.exceeded = false) (hempty : p.next.isEmpty = true)
    (bound fuel : Nat) : run bound fuel p = p := by
  cases fuel with
  | zero => rw [run, hempty, Bool.not_true, ← hp]
  | succ fuel => rw [run, if_pos hempty]

/-- A run that comes to its end is the same run under a larger bound. -/
theorem run_of_le {fuel fuel' : Nat} (hle : bound ≤ bound') (hfuel : fuel ≤ fuel')
    (hp : p.exceeded = false) (hend : (run bound fuel p).exceeded = false) :
    run bound' fuel' p = run bound fuel p := by
  induction fuel generalizing p fuel' with
  | zero =>
    have hempty : p.next.isEmpty = true := by simpa [run] using hend
    rw [run_of_isEmpty hp hempty, run_of_isEmpty hp hempty]
  | succ fuel ih =>
    obtain ⟨fuel', rfl⟩ : ∃ k, fuel' = k + 1 := Nat.exists_eq_succ_of_ne_zero (by omega)
    by_cases hempty : p.next.isEmpty = true
    · rw [run_of_isEmpty hp hempty, run_of_isEmpty hp hempty]
    · rw [run, if_neg hempty] at hend ⊢
      rw [run, if_neg hempty]
      dsimp only at hend ⊢
      split at hend
      · rename_i hexceeded
        cases hexceeded.symm.trans hend
      · rename_i hexceeded
        have hround := Bool.eq_false_iff.mpr hexceeded
        rw [visitAll_of_le hle hround, if_neg hexceeded, if_neg hexceeded]
        exact ih (Nat.le_of_succ_le_succ hfuel) hround hend

end Propagation

namespace Graph

variable {g : Graph} {bound : Nat}

theorem captureSets_propagate (h : (g.propagate bound).2 = none) :
    (g.propagate bound).1.captureSets = fun c => {v | g.Inherits c v} :=
  funext fun _ => Set.ext fun _ => mem_captured_propagate h

theorem captureSets_le_propagate (g : Graph) (bound : Nat) :
    g.captureSets ≤ (g.propagate bound).1.captureSets := (g.sound_propagation bound).grown

theorem captureSets_propagate_le (g : Graph) (bound : Nat) :
    (g.propagate bound).1.captureSets ≤ fun c => {v | g.Inherits c v} :=
  (g.sound_propagation bound).sound

/-- A propagation that comes to its end is the same under every larger bound. -/
theorem propagate_of_le {bound' : Nat} (h : (g.propagate bound).2 = none)
    (hle : g.visitBound bound ≤ g.visitBound bound') : g.propagate bound' = g.propagate bound := by
  have hend : (g.propagation bound).exceeded = false := by simpa [propagate] using h
  have hrun : g.propagation bound' = g.propagation bound :=
    Propagation.run_of_le hle (Nat.succ_le_succ hle) rfl hend
  have hend' : (g.propagation bound').exceeded = false := by rw [hrun, hend]
  rw [propagate, propagate, hend, hend', hrun]
  rfl

/-- Whatever a graph depends on and captures to begin with, propagation changes nothing but its
capture sets. If it comes to its end, they are the least closed family, and every larger bound on
visits gives the same; zero stands for the bound that is made from the number of closures. If it is
given up, that is reported with the bound, and the sets lie between those it began with and the
least closed family. -/
theorem propagate_isLeast (g : Graph) (bound : Nat) :
    (g.propagate bound).1.uncaptured = g.uncaptured ∧
      ∃ F, IsLeast {F | g.Closes F} F ∧
        ((g.propagate bound).2 = none → (g.propagate bound).1.captureSets = F ∧
          ∀ bound', g.visitBound bound ≤ g.visitBound bound' →
            (g.propagate bound').2 = none ∧ (g.propagate bound').1 = (g.propagate bound).1) ∧
        ∀ f, (g.propagate bound).2 = some f →
          f = { cause := .notConverged (g.visitBound bound) } ∧ f.kind = .nonConvergentCaptures ∧
            g.captureSets ≤ (g.propagate bound).1.captureSets ∧
            (g.propagate bound).1.captureSets ≤ F := by
  refine ⟨(g.sound_propagation bound).uncaptured_eq, _, g.isLeast_inherits, fun h => ?_,
    fun f hf => ?_⟩
  · refine ⟨captureSets_propagate h, fun bound' hle => ?_⟩
    rw [propagate_of_le h hle]
    exact ⟨h, rfl⟩
  · obtain rfl : f = { cause := .notConverged (g.visitBound bound) } := by
      rw [propagate] at hf
      split at hf
      · exact (Option.some.inj hf).symm
      · cases hf
    exact ⟨rfl, rfl, g.captureSets_le_propagate bound, g.captureSets_propagate_le bound⟩

/-! ## An example -/

/-- Three closures, each of which depends on the one before and the first on the last. The first
captures a variable. -/
def ring : Graph where
  body := default
  closures :=
    let x : Variable := ⟨.given 0, .declared, "x", "int", false⟩
    #[{ function := default, home := 0, captured := (∅ : OrderedSet Variable).insert x
        dependencies := (∅ : OrderedSet ClosureId).insert 2 },
      { function := default, home := 0, dependencies := (∅ : OrderedSet ClosureId).insert 0 },
      { function := default, home := 0, dependencies := (∅ : OrderedSet ClosureId).insert 1 }]

/-- Within one visit the last closure of the ring captures nothing yet, though it has to. Three
visits are enough, and more change nothing. -/
theorem propagate_ring : ∃ F, IsLeast {F | ring.Closes F} F ∧
    (ring.propagate 1).2 = some { cause := .notConverged 1 } ∧
    (ring.propagate 1).1.captureSets ≤ F ∧ (ring.propagate 1).1.captureSets ≠ F ∧
    (ring.propagate 3).1.captureSets = F ∧
    ∀ bound, 3 ≤ bound → (ring.propagate bound).1 = (ring.propagate 3).1 := by
  obtain ⟨-, F, hF, -, hgiven⟩ := propagate_isLeast ring 1
  obtain ⟨-, F', hF', hend, -⟩ := propagate_isLeast ring 3
  obtain rfl := hF.unique hF'
  have hone : (ring.propagate 1).2 = some { cause := .notConverged 1 } := by decide +kernel
  obtain ⟨-, -, -, hle⟩ := hgiven _ hone
  obtain ⟨hsets, hlarger⟩ := hend (by decide +kernel)
  refine ⟨F, hF, hone, hle, fun heq => ?_, hsets, fun bound hbound => ?_⟩
  · have hlast : ((ring.propagate 3).1.closure 2).captured.toList.length = 1 ∧
        ((ring.propagate 1).1.closure 2).captured.toList = [] := by decide +kernel
    obtain ⟨v, hv⟩ := List.exists_mem_of_length_pos (hlast.1 ▸ Nat.one_pos)
    have hmem : v ∈ (ring.propagate 1).1.captureSets 2 := by
      rw [heq, ← hsets]
      exact hv
    exact absurd (hlast.2 ▸ hmem : v ∈ []) List.not_mem_nil
  · refine (hlarger bound ?_).2
    rw [visitBound, visitBound, if_neg (by decide), if_neg (by omega)]
    exact hbound

end Graph

end Unnest
