import Unnest.Conversion
import Unnest.Proofs.Declarations.Methods

/-!
# The check of the declarations

Checking the declarations never finds anything: whatever body is converted, once the analysis and
the declaring of types and methods have come to their end, the declarations have no defect. So a
conversion that checks and one that does not are the same.

## Main statements

* `MethodBody.seated_of_analysis` : an analysis without a failure leaves every closure on its host.
* `MethodBody.verify_eq` : checking the declarations changes nothing.
-/

namespace Unnest

variable {m : MethodBody} {o : ConversionSettings} {a : Analysis} {s : DeclarationDraft}

/-! ## Analysis -/

namespace Analysis

variable {stage : Stage} {run : Graph → Graph × Option Failure}
  {rest : List (Stage × (Graph → Graph × Option Failure))} {a' : Analysis}

/-- Stages that all succeed begin with one that does. -/
theorem steps_cons (h : steps ((stage, run) :: rest) a = (a', none)) :
    ∃ g, run a.graph = (g, none) ∧
      steps rest { graph := g, trace := a.trace ++ [(stage, g)] } = (a', none) := by
  rw [steps, step] at h
  split at h
  · rename_i hstep
    split at hstep
    · rename_i g hrun
      obtain ⟨rfl, -⟩ := Prod.mk.inj hstep
      exact ⟨g, hrun, h⟩
    · exact nomatch (Prod.mk.inj hstep).2
  · exact nomatch (Prod.mk.inj h).2

end Analysis

/-- An analysis without a failure leaves every closure on its host. -/
theorem MethodBody.seated_of_analysis (h : Analysis.run o m = (a, none)) :
    m.Accepted ∧ a.graph.Seated m := by
  obtain ⟨g₁, hbuild, h⟩ := Analysis.steps_cons h
  obtain ⟨g₂, hcapture, h⟩ := Analysis.steps_cons h
  obtain ⟨g₃, hallocate, h⟩ := Analysis.steps_cons h
  obtain ⟨g₄, hhost, h⟩ := Analysis.steps_cons h
  obtain ⟨hgraph₁, hbuilt⟩ := Prod.mk.inj hbuild
  have hgraph₁ : m.built.graph = g₁ := hgraph₁
  subst hgraph₁
  obtain ⟨hgraph₂, hcaptured⟩ := Prod.mk.inj hcapture
  have hgraph₂ : m.captured.graph = g₂ := hgraph₂
  subst hgraph₂
  have haccepted : m.Accepted :=
    ⟨Option.isNone_iff_eq_none.mpr hbuilt, Option.isNone_iff_eq_none.mpr hcaptured⟩
  obtain ⟨g, hg, hcap, hp, hu⟩ := Graph.placed_of_allocate haccepted.analysed
  simp only [Analysis.allocateStage, hg] at hallocate
  obtain ⟨rfl, -⟩ := Prod.mk.inj hallocate
  have hseated :=
    (Graph.seated_of_unhosted (hcap.exact haccepted.analysed.toExact) hp hu).assignHosts hu
  simp only [hhost] at hseated
  refine ⟨haccepted, ?_⟩
  cases hprune : o.prune with
  | false =>
    simp only [hprune, Bool.false_eq_true, if_false] at h
    rw [← (Prod.mk.inj h).1]
    exact hseated
  | true =>
    simp only [hprune, if_true] at h
    rw [← (Prod.mk.inj h).1]
    exact hseated.prune

/-! ## Declarations -/

/-- What is declared without a failure fits the graph and stores no value. -/
theorem Graph.Seated.declared_of_declareAll {g : Graph} (hg : g.Seated m)
    (h : DeclarationDraft.declareAll { graph := g } = (s, none)) :
    ∃ method, m.method = some method ∧ s.graph.Seated m ∧
      s.declarations.Declared s.graph method ∧ s.declarations.storedValueEnv? = none := by
  obtain ⟨method, -, hm, -⟩ := hg.exact.holds.complete
  obtain ⟨s', hs', hsame, hdeclared⟩ := DeclarationDraft.declareAll_eq hg hm
  obtain ⟨rfl, hstored⟩ := Prod.mk.inj (hs'.symm.trans h)
  exact ⟨method, hm, hsame.seated hg, hdeclared, hstored⟩

/-- Checking the declarations changes nothing: once they are made, they have no defect, and so
conversions with and without the check agree in all they give. -/
theorem MethodBody.verify_eq (m : MethodBody) (o : ConversionSettings) :
    (∀ a s, Analysis.run o m = (a, none) →
      DeclarationDraft.declareAll { graph := a.graph } = (s, none) →
      s.declarations.defect? s.graph = none) ∧
    Conversion.run { o with verify := true } m = Conversion.run { o with verify := false } m := by
  have hnone (a : Analysis) (s : DeclarationDraft) (ha : Analysis.run o m = (a, none))
      (hs : DeclarationDraft.declareAll { graph := a.graph } = (s, none)) :
      s.declarations.defect? s.graph = none := by
    obtain ⟨-, hseated⟩ := seated_of_analysis ha
    obtain ⟨method, -, hseated', hdeclared, hstored⟩ := hseated.declared_of_declareAll hs
    exact hdeclared.defect_eq_none hseated' hstored
  refine ⟨hnone, ?_⟩
  -- the analysis does not depend on the check
  have hrun (b : Bool) : Analysis.run { o with verify := b } m = Analysis.run o m := rfl
  simp only [Conversion.run, hrun]
  obtain ⟨a, hfail⟩ | ⟨a, f, hfail⟩ : (∃ a, Analysis.run o m = (a, none)) ∨
      ∃ a f, Analysis.run o m = (a, some f) := by
    rcases Analysis.run o m with ⟨a, _ | f⟩
    · exact .inl ⟨a, rfl⟩
    · exact .inr ⟨a, f, rfl⟩
  · have hfinish : DeclarationDraft.finish { o with verify := true } a.graph =
        DeclarationDraft.finish { o with verify := false } a.graph := by
      rw [DeclarationDraft.finish, DeclarationDraft.finish]
      rcases hs : DeclarationDraft.declareAll { graph := a.graph } with ⟨s, _ | f⟩
      · simp only [hnone a s hfail hs, if_true, Bool.false_eq_true, if_false]
      · rfl
    rw [hfail]
    simp only [hfinish]
  · rw [hfail]

open Counter in
/-- The declarations of `Count` have no defect. -/
theorem MethodBody.verify_count : ∃ a s, Analysis.run {} count = (a, none) ∧
    DeclarationDraft.declareAll { graph := a.graph } = (s, none) ∧
    s.declarations.types.length = 2 ∧ s.declarations.defect? s.graph = none := by
  have ha : (Analysis.run {} count).2 = none := by decide +kernel
  have hs :
      (DeclarationDraft.declareAll { graph := (Analysis.run {} count).1.graph }).2 = none := by
    decide +kernel
  refine ⟨_, _, Prod.ext rfl ha, Prod.ext rfl hs, by decide +kernel, ?_⟩
  exact (verify_eq count {}).1 _ _ (Prod.ext rfl ha) (Prod.ext rfl hs)

end Unnest
