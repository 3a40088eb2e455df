import Unnest.Batch
import Unnest.Proofs.Lowered.Sound

/-!
# A batch and its methods

The methods of a batch share a converter, a desk for reports and a state that listeners may change.
None of it passes from one conversion to the next: a converter gives what a new one gives, since a
run clears the failure that the stages would take note of. So up to the method before which the
batch is cancelled, each result is the one of that method alone, and the current reporter is told
the failures in the order of the results.

## Main statements

* `Converter.run_eq` : a converter gives what the conversion of the method gives, whatever it was
  used for before.
* `Batch.run_alone` : the results and the reports of a batch.
-/

namespace Unnest

/-! ## Stages on a bench -/

namespace Workbench

/-- On a bench without a failure, `run` does to the graph what `stage` does. -/
def Performs (run : Workbench → Workbench × Option Failure)
    (stage : Graph → Graph × Option Failure) : Prop :=
  ∀ w, w.failure = none → run w =
    ({ w with graph := (stage w.graph).1, failure := (stage w.graph).2 }, (stage w.graph).2)

theorem performs_build : Performs build Analysis.buildStage := by
  intro w hw
  simp [build, walk, Analysis.buildStage, hw]

theorem performs_findCaptures : Performs findCaptures Analysis.captureStage := by
  intro w hw
  simp [findCaptures, walk, Analysis.captureStage, hw]

theorem performs_allocate : Performs allocate Analysis.allocateStage := by
  intro w hw
  cases h : w.graph.allocate <;> simp [allocate, settle, Analysis.allocateStage, h, hw]

theorem performs_assignHosts : Performs assignHosts Graph.assignHosts := by
  intro w hw
  simp [assignHosts, settle, hw]

theorem performs_prune : Performs (fun w => (w.prune.1, none)) fun g => (g.prune.1, none) := by
  intro w hw
  simp [prune, hw]

/-- Stages on a bench and stages of the analysis that go together. -/
theorem performs_analysing (o : ConversionSettings) :
    List.Forall₂ (fun a b => a.1 = b.1 ∧ Performs a.2 b.2) (analysing o) (Analysis.stages o) := by
  have hstages : List.Forall₂ (fun a b => a.1 = b.1 ∧ Performs a.2 b.2)
      [(.scoping, build), (.captures, findCaptures), (.allocation, allocate),
        (.hosting, assignHosts)]
      [(Stage.scoping, Analysis.buildStage), (.captures, Analysis.captureStage),
        (.allocation, Analysis.allocateStage), (.hosting, Graph.assignHosts)] :=
    .cons ⟨rfl, performs_build⟩ (.cons ⟨rfl, performs_findCaptures⟩
      (.cons ⟨rfl, performs_allocate⟩ (.cons ⟨rfl, performs_assignHosts⟩ .nil)))
  unfold analysing Analysis.stages
  split
  · exact List.rel_append hstages (.cons ⟨rfl, performs_prune⟩ .nil)
  · exact List.rel_append hstages .nil

theorem through_eq {stages : List (Stage × (Workbench → Workbench × Option Failure))}
    {graphStages : List (Stage × (Graph → Graph × Option Failure))}
    (h : List.Forall₂ (fun a b => a.1 = b.1 ∧ Performs a.2 b.2) stages graphStages)
    (w : Workbench) (hw : w.failure = none) (trace : List (Stage × Graph)) :
    let a := Analysis.steps graphStages { graph := w.graph, trace }
    w.through stages trace =
      ({ w with graph := a.1.graph, failure := a.2.map (·.failure) }, a.1.trace, a.2) := by
  induction h generalizing w trace with
  | nil => simp [through, Analysis.steps, ← hw]
  | @cons run stage _ _ hhead _ ih =>
    obtain ⟨s, run⟩ := run
    obtain ⟨_, stage⟩ := stage
    obtain ⟨rfl, (hperforms : Performs run stage)⟩ := hhead
    rcases hstage : stage w.graph with ⟨g, _ | f⟩
    · have hrun : run w = ({ w with graph := g, failure := none }, none) := by
        rw [hperforms w hw, hstage]
      simp only [through, hrun, Analysis.steps, Analysis.step, hstage]
      exact ih { w with graph := g, failure := none } rfl _
    · have hrun : run w = ({ w with graph := g, failure := some f }, some f) := by
        rw [hperforms w hw, hstage]
      simp [through, hrun, Analysis.steps, Analysis.step, hstage]

end Workbench

/-! ## The failure of lowering -/

/-- A method that is lowered leaves no failure. -/
theorem LoweringContext.failure_of_lowerMethod {ctx : LoweringContext} {block : Block}
    {st st' : LoweringState} {body : MethodBody}
    (h : ctx.lowerMethod block st = (some body, st')) : st'.failure = none := by
  obtain ⟨x, st₁, -, h⟩ := Lower.bind_inv h
  obtain ⟨b, st₂, hb, h⟩ := Lower.bind_inv h
  obtain ⟨rfl, rfl⟩ := Prod.mk.inj hb
  cases hfailed : st₁.failure with
  | some f =>
    simp [hfailed] at h
    exact nomatch (Prod.mk.inj h).1
  | none =>
    simp only [hfailed, Option.isSome_none, Bool.false_eq_true, if_false] at h
    obtain ⟨_, _, hget, h⟩ := Lower.bind_inv h
    obtain ⟨rfl, rfl⟩ := Prod.mk.inj hget
    cases hfind : ctx.declarations.methods.find? fun m =>
        (st₁.bodies.getD m.closure none).isNone with
    | some m =>
      simp only [hfind] at h
      exact nomatch (Prod.mk.inj h).1
    | none =>
      simp only [hfind] at h
      obtain ⟨-, rfl⟩ := Lower.pure_inv h
      exact hfailed

theorem DeclarationDraft.failure_of_lower {s s' : DeclarationDraft} {body : MethodBody}
    {failure : Option Failure} (h : s.lower none = (some body, s', failure)) : failure = none := by
  unfold lower at h
  split at h
  · obtain ⟨hbody, h⟩ := Prod.mk.inj h
    obtain ⟨-, rfl⟩ := Prod.mk.inj h
    exact LoweringContext.failure_of_lowerMethod (Prod.ext hbody rfl)
  · exact nomatch (Prod.mk.inj h).1

/-! ## Converters -/

namespace Converter

theorem through_declaring {o : ConversionSettings} {g : Graph} {s : DeclarationDraft}
    (hs : DeclarationDraft.declareAll { graph := g } = (s, none)) :
    let defect := if o.verify then s.declarations.defect? s.graph else none
    ∃ trace, ({ graph := g } : Workbench).through (Workbench.declaring o) [] =
      (⟨s.graph, s.declarations, s.supply, defect⟩, trace,
        defect.map fun f => { stage := .verifying, failure := f }) := by
  cases hv : o.verify with
  | false =>
    exact ⟨_, by simp [Workbench.through, Workbench.declaring, Workbench.declare, Workbench.draft,
      Workbench.settle, hs, hv]; rfl⟩
  | true =>
    cases hd : s.declarations.defect? s.graph <;>
    · exact ⟨_, by simp [Workbench.through, Workbench.declaring, Workbench.declare, Workbench.draft,
        Workbench.verify, Workbench.settle, hs, hv, hd]; rfl⟩

/-- On a bench without declarations, a converter completes a conversion as `DeclarationDraft.finish`
does. -/
theorem finish_eq (k : Converter) (trace : List (Stage × Graph)) (g : Graph) :
    let r := DeclarationDraft.finish k.settings g
    let c : Conversion := { graph := r.1, trace, outcome := r.2 }
    k.finish trace { graph := g } =
      (⟨k.settings, some c.graph, c.failure?.map (·.failure)⟩, c) := by
  rcases hd : DeclarationDraft.declareAll { graph := g } with ⟨s, _ | f⟩
  · obtain ⟨trace', hthrough⟩ := through_declaring (o := k.settings) hd
    rcases hdefect : if k.settings.verify then s.declarations.defect? s.graph else none with _ | f
    · rw [hdefect] at hthrough
      rcases hl : s.lower none with ⟨body, s', failure⟩
      have hgraph : s'.graph = s.graph := by
        have hlower := s.graph_lower none
        rwa [hl] at hlower
      cases body with
      | some body =>
        obtain rfl := DeclarationDraft.failure_of_lower hl
        simp [finish, hthrough, Workbench.lower, Workbench.draft, hl, DeclarationDraft.finish, hd,
          hdefect, keep, Conversion.failure?, hgraph]
      | none =>
        cases failure <;>
        · simp [finish, hthrough, Workbench.lower, Workbench.draft, hl, DeclarationDraft.finish, hd,
            hdefect, keep, Conversion.failure?, hgraph]
    · rw [hdefect] at hthrough
      simp [finish, hthrough, DeclarationDraft.finish, hd, hdefect, keep, Conversion.failure?]
  · simp [finish, Workbench.through, Workbench.declaring, Workbench.declare, Workbench.draft, hd,
      Workbench.settle, DeclarationDraft.finish, keep, Conversion.failure?]

/-- What a converter gives depends on its settings and the method only, and so does what it
keeps. -/
theorem run_eq (k : Converter) (body : MethodBody) :
    let c := Conversion.run k.settings body
    k.run body = (⟨k.settings, some c.graph, c.failure?.map (·.failure)⟩, c) := by
  have hanalysed := Workbench.through_eq (Workbench.performs_analysing k.settings)
    { graph := Graph.ofBody body } rfl []
  rcases ha : Analysis.run k.settings body with ⟨a, _ | f⟩
  · rw [Analysis.run] at ha
    simp only [ha] at hanalysed
    simp only [run, hanalysed, Conversion.run, Analysis.run, ha]
    exact finish_eq { k with failure := none } a.trace a.graph
  · rw [Analysis.run] at ha
    simp only [ha] at hanalysed
    simp [run, hanalysed, Conversion.run, Analysis.run, ha, keep, Conversion.failure?]

end Converter

/-! ## Reports -/

section

variable {σ : Type}

/-- The reporter that is told what fails. -/
def ReportDesk.installed? (d : ReportDesk σ) : Option (Reporter σ) :=
  d.current.bind fun r => d.reporters[r]?

/-- What the listener of a reporter makes of the shared state. -/
def Reporter.hear (r : Reporter σ) (report : Report) (shared : σ) : σ :=
  (r.fatal report shared).2.1

/-- The shared state after `reports`, of which the installed reporter is told. -/
def ReportDesk.heard (d : ReportDesk σ) (shared : σ) (reports : List Report) : σ :=
  d.installed?.elim shared fun r => reports.foldl (fun x report => r.hear report x) shared

theorem ReportDesk.heard_nil (d : ReportDesk σ) (shared : σ) : d.heard shared [] = shared := by
  rw [heard]
  cases d.installed? <;> rfl

namespace BatchState

variable {s s₁ s₂ : BatchState σ} {reports reports' : List Report}

/-- State `s` becomes `s'` when `reports` are made. -/
structure Told (s : BatchState σ) (reports : List Report) (s' : BatchState σ) : Prop where
  settings : s'.converter.settings = s.converter.settings
  installed : s'.desk.installed? =
    s.desk.installed?.map fun r => { r with reports := r.reports ++ reports }
  shared : s'.shared = s.desk.heard s.shared reports

theorem told_nil (hsettings : s₁.converter.settings = s.converter.settings)
    (hdesk : s₁.desk = s.desk) (hshared : s₁.shared = s.shared) : s.Told [] s₁ where
  settings := hsettings
  installed := by simp [hdesk]
  shared := hshared.trans (s.desk.heard_nil s.shared).symm

/-- What is heard later comes after what is heard first. -/
theorem Told.heard_eq (h : s.Told reports s₁) (reports' : List Report) :
    s₁.desk.heard s₁.shared reports' = s.desk.heard s.shared (reports ++ reports') := by
  rw [ReportDesk.heard, h.installed, h.shared, ReportDesk.heard, ReportDesk.heard]
  cases s.desk.installed? with
  | none => rfl
  | some r => exact (List.foldl_append ..).symm

theorem Told.append (h₁ : s.Told reports s₁) (h₂ : s₁.Told reports' s₂) :
    s.Told (reports ++ reports') s₂ where
  settings := h₂.settings.trans h₁.settings
  installed := by
    rw [h₂.installed, h₁.installed, Option.map_map]
    simp [Function.comp_def]
  shared := h₂.shared.trans (h₁.heard_eq reports')

theorem told_tell (s : BatchState σ) (report : Report) : s.Told [report] (s.tell report) := by
  cases hcurrent : s.desk.current with
  | none =>
    have htell : s.tell report = s := by simp [tell, ReportDesk.fatalCurrent, hcurrent]
    have hnone : s.desk.installed? = none := by simp [ReportDesk.installed?, hcurrent]
    rw [htell]
    exact ⟨rfl, by simp [hnone], by simp [ReportDesk.heard, hnone]⟩
  | some i =>
    cases hreporter : s.desk.reporters[i]? with
    | none =>
      have hnone : s.desk.installed? = none := by
        simp [ReportDesk.installed?, hcurrent, hreporter]
      constructor <;>
      · simp [tell, ReportDesk.fatalCurrent, ReportDesk.fatal, ReportDesk.heard, hcurrent,
          hreporter, hnone]
    | some r =>
      have hsome : s.desk.installed? = some r := by
        simp [ReportDesk.installed?, hcurrent, hreporter]
      obtain ⟨hlt, rfl⟩ := Array.getElem?_eq_some_iff.mp hreporter
      constructor
      · simp [tell, ReportDesk.fatalCurrent, ReportDesk.fatal, hcurrent, hreporter]
      · rw [hsome]
        simp [tell, ReportDesk.fatalCurrent, ReportDesk.fatal, hcurrent, ReportDesk.installed?,
          Reporter.fatal, hlt]
      · rw [ReportDesk.heard, hsome]
        simp [tell, ReportDesk.fatalCurrent, ReportDesk.fatal, hcurrent, hreporter,
          Reporter.hear]

/-- A conversion in the middle of a batch is the conversion of the method, and its failure is
reported. -/
theorem convert_spec (s : BatchState σ) (body : MethodBody) :
    (s.convert body).2 = Conversion.run s.converter.settings body ∧
      s.Told (Conversion.run s.converter.settings body).report?.toList (s.convert body).1 := by
  have hrun := s.converter.run_eq body
  refine ⟨by simp [convert, hrun], ?_⟩
  generalize Conversion.run s.converter.settings body = c at hrun ⊢
  have hconverter : s.Told [] { s with converter := (s.converter.run body).1 } :=
    told_nil (by simp [hrun]) rfl rfl
  cases hreport : c.report? with
  | none => simpa [convert, hrun, hreport] using hconverter
  | some report => simpa [convert, hrun, hreport] using hconverter.append (told_tell _ report)

end BatchState

end

/-! ## Batches -/

namespace Batch

variable {σ : Type} {o : ConversionSettings} {stop : Nat → σ → Bool} {n : Nat} {s : BatchState σ}

/-- What becomes of a method that is converted alone. -/
def outcomeAlone (o : ConversionSettings) (body : MethodBody) : BatchOutcome :=
  if body.hasNestedFunctions then .converted (Conversion.run o body) else .bypassed

/-- The reports of a list of results. -/
def reports (results : List BatchResult) : List Report :=
  results.filterMap fun r => match r.outcome with
    | .converted c => c.report?
    | _ => none

theorem reports_append (results results' : List BatchResult) :
    reports (results ++ results') = reports results ++ reports results' := List.filterMap_append

/-- What `stop` is asked about before method `i`, if none is cancelled before: the shared state once
the failures of the methods before it are heard, each of which is converted alone. -/
def observed (o : ConversionSettings) (desk : ReportDesk σ) (shared : σ) (bodies : List MethodBody)
    (i : Nat) : σ :=
  desk.heard shared (reports ((bodies.take i).map fun b => ⟨b, outcomeAlone o b⟩))

theorem step_of_stop (body : MethodBody) (h : stop n s.shared = true) :
    step stop n body s = (s, .cancelled) := by
  simp [step, h]

theorem step_of_go (body : MethodBody) (h : stop n s.shared = false) :
    (step stop n body s).2 = outcomeAlone s.converter.settings body ∧
      s.Told (reports [⟨body, (step stop n body s).2⟩]) (step stop n body s).1 := by
  cases hnested : body.hasNestedFunctions with
  | false =>
    have hstep : step stop n body s = (s, .bypassed) := by simp [step, h, hnested]
    rw [hstep]
    exact ⟨by simp [outcomeAlone, hnested], BatchState.told_nil rfl rfl rfl⟩
  | true =>
    obtain ⟨hc, htold⟩ := s.convert_spec body
    have hstep : step stop n body s = ((s.convert body).1, .converted (s.convert body).2) := by
      simp [step, h, hnested]
    rw [hstep, hc]
    refine ⟨by simp [outcomeAlone, hnested], ?_⟩
    cases hreport : (Conversion.run s.converter.settings body).report? <;>
    · simpa [reports, hreport] using htold

/-- Once it is cancelled, a batch stays so: nothing is converted and nothing reported. -/
theorem resume_of_stop (hstay : ∀ n x, stop n x = true → stop (n + 1) x = true)
    (bodies : List MethodBody) (h : stop n s.shared = true) :
    resume stop n bodies s = (s, bodies.map (⟨·, .cancelled⟩)) := by
  induction bodies generalizing n with
  | nil => rfl
  | cons body bodies ih =>
    have hrest := ih (hstay n s.shared h)
    simp [resume, step_of_stop body h, hrest]

theorem observed_zero (desk : ReportDesk σ) (shared : σ) (bodies : List MethodBody) :
    observed o desk shared bodies 0 = shared := desk.heard_nil shared

/-- What is observed after a method is observed in the state that the method leaves. -/
theorem observed_succ {body : MethodBody} {s₁ : BatchState σ}
    (h : s.Told (reports [⟨body, outcomeAlone s.converter.settings body⟩]) s₁)
    (bodies : List MethodBody) (i : Nat) :
    observed s.converter.settings s.desk s.shared (body :: bodies) (i + 1) =
      observed s₁.converter.settings s₁.desk s₁.shared bodies i := by
  rw [observed, observed, h.settings, h.heard_eq, ← reports_append]
  rfl

/-- The results of the methods that are left: up to the first one before which `stop` says so those
of the methods alone, and from there on none. -/
theorem resume_spec (hstay : ∀ n x, stop n x = true → stop (n + 1) x = true)
    (bodies : List MethodBody) (n : Nat) (s : BatchState σ) :
    s.Told (reports (resume stop n bodies s).2) (resume stop n bodies s).1 ∧
    ∃ k ≤ bodies.length,
      (∀ i < k, stop (n + i) (observed s.converter.settings s.desk s.shared bodies i) = false) ∧
      (k < bodies.length →
        stop (n + k) (observed s.converter.settings s.desk s.shared bodies k) = true) ∧
      (resume stop n bodies s).2 = bodies.mapIdx fun i b =>
        ⟨b, if i < k then outcomeAlone s.converter.settings b else .cancelled⟩ := by
  induction bodies generalizing n s with
  | nil => exact ⟨BatchState.told_nil rfl rfl rfl, 0, Nat.le_refl 0, by simp, by simp, rfl⟩
  | cons body bodies ih =>
    cases hstop : stop n s.shared with
    | true =>
      rw [resume_of_stop hstay _ hstop]
      refine ⟨?_, 0, Nat.zero_le _, by simp, fun _ => by rwa [observed_zero], List.ext_getElem?
        fun i => by simp only [List.getElem?_map, List.getElem?_mapIdx, Nat.not_lt_zero, if_false]⟩
      have hnone : reports ((body :: bodies).map (⟨·, .cancelled⟩)) = [] := by
        simp [reports]
      rw [hnone]
      exact BatchState.told_nil rfl rfl rfl
    | false =>
      obtain ⟨houtcome, htold⟩ := step_of_go body hstop
      obtain ⟨hrest, k, hle, hgo, hend, hk⟩ := ih (n + 1) (step stop n body s).1
      have hall := htold.append hrest
      rw [← reports_append] at hall
      rw [houtcome] at htold
      simp only [← observed_succ htold, Nat.add_right_comm n 1] at hgo hend
      refine ⟨hall, k + 1, Nat.succ_le_succ hle, fun i hi => ?_, fun hlt => ?_, ?_⟩
      · cases i with
        | zero => rwa [observed_zero]
        | succ i => exact hgo i (Nat.lt_of_succ_lt_succ hi)
      · exact hend (Nat.lt_of_succ_lt_succ hlt)
      · rw [htold.settings] at hk
        simp [resume, hk, houtcome]

/-- The reports are those of the failures, with their words and their places. -/
theorem map_reports (results : List BatchResult) :
    (reports results).map (fun r => (r.message, r.loc)) =
      (results.filterMap (·.outcome.failure?)).map fun f => (f.message, f.loc) := by
  rw [reports, List.map_filterMap, List.map_filterMap]
  apply List.filterMap_congr
  rintro ⟨body, outcome⟩ -
  cases outcome with
  | cancelled => rfl
  | bypassed => rfl
  | converted c => simp [BatchOutcome.failure?, Conversion.report?, Function.comp_def]

/-- The state and the results that a batch ends with, against those of its methods alone. -/
structure Alone (o : ConversionSettings) (stop : Nat → σ → Bool) (desk : ReportDesk σ) (shared : σ)
    (bodies : List MethodBody) (state : BatchState σ) (results : List BatchResult) : Prop where
  /-- There is one result for each method, in order. -/
  order : results.map (·.body) = bodies
  /-- The batch is cancelled from the first method on before which `stop` says so, if there is one.
  The others are passed over, or they become what a new converter makes of them. -/
  outcomes : ∃ k ≤ bodies.length, (∀ i < k, stop i (observed o desk shared bodies i) = false) ∧
    (k < bodies.length → stop k (observed o desk shared bodies k) = true) ∧
    ∀ (i : Nat) (r : BatchResult), results[i]? = some r →
      (k ≤ i → r.outcome = .cancelled) ∧
      (i < k → (r.outcome = .bypassed ↔ r.body.hasNestedFunctions = false) ∧
        (r.body.hasNestedFunctions = true →
          r.outcome = .converted (Converter.run { settings := o } r.body).2))
  /-- The installed reporter is told each failure once and in order, and so is its listener. -/
  reports : ∀ reporter, desk.installed? = some reporter → ∃ reports : List Report,
    state.desk.installed? = some { reporter with reports := reporter.reports ++ reports } ∧
    state.shared = reports.foldl (fun x r => reporter.hear r x) shared ∧
    reports.map (fun r => (r.message, r.loc)) =
      (results.filterMap (·.outcome.failure?)).map fun f => (f.message, f.loc)

/-- A batch comes to the same as its methods alone, up to the method before which it is cancelled.
Only the place of that method depends on the others, through the state that listeners change. -/
theorem run_alone (o : ConversionSettings) (stop : Nat → σ → Bool)
    (hstay : ∀ n x, stop n x = true → stop (n + 1) x = true) (desk : ReportDesk σ) (shared : σ)
    (bodies : List MethodBody) :
    Alone o stop desk shared bodies (run o stop desk shared bodies).1
      (run o stop desk shared bodies).2 := by
  obtain ⟨htold, k, hle, hgo, hend, hk⟩ :=
    resume_spec hstay bodies 0 { converter := { settings := o }, desk, shared }
  simp only [Nat.zero_add] at hgo hend
  refine ⟨?_, ⟨k, hle, hgo, hend, ?_⟩, ?_⟩
  · rw [run, hk]
    apply List.ext_getElem?
    intro i
    simp [Function.comp_def]
  · intro i r hr
    rw [run, hk, List.getElem?_mapIdx] at hr
    obtain ⟨b, -, rfl⟩ := Option.map_eq_some_iff.mp hr
    have hfresh := (Converter.run_eq { settings := o } b)
    constructor
    · intro hle
      simp [Nat.not_lt.mpr hle]
    · intro hlt
      cases hnested : b.hasNestedFunctions <;> simp [hlt, outcomeAlone, hnested, hfresh]
  · intro reporter hreporter
    refine ⟨_, ?_, ?_, map_reports _⟩
    · rw [run, htold.installed]
      simp [hreporter]
    · rw [run, htold.shared]
      simp [ReportDesk.heard, hreporter]

open Counter in
/-- The listener cancels a batch when the method without a receiver fails, so that the last method
is not converted. -/
theorem alone_count :
    let desk : ReportDesk Bool :=
      { reporters := #[{ listener := some fun _ _ => true }], current := some 0 }
    let bodies := [count, { count with receiver := none }, count]
    let out := run {} (fun _ x => x) desk false bodies
    Alone {} (fun _ x => x) desk false bodies out.1 out.2 ∧ out.1.shared = true ∧
      out.2.map (·.outcome.failure?.isSome) = [false, true, false] ∧
      out.2[2]?.map (·.outcome) = some .cancelled := by
  intro desk bodies out
  have hlast : out.2[2]?.map (·.outcome.ctorIdx) = some 0 := by decide +kernel
  refine ⟨run_alone {} (fun _ x => x) (fun _ _ h => h) _ _ _, by decide +kernel,
    by decide +kernel, ?_⟩
  obtain ⟨⟨body, outcome⟩, hr, hidx⟩ := Option.map_eq_some_iff.mp hlast
  rw [hr]
  cases outcome with
  | cancelled => rfl
  | bypassed => cases hidx
  | converted => cases hidx

end Batch

end Unnest
