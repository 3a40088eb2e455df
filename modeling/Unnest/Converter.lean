import Unnest.Workbench

/-!
# Converters

A `Converter` is used for one method after the other. It keeps the graph and the failure of its last
run; a run clears the failure before its first stage, and puts its own graph in place of the old
one.
-/

namespace Unnest

namespace Workbench

/-- Goes through stages up to the first that fails. The graph is noted after each completed one. -/
def through : List (Stage × (Workbench → Workbench × Option Failure)) → List (Stage × Graph) →
    Workbench → Workbench × List (Stage × Graph) × Option StageFailure
  | [], trace, w => (w, trace, none)
  | (stage, run) :: rest, trace, w =>
    match run w with
    | (w, none) => through rest (trace ++ [(stage, w.graph)]) w
    | (w, some failure) => (w, trace, some { stage, failure })

/-- The stages that build and analyse the graph. -/
def analysing (o : ConversionSettings) :
    List (Stage × (Workbench → Workbench × Option Failure)) :=
  [(.scoping, build), (.captures, findCaptures), (.allocation, allocate),
    (.hosting, assignHosts)] ++
  if o.prune then [(.pruning, fun w => (w.prune.1, none))] else []

/-- The stages that declare types and methods. -/
def declaring (o : ConversionSettings) :
    List (Stage × (Workbench → Workbench × Option Failure)) :=
  (.declaring, declare) :: if o.verify then [(.verifying, verify)] else []

end Workbench

structure Converter where
  settings : ConversionSettings
  /-- The graph of the last run. -/
  graph : Option Graph := none
  /-- The failure of the last run. -/
  failure : Option Failure := none

namespace Converter

/-- The converter after a run that leaves the bench `w`. -/
def keep (k : Converter) (w : Workbench) : Converter :=
  { k with graph := some w.graph, failure := w.failure }

/-- Declares, checks and lowers on a bench with an analysed graph. -/
def finish (k : Converter) (trace : List (Stage × Graph)) (w : Workbench) :
    Converter × Conversion :=
  match w.through (Workbench.declaring k.settings) [] with
  | (w, _, some f) => (k.keep w, { graph := w.graph, trace, outcome := .error f })
  | (w, _, none) =>
    match w.lower with
    | (w, some body) =>
      (k.keep w, {
        graph := w.graph
        trace
        outcome := .ok { body, declarations := w.declarations, supply := w.supply } })
    | (w, none) =>
      let failure := w.failure.getD { cause := .incompleteBody }
      ({ k.keep w with failure := some failure },
        { graph := w.graph, trace, outcome := .error ⟨.lowering, failure⟩ })

/-- Converts a method. -/
def run (k : Converter) (body : MethodBody) : Converter × Conversion :=
  let k := { k with failure := none }
  let w : Workbench := { graph := Graph.ofBody body, failure := k.failure }
  match w.through (Workbench.analysing k.settings) [] with
  | (w, trace, some f) => (k.keep w, { graph := w.graph, trace, outcome := .error f })
  | (w, trace, none) => k.finish trace w

end Converter

end Unnest
