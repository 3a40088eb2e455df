import Unnest.Captures.Propagate
import Unnest.Declarations.Verify
import Unnest.Environments.Allocate
import Unnest.Environments.Host
import Unnest.Environments.Prune
import Unnest.Graph.Scoping
import Unnest.Graph.Text
import Unnest.Lowered.Tree
import Unnest.Report

/-!
# Converting a method

`Conversion.run` takes a method body through all stages: the graph is built and analysed, types and
methods are declared and checked, and the trees are lowered. The first stage that fails ends the
conversion. The graph is kept in either case, and so is its state after each stage of the analysis.
-/

namespace Unnest

inductive Stage where
  | scoping
  | captures
  | allocation
  | hosting
  | pruning
  | declaring
  | verifying
  | lowering
  deriving DecidableEq, Repr, Inhabited

def Stage.name : Stage → String
  | scoping => "scope tree construction"
  | captures => "capture analysis"
  | allocation => "environment allocation"
  | hosting => "environment linearization"
  | pruning => "environment optimization"
  | declaring => "code synthesis"
  | verifying => "environment verification"
  | lowering => "tree rewriting"

structure ConversionSettings where
  /-- Remove environments that hold only the receiver. -/
  prune : Bool := true
  /-- Check the declarations before the trees are lowered. -/
  verify : Bool := true
  deriving DecidableEq, Repr, Inhabited

/-- A failure and the stage that found it. -/
structure StageFailure where
  stage : Stage
  failure : Failure
  deriving DecidableEq, Repr

/-- A method with all its nested functions turned into methods. -/
structure LoweredBody where
  body : MethodBody
  declarations : Declarations
  supply : Supply
  deriving Inhabited

structure Conversion where
  graph : Graph
  /-- The graph after each completed stage of the analysis. -/
  trace : List (Stage × Graph) := []
  outcome : Except StageFailure LoweredBody

/-! ## Analysis -/

/-- The graph under analysis and its states so far. -/
structure Analysis where
  graph : Graph
  trace : List (Stage × Graph) := []

namespace Analysis

/-- Goes through one stage. -/
def step (stage : Stage) (run : Graph → Graph × Option Failure) (a : Analysis) :
    Analysis × Option StageFailure :=
  match run a.graph with
  | (g, none) => ({ graph := g, trace := a.trace ++ [(stage, g)] }, none)
  | (g, some failure) => ({ a with graph := g }, some { stage, failure })

/-- Goes through stages one after the other up to the first failure. -/
def steps : List (Stage × (Graph → Graph × Option Failure)) → Analysis →
    Analysis × Option StageFailure
  | [], a => (a, none)
  | (stage, run) :: rest, a =>
    match a.step stage run with
    | (a, none) => steps rest a
    | (a, some f) => (a, some f)

def buildStage (g : Graph) : Graph × Option Failure :=
  let d := Draft.build { graph := g }
  (d.graph, d.failure)

def captureStage (g : Graph) : Graph × Option Failure :=
  let d := Draft.findCaptures { graph := g }
  (d.graph, d.failure)

def allocateStage (g : Graph) : Graph × Option Failure :=
  match g.allocate with
  | .ok g => (g, none)
  | .error f => (g, some f)

/-- The stages of the analysis in their order. -/
def stages (o : ConversionSettings) : List (Stage × (Graph → Graph × Option Failure)) :=
  [(.scoping, buildStage), (.captures, captureStage), (.allocation, allocateStage),
    (.hosting, Graph.assignHosts)] ++
  if o.prune then [(.pruning, fun g => (g.prune.1, none))] else []

def run (o : ConversionSettings) (body : MethodBody) : Analysis × Option StageFailure :=
  steps (stages o) { graph := Graph.ofBody body }

end Analysis

/-! ## Lowering -/

namespace DeclarationDraft

/-- Lowers the trees of a graph for which everything is declared. An earlier failure is kept and
spoils the result. -/
def lower (s : DeclarationDraft) (failure : Option Failure) :
    Option MethodBody × DeclarationDraft × Option Failure :=
  match s.graph.body.method, s.graph.body.block with
  | some method, some block =>
    let ctx : LoweringContext := { graph := s.graph, declarations := s.declarations, method }
    let (body, st) := (ctx.lowerMethod block).run
      { supply := s.supply, bodies := (s.declarations.methods.map (·.body)).toArray, failure }
    let methods := s.declarations.methods.mapIdx fun i m =>
      { m with body := st.bodies.getD i none }
    (body, { s with declarations.methods := methods, supply := st.supply }, st.failure)
  | _, _ => (none, s, failure)

/-- Declares, checks and lowers. -/
def finish (o : ConversionSettings) (g : Graph) : Graph × Except StageFailure LoweredBody :=
  match DeclarationDraft.declareAll { graph := g } with
  | (s, some f) => (s.graph, .error ⟨.declaring, f⟩)
  | (s, none) =>
    match if o.verify then s.declarations.defect? s.graph else none with
    | some f => (s.graph, .error ⟨.verifying, f⟩)
    | none =>
      match s.lower none with
      | (some body, s, none) =>
        (s.graph, .ok { body, declarations := s.declarations, supply := s.supply })
      | (_, s, some f) => (s.graph, .error ⟨.lowering, f⟩)
      | (none, s, none) => (s.graph, .error ⟨.lowering, { cause := .incompleteBody }⟩)

end DeclarationDraft

namespace Conversion

/-- Converts a method. -/
def run (o : ConversionSettings) (body : MethodBody) : Conversion :=
  match Analysis.run o body with
  | (a, some f) => { graph := a.graph, trace := a.trace, outcome := .error f }
  | (a, none) =>
    let (graph, outcome) := DeclarationDraft.finish o a.graph
    { graph, trace := a.trace, outcome }

def failure? (c : Conversion) : Option StageFailure :=
  match c.outcome with
  | .ok _ => none
  | .error f => some f

/-- What is reported when the conversion fails. Only failures of the conversion's own name the
stage. -/
def report? (c : Conversion) : Option Report :=
  c.failure?.map fun f =>
    let malformed := f.failure.kind = .malformedInput
    { kind := if malformed then .malformedInput else .internalError
      stage := if malformed then "" else f.stage.name
      message := f.failure.message
      method := (c.graph.body.method.map (·.fullName)).getD ""
      loc := f.failure.loc }

/-- The states of the graph, each under the name of its stage. -/
def traceText (c : Conversion) : String :=
  String.join (c.trace.map fun (stage, g) =>
    "// -----// After " ++ stage.name ++ " //----- //\n" ++ g.text)

end Conversion

end Unnest
