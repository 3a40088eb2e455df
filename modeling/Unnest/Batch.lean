import Unnest.Converter
import Unnest.Syntax.Node

/-!
# Converting many methods

A batch converts methods one after the other with one converter. Methods without nested functions
are passed over. The batch may be cancelled between two methods; a failure does not stop it. What
fails is reported while the batch goes on, so that a listener may cancel it.
-/

namespace Unnest

inductive BatchOutcome where
  /-- The batch was cancelled before this method. -/
  | cancelled
  /-- There is nothing to convert. -/
  | bypassed
  | converted (conversion : Conversion)

/-- Why the conversion failed, if it was made and did. -/
def BatchOutcome.failure? : BatchOutcome → Option Failure
  | converted c => c.failure?.map (·.failure)
  | _ => none

/-- A method of a batch and what became of it. -/
structure BatchResult where
  body : MethodBody
  outcome : BatchOutcome

/-- What the methods of a batch have in common: the converter, the desk for reports and the state
that the listeners change. -/
structure BatchState (σ : Type) where
  converter : Converter
  desk : ReportDesk σ
  shared : σ
  echoed : String := ""

namespace BatchState

variable {σ : Type}

/-- Reports to the current reporter, if there is one. -/
def tell (s : BatchState σ) (report : Report) : BatchState σ :=
  match s.desk.fatalCurrent report s.shared with
  | some (desk, shared, echoed) => { s with desk, shared, echoed := s.echoed ++ echoed }
  | none => s

/-- Converts a method and reports its failure. -/
def convert (s : BatchState σ) (body : MethodBody) : BatchState σ × Conversion :=
  let (converter, c) := s.converter.run body
  (c.report?.elim { s with converter } { s with converter }.tell, c)

end BatchState

namespace Batch

variable {σ : Type}

/-- What happens to the method after `n` others. Before it, `stop` is asked whether the batch is
cancelled. -/
def step (stop : Nat → σ → Bool) (n : Nat) (body : MethodBody) (s : BatchState σ) :
    BatchState σ × BatchOutcome :=
  if stop n s.shared then (s, .cancelled)
  else if body.hasNestedFunctions then
    let (s, c) := s.convert body
    (s, .converted c)
  else (s, .bypassed)

/-- Converts the methods that are left after `n` others. -/
def resume (stop : Nat → σ → Bool) : Nat → List MethodBody → BatchState σ →
    BatchState σ × List BatchResult
  | _, [], s => (s, [])
  | n, body :: bodies, s =>
    let (s, outcome) := step stop n body s
    let (s, results) := resume stop (n + 1) bodies s
    (s, { body, outcome } :: results)

/-- Converts methods in order with a new converter; the results are in the same order. -/
def run (o : ConversionSettings) (stop : Nat → σ → Bool) (desk : ReportDesk σ) (shared : σ)
    (bodies : List MethodBody) : BatchState σ × List BatchResult :=
  resume stop 0 bodies { converter := { settings := o }, desk, shared }

end Batch

end Unnest
