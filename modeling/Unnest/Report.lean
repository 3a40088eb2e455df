import Unnest.Failure

/-!
# Reports

What is told about a method that could not be converted. A `Reporter` keeps every report it is
given, hands it to its listener and echoes it. Several reporters may exist; a `ReportDesk` knows
which one is current and restores the one before when a scope ends.

A listener is a function on a state `σ` that its owner chooses: a log, or a flag to be set.
-/

namespace Unnest

inductive ReportKind where
  /-- A step broke a guarantee of its own. -/
  | internalError
  /-- The body breaks the rules of its binder. -/
  | malformedInput
  deriving DecidableEq, Repr, Inhabited

structure Report where
  kind : ReportKind := .internalError
  /-- The step that found an internal error; empty for malformed input. -/
  stage : String := ""
  message : String := ""
  /-- The qualified name of the method, empty if unknown. -/
  method : String := ""
  loc : Loc := {}
  deriving DecidableEq, Repr, Inhabited

namespace Report

private def headline (r : Report) : String :=
  match r.kind with
  | .internalError =>
    "internal compiler error" ++ if r.stage.isEmpty then "" else " in " ++ r.stage
  | .malformedInput => "malformed input"

private def place (loc : Loc) : String :=
  if loc.isKnown then
    " at line " ++ toString loc.line ++
      if 0 < loc.column then ", column " ++ toString loc.column else ""
  else ""

/-- The report in one line. Method and place are left out when unknown. -/
def text (r : Report) : String :=
  "fatal error: " ++ r.headline ++ ": " ++ r.message ++
    (if r.method.isEmpty then "" else " while compiling '" ++ r.method ++ "'") ++ place r.loc

/-- What is echoed: the text up to its first NUL, and a newline. -/
def echo (r : Report) : String :=
  String.ofList (r.text.toList.takeWhile (· != '\x00')) ++ "\n"

end Report

structure Reporter (σ : Type) where
  reports : List Report := []
  listener : Option (Report → σ → σ) := none
  quiet : Bool := false

namespace Reporter

variable {σ : Type}

/-- Keeps the report and tells the listener. The text is what is echoed. -/
def fatal (r : Reporter σ) (report : Report) (state : σ) : Reporter σ × σ × String :=
  ({ r with reports := r.reports ++ [report] },
    match r.listener with
    | some tell => tell report state
    | none => state,
    if r.quiet then "" else report.echo)

def hasReports (r : Reporter σ) : Bool := !r.reports.isEmpty

def clear (r : Reporter σ) : Reporter σ := { r with reports := [] }

end Reporter

/-- Reporters by number, the current one, and those to come back when the open scopes end, innermost
first. -/
structure ReportDesk (σ : Type) where
  reporters : Array (Reporter σ)
  current : Option Nat := none
  saved : List (Option Nat) := []

namespace ReportDesk

variable {σ : Type}

/-- `n` fresh reporters, none of them current. -/
def ofCount (n : Nat) : ReportDesk σ := { reporters := Array.replicate n {} }

def modify (d : ReportDesk σ) (r : Nat) (f : Reporter σ → Reporter σ) : ReportDesk σ :=
  { d with reporters := d.reporters.modify r f }

/-- Reports to the reporter `r`; nothing happens if there is none. -/
def fatal (d : ReportDesk σ) (r : Nat) (report : Report) (state : σ) : ReportDesk σ × σ × String :=
  match d.reporters[r]? with
  | some reporter =>
    let (reporter, state, echoed) := reporter.fatal report state
    ({ d with reporters := d.reporters.setIfInBounds r reporter }, state, echoed)
  | none => (d, state, "")

/-- Reports to the current reporter, if there is one. -/
def fatalCurrent (d : ReportDesk σ) (report : Report) (state : σ) :
    Option (ReportDesk σ × σ × String) :=
  d.current.map (d.fatal · report state)

/-- Opens a scope in which `r` is current. -/
def push (d : ReportDesk σ) (r : Nat) : ReportDesk σ :=
  { d with current := some r, saved := d.current :: d.saved }

/-- Ends the innermost scope, if one is open. -/
def pop (d : ReportDesk σ) : ReportDesk σ :=
  match d.saved with
  | previous :: saved => { d with current := previous, saved }
  | [] => d

end ReportDesk

end Unnest
