import ConstraintEval.Report.Code
import ConstraintEval.Source.Span

/-!
# Diagnostics

A diagnostic is a report to the author of a model: a message under a code, labelled places
in the source text, notes, and suggestions. `Diagnostic.render` writes it as plain text.
-/

namespace ConstraintEval

/-- How serious a diagnostic is. -/
inductive Severity where
  | error
  | warning
  | note
  deriving DecidableEq

/-- The word for a severity. -/
def Severity.text : Severity → String
  | .error => "error"
  | .warning => "warning"
  | .note => "note"

/-- A place in the source text with what is to be said about it. -/
structure Label where
  span : Span
  message : String
  /-- Whether this is where the problem lies, and not only related to it. -/
  atProblem : Bool
  deriving DecidableEq

/-- A report to the author of a model. -/
structure Diagnostic where
  code : Code
  severity : Severity
  message : String
  labels : List Label
  notes : List String
  suggestions : List String
  deriving DecidableEq

namespace Diagnostic

/-- A report that says nothing yet. -/
def blank (code : Code) (severity : Severity) : Diagnostic := ⟨code, severity, "", [], [], []⟩

/-- A report of an error. -/
def error (code : Code) (message : String) : Diagnostic :=
  { blank code .error with message }

/-- Say something else. -/
def saying (d : Diagnostic) (message : String) : Diagnostic := { d with message }

/-- Label the place of the problem. -/
def labelled (d : Diagnostic) (span : Span) (message : String) : Diagnostic :=
  { d with labels := d.labels ++ [⟨span, message, true⟩] }

/-- Label a related place. -/
def labelledAside (d : Diagnostic) (span : Span) (message : String) : Diagnostic :=
  { d with labels := d.labels ++ [⟨span, message, false⟩] }

/-- Add a note. -/
def noted (d : Diagnostic) (note : String) : Diagnostic := { d with notes := d.notes ++ [note] }

/-- Suggest a mend. -/
def suggesting (d : Diagnostic) (suggestion : String) : Diagnostic :=
  { d with suggestions := d.suggestions ++ [suggestion] }

/-- Whether the report is of an error. -/
def isOfError (d : Diagnostic) : Bool := d.severity == .error

/-- The first labelled place at which the problem lies. -/
def place? (d : Diagnostic) : Option Span := (d.labels.find? (·.atProblem)).map (·.span)

/-- The severity, code and message in one line. -/
def headline (d : Diagnostic) : String := s!"{d.severity.text}[{d.code}]: {d.message}"

/-- One label as a line of text: an arrow points at the place of the problem. -/
def labelLine (l : Label) : String :=
  let marker := if l.atProblem then "-->" else "   "
  s!"  {marker} {l.span}: {l.message}"

/-- The lines of a report, the last of which is empty. -/
def lines (d : Diagnostic) : List String :=
  d.headline :: d.labels.map labelLine ++ d.notes.map ("  = note: " ++ ·) ++
    d.suggestions.map ("  = help: " ++ ·) ++ [""]

/-- A report as plain text. -/
def render (d : Diagnostic) : String := String.join (d.lines.map (· ++ "\n"))

/-- Several reports, one after another. -/
def renderAll (ds : List Diagnostic) : String := String.join (ds.map render)

/-- The closing line after a number of errors; none after no error. -/
def renderSummary : Nat → String
  | 0 => ""
  | 1 => "error: aborting due to previous error\n"
  | n => s!"error: aborting due to {n} previous errors\n"

end Diagnostic

end ConstraintEval
