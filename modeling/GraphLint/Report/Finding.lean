import GraphLint.Data.Datum
import GraphLint.Report.FileReport
import GraphLint.Text.LineIndex

/-!
# Findings

A finding is one entry of the output: a fault of a text or a diagnostic of a
rule, with lines and columns in place of bytes.  Faults count as errors, under a
rule name of their own, and come before the diagnostics of their file.
-/

set_option autoImplicit false

namespace GraphLint

/-- One entry of the output. -/
structure Finding where
  file : String
  rule : String
  severity : Severity
  message : String
  /-- The places of the nodes to blame, in the order of the report. -/
  locations : List Location
  deriving DecidableEq, Repr, Inhabited

namespace Finding

/-- The rule name of faults in a text. -/
def syntaxRule : String := "syntax"

/-- A fault of the text under a path, as a finding. -/
def ofFault (path : String) (index : LineIndex) (fault : SourceFault) : Finding where
  file := path
  rule := syntaxRule
  severity := .error
  message := fault.message
  locations := [index.location fault.offset]

/-- A diagnostic of the text under a path, as a finding. -/
def ofDiagnostic (path : String) (index : LineIndex) (d : Diagnostic Span) : Finding where
  file := path
  rule := d.rule
  severity := d.severity
  message := d.message
  locations := d.culprits.map fun c => index.location c.place.start

/-- The place that a finding is shown at, which is that of the last node. -/
def primary? (f : Finding) : Option Location := f.locations.getLast?

/-- The line that shows a finding: `path:line:column: severity[rule]: message`.  A
finding without nodes has no place. -/
def line (f : Finding) : String :=
  let place := match f.primary? with
    | some location => ":" ++ location.render
    | none => ""
  f.file ++ place ++ ": " ++ f.severity.label ++ "[" ++ f.rule ++ "]: " ++ f.message

end Finding

def Location.toDatum (l : Location) : Datum :=
  .object [("line", .number (toString l.line)), ("column", .number (toString l.column))]

def Finding.toDatum (f : Finding) : Datum :=
  .object
    [("file", .string f.file), ("rule", .string f.rule), ("severity", .string f.severity.label),
     ("message", .string f.message), ("locations", .list (f.locations.map Location.toDatum))]

/-- What a report says, entry by entry. -/
def FileReport.findings (r : FileReport) : List Finding :=
  let index := LineIndex.ofText r.file.text
  r.faults.map (Finding.ofFault r.file.path index) ++
    r.diagnostics.map (Finding.ofDiagnostic r.file.path index)

/-- What several reports say, file by file. -/
def findings (reports : List FileReport) : List Finding := reports.flatMap (·.findings)

end GraphLint
