import GraphLint.Report.FileReport

/-!
# Summaries

A summary counts what reports say.  Whatever is no error counts as a warning.
-/

set_option autoImplicit false

namespace GraphLint

namespace FileReport

/-- The number of errors, faults of the text included. -/
def errorCount (r : FileReport) : Nat :=
  r.faults.length + r.diagnostics.countP (·.severity.isError)

/-- The number of diagnostics that are no errors. -/
def warningCount (r : FileReport) : Nat := r.diagnostics.countP (!·.severity.isError)

def total (count : FileReport → Nat) : List FileReport → Nat
  | [] => 0
  | r :: rs => count r + total count rs

end FileReport

/-- The counts of some reports. -/
structure Summary where
  errors : Nat
  warnings : Nat
  files : Nat
  deriving DecidableEq, Repr, Inhabited

namespace Summary

def ofReports (reports : List FileReport) : Summary where
  errors := FileReport.total (·.errorCount) reports
  warnings := FileReport.total (·.warningCount) reports
  files := reports.length

/-- Whether there is nothing to report. -/
def isClean (s : Summary) : Bool := s.errors = 0 && s.warnings = 0

end Summary

end GraphLint
