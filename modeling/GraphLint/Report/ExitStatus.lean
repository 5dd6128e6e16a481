import GraphLint.Report.FileReport

/-!
# Exit statuses

The status that a run ends with tells scripts how it went.
-/

set_option autoImplicit false

namespace GraphLint

/-- How a run went. -/
inductive ExitStatus
  | success
  | validationError
  /-- The configuration is no good, or no file is to be checked. -/
  | configurationError
  /-- The text of a schema has a fault. -/
  | schemaError
  | inputError
  /-- The text of a checked file has a fault. -/
  | syntaxError
  deriving DecidableEq, Repr, Inhabited

namespace ExitStatus

def code : ExitStatus → Nat
  | success => 0
  | validationError => 1
  | configurationError => 2
  | schemaError => 3
  | inputError => 4
  | syntaxError => 5

def label : ExitStatus → String
  | success => "success"
  | validationError => "validation error"
  | configurationError => "configuration error"
  | schemaError => "schema error"
  | inputError => "I/O error"
  | syntaxError => "parse error"

/-- The status that reports lead to.  A fault in any text outweighs all else. -/
def ofReports (reports : List FileReport) : ExitStatus :=
  if reports.any (·.hasFaults) then .syntaxError
  else if reports.any (·.hasErrors) then .validationError
  else .success

end ExitStatus

end GraphLint
