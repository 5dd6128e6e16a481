import GraphLint.Diagnostic

/-!
# Listings

A listing shows diagnostics one per line, numbered in the order of the reports,
so that a change of the order shows.  It has a line even if there is nothing to
list.
-/

set_option autoImplicit false

namespace GraphLint.Listing

def emptyLine : String := "(no diagnostics)"

/-- Lines with their numbers, the first being 1. -/
def numberedFrom : Nat → List String → List String
  | _, [] => []
  | n, line :: rest => ("[" ++ toString n ++ "] " ++ line) :: numberedFrom (n + 1) rest

/-- The listing of some lines. -/
def ofLines (lines : List String) : String :=
  if lines.isEmpty then emptyLine else "\n".intercalate (numberedFrom 1 lines)

/-- The listing of diagnostics, with rule and severity. -/
def ofDiagnostics {ρ : Type} (ds : List (Diagnostic ρ)) : String := ofLines (ds.map (·.render))

/-- The listing of the messages of diagnostics. -/
def ofMessages {ρ : Type} (ds : List (Diagnostic ρ)) : String := ofLines (ds.map (·.message))

end GraphLint.Listing
