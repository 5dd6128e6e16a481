/-!
# Input files

A file that has been read is its path, as it is to be shown, and its text.
-/

set_option autoImplicit false

namespace GraphLint

/-- A file that has been read. -/
structure InputFile where
  /-- The path, as it is shown. -/
  path : String
  text : String
  deriving DecidableEq, Repr, Inhabited

end GraphLint
