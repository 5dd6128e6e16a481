import GraphLint.Files.Path
import GraphLint.Text.Blank

/-!
# Alternatives in braces

A pattern may offer alternatives: `a.{x,y}` stands for `a.x` and `a.y`.  The
group goes from the first opening brace to the first closing one, and only if
they come in this order.  There is one group; braces behind it are ordinary
characters.  Blanks around an alternative do not belong to it.
-/

set_option autoImplicit false

namespace GraphLint.Braces

def expandChars (pattern : List Char) : List (List Char) :=
  let before := pattern.takeWhile (· ≠ '\x7b')
  let rest := (pattern.drop before.length).drop 1
  let inside := rest.takeWhile (· ≠ '\x7d')
  if before.contains '\x7d' || !rest.contains '\x7d' then [pattern]
  else
    (Path.splitOn ',' inside).map fun alternative =>
      before ++ trimBlanks alternative ++ rest.drop (inside.length + 1)

/-- The patterns that a pattern stands for, in order. -/
def expand (pattern : String) : List String :=
  (expandChars pattern.toList).map String.ofList

end GraphLint.Braces
