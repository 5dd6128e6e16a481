/-!
# Lines and columns

A `LineIndex` turns byte offsets of one text into line and column.  Lines are
counted from one and end at a newline only: a carriage return is a byte of its
line like any other.  Columns are counted from one, in bytes.

Every offset has a location.  An offset past the end of the text counts on in
the last line, as if that line went on for ever.
-/

set_option autoImplicit false

namespace GraphLint

/-- A place in a text as people read it. -/
structure Location where
  /-- Line number, the first line being 1. -/
  line : Nat
  /-- Byte in the line, the first being 1. -/
  column : Nat
  deriving DecidableEq, Repr, Inhabited

/-- The written form of a location, `line:column`. -/
def Location.render (l : Location) : String :=
  toString l.line ++ ":" ++ toString l.column

/-- Offsets at which the lines of one text begin. -/
structure LineIndex where
  /-- Starts of the lines after the first, ascending. -/
  laterStarts : List Nat
  deriving DecidableEq, Repr, Inhabited

namespace LineIndex

/-- The offsets just past each newline of `cs`, where `cs` begins at `offset`. -/
def startsAfter : Nat → List Char → List Nat
  | _, [] => []
  | offset, c :: cs =>
    let next := offset + c.utf8Size
    if c = '\n' then next :: startsAfter next cs else startsAfter next cs

def ofText (text : String) : LineIndex :=
  ⟨startsAfter 0 text.toList⟩

/-- Line and column of a byte offset: the line is the last one that begins at
or before the offset. -/
def location (index : LineIndex) (offset : Nat) : Location :=
  let passed := index.laterStarts.takeWhile (· ≤ offset)
  ⟨passed.length + 1, offset - passed.getLastD 0 + 1⟩

end LineIndex

end GraphLint
