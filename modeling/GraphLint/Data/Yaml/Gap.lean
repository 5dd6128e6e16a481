import GraphLint.Data.Yaml.Reading

/-!
# White space inside scalars

A scalar may hold white space, and quoted and plain scalars may go on in the next
line.  Blanks within a line stand for themselves.  Where lines end, the blanks
around the ends do not count: one end stands for a space, and of several the
first stands for nothing and each of the others for itself.
-/

set_option autoImplicit false

namespace GraphLint.Yaml

/-- White space inside a scalar. -/
inductive Gap
  | blanks (cs : List Char)
  /-- Ends of lines: whether the first of them may stand for a space, and how many
  more follow. -/
  | lines (joins : Bool) (emptyLines : Nat)
  deriving DecidableEq, Repr, Inhabited

/-- What white space inside a scalar stands for. -/
def Gap.text : Gap → List Char
  | blanks cs => cs
  | lines true 0 => [' ']
  | lines _ emptyLines => List.replicate emptyLines '\n'

namespace Reader

/-- Takes the blanks that begin a line, then empty lines and the blanks behind
them, at most `bound` of them, and says how many lines were empty.  `onTab` says
what is to be done about a tab before the column `least`. -/
def takeEmptyLines (least : Int) (onTab : Reader Unit) : Nat → Reader Nat
  | 0 => pure 0
  | bound + 1 => do
    let s ← get
    let blanks := s.ahead.takeWhile isBlank
    if (blanks.take (least - s.column).toNat).contains '\t' then
      onTab
    else
      skip blanks.length
    if (← ahead).head?.any isBreak then
      takeBreak
      return (← takeEmptyLines least onTab bound) + 1
    else
      return 0

/-- Takes white space inside a scalar. -/
def takeGap (least : Int) (onTab : Reader Unit) : Reader Gap := do
  let blanks := (← ahead).takeWhile isBlank
  skip blanks.length
  if (← ahead).head?.any isBreak then
    takeBreak
    return .lines true (← takeEmptyLines least onTab (← stepLimit))
  else
    return .blanks blanks

end Reader

end GraphLint.Yaml
