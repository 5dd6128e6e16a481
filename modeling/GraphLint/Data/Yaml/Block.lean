import GraphLint.Data.Yaml.Reading
import GraphLint.Text.Blank

/-!
# Block scalars

A block scalar is made of the lines below its header, all of them indented to one
column.  Behind a bar the lines stand as they are; behind an angle bracket they
are folded: lines that follow each other are joined by a space, unless one of them
begins with white space.

The header may say how many columns the lines are indented by and what becomes of
the ends of lines behind the text: they are stripped, clipped to one, or kept.
-/

set_option autoImplicit false

namespace GraphLint.Yaml

/-! ## Headers -/

/-- What becomes of the ends of lines behind the text of a block scalar. -/
inductive Chomping
  /-- They are left out. -/
  | strip
  /-- One of them stays. -/
  | clip
  /-- All of them stay. -/
  | keep
  deriving DecidableEq, Repr, Inhabited

structure BlockHeader where
  chomping : Chomping
  /-- How far the lines are indented from the block around them, if it is said. -/
  indentation : Option Nat
  deriving DecidableEq, Repr, Inhabited

/-- The marks that a header has besides its digit. -/
def isChompingMark (c : Char) : Bool := c = '+' || c = '-'

/-- The marks that the header of a block scalar consists of. -/
def headerMarks (cs : List Char) : List Char :=
  cs.takeWhile fun c => isChompingMark c || c.isDigit

/-- What marks say at the head of a block scalar: at most one of them is a digit,
which is not zero, and at most one says what becomes of the ends of lines. -/
def BlockHeader.ofMarks? (marks : List Char) : Option BlockHeader :=
  let digits := marks.filter Char.isDigit
  let chompings := marks.filter isChompingMark
  if digits.length ≤ 1 && chompings.length ≤ 1 && !digits.contains '0' then
    some
      { chomping :=
          match chompings with
          | [] => .clip
          | c :: _ => if c = '+' then .keep else .strip
        indentation := digits.head?.map fun c => c.toNat - '0'.toNat }
  else none

/-! ## Lines -/

/-- A line of a block scalar. -/
structure ContentLine where
  emptyLines : Nat
  /-- What stands on it behind the indentation. -/
  text : List Char
  deriving DecidableEq, Repr, Inhabited

def ContentLine.isIndented (line : ContentLine) : Bool := line.text.head?.any isBlank

/-- What stands between a line and the line before it. -/
def lineSeparator (isFolded : Bool) (previous line : ContentLine) : List Char :=
  if isFolded && !previous.isIndented && !line.isIndented then
    if line.emptyLines = 0 then [' '] else List.replicate line.emptyLines '\n'
  else List.replicate (line.emptyLines + 1) '\n'

/-- The text of lines that follow another one. -/
def followingText (isFolded : Bool) (previous : ContentLine) : List ContentLine → List Char
  | [] => []
  | line :: lines =>
    lineSeparator isFolded previous line ++ line.text ++ followingText isFolded line lines

def linesText (isFolded : Bool) : List ContentLine → List Char
  | [] => []
  | line :: lines =>
    List.replicate line.emptyLines '\n' ++ line.text ++ followingText isFolded line lines

/-! ## Reading -/

namespace Reader

/-- Takes empty lines and what indents the line behind them, up to the column
`indent`, at most `bound` lines.  Says how many lines were empty. -/
def takeIndented (indent : Nat) : Nat → Reader Nat
  | 0 => pure 0
  | bound + 1 => do
    let s ← get
    skip ((s.ahead.take (indent - s.column)).takeWhile (· = ' ')).length
    if (← ahead).head?.any isBreak then
      takeBreak
      return (← takeIndented indent bound) + 1
    else
      return 0

/-- Takes empty lines and all the spaces behind them, at most `bound` lines.  Says
how many lines were empty, and which of the columns reached is the largest. -/
def takeLeading : Nat → Reader (Nat × Nat)
  | 0 => pure (0, 0)
  | bound + 1 => do
    skip ((← ahead).takeWhile (· = ' ')).length
    let column := (← get).column
    if (← ahead).head?.any isBreak then
      takeBreak
      let (emptyLines, largest) ← takeLeading bound
      return (emptyLines + 1, max column largest)
    else
      return (0, column)

/-- Reads the lines that begin in the column `indent`, at most `bound` of them.
Says besides how many empty lines follow, and whether the last line of the text
ends at all. -/
def contentLines (indent emptyLines : Nat) : Nat → Reader (List ContentLine × Nat × Bool)
  | 0 => pure ([], emptyLines, true)
  | bound + 1 => do
    let s ← get
    if s.column ≠ indent || s.ahead.isEmpty || (indent = 0 && marks '.' s.ahead) then
      return ([], emptyLines, true)
    else
      let text := s.ahead.takeWhile (!isBreak ·)
      take text.length
      if (← ahead).isEmpty then
        return ([⟨emptyLines, text⟩], 0, false)
      else
        takeBreak
        let following ← takeIndented indent (← stepLimit)
        let (lines, rest) ← contentLines indent following bound
        return (⟨emptyLines, text⟩ :: lines, rest)

/-- The text of a block scalar whose lines begin in the column `indent`, once the
empty lines before the first of them are taken. -/
def blockText (isFolded : Bool) (chomping : Chomping) (indent emptyLines : Nat) :
    Reader (List Char) := do
  let (lines, following, hasEnd) ← contentLines indent emptyLines (← stepLimit)
  let s ← get
  let lastEnd := if lines.isEmpty || !hasEnd then [] else ['\n']
  let finalEnd := if s.ahead.isEmpty && max indent 1 ≤ s.column then ['\n'] else []
  let text := linesText isFolded lines
  return match chomping with
    | .strip => text
    | .clip => text ++ lastEnd ++ finalEnd
    | .keep => text ++ lastEnd ++ finalEnd ++ List.replicate following '\n'

/-- The text of a block scalar that has no lines but empty ones. -/
def emptyBlockText (chomping : Chomping) (hasLines : Bool) (emptyLines : Nat) : List Char :=
  match chomping with
  | .strip => []
  | .clip => if hasLines then ['\n'] else []
  | .keep => if hasLines then List.replicate (max emptyLines 1) '\n' else []

/-- Reads a block scalar.  The lines of a folded one that says something must be
indented. -/
def readBlock (isFolded : Bool) : Reader Unit := do
  noteCandidate
  allowKey true
  let first ← get
  take 1
  closeMargin
  let written := headerMarks (← ahead)
  take written.length
  match BlockHeader.ofMarks? written with
  | none => failure
  | some header =>
    let _ ← skipToLineEnd true
    let s ← get
    require (atLineEnd s.ahead)
    unless s.ahead.isEmpty do
      takeBreak
    require ((← ahead).head? ≠ some '\t')
    let (indent, emptyLines) ← match header.indentation with
      | some n => do
        let indent := (max s.indent 0).toNat + n
        pure (indent, ← takeIndented indent (← stepLimit))
      | none => do
        let (emptyLines, largest) ← takeLeading (← stepLimit)
        pure (max largest (s.indent + 1).toNat, emptyLines)
    let start ← get
    let text ←
      if start.ahead.isEmpty then
        pure (emptyBlockText header.chomping (start.line ≠ first.line) emptyLines)
      else do
        require (!(start.column < indent && s.indent < start.column))
        blockText isFolded header.chomping indent emptyLines
    require (!isFolded || start.column ≠ 0 || (trimBlanks text).isEmpty)
    emit (.scalar false (String.ofList text))

end Reader

end GraphLint.Yaml
