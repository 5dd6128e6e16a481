import GraphLint.Data.Yaml.Gap

/-!
# Plain scalars

A plain scalar has no marks of its own.  It ends before a colon with white space
behind it, before a comment, and in brackets before what separates the parts of a
collection.  It goes on in lines that are indented further than the block around
it, and of those that are in brackets.
-/

set_option autoImplicit false

namespace GraphLint.Yaml

/-- The word that a plain scalar goes on with. -/
def plainWord (inFlow : Bool) : List Char → List Char
  | [] => []
  | c :: rest =>
    if Reader.continuesPlain inFlow (c :: rest) then c :: plainWord inFlow rest else []

namespace Reader

/-- A tab may stand before the column that a line has to be indented to only if
nothing else stands on the line. -/
def skipBlankLine : Reader Unit := do
  let _ ← skipToLineEnd true
  require (atLineEnd (← ahead))

/-- The text of a plain scalar from behind some white space on, of which at most
`bound` words are read.  The lines of a scalar outside brackets are indented to
the column `least`. -/
def plainText (least : Int) (gap : Gap) : Nat → Reader (List Char)
  | 0 => pure []
  | bound + 1 => do
    let s ← get
    if s.isIndentation && s.column = 0 && atMarker s.ahead then
      return []
    else if s.ahead.head? = some '#' then
      match gap with
      | .blanks (_ :: _) =>
        unless s.isInFlow do
          set { s with commentLine := some s.line }
      | _ => pure ()
      return []
    else
      match s.ahead with
      | '-' :: c :: _ => require (!(s.isInFlow && isFlowMark c))
      | _ => pure ()
      let word := plainWord s.isInFlow s.ahead
      let text := if word.isEmpty then [] else gap.text ++ word
      unless word.isEmpty do
        take word.length
      if (← ahead).head?.any fun c => isBlank c || isBreak c then
        let next ← takeGap least skipBlankLine
        let after ← get
        if !after.isInFlow && after.column < least then
          return text
        else
          return text ++ (← plainText least next bound)
      else
        return text

def readPlain : Reader Unit := do
  noteCandidate
  allowKey false
  closeMargin
  let s ← get
  let least := s.indent + 1
  require (!(s.isInFlow && s.column < least))
  let text ← plainText least (.blanks []) s.stepLimit
  if (← get).isIndentation then
    allowKey true
  require !text.isEmpty
  emit (.scalar true (String.ofList text))

end Reader

end GraphLint.Yaml
