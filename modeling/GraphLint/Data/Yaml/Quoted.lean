import GraphLint.Data.Yaml.Gap
import GraphLint.Source.Literal

/-!
# Quoted scalars

In single quotes every character stands for itself, and a quote is written twice.
In double quotes a backslash begins an escape, and one before the end of a line
joins the lines without a space.  The lines that a quoted scalar goes on over are
indented as its place demands, and none of them begins or ends a document.

A scalar is read word by word, with the white space between the words.
-/

set_option autoImplicit false

namespace GraphLint.Yaml

/-! ## Escapes -/

/-- The characters of the escapes of one letter. -/
def letterEscapes : List (Char × Char) :=
  [('0', '\x00'), ('a', '\x07'), ('b', '\x08'), ('t', '\t'), ('\t', '\t'), ('n', '\n'),
    ('v', '\x0b'), ('f', '\x0c'), ('r', '\r'), ('e', '\x1b'), (' ', ' '), ('"', '"'), ('/', '/'),
    ('\\', '\\'), ('N', '\u0085'), ('_', '\u00a0'), ('L', '\u2028'), ('P', '\u2029')]

/-- The character with a number of hexadecimal digits, and the count of those. -/
def hexEscape? (count : Nat) (cs : List Char) : Option (Char × Nat) :=
  let digits := cs.take count
  if digits.length = count then
    ((Literal.hexNumber? digits).bind Literal.scalar?).map (·, count)
  else none

/-- The character of an escape, given what follows the backslash, and how many of
those characters belong to it. -/
def escape? : List Char → Option (Char × Nat)
  | 'x' :: rest => (hexEscape? 2 rest).map fun (c, n) => (c, n + 1)
  | 'u' :: '\x7b' :: _ => none
  | 'u' :: rest => (Literal.unicodeEscape? rest).map fun (c, n) => (c, n + 1)
  | 'U' :: rest => (hexEscape? 8 rest).map fun (c, n) => (c, n + 1)
  | letter :: _ => (letterEscapes.lookup letter).map (·, 1)
  | [] => none

/-! ## Words -/

/-- Whether a quoted word ends here: before the quote, white space, and a
backslash that joins lines. -/
def endsWord (quote : Char) : List Char → Bool
  | [] => true
  | c :: rest =>
    c = quote || isBlank c || isBreak c || (quote = '"' && c = '\\' && rest.head?.any isBreak)

/-- The word that a text in double quotes begins with, and the number of characters
that write it. -/
def doubleWord? (cs : List Char) : Option (List Char × Nat) :=
  if endsWord '"' cs then some ([], 0)
  else
    match cs with
    | [] => none
    | c :: rest =>
      if c = '\\' then
        match escape? rest with
        | some (d, n) => (doubleWord? (rest.drop n)).map fun (ds, m) => (d :: ds, m + n + 1)
        | none => none
      else (doubleWord? rest).map fun (ds, m) => (c :: ds, m + 1)
termination_by cs.length
decreasing_by all_goals simp +arith [List.length_drop]

/-- The word that a text in single quotes begins with, and the number of characters
that write it. -/
def singleWord : List Char → List Char × Nat
  | '\'' :: '\'' :: rest =>
    let (cs, m) := singleWord rest
    ('\'' :: cs, m + 2)
  | c :: rest =>
    if endsWord '\'' (c :: rest) then ([], 0)
    else
      let (cs, m) := singleWord rest
      (c :: cs, m + 1)
  | [] => ([], 0)

/-- The word that a text in some quotes begins with, and the number of characters
that write it. -/
def quotedWord? (quote : Char) (cs : List Char) : Option (List Char × Nat) :=
  if quote = '"' then doubleWord? cs else some (singleWord cs)

/-! ## Scalars -/

namespace Reader

/-- The text of a quoted scalar up to its closing quote, of which at most `bound`
words are read. -/
def quotedText (quote : Char) : Nat → Reader (List Char)
  | 0 => failure
  | bound + 1 => do
    let s ← get
    require (!s.ahead.isEmpty && !(s.column = 0 && atMarker s.ahead) && s.indent ≤ s.column)
    match quotedWord? quote s.ahead with
    | none => failure
    | some (word, count) =>
      take count
      match (← ahead).head? with
      | none => failure
      | some c =>
        if c = quote then
          return word
        else
          let gap ←
            if c = '\\' then do
              take 1
              takeBreak
              pure (Gap.lines false (← takeEmptyLines s.indent failure s.stepLimit))
            else
              takeGap s.indent failure
          return word ++ gap.text ++ (← quotedText quote bound)

/-- Reads a quoted scalar.  In brackets a comma, a closing mark or a colon may
follow on the line; elsewhere a colon may if the scalar has no more than one
line. -/
def readQuoted (quote : Char) : Reader Unit := do
  noteCandidate
  allowKey false
  let first ← get
  take 1
  let text ← quotedText quote first.stepLimit
  take 1
  let _ ← skipToLineEnd true
  let s ← get
  require <| atLineEnd s.ahead || s.ahead.head?.any fun c =>
    if s.isInFlow then [',', ']', '\x7d', ':'].contains c else c = ':' && s.line = first.line
  skipGap
  modify fun s => { s with adjacent := s.index }
  emit (.scalar false (String.ofList text))

end Reader

end GraphLint.Yaml
