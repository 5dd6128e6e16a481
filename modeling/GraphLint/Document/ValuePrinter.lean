import GraphLint.Document.Basic
import GraphLint.Source.Literal

/-!
# Printing values

The text by which default values are shown.  Numbers and names stand as they
were written.  Lists and objects take a line per item, indented by two spaces a
level and followed by a comma.  A string is quoted on one line, unless it has
several lines that a block string would give back unchanged.
-/

set_option autoImplicit false

namespace GraphLint

namespace StringPrinter

/-- The digit of a number below sixteen, letters in upper case. -/
def hexDigit (n : Nat) : Char :=
  (Nat.digitChar n).toUpper

/-- A character as it stands in a quoted string. -/
def escape (c : Char) : List Char :=
  if c = '"' then ['\\', '"']
  else if c = '\\' then ['\\', '\\']
  else if c = '\x08' then ['\\', 'b']
  else if c = '\x0c' then ['\\', 'f']
  else if c = '\n' then ['\\', 'n']
  else if c = '\r' then ['\\', 'r']
  else if c.toNat < 0x20 && c ≠ '\t' then
    ['\\', 'u', '0', '0', hexDigit (c.toNat / 16), hexDigit (c.toNat % 16)]
  else [c]

/-- A string on one line. -/
def quoted (cs : List Char) : List Char :=
  ['"'] ++ cs.flatMap escape ++ ['"']

/-- The lines of a string; newlines alone separate them. -/
def lines : List Char → List (List Char)
  | [] => [[]]
  | '\n' :: rest => [] :: lines rest
  | c :: rest =>
    match lines rest with
    | [] => [[c]]
    | line :: more => (c :: line) :: more

/-- Whether a string has several lines and a block string would give it back:
it has no carriage return, neither end is a blank line, and its lines share no
indentation. -/
def suitsBlock (cs : List Char) : Bool :=
  let ls := lines cs
  ls.length > 1 &&
  !cs.contains '\r' &&
  !(ls.head?.any Literal.isBlankLine) &&
  !(ls.getLast?.any Literal.isBlankLine) &&
  Literal.commonIndent ls == some 0

/-- Triple quotes as they stand in a block string. -/
def escapeTripleQuotes : List Char → List Char
  | '"' :: '"' :: '"' :: rest => '\\' :: '"' :: '"' :: '"' :: escapeTripleQuotes rest
  | c :: rest => c :: escapeTripleQuotes rest
  | [] => []

/-- A newline and the indentation of a level. -/
def newline (level : Nat) : List Char := '\n' :: List.replicate (2 * level) ' '

/-- A line of a block string behind its newline.  An empty line is not indented. -/
def blockLine (level : Nat) (line : List Char) : List Char :=
  if line.isEmpty then ['\n'] else newline level ++ line

/-- A string between triple quotes that stand on lines of their own. -/
def block (level : Nat) (cs : List Char) : List Char :=
  let quotes := ['"', '"', '"']
  quotes ++ (lines (escapeTripleQuotes cs)).flatMap (blockLine level) ++ newline level ++ quotes

/-- A string in the form that suits it. -/
def render (level : Nat) (text : String) : String :=
  String.ofList (if suitsBlock text.toList then block level text.toList else quoted text.toList)

end StringPrinter

def Value.newline (level : Nat) : String := String.ofList (StringPrinter.newline level)

mutual

/-- The text of a value that begins at some level of indentation. -/
def Value.render (level : Nat) : Value → String
  | .missing => ""
  | .var _ name => "$" ++ (name.map (·.text)).getD ""
  | .int _ text => text
  | .float _ text => text
  | .string _ text => StringPrinter.render level text
  | .boolean _ value => if value then "true" else "false"
  | .null _ => "null"
  | .enum _ name => name.text
  | .list _ [] => "[]"
  | .list _ items => "[" ++ Value.renderItems (level + 1) items ++ Value.newline level ++ "]"
  | .object _ fields =>
    let inside := ObjectField.renderAll (level + 1) fields
    if inside.isEmpty then "\x7b\x7d" else "\x7b" ++ inside ++ Value.newline level ++ "\x7d"

def Value.renderItems (level : Nat) : List Value → String
  | [] => ""
  | v :: vs => Value.newline level ++ v.render level ++ "," ++ Value.renderItems level vs

/-- The text of an object's field on a line of its own.  A field without a value
is left out. -/
def ObjectField.render (level : Nat) : ObjectField → String
  | .mk _ _ .missing => ""
  | .mk _ name value => Value.newline level ++ name.text ++ ": " ++ value.render level ++ ","

def ObjectField.renderAll (level : Nat) : List ObjectField → String
  | [] => ""
  | f :: fs => f.render level ++ ObjectField.renderAll level fs

end

end GraphLint
