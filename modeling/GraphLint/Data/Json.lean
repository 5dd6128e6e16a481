import GraphLint.Data.Datum
import GraphLint.Source.Literal

/-!
# JSON

Reading and writing JSON texts.

The reader takes exactly what RFC 8259 allows and nothing else: no comments, no
stray commas, no text behind the value.  It works on a list of characters and
hands on what it has not used.  The bound on its recursion is never reached: it
is twice the number of characters, and no more than two calls pass between one
character and the next.

The writer has a compact form and one with a line per item.
-/

set_option autoImplicit false

namespace GraphLint.Json

/-! ## Reading -/

/-- The characters that may stand between tokens. -/
def isSpace (c : Char) : Bool := c = ' ' || c = '\t' || c = '\n' || c = '\r'

def skipSpace (cs : List Char) : List Char := cs.dropWhile isSpace

/-- The character of an escape, given what follows the backslash, and how many
of those characters belong to it.  Code points in braces are not JSON. -/
def escape? (cs : List Char) : Option (Char × Nat) :=
  match cs with
  | 'u' :: '\x7b' :: _ => none
  | _ => Literal.escape? cs

/-- The rest of a string, behind its first quote, and the text behind it.
Control characters have to be escaped. -/
def stringRest? : List Char → Option (List Char × List Char)
  | [] => none
  | c :: rest =>
    if c = '"' then some ([], rest)
    else if c = '\\' then
      match escape? rest with
      | some (d, n) => (stringRest? (rest.drop n)).map fun (ds, after) => (d :: ds, after)
      | none => none
    else if c.toNat < 0x20 then none
    else (stringRest? rest).map fun (ds, after) => (c :: ds, after)
termination_by cs => cs.length
decreasing_by all_goals simp +arith [List.length_drop]

/-- Digits, of which there is at least one, and the text behind them. -/
def digits? (cs : List Char) : Option (List Char × List Char) :=
  let ds := cs.takeWhile Char.isDigit
  if ds.isEmpty then none else some (ds, cs.drop ds.length)

/-- A number and the text behind it. -/
def number? (cs : List Char) : Option (String × List Char) := do
  let (sign, cs) := match cs with
    | '-' :: rest => (['-'], rest)
    | _ => ([], cs)
  let (whole, cs) ← digits? cs
  if whole.length > 1 && whole.head? == some '0' then none
  let (fraction, cs) ← match cs with
    | '.' :: rest => (digits? rest).map fun (ds, after) => ('.' :: ds, after)
    | _ => some ([], cs)
  let (exponent, cs) ← match cs with
    | e :: rest =>
      if e = 'e' || e = 'E' then
        let (mark, rest) := match rest with
          | '+' :: rest => (['+'], rest)
          | '-' :: rest => (['-'], rest)
          | _ => ([], rest)
        (digits? rest).map fun (ds, after) => (e :: mark ++ ds, after)
      else some ([], cs)
    | [] => some ([], cs)
  return (String.ofList (sign ++ whole ++ fraction ++ exponent), cs)

mutual

/-- A value and the text behind it. -/
def value? : Nat → List Char → Option (Datum × List Char)
  | 0, _ => none
  | bound + 1, cs =>
    match skipSpace cs with
    | 'n' :: 'u' :: 'l' :: 'l' :: rest => some (.null, rest)
    | 't' :: 'r' :: 'u' :: 'e' :: rest => some (.bool true, rest)
    | 'f' :: 'a' :: 'l' :: 's' :: 'e' :: rest => some (.bool false, rest)
    | '"' :: rest => (stringRest? rest).map fun (ds, after) => (.string (String.ofList ds), after)
    | '[' :: rest =>
      match skipSpace rest with
      | ']' :: after => some (.list [], after)
      | _ => (items? bound rest).map fun (items, after) => (.list items, after)
    | '\x7b' :: rest =>
      match skipSpace rest with
      | '\x7d' :: after => some (.map [], after)
      | _ => (entries? bound rest).map fun (entries, after) => (.map entries, after)
    | other => (number? other).map fun (text, after) => (.number text, after)

/-- The items of a list up to its end, of which there is at least one, and the
text behind the list. -/
def items? : Nat → List Char → Option (List Datum × List Char)
  | 0, _ => none
  | bound + 1, cs => do
    let (first, cs) ← value? bound cs
    match skipSpace cs with
    | ',' :: rest => (items? bound rest).map fun (items, after) => (first :: items, after)
    | ']' :: after => some ([first], after)
    | _ => none

/-- The entries of an object up to its end, of which there is at least one, and
the text behind the object. -/
def entries? : Nat → List Char → Option (List (Datum × Datum) × List Char)
  | 0, _ => none
  | bound + 1, cs => do
    match skipSpace cs with
    | '"' :: rest =>
      let (key, cs) ← stringRest? rest
      match skipSpace cs with
      | ':' :: rest =>
        let (value, cs) ← value? bound rest
        let entry := (Datum.string (String.ofList key), value)
        match skipSpace cs with
        | ',' :: rest => (entries? bound rest).map fun (more, after) => (entry :: more, after)
        | '\x7d' :: after => some ([entry], after)
        | _ => none
      | _ => none
    | _ => none

end

/-- The value that a text writes; none if it is no JSON text. -/
def parse? (text : String) : Option Datum := do
  let cs := text.toList
  let (value, rest) ← value? (2 * cs.length + 2) cs
  if (skipSpace rest).isEmpty then some value else none

/-! ## Writing -/

/-- A character as it stands in a string. -/
def escape (c : Char) : List Char :=
  if c = '"' then ['\\', '"']
  else if c = '\\' then ['\\', '\\']
  else if c = '\x08' then ['\\', 'b']
  else if c = '\x0c' then ['\\', 'f']
  else if c = '\n' then ['\\', 'n']
  else if c = '\r' then ['\\', 'r']
  else if c = '\t' then ['\\', 't']
  else if c.toNat < 0x20 then
    ['\\', 'u', '0', '0', Nat.digitChar (c.toNat / 16), Nat.digitChar (c.toNat % 16)]
  else [c]

def quote (text : String) : String :=
  String.ofList (['"'] ++ text.toList.flatMap escape ++ ['"'])

/-- A newline and the indentation of a level, two spaces each. -/
def newline (level : Nat) : String :=
  String.ofList ('\n' :: List.replicate (2 * level) ' ')

/-- How the items of lists and objects are laid out. -/
inductive Layout
  | compact
  /-- Each on a line of its own, indented by two spaces a level. -/
  | lines
  deriving DecidableEq, Repr, Inhabited

/-- What stands before an item or a closing bracket at some level. -/
def Layout.gap (layout : Layout) (level : Nat) : String :=
  match layout with
  | .compact => ""
  | .lines => newline level

/-- What stands between a key and its value. -/
def Layout.colon : Layout → String
  | .compact => ":"
  | .lines => ": "

mutual

/-- The text of a value at some level of indentation. -/
def renderAt (layout : Layout) (level : Nat) : Datum → String
  | .null => "null"
  | .bool value => if value then "true" else "false"
  | .number text => text
  | .string text => quote text
  | .list [] => "[]"
  | .list items => "[" ++ renderItems layout (level + 1) items ++ layout.gap level ++ "]"
  | .map [] => "\x7b\x7d"
  | .map entries =>
    "\x7b" ++ renderEntries layout (level + 1) entries ++ layout.gap level ++ "\x7d"

def renderItems (layout : Layout) (level : Nat) : List Datum → String
  | [] => ""
  | [item] => layout.gap level ++ renderAt layout level item
  | item :: items =>
    layout.gap level ++ renderAt layout level item ++ "," ++ renderItems layout level items

def renderEntries (layout : Layout) (level : Nat) : List (Datum × Datum) → String
  | [] => ""
  | [entry] => renderEntry layout level entry
  | entry :: entries =>
    renderEntry layout level entry ++ "," ++ renderEntries layout level entries

def renderEntry (layout : Layout) (level : Nat) : Datum × Datum → String
  | (key, value) =>
    layout.gap level ++ renderAt layout level key ++ layout.colon ++ renderAt layout level value

end

def render (layout : Layout) (d : Datum) : String := renderAt layout 0 d

end GraphLint.Json
