/-!
# The values of string literals

What a string literal stands for, given the characters between its delimiters.

* A quoted string has escapes: the one-letter ones, four hexadecimal digits
  after `\u`, or any number of them in braces.  Two four-digit escapes that
  form a surrogate pair stand for one character; a surrogate on its own stands
  for nothing, and the literal is in error.
* A block string has one escape, a backslash before three quotes.  Its lines
  lose their common indentation, and blank lines at either end are dropped.
-/

set_option autoImplicit false

namespace GraphLint.Literal

/-! ## Quoted strings -/

def hexDigit? (c : Char) : Option Nat :=
  if '0' ≤ c ∧ c ≤ '9' then some (c.toNat - '0'.toNat)
  else if 'a' ≤ c ∧ c ≤ 'f' then some (c.toNat - 'a'.toNat + 10)
  else if 'A' ≤ c ∧ c ≤ 'F' then some (c.toNat - 'A'.toNat + 10)
  else none

/-- The number that hexadecimal digits write; `none` if one of them is not a
digit or there are none. -/
def hexNumber? (digits : List Char) : Option Nat :=
  if digits.isEmpty then none
  else digits.foldlM (fun n c => (hexDigit? c).map (n * 16 + ·)) 0

/-- The character of a code point that is a Unicode scalar value. -/
def scalar? (n : Nat) : Option Char :=
  if h : n.isValidChar then some (Char.ofNatAux n h) else none

/-- Whether a code unit is the first half of a surrogate pair. -/
def isHighSurrogate (n : Nat) : Bool := 0xD800 ≤ n && n ≤ 0xDBFF

/-- Whether a code unit is the second half of a surrogate pair. -/
def isLowSurrogate (n : Nat) : Bool := 0xDC00 ≤ n && n ≤ 0xDFFF

/-- The character that a surrogate pair stands for. -/
def joinSurrogates? (high low : Nat) : Option Char :=
  if isHighSurrogate high && isLowSurrogate low then
    scalar? (0x10000 + (high - 0xD800) * 0x400 + (low - 0xDC00))
  else none

/-- The character of a `u` escape, given what follows the letter, and how many
of those characters belong to it. -/
def unicodeEscape? : List Char → Option (Char × Nat)
  | '\x7b' :: rest =>
    let digits := rest.takeWhile (· ≠ '\x7d')
    if digits.length < rest.length then
      (hexNumber? digits).bind scalar? |>.map (·, digits.length + 2)
    else none
  | a :: b :: c :: d :: rest => do
    let unit ← hexNumber? [a, b, c, d]
    match scalar? unit with
    | some ch => some (ch, 4)
    | none =>
      match rest with
      | '\\' :: 'u' :: e :: f :: g :: h :: _ =>
        let low ← hexNumber? [e, f, g, h]
        (joinSurrogates? unit low).map (·, 10)
      | _ => none
  | _ => none

/-- The character of an escape, given what follows the backslash, and how many
of those characters belong to it. -/
def escape? : List Char → Option (Char × Nat)
  | '"' :: _ => some ('"', 1)
  | '\\' :: _ => some ('\\', 1)
  | '/' :: _ => some ('/', 1)
  | 'b' :: _ => some ('\x08', 1)
  | 'f' :: _ => some ('\x0c', 1)
  | 'n' :: _ => some ('\n', 1)
  | 'r' :: _ => some ('\r', 1)
  | 't' :: _ => some ('\t', 1)
  | 'u' :: rest => (unicodeEscape? rest).map fun (c, n) => (c, n + 1)
  | _ => none

/-- The characters that a quoted string stands for, or `none` if one of its
escapes is in error. -/
def unescape? : List Char → Option (List Char)
  | [] => some []
  | c :: rest =>
    if c = '\\' then
      match escape? rest with
      | some (d, n) => (unescape? (rest.drop n)).map (d :: ·)
      | none => none
    else (unescape? rest).map (c :: ·)
termination_by cs => cs.length
decreasing_by all_goals simp +arith [List.length_drop]

/-! ## Block strings -/

/-- Restores triple quotes that the literal escapes. -/
def restoreTripleQuotes : List Char → List Char
  | '\\' :: '"' :: '"' :: '"' :: rest => '"' :: '"' :: '"' :: restoreTripleQuotes rest
  | c :: rest => c :: restoreTripleQuotes rest
  | [] => []

/-- The lines of a text.  A newline, a carriage return, or the two together end
a line. -/
def splitLines : List Char → List (List Char)
  | [] => [[]]
  | '\r' :: '\n' :: rest => [] :: splitLines rest
  | '\r' :: rest => [] :: splitLines rest
  | '\n' :: rest => [] :: splitLines rest
  | c :: rest =>
    match splitLines rest with
    | [] => [[c]]
    | line :: lines => (c :: line) :: lines

def isIndent (c : Char) : Bool := c = ' ' || c = '\t'

def isBlankLine (line : List Char) : Bool := line.all isIndent

/-- The number of characters that indent a line. -/
def indentOf (line : List Char) : Nat := (line.takeWhile isIndent).length

/-- The smallest indentation of the lines that are not blank. -/
def commonIndent (lines : List (List Char)) : Option Nat :=
  ((lines.filter (fun line => !isBlankLine line)).map indentOf).min?

/-- Drops blank lines at both ends. -/
def trimBlankLines (lines : List (List Char)) : List (List Char) :=
  ((lines.dropWhile isBlankLine).reverse.dropWhile isBlankLine).reverse

def joinLines (lines : List (List Char)) : List Char :=
  List.intercalate ['\n'] lines

/-- Removes the common indentation of all lines but the first, then the blank
lines at both ends. -/
def dedent (cs : List Char) : List Char :=
  match splitLines cs with
  | [] => []
  | first :: others =>
    let indent := (commonIndent others).getD 0
    joinLines (trimBlankLines (first :: others.map (·.drop indent)))

/-- The characters that a block string stands for. -/
def blockValue (content : List Char) : List Char :=
  dedent (restoreTripleQuotes content)

end GraphLint.Literal
