import GraphLint.Source.Literal
import GraphLint.Source.Token

/-!
# Cutting a text into tokens

`pieces` cuts a text into pieces that follow each other without a gap: tokens,
runs that are ignored, and faults.  One step, `read`, looks at the text from
some character on and says what stands there and how many characters it takes;
the text goes on after those.  So every piece takes at least one character, and
the recursion is on the length of what is left.

A fault takes the characters that cannot be read and the cut goes on behind
them: a text with a fault still has tokens.
-/

set_option autoImplicit false

namespace GraphLint

/-- Why a piece of text is no token. -/
inductive LexicalFault
  | unexpectedCharacter (c : Char)
  /-- One or two points where a spread needs three. -/
  | brokenSpread
  | malformedNumber (text : String)
  | unclosedString
  /-- A quoted string that goes on behind the end of a line. -/
  | brokenString
  /-- A quoted string with an escape that stands for no character. -/
  | badEscape
  | unclosedBlockString
  deriving DecidableEq, Repr, Inhabited

def LexicalFault.message : LexicalFault → String
  | unexpectedCharacter c => "unexpected character " ++ String.singleton c
  | brokenSpread => "expected ..."
  | malformedNumber text => "malformed number " ++ text
  | unclosedString => "unterminated string"
  | brokenString => "line end in string"
  | badEscape => "invalid escape in string"
  | unclosedBlockString => "unterminated block string"

/-- What stands at some place of a text. -/
inductive Reading
  /-- White space, a byte order mark or a comment. -/
  | ignored
  | comma
  | token (token : Token)
  | fault (fault : LexicalFault)
  deriving DecidableEq, Repr, Inhabited

namespace Lexer

/-! ## Character classes -/

/-- Space, tab, line terminators and the byte order mark. -/
def isBlank (c : Char) : Bool :=
  c = ' ' || c = '\t' || c = '\n' || c = '\r' || c = '\ufeff'

/-- A character that ends a line, and with it a comment or a quoted string. -/
def isLineEnd (c : Char) : Bool := c = '\n' || c = '\r'

/-- A character that a name may begin with; names are ASCII. -/
def isNameStart (c : Char) : Bool := c.isAlpha || c = '_'

/-- A character that a name may go on with. -/
def isNameContinue (c : Char) : Bool := c.isAlphanum || c = '_'

/-! ## One class of token at a time

Each function is given the text from the first character of the piece on, or
from behind the delimiter where it says so, and counts characters.
-/

def digits (cs : List Char) : List Char := cs.takeWhile Char.isDigit

/-- Length of the fraction that a text begins with, its point included. -/
def fractionLength : List Char → Nat
  | '.' :: rest => (digits rest).length + 1
  | _ => 0

/-- Length of the exponent that a text begins with, its letter included, and
whether it has digits. -/
def exponentLength : List Char → Nat × Bool
  | c :: rest =>
    if c = 'e' || c = 'E' then
      let sign := match rest with
        | '+' :: _ | '-' :: _ => 1
        | _ => 0
      let ds := digits (rest.drop sign)
      (1 + sign + ds.length, !ds.isEmpty)
    else (0, true)
  | [] => (0, true)

/-- Whether a number may end before this text: a digit, a point or a letter
would go on with it. -/
def mayEndNumber : List Char → Bool
  | c :: _ => !(c.isDigit || c = '.' || isNameStart c)
  | [] => true

/-- A number and its length.  A whole part has no needless zero, a fraction and
an exponent have digits, and nothing follows that would go on with the number. -/
def readNumber (cs : List Char) : Reading × Nat :=
  let sign := match cs with
    | '-' :: _ => 1
    | _ => 0
  let whole := digits (cs.drop sign)
  let afterWhole := cs.drop (sign + whole.length)
  let fraction := fractionLength afterWhole
  let exponent := exponentLength (afterWhole.drop fraction)
  let length := sign + whole.length + fraction + exponent.1
  let text := String.ofList (cs.take length)
  let wholeIsGood := match whole with
    | [] => false
    | '0' :: _ :: _ => false
    | _ => true
  if wholeIsGood && fraction ≠ 1 && exponent.2 && mayEndNumber (cs.drop length) then
    (.token (if fraction = 0 && exponent.1 = 0 then .int text else .float text), length)
  else (.fault (.malformedNumber text), max length 1)

/-- Number of characters before the quote that closes a string, in the text
behind the quote that opens it; `none` if the text ends first. -/
def quotedLength? : List Char → Option Nat
  | [] => none
  | '"' :: _ => some 0
  | '\\' :: _ :: rest => (quotedLength? rest).map (· + 2)
  | _ :: rest => (quotedLength? rest).map (· + 1)

/-- Number of characters before the three quotes that close a block string, in
the text behind the three that open it; `none` if the text ends first. -/
def blockLength? : List Char → Option Nat
  | [] => none
  | '"' :: '"' :: '"' :: _ => some 0
  | '\\' :: '"' :: '"' :: '"' :: rest => (blockLength? rest).map (· + 4)
  | _ :: rest => (blockLength? rest).map (· + 1)

/-- A quoted string and its length, given the text behind its first quote.  A
line may end right behind that quote, but not further on. -/
def readQuoted (rest : List Char) : Reading × Nat :=
  match quotedLength? rest with
  | none => (.fault .unclosedString, rest.length + 1)
  | some n =>
    let content := rest.take n
    if (content.drop 1).any isLineEnd then (.fault .brokenString, n + 2)
    else if (Literal.unescape? content).isSome then
      (.token (.string (String.ofList content)), n + 2)
    else (.fault .badEscape, n + 2)

/-- A block string and its length, given the text behind its first three
quotes. -/
def readBlock (rest : List Char) : Reading × Nat :=
  match blockLength? rest with
  | none => (.fault .unclosedBlockString, rest.length + 3)
  | some n => (.token (.blockString (String.ofList (rest.take n))), n + 6)

/-! ## The next piece -/

/-- What a nonempty text begins with, and how many characters that takes. -/
def read (c : Char) (rest : List Char) : Reading × Nat :=
  if isBlank c then (.ignored, 1)
  else if c = ',' then (.comma, 1)
  else if c = '#' then (.ignored, (rest.takeWhile (!isLineEnd ·)).length + 1)
  else if isNameStart c then
    let more := rest.takeWhile isNameContinue
    (.token (.name (String.ofList (c :: more))), more.length + 1)
  else if c.isDigit || c = '-' then readNumber (c :: rest)
  else if c = '"' then
    match rest with
    | '"' :: '"' :: inner => readBlock inner
    | _ => readQuoted rest
  else if c = '.' then
    match rest with
    | '.' :: '.' :: _ => (.token (.punctuator .spread), 3)
    | '.' :: _ => (.fault .brokenSpread, 2)
    | _ => (.fault .brokenSpread, 1)
  else match Punctuator.ofChar? c with
    | some mark => (.token (.punctuator mark), 1)
    | none => (.fault (.unexpectedCharacter c), 1)

/-- A piece of a text: what was read and from which bytes. -/
structure Piece where
  reading : Reading
  span : Span
  deriving DecidableEq, Repr, Inhabited

/-- The pieces of the text `cs`, whose first byte has the given offset. -/
def piecesFrom (offset : Nat) : List Char → List Piece
  | [] => []
  | c :: rest =>
    let (reading, length) := read c rest
    let stop := offset + utf8Width (c :: rest.take (length - 1))
    ⟨reading, ⟨offset, stop⟩⟩ :: piecesFrom stop (rest.drop (length - 1))
termination_by cs => cs.length
decreasing_by simp +arith [List.length_drop]

/-- The pieces of a text, from its start to its end. -/
def pieces (text : String) : List Piece :=
  piecesFrom 0 text.toList

/-- The tokens among the pieces of a text, with their places. -/
def lexemes (pieces : List Piece) : List Lexeme :=
  pieces.filterMap fun
    | ⟨.token token, span⟩ => some ⟨token, span⟩
    | _ => none

/-- The tokens among pieces as the grammar comes upon them, given whether a comma
stands before the first piece. -/
def upcomingFrom (afterComma : Bool) : List Piece → List Upcoming
  | [] => []
  | ⟨.token token, _⟩ :: rest => ⟨token, afterComma⟩ :: upcomingFrom false rest
  | ⟨.comma, _⟩ :: rest => upcomingFrom true rest
  | ⟨.ignored, _⟩ :: rest => upcomingFrom afterComma rest
  | ⟨.fault _, _⟩ :: rest => upcomingFrom afterComma rest

/-- The tokens among the pieces of a text as the grammar comes upon them. -/
def upcoming (pieces : List Piece) : List Upcoming := upcomingFrom false pieces

/-- The faults among the pieces of a text, each with the offset it begins at. -/
def faults (pieces : List Piece) : List (LexicalFault × Nat) :=
  pieces.filterMap fun
    | ⟨.fault fault, span⟩ => some (fault, span.start)
    | _ => none

end Lexer

end GraphLint
