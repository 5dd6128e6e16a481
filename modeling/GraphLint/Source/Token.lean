import GraphLint.Text.Span

/-!
# Tokens

The significant tokens of a GraphQL text.  White space, commas, comments and
byte order marks separate tokens and are no tokens themselves.

A token says what is written, not where: the tokens of two texts that differ
only in their layout are the same list.  Places are kept beside the tokens, in
`Lexeme`, and everything above the lexer speaks of tokens by their number in
that list (`Extent`).

One thing about the layout does reach the grammar: where it looks two tokens
ahead, it does not look past a comma (`Upcoming`).
-/

set_option autoImplicit false

namespace GraphLint

inductive Punctuator
  | bang
  | dollar
  | ampersand
  | parenOpen
  | parenClose
  | spread
  | colon
  | equals
  | atSign
  | bracketOpen
  | bracketClose
  | braceOpen
  | pipe
  | braceClose
  deriving DecidableEq, Repr, Inhabited

namespace Punctuator

/-- The punctuator that one character stands for.  The three points of a spread
are not among them. -/
def ofChar? : Char → Option Punctuator
  | '!' => some bang
  | '$' => some dollar
  | '&' => some ampersand
  | '(' => some parenOpen
  | ')' => some parenClose
  | ':' => some colon
  | '=' => some equals
  | '@' => some atSign
  | '[' => some bracketOpen
  | ']' => some bracketClose
  | '\x7b' => some braceOpen
  | '|' => some pipe
  | '\x7d' => some braceClose
  | _ => none

def text : Punctuator → String
  | bang => "!"
  | dollar => "$"
  | ampersand => "&"
  | parenOpen => "("
  | parenClose => ")"
  | spread => "..."
  | colon => ":"
  | equals => "="
  | atSign => "@"
  | bracketOpen => "["
  | bracketClose => "]"
  | braceOpen => "\x7b"
  | pipe => "|"
  | braceClose => "\x7d"

end Punctuator

inductive Token
  | punctuator (mark : Punctuator)
  /-- A name or keyword; the grammar decides which. -/
  | name (text : String)
  | int (text : String)
  /-- A number with a fraction or an exponent, as written. -/
  | float (text : String)
  /-- A quoted string; `content` is what stands between the quotes. -/
  | string (content : String)
  /-- A block string; `content` is what stands between the triple quotes. -/
  | blockString (content : String)
  deriving DecidableEq, Repr, Inhabited

namespace Token

def text : Token → String
  | punctuator mark => mark.text
  | name text => text
  | int text => text
  | float text => text
  | string content => "\"" ++ content ++ "\""
  | blockString content => "\"\"\"" ++ content ++ "\"\"\""

def isString : Token → Bool
  | string _ | blockString _ => true
  | _ => false

def isName : Token → Bool
  | name _ => true
  | _ => false

end Token

/-- A token as the grammar comes upon it. -/
structure Upcoming where
  token : Token
  /-- Whether a comma stands between it and the token before. -/
  afterComma : Bool
  deriving DecidableEq, Repr, Inhabited

/-- A token and the bytes it was read from. -/
structure Lexeme where
  token : Token
  span : Span
  deriving DecidableEq, Repr, Inhabited

/-- A run of tokens of one text, by their numbers: `[first, stop)`. -/
structure Extent where
  first : Nat
  stop : Nat
  deriving DecidableEq, Repr, Inhabited

namespace Extent

/-- The bytes from the first token of a run to its last.  A run without tokens
is empty, at the start of the text. -/
def span (lexemes : Array Lexeme) (e : Extent) : Span :=
  if e.first < e.stop then
    ⟨(lexemes.getD e.first default).span.start, (lexemes.getD (e.stop - 1) default).span.stop⟩
  else ⟨0, 0⟩

end Extent

end GraphLint
