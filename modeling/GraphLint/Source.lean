import GraphLint.Document.Grammar
import GraphLint.Source.Lexer
import GraphLint.Walk

/-!
# A text that has been read

`Source.read` does all reading there is: it cuts a text into tokens and arranges
them in a document.  What it keeps of the layout is the table of lexemes, which
says for each token number where the token stands.
-/

set_option autoImplicit false

namespace GraphLint

/-- A fault in a text, lexical or syntactic, as it is shown. -/
structure SourceFault where
  message : String
  /-- The byte at which it shows. -/
  offset : Nat
  deriving DecidableEq, Repr, Inhabited

structure Source where
  lexemes : Array Lexeme
  document : Document
  faults : List SourceFault
  deriving Inhabited

namespace Source

/-- The byte at which token number `i` begins, or the end of the text if there
is no such token. -/
def offsetOf (lexemes : Array Lexeme) (size : Nat) (i : Nat) : Nat :=
  match lexemes[i]? with
  | some lexeme => lexeme.span.start
  | none => size

/-- The tokens among pieces, without those that have been discarded, and their
places in the text without all that is no part of the document: discarded tokens
and what is no token at all.  `number` is the number of the first token, and `lost`
counts the bytes that are left out before it. -/
def settle (discarded : List Nat) (number lost : Nat) : List Lexer.Piece → List Lexeme
  | [] => []
  | ⟨.token token, span⟩ :: rest =>
    if discarded.contains number then settle discarded (number + 1) (lost + span.size) rest
    else ⟨token, span.back lost⟩ :: settle discarded (number + 1) lost rest
  | ⟨.fault _, span⟩ :: rest => settle discarded number (lost + span.size) rest
  | ⟨.ignored, _⟩ :: rest => settle discarded number lost rest
  | ⟨.comma, _⟩ :: rest => settle discarded number lost rest

/-- Reads a text. -/
def read (text : String) : Source :=
  let pieces := Lexer.pieces text
  let written := (Lexer.lexemes pieces).toArray
  let (document, cursor) := Document.ofTokens (Lexer.upcoming pieces)
  { lexemes := (settle cursor.discarded 0 0 pieces).toArray
    document
    faults :=
      (Lexer.faults pieces).map (fun (fault, offset) => ⟨fault.message, offset⟩) ++
      cursor.faults.reverse.map
        (fun fault => ⟨fault.message, offsetOf written text.utf8ByteSize fault.token⟩) }

def isWellFormed (s : Source) : Bool := s.faults.isEmpty

/-- The bytes that a run of tokens spans. -/
def span (s : Source) (e : Extent) : Span := e.span s.lexemes

end Source

end GraphLint
