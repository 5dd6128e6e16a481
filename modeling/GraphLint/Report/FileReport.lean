import GraphLint.Files.Input
import GraphLint.Validator

/-!
# What a check says of a file

A file either has faults in its text, or it is well-formed and rules have
something to say of it.  Rules never see a text with a fault, so that what they
report does not depend on how faults are mended.
-/

set_option autoImplicit false

namespace GraphLint

namespace Severity

/-- Whether something of this severity makes an input unacceptable. -/
def isError : Severity → Bool
  | error => true
  | warning => false
  | info => false

end Severity

/-- What a check says of one file. -/
structure FileReport where
  file : InputFile
  faults : List SourceFault
  /-- What the rules report, with bytes of the text as places. -/
  diagnostics : List (Diagnostic Span)
  deriving DecidableEq, Repr, Inhabited

namespace FileReport

def hasFaults (r : FileReport) : Bool := !r.faults.isEmpty

/-- Whether anything makes the file unacceptable. -/
def hasErrors (r : FileReport) : Bool :=
  r.hasFaults || r.diagnostics.any (·.severity.isError)

/-- The report of a file, given what rules say of the tree of its text. -/
def ofRules (rules : Tree → Except Fault (List (Diagnostic Extent))) (file : InputFile) :
    Except Fault FileReport :=
  let source := Source.read file.text
  if source.isWellFormed then
    (rules source.document.tree).map fun found => ⟨file, [], source.locate found⟩
  else
    .ok ⟨file, source.faults, []⟩

/-- Checks a file with an executable document against a schema. -/
def ofDocument (config : Config) (schema : TypeSystem) : InputFile → Except Fault FileReport :=
  ofRules (validateDocument config schema)

/-- Checks a file with a type system document, with the schema that it adds to. -/
def ofSchema (config : Config) (base : Option TypeSystem) : InputFile → Except Fault FileReport :=
  ofRules (validateSchema config base)

end FileReport

end GraphLint
