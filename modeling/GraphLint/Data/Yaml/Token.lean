/-!
# YAML tokens

What a YAML text is made of once its layout has been read.  Indentation appears
as tokens that open and close a block, and a key has a token of its own even
where nothing is written before it.
-/

set_option autoImplicit false

namespace GraphLint.Yaml

/-- One token of a YAML text. -/
inductive Token
  | streamEnd
  | version
  /-- A directive that says what a tag handle is short for. -/
  | shorthand (handle meaning : String)
  | documentStart
  | documentEnd
  | blockSequence
  /-- A mapping by indentation begins. -/
  | blockMapping
  | blockEnd
  | flowSequence
  | flowSequenceEnd
  /-- An opening brace, or the start of a pair in brackets. -/
  | flowMapping
  /-- A closing brace, or the end of a pair in brackets. -/
  | flowMappingEnd
  | item
  | comma
  | key
  | value
  /-- A star and the name of an anchor: its node once more. -/
  | reference (name : String)
  /-- An ampersand and a name for the node that comes next. -/
  | anchor (name : String)
  /-- A tag: what its handle is, and what stands behind that. -/
  | tag (handle suffix : String)
  /-- A scalar.  A plain one may stand for something other than its text. -/
  | scalar (isPlain : Bool) (text : String)
  deriving DecidableEq, Repr, Inhabited

end GraphLint.Yaml
