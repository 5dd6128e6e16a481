import GraphLint.Data.Yaml.Token

/-!
# The nodes of a YAML text

A document is a tree of scalars, sequences and mappings, which `Node.ofTokens?`
reads off the tokens of a text.  References are replaced by the nodes they stand
for, and tags are written in full.

One text holds one document.  What stands behind the document is not looked at,
as long as no other document begins there.
-/

set_option autoImplicit false

namespace GraphLint.Yaml

inductive Node
  /-- A scalar with its tag.  A plain one may stand for something other than its
  text. -/
  | scalar (isPlain : Bool) (tag : Option String) (text : String)
  | sequence (items : List Node)
  | mapping (entries : List (Node × Node))
  deriving Repr, Inhabited

namespace Node

/-- The node where nothing is written. -/
def absent : Node := scalar true none ""

/-! ## Tags -/

/-- What the handle with two exclamation marks is short for. -/
def coreTags : String := "tag:yaml.org,2002:"

/-- A tag written in full, given what handles are short for.  A handle between
exclamation marks has to be short for something. -/
def fullTag? (shorthands : List (String × String)) (handle suffix : String) : Option String :=
  match shorthands.lookup handle with
  | some meaning => some (meaning ++ suffix)
  | none =>
    if handle = "!!" then some (coreTags ++ suffix)
    else if 2 ≤ handle.length && handle.endsWith "!" then none
    else some (handle ++ suffix)

/-! ## Building -/

/-- How far the nodes of a document have been read. -/
structure Building where
  ahead : List Token
  /-- What handles are short for. -/
  shorthands : List (String × String) := []
  /-- The anchors so far, with their nodes once these are complete. -/
  anchors : Array (String × Option Node) := #[]
  references : Nat := 0
  deriving Repr, Inhabited

/-- A step of building. -/
abbrev Builder (α : Type) : Type := StateT Building Option α

namespace Builder

/-- The token that comes next.  There is one. -/
def peek : Builder Token := do
  match (← get).ahead with
  | token :: _ => return token
  | [] => failure

/-- Takes the token that comes next. -/
def advance : Builder Unit :=
  modify fun b => { b with ahead := b.ahead.tail }

/-- Takes the token that comes next if it is a certain one, and says whether it
is. -/
def takeIf (token : Token) : Builder Bool := do
  if (← peek) = token then
    advance
    return true
  else
    return false

/-- Takes the comma before a part of a collection in brackets, and says whether the
part may come.  The first one has no comma. -/
def takeSeparator (isFirst : Bool) : Builder Bool :=
  if isFirst then pure true else takeIf .comma

/-- The number of references from which on there must not be many more of them
than anchors. -/
def referenceLimit : Nat := 100

/-- How many references there may be for one anchor. -/
def referencesPerAnchor : Nat := 10

/-- The node that a reference stands for: the latest of that name.  A node cannot
refer to itself. -/
def resolve (name : String) : Builder Node := do
  modify fun b => { b with references := b.references + 1 }
  let b ← get
  if referenceLimit ≤ b.references ∧ referencesPerAnchor * b.anchors.size < b.references then
    failure
  else
    match b.anchors.toList.reverse.lookup name with
    | some (some node) => return node
    | _ => failure

/-- Takes an anchor, if there is one, and gives its number. -/
def takeAnchor : Builder (Option Nat) := do
  match ← peek with
  | .anchor name =>
    advance
    let number := (← get).anchors.size
    modify fun b => { b with anchors := b.anchors.push (name, none) }
    return some number
  | _ => return none

def takeTag : Builder (Option String) := do
  match ← peek with
  | .tag handle suffix =>
    advance
    match fullTag? (← get).shorthands handle suffix with
    | some tag => return some tag
    | none => failure
  | _ => return none

/-- Takes an anchor and a tag in either order, as far as they are there. -/
def takeProperties : Builder (Option Nat × Option String) := do
  match ← takeAnchor with
  | some number => return (some number, ← takeTag)
  | none =>
    match ← takeTag with
    | some tag => return (← takeAnchor, some tag)
    | none => return (none, none)

/-- Keeps the node of an anchor. -/
def define (anchor : Option Nat) (node : Node) : Builder Unit :=
  match anchor with
  | some number =>
    modify fun b =>
      { b with anchors := b.anchors.modify number fun (name, _) => (name, some node) }
  | none => pure ()

mutual

/-- Reads a node.  Sequences and mappings by indentation count where `inBlock`
says so; a sequence of dashes that are not indented further than the key it
belongs to counts where `isValue` says so.  Where there is an anchor or a tag the
node may be absent. -/
def node (inBlock isValue : Bool) : Nat → Builder Node
  | 0 => failure
  | bound + 1 => do
    match ← peek with
    | .reference name =>
      advance
      resolve name
    | _ =>
      let (anchor, tag) ← takeProperties
      let content ← match ← peek, inBlock, isValue with
        | .scalar isPlain text, _, _ => do
          advance
          pure (scalar isPlain tag text)
        | .flowSequence, _, _ => do
          advance
          sequence <$> flowItems true bound
        | .flowMapping, _, _ => do
          advance
          mapping <$> flowEntries true bound
        | .blockSequence, true, _ => do
          advance
          sequence <$> blockItems bound
        | .blockMapping, true, _ => do
          advance
          mapping <$> blockEntries bound
        | .item, _, true => sequence <$> bareItems bound
        | _, _, _ =>
          if anchor.isSome || tag.isSome then pure (scalar true tag "") else failure
      define anchor content
      return content

/-- Reads a node, which is absent if one of some tokens comes next. -/
def nodeUnless (ends : List Token) (inBlock isValue : Bool) : Nat → Builder Node
  | 0 => failure
  | bound + 1 => do
    if ends.contains (← peek) then return absent else node inBlock isValue bound

/-- Reads the value behind a key.  Without a colon it is absent. -/
def valueUnless (ends : List Token) (inBlock : Bool) : Nat → Builder Node
  | 0 => failure
  | bound + 1 => do
    if ← takeIf .value then nodeUnless ends inBlock inBlock bound else return absent

/-- Reads the items of a sequence by indentation, to its end. -/
def blockItems : Nat → Builder (List Node)
  | 0 => failure
  | bound + 1 => do
    if ← takeIf .blockEnd then
      return []
    else if ← takeIf .item then
      let first ← nodeUnless [.item, .blockEnd] true false bound
      return first :: (← blockItems bound)
    else
      failure

/-- Reads the items of a sequence that is not indented. -/
def bareItems : Nat → Builder (List Node)
  | 0 => failure
  | bound + 1 => do
    if ← takeIf .item then
      let first ← nodeUnless [.item, .key, .value, .blockEnd] true false bound
      return first :: (← bareItems bound)
    else
      return []

/-- Reads the entries of a mapping by indentation, to its end. -/
def blockEntries : Nat → Builder (List (Node × Node))
  | 0 => failure
  | bound + 1 => do
    let ends := [Token.key, Token.value, Token.blockEnd]
    if ← takeIf .blockEnd then
      return []
    else
      let hasKey ← takeIf .key
      if hasKey || (← peek) = .value then
        let key ← if hasKey then nodeUnless ends true true bound else pure absent
        let value ← valueUnless ends true bound
        return (key, value) :: (← blockEntries bound)
      else
        failure

/-- Reads the items of a sequence in brackets, to its end.  An item may be a pair. -/
def flowItems (isFirst : Bool) : Nat → Builder (List Node)
  | 0 => failure
  | bound + 1 => do
    if ← takeIf .flowSequenceEnd then
      return []
    else if ← takeSeparator isFirst then
      if ← takeIf .flowSequenceEnd then
        return []
      else
        let first ←
          if ← takeIf .key then do
            let key ← nodeUnless [.value, .comma, .flowSequenceEnd] false false bound
            let value ← valueUnless [.comma, .flowSequenceEnd] false bound
            pure (mapping [(key, value)])
          else
            node false false bound
        return first :: (← flowItems false bound)
    else
      failure

/-- Reads the entries of a mapping in braces, to its end.  What no key is announced
for is a key without a value. -/
def flowEntries (isFirst : Bool) : Nat → Builder (List (Node × Node))
  | 0 => failure
  | bound + 1 => do
    if ← takeIf .flowMappingEnd then
      return []
    else if ← takeSeparator isFirst then
      if ← takeIf .flowMappingEnd then
        return []
      else
        let ends := [Token.comma, Token.flowMappingEnd]
        let hasKey ← takeIf .key
        let first ←
          if hasKey || (← peek) = .value then do
            let key ← if hasKey then nodeUnless (.value :: ends) false false bound
              else pure absent
            let value ← valueUnless ends false bound
            pure (key, value)
          else
            pure (← node false false bound, absent)
        return first :: (← flowEntries false bound)
    else
      failure

end

/-! ## Documents -/

/-- Reads directives, at most `bound` of them.  There may be one for the version
and one for each handle. -/
def directives (hasVersion : Bool) : Nat → Builder Unit
  | 0 => failure
  | bound + 1 => do
    match ← peek with
    | .version =>
      if hasVersion then failure
      else
        advance
        directives true bound
    | .shorthand handle meaning =>
      if ((← get).shorthands.lookup handle).isSome then failure
      else
        advance
        modify fun b => { b with shorthands := (handle, meaning) :: b.shorthands }
        directives hasVersion bound
    | _ => pure ()

def isDirective : Token → Bool
  | .version | .shorthand .. => true
  | _ => false

/-- Whether a node begins with a token. -/
def beginsNode : Token → Bool
  | .reference _ | .anchor _ | .tag .. | .scalar .. | .flowSequence | .flowMapping
  | .blockSequence | .blockMapping => true
  | _ => false

/-- Whether tokens ahead of which a document is begun write one. -/
def writesDocument : List Token → Bool
  | [] => false
  | token :: _ =>
    beginsNode token || isDirective token ||
      [Token.documentStart, .documentEnd, .streamEnd].contains token

/-- Whether another document begins behind one.  It has to be announced unless the
one before has been ended by a mark. -/
def hasAnother (isEnded : Bool) (rest : List Token) : Bool :=
  match rest.dropWhile (isEnded && · = .documentEnd) with
  | [] => false
  | .documentStart :: rest => writesDocument rest
  | token :: rest =>
    if isDirective token then
      match ((directives false (rest.length + 2)).run { ahead := token :: rest }) with
      | some ((), b) => b.ahead.head? = some .documentStart && writesDocument b.ahead.tail
      | none => false
    else isEnded && beginsNode token

/-- Reads a document and makes sure that it is the only one. -/
def document (bound : Nat) : Builder Node := do
  modify fun b => { b with ahead := b.ahead.dropWhile (· = .documentEnd) }
  if (← peek) = .streamEnd then
    failure
  else
    let isAnnounced := isDirective (← peek)
    directives false bound
    let isMarked ← takeIf .documentStart
    if isAnnounced && !isMarked then
      failure
    else
      let next ← peek
      let content ←
        if isMarked && (isDirective next ||
            [Token.documentStart, .documentEnd, .streamEnd].contains next) then
          pure absent
        else
          node true false bound
      let isEnded ← takeIf .documentEnd
      let rest := (← get).ahead
      if !isEnded && rest.head?.any isDirective then
        failure
      else if hasAnother isEnded rest then
        failure
      else
        return content

end Builder

/-- The node of the document that tokens write; none if they write no document or
more than one.  Between two tokens there are no more than four calls, so the bound
is not reached. -/
def ofTokens? (tokens : List Token) : Option Node :=
  ((Builder.document (4 * tokens.length + 4)).run { ahead := tokens }).map (·.1)

end Node

end GraphLint.Yaml
