import GraphLint.Data.Yaml.Block
import GraphLint.Data.Yaml.Plain
import GraphLint.Data.Yaml.Quoted
import GraphLint.Data.Yaml.Tag

/-!
# The tokens of a YAML text

Reads a text token by token.  What begins a token is seen from one character and
the one behind it, together with the indentation and the brackets that are open.

A text that cannot be read to its end still has the tokens before the fault, as
far as they cannot change any more.
-/

set_option autoImplicit false

namespace GraphLint.Yaml

namespace Reader

/-! ## Brackets -/

/-- Ends the pair without braces that is open inside the innermost brackets. -/
def closePair : Reader Unit := do
  let s ← get
  match s.pairs with
  | true :: outer =>
    set { s with pairs := false :: outer, isMappingOpen := false }
    emit .flowMappingEnd
  | _ => pure ()

def readFlowStart (token : Token) : Reader Unit := do
  noteCandidate
  openMargin
  allowKey true
  take 1
  modify fun s =>
    let s := { s with candidate := none, outerCandidates := s.candidate :: s.outerCandidates }
    if token = .flowMapping then { s with isMappingOpen := true }
    else { s with pairs := false :: s.pairs }
  let _ ← skipToLineEnd true
  emit token

/-- Reads a closing bracket or brace.  The collection may be a key, whose colon
may follow at once. -/
def readFlowEnd (token : Token) : Reader Unit := do
  dropCandidate
  if token = .flowSequenceEnd then
    closePair
    modify fun s => { s with pairs := s.pairs.tail }
  modify fun s =>
    match s.outerCandidates with
    | candidate :: outer => { s with candidate, outerCandidates := outer }
    | [] => s
  allowKey false
  take 1
  let _ ← skipToLineEnd true
  modify fun s => if s.isInFlow then { s with adjacent := s.index } else s
  emit token

def readComma : Reader Unit := do
  dropCandidate
  allowKey true
  closePair
  take 1
  let _ ← skipToLineEnd true
  emit .comma

/-! ## Entries -/

/-- Reads the dash before an item. -/
def readItem : Reader Unit := do
  let s ← get
  require (!s.isInFlow && s.allowsKey)
  take 1
  openBlock s.column s.tokens.size .blockSequence
  let (hasTabs, _) ← skipToLineEnd true
  let rest ← ahead
  require (!(hasTabs && rest.head? = some '-' && atWordEnd (rest.drop 1)))
  if rest.head?.any fun c => isBreak c || isFlowMark c then
    openMargin
  dropCandidate
  allowKey true
  emit .item

/-- Takes spaces, ends of lines and comments, at most `bound` pieces of them. -/
def skipLinesWithin : Nat → Reader Unit
  | 0 => pure ()
  | bound + 1 => do
    match ← ahead with
    | [] => pure ()
    | c :: _ =>
      if c = ' ' then
        skip 1
        skipLinesWithin bound
      else if isBreak c then
        takeBreak
        unless (← get).isInFlow do
          allowKey true
        skipLinesWithin bound
      else if c = '#' then
        skipComment
        skipLinesWithin bound

/-- Reads the question mark before a key. -/
def readKey : Reader Unit := do
  let s ← get
  if s.isInFlow then
    set { s with isMappingOpen := true }
  else
    require s.allowsKey
    openBlock s.column s.tokens.size .blockMapping
  dropCandidate
  allowKey !s.isInFlow
  take 1
  require ((← ahead).head?.any fun c => c = ' ' || isBreak c)
  skipLinesWithin (← stepLimit)
  require ((← ahead).head? ≠ some '\t')
  emit .key

/-- Puts in the tokens that make a key of a candidate, and opens the mapping that
it is the first key of.  A pair without braces has its key on one line. -/
def confirmKey (c : Candidate) (isPair : Bool) : Reader Unit := do
  insert c.token .key
  if isPair then
    require ((← get).line ≤ c.line)
    insert c.token .flowMapping
  openBlock c.column c.token .blockMapping
  openMargin
  modify fun s => { s with candidate := none }
  allowKey false

/-- Reads the colon before a value. -/
def readValue : Reader Unit := do
  let s ← get
  let isPair := !s.pairs.isEmpty && !s.isMappingOpen
  if isPair then
    set { s with pairs := true :: s.pairs.tail }
  take 1
  if (← ahead).head? = some '\t' then
    let (_, hasSpaces) ← skipToLineEnd true
    require (hasSpaces || !(← ahead).head?.any isWordChar)
  match s.candidate with
  | some c => confirmKey c isPair
  | none =>
    if isPair then
      emit .flowMapping
    unless s.isInFlow do
      require s.allowsKey
      openBlock s.column (← get).tokens.size .blockMapping
    openMargin
    allowKey !s.isInFlow
  emit .value

/-! ## Documents -/

/-- Reads the mark that a document begins or ends with.  Nothing else may follow
on the line of an end. -/
def readMarker (token : Token) : Reader Unit := do
  dedentTo (-1)
  dropCandidate
  allowKey false
  take 3
  emit token
  if token = .documentEnd then
    let _ ← skipToLineEnd true
    require (atLineEnd (← ahead))

def readEnd : Reader Unit := do
  let s ← get
  require ((s.candidate :: s.outerCandidates).all fun c => !c.any (·.isRequired))
  set { s with candidate := none, outerCandidates := s.outerCandidates.map fun _ => none }
  dedentTo (-1)
  allowKey false
  emit .streamEnd

/-! ## All tokens -/

/-- Whether a colon stands here that a value follows, given the text behind it.  In
brackets it may do so without white space: before a mark, and behind a key that
ends by itself, and only there before an opening one. -/
def beginsValue (s : Reading) (rest : List Char) : Bool :=
  atWordEnd rest ||
    (s.isInFlow && (s.index = s.adjacent || rest.head?.any isFlowMark))

/-- Reads the token that begins with a character, given the text behind that. -/
def readToken (c : Char) (rest : List Char) : Reader Unit := do
  let s ← get
  match c with
  | '[' => readFlowStart .flowSequence
  | '\x7b' => readFlowStart .flowMapping
  | ']' => readFlowEnd .flowSequenceEnd
  | '\x7d' => readFlowEnd .flowMappingEnd
  | ',' => readComma
  | '*' => readName .reference
  | '&' => readName .anchor
  | '!' => readTag
  | '\'' => readQuoted '\''
  | '"' => readQuoted '"'
  | '-' => if atWordEnd rest then readItem else readPlain
  | '?' => if atWordEnd rest then readKey else readPlain
  | ':' =>
    if beginsValue s rest then
      require (s.index = s.adjacent || !rest.head?.any fun d => d = '[' || d = '\x7b')
      readValue
    else
      readPlain
  | '|' => if s.isInFlow then readPlain else readBlock false
  | '>' => if s.isInFlow then readPlain else readBlock true
  | '%' | '@' | '\x60' => failure
  | _ => readPlain

/-- Reads what comes next.  Nothing stands before the column of the open block
but the marks that close or divide a collection in brackets. -/
def readNext : Reader Unit := do
  skipGap
  dropStaleCandidate
  dedentTo (← get).column
  let s ← get
  match s.ahead with
  | [] => readEnd
  | c :: rest =>
    if s.column = 0 && c = '%' then
      readDirective
    else if s.column = 0 && marks '-' s.ahead then
      readMarker .documentStart
    else if s.column = 0 && marks '.' s.ahead then
      readMarker .documentEnd
    else
      require (s.indent ≤ s.column || (s.isInFlow && [']', '\x7d', ','].contains c))
      readToken c rest

/-- Reads on, at most `bound` times, until the text or what can be read of it has
ended. -/
def readAll : Nat → Reading → List Token
  | 0, s => s.settled
  | bound + 1, s =>
    match dropStaleCandidate.run s with
    | none => s.settled
    | some ((), s) =>
      if s.isFinished then s.tokens.toList
      else
        match readNext.run s with
        | none => s.settled
        | some ((), s) => readAll bound s

end Reader

/-- The tokens of a text.  A mark of the byte order does not count, and a null
character ends the text.  Every step but the last takes a character, so the bound
is not reached. -/
def tokens (text : String) : List Token :=
  let cs := match text.toList with
    | '\ufeff' :: rest => rest
    | cs => cs
  let cs := cs.takeWhile (· ≠ '\x00')
  Reader.readAll (cs.length + 2) { ahead := cs, stepLimit := cs.length + 1 }

end GraphLint.Yaml
