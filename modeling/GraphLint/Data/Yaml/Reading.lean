import GraphLint.Data.Yaml.Token

/-!
# The state of reading a YAML text

Where the tokens of a YAML text are depends on what was read before: on the
indentation that is open, on the brackets that are open, and on whether a key may
begin here.  `Reading` holds all of this, together with the text ahead and the
tokens so far.

A key is recognised late, by the colon behind it.  So what may turn out to be a
key is kept as a `Candidate`, and when the colon comes, the tokens that announce
the key are put in before it.

Reading fails where the text cannot be YAML; what exactly is wrong is not said.
-/

set_option autoImplicit false

namespace GraphLint.Yaml

/-! ## Characters -/

def isBlank (c : Char) : Bool := c = ' ' || c = '\t'

def isBreak (c : Char) : Bool := c = '\n' || c = '\r'

/-- The characters that separate the parts of collections in brackets. -/
def isFlowMark (c : Char) : Bool := [',', '[', ']', '\x7b', '\x7d'].contains c

/-- Letters, digits, dash and underscore, all in ASCII. -/
def isWordChar (c : Char) : Bool := c.isAlphanum || c = '-' || c = '_'

/-- Whether a line, or the text, ends here. -/
def atLineEnd : List Char → Bool
  | [] => true
  | c :: _ => isBreak c

/-- Whether there is white space here, or the end of the text. -/
def atWordEnd : List Char → Bool
  | [] => true
  | c :: _ => isBlank c || isBreak c

/-- Whether a mark of three equal characters stands here by itself. -/
def marks (mark : Char) : List Char → Bool
  | a :: b :: c :: rest => a = mark && b = mark && c = mark && atWordEnd rest
  | _ => false

/-- Whether a document begins or ends here. -/
def atMarker (cs : List Char) : Bool := marks '-' cs || marks '.' cs

/-! ## The state -/

/-- A level of indentation under which another one is open. -/
structure Level where
  /-- Its column; the level of the whole text lies before the first column. -/
  column : Int
  /-- Whether the level above it is that of a sequence or mapping.  Otherwise it
  is one column that the rest of an entry has to be indented by. -/
  isBlock : Bool
  deriving DecidableEq, Repr, Inhabited

/-- A place where a key may have begun. -/
structure Candidate where
  /-- Whether nothing else than a key may stand there. -/
  isRequired : Bool
  /-- Number of the token that the key begins with. -/
  token : Nat
  index : Nat
  line : Nat
  column : Nat
  deriving DecidableEq, Repr, Inhabited

/-- How far a text has been read. -/
structure Reading where
  ahead : List Char
  /-- More than the number of characters of the text, and so than there can be
  steps that take some of them. -/
  stepLimit : Nat
  index : Nat := 0
  line : Nat := 0
  column : Nat := 0
  /-- Whether only white space has been read of the line. -/
  isIndentation : Bool := true
  /-- The column of the innermost level. -/
  indent : Int := -1
  /-- The levels around it, innermost first. -/
  outer : List Level := []
  /-- Whether a key may begin here. -/
  allowsKey : Bool := true
  /-- What may be a key inside the innermost bracket. -/
  candidate : Option Candidate := none
  /-- The same for the brackets around it and, at the end, for the outside. -/
  outerCandidates : List (Option Candidate) := []
  /-- The index at which a colon may follow a key without white space behind it. -/
  adjacent : Nat := 0
  /-- Whether a mapping in braces, or a pair announced by a question mark, has
  been begun. -/
  isMappingOpen : Bool := false
  /-- For every open bracket, innermost first, whether a pair without braces is
  open in it. -/
  pairs : List Bool := []
  /-- The line of a comment that ended a plain scalar. -/
  commentLine : Option Nat := none
  tokens : Array Token := #[]
  deriving Repr, Inhabited

namespace Reading

def isInFlow (s : Reading) : Bool := !s.outerCandidates.isEmpty

def isFinished (s : Reading) : Bool := s.tokens.back? = some .streamEnd

/-- The tokens that no candidate can put another one before. -/
def settled (s : Reading) : List Token :=
  let pending := (s.candidate :: s.outerCandidates).filterMap (·.map (·.token))
  s.tokens.toList.take (pending.foldl min s.tokens.size)

end Reading

/-- A step of reading. -/
abbrev Reader (α : Type) : Type := StateT Reading Option α

namespace Reader

/-! ## Taking characters -/

/-- Fails unless a condition holds. -/
def require (condition : Bool) : Reader Unit := if condition then pure () else failure

def ahead : Reader (List Char) := do
  return (← get).ahead

def stepLimit : Reader Nat := do
  return (← get).stepLimit

/-- Takes characters of a line that are white space. -/
def skip (n : Nat) : Reader Unit :=
  modify fun s =>
    { s with ahead := s.ahead.drop n, index := s.index + n, column := s.column + n }

/-- Takes characters of a line. -/
def take (n : Nat) : Reader Unit :=
  modify fun s =>
    { s with
      ahead := s.ahead.drop n, index := s.index + n, column := s.column + n
      isIndentation := false }

/-- Takes the end of a line, which has one character or two. -/
def takeBreak : Reader Unit :=
  modify fun s =>
    let n := match s.ahead with
      | '\r' :: '\n' :: _ => 2
      | _ => 1
    { s with
      ahead := s.ahead.drop n, index := s.index + n, line := s.line + 1, column := 0
      isIndentation := true }

/-- Takes a comment up to the end of its line. -/
def skipComment : Reader Unit := do
  skip ((← ahead).takeWhile (!isBreak ·)).length

/-- Takes white space and a comment up to the end of the line, and says whether
there were tabs and whether there were spaces.  Tabs count as white space where
`tabs` says so.  A comment needs white space before it. -/
def skipToLineEnd (tabs : Bool) : Reader (Bool × Bool) := do
  let blanks := (← ahead).takeWhile fun c => c = ' ' || (tabs && c = '\t')
  skip blanks.length
  if (← ahead).head? = some '#' then
    require (!blanks.isEmpty)
    skipComment
  return (blanks.contains '\t', blanks.contains ' ')

/-! ## Tokens and keys -/

/-- Puts a token behind the others. -/
def emit (token : Token) : Reader Unit :=
  modify fun s => { s with tokens := s.tokens.push token }

/-- Puts a token before token number `i`. -/
def insert (i : Nat) (token : Token) : Reader Unit :=
  modify fun s => { s with tokens := s.tokens.insertIdxIfInBounds i token }

/-- Says whether a key may begin at what comes next. -/
def allowKey (allowed : Bool) : Reader Unit :=
  modify fun s => { s with allowsKey := allowed }

/-- Keeps what comes next as a candidate, if a key may begin here.  In the column
of a mapping by indentation there must be one. -/
def noteCandidate : Reader Unit :=
  modify fun s =>
    if s.allowsKey then
      { s with
        candidate := some
          { isRequired :=
              !s.isInFlow && s.indent = s.column && s.outer.head?.any (·.isBlock)
            token := s.tokens.size
            index := s.index
            line := s.line
            column := s.column } }
    else s

/-- Gives the candidate up. -/
def dropCandidate : Reader Unit := do
  let s ← get
  require (!s.candidate.any (·.isRequired))
  set { s with candidate := none }

/-- The length that a key may have. -/
def keyLimit : Nat := 1024

/-- Gives the candidate up if its line has ended or it has become too long.  In
brackets a key may have any length. -/
def dropStaleCandidate : Reader Unit := do
  let s ← get
  match s.candidate with
  | some c =>
    if !s.isInFlow && (c.line < s.line || c.index + keyLimit < s.index) then dropCandidate
  | none => pure ()

/-! ## Levels of indentation -/

/-- Closes levels until the innermost is at a column or before it, and puts the
tokens behind `tokens` that end their blocks. -/
def closeLevels (column indent : Int) (tokens : Array Token) :
    List Level → Int × List Level × Array Token
  | [] => (indent, [], tokens)
  | level :: outer =>
    if column < indent then
      closeLevels column level.column (if level.isBlock then tokens.push .blockEnd else tokens)
        outer
    else (indent, level :: outer, tokens)

/-- Closes the levels that a text at some column is outside of.  Brackets keep
all levels open. -/
def dedentTo (column : Int) : Reader Unit :=
  modify fun s =>
    if s.isInFlow then s
    else
      let (indent, outer, tokens) := closeLevels column s.indent s.tokens s.outer
      { s with indent, outer, tokens }

/-- Closes the innermost level if it is no block. -/
def closeMargin : Reader Unit :=
  modify fun s =>
    match s.outer with
    | level :: outer => if level.isBlock then s else { s with indent := level.column, outer }
    | [] => s

/-- Opens the level of a block at a column, if that is further in, and puts the
token that begins the block before token number `i`. -/
def openBlock (column : Nat) (i : Nat) (token : Token) : Reader Unit := do
  unless (← get).isInFlow do
    if (← get).indent ≤ column then
      closeMargin
    let s ← get
    if s.indent < column then
      set { s with indent := (column : Int), outer := ⟨s.indent, true⟩ :: s.outer }
      insert i token

/-- Opens a level of one column inside a block, so that what belongs to an entry
is indented. -/
def openMargin : Reader Unit :=
  modify fun s =>
    if !s.isInFlow && s.outer.head?.any (·.isBlock) then
      { s with indent := s.indent + 1, outer := ⟨s.indent, false⟩ :: s.outer }
    else s

/-! ## Space between tokens -/

/-- Takes white space, ends of lines and comments, at most `bound` pieces of
them.  A tab must not indent what belongs to a block. -/
def skipGapWithin : Nat → Reader Unit
  | 0 => pure ()
  | bound + 1 => do
    let s ← get
    match s.ahead with
    | [] => pure ()
    | c :: _ =>
      if c = '\t' && !s.outer.isEmpty && s.isIndentation && (s.column : Int) < s.indent then
        let _ ← skipToLineEnd true
        require (atLineEnd (← ahead))
        skipGapWithin bound
      else if isBlank c then
        skip 1
        skipGapWithin bound
      else if isBreak c then
        takeBreak
        unless s.isInFlow do
          allowKey true
        skipGapWithin bound
      else if c = '#' then
        skipComment
        skipGapWithin bound

/-- Whether a plain scalar goes on here; `inFlow` says whether it is in brackets. -/
def continuesPlain (inFlow : Bool) : List Char → Bool
  | [] => false
  | c :: rest =>
    if isBlank c || isBreak c then false
    else if c = ':' then !(atWordEnd rest || (inFlow && rest.head?.any isFlowMark))
    else !(inFlow && isFlowMark c)

/-- Takes all that may stand between tokens.  A plain scalar that a comment has
ended must not go on in the next line. -/
def skipGap : Reader Unit := do
  skipGapWithin (← stepLimit)
  let s ← get
  match s.commentLine with
  | some line =>
    set { s with commentLine := none }
    if !s.isInFlow && s.line = line + 1 && s.indent < s.column then
      require ((s.column = 0 && atMarker s.ahead) || !continuesPlain false s.ahead)
  | none => pure ()

end Reader

end GraphLint.Yaml
