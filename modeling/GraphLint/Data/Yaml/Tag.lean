import GraphLint.Data.Yaml.Reading
import GraphLint.Source.Literal

/-!
# Names, tags and directives

The marks that say something of a node: an anchor names it, a reference stands for
the node of that name, and a tag says what kind of value it writes.  A tag is an
address, written in full between angle brackets or begun with a handle.  What a
handle is short for, a directive at the head of a document says.
-/

set_option autoImplicit false

namespace GraphLint.Yaml

/-! ## Characters -/

/-- A character of the name of an anchor. -/
def isNameChar (c : Char) : Bool :=
  !(isBlank c || isBreak c || isFlowMark c || c = '\ufeff')

/-- A character of an address. -/
def isAddressChar (c : Char) : Bool :=
  isWordChar c || "#;/?:@&=+$,.!~*'()[]%".contains c

/-- A character of the end of a tag behind its handle. -/
def isTagChar (c : Char) : Bool := isAddressChar c && !isFlowMark c && c ≠ '!'

/-- The byte that the two hexadecimal digits of an escape write, given what follows
its percent sign, and the text behind it. -/
def escapedByte? : List Char → Option (Nat × List Char)
  | a :: b :: rest => (Literal.hexNumber? [a, b]).map (·, rest)
  | _ => none

/-- The character of an escape, given what follows its percent sign, and how many
of those characters belong to it.  Beyond ASCII a character takes two escapes, a
leading byte and a trailing one. -/
def addressEscape? (cs : List Char) : Option (Char × Nat) := do
  let (lead, rest) ← escapedByte? cs
  if lead < 0x80 then
    return (← Literal.scalar? lead, 2)
  else
    match rest with
    | '%' :: more =>
      let (trail, _) ← escapedByte? more
      if 0xC0 ≤ lead && lead < 0xE0 && 0x80 ≤ trail && trail < 0xC0 then
        return (← Literal.scalar? (lead * 0x100 + trail), 5)
      else none
    | _ => none

/-- The address of characters of some kind that a text begins with, its escapes
replaced, and the number of characters that write it. -/
def address? (isPart : Char → Bool) : List Char → Option (List Char × Nat)
  | [] => some ([], 0)
  | c :: rest =>
    if !isPart c then some ([], 0)
    else if c = '%' then
      match addressEscape? rest with
      | some (d, n) => (address? isPart (rest.drop n)).map fun (ds, m) => (d :: ds, m + n + 1)
      | none => none
    else (address? isPart rest).map fun (ds, m) => (c :: ds, m + 1)
termination_by cs => cs.length
decreasing_by all_goals simp +arith [List.length_drop]

namespace Reader

/-- Takes the characters of an address. -/
def takeAddress (isPart : Char → Bool) : Reader (List Char) := do
  match address? isPart (← ahead) with
  | none => failure
  | some (address, count) =>
    take count
    return address

/-- Takes the characters of some kind that come next. -/
def takeWhile (isPart : Char → Bool) : Reader (List Char) := do
  let cs := (← ahead).takeWhile isPart
  take cs.length
  return cs

/-! ## Anchors and references -/

/-- Reads the name of an anchor, and puts the token it makes. -/
def readName (token : String → Token) : Reader Unit := do
  noteCandidate
  allowKey false
  take 1
  let name ← takeWhile isNameChar
  require !name.isEmpty
  emit (token (String.ofList name))

/-! ## Tags -/

/-- Takes a handle: an exclamation mark and, if there is one, the word behind it
with a second mark.  Without the second mark the word is part of the tag. -/
def takeHandle : Reader (List Char) := do
  require ((← ahead).head? = some '!')
  take 1
  let word ← takeWhile isWordChar
  if (← ahead).head? = some '!' then
    take 1
    return '!' :: word ++ ['!']
  else
    return '!' :: word

/-- The handle and the rest of a tag. -/
def takeTag : Reader (List Char × List Char) := do
  if (← ahead).take 2 = ['!', '<'] then
    take 2
    let address ← takeAddress isAddressChar
    require ((← ahead).head? = some '>')
    take 1
    return ([], address)
  else
    let handle ← takeHandle
    let suffix ← takeAddress isTagChar
    if 2 ≤ handle.length && handle.getLast? = some '!' then
      require !suffix.isEmpty
      return (handle, suffix)
    else
      let suffix := handle.drop 1 ++ suffix
      return if suffix.isEmpty then ([], ['!']) else (['!'], suffix)

def readTag : Reader Unit := do
  noteCandidate
  allowKey false
  let (handle, suffix) ← takeTag
  let s ← get
  require (atWordEnd s.ahead || (s.isInFlow && s.ahead.head?.any isFlowMark))
  emit (.tag (String.ofList handle) (String.ofList suffix))

/-! ## Directives -/

/-- Takes the digits of a number in a directive. -/
def takeVersionNumber : Reader Unit := do
  let digits ← takeWhile Char.isDigit
  require (!digits.isEmpty && digits.length ≤ 9)

def skipBlanks : Reader Unit := do
  skip ((← ahead).takeWhile isBlank).length

/-- Takes what a directive says behind its name. -/
def takeDirective (name : String) : Reader Token := do
  if name = "YAML" then
    skipBlanks
    takeVersionNumber
    require ((← ahead).head? = some '.')
    take 1
    takeVersionNumber
    return .version
  else if name = "TAG" then
    skipBlanks
    let handle ← takeHandle
    require (handle.getLast? = some '!')
    skipBlanks
    require ((← ahead).head?.any fun c => c = '!' || isTagChar c)
    let meaning ← takeAddress isAddressChar
    require (atWordEnd (← ahead))
    return .shorthand (String.ofList handle) (String.ofList meaning)
  else
    skipComment
    return .shorthand "" ""

/-- Reads a directive, which has a line for itself.  Nothing is known of directives
other than those for the version and for handles. -/
def readDirective : Reader Unit := do
  dedentTo (-1)
  dropCandidate
  allowKey false
  take 1
  let name ← takeWhile isWordChar
  require (!name.isEmpty && atWordEnd (← ahead))
  let token ← takeDirective (String.ofList name)
  let _ ← skipToLineEnd true
  require (atLineEnd (← ahead))
  unless (← ahead).isEmpty do
    takeBreak
  emit token

end Reader

end GraphLint.Yaml
