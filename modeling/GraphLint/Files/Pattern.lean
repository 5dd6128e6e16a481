import GraphLint.Files.Path

/-!
# Patterns for paths

A pattern is a path whose components may hold wildcards.

* `?` stands for any character.
* `*` stands for any characters, or none.
* `[abx-z]` stands for one of the characters and ranges in the brackets, and
  `[!abx-z]` for any other.  A closing bracket that comes first is a member.
* `**` stands for directories, any number of them.  It has to be a component of
  its own.

A slash behind the last component restricts the pattern to directories.
-/

set_option autoImplicit false

namespace GraphLint

/-- What is wrong with a pattern. -/
inductive PatternFault
  /-- There are three stars in a row. -/
  | wildcards
  /-- Two stars are not a component of their own. -/
  | recursion
  /-- A bracket is not closed. -/
  | range
  deriving DecidableEq, Repr, Inhabited

def PatternFault.message : PatternFault → String
  | wildcards => "wildcards are either regular \x60*\x60 or recursive \x60**\x60"
  | recursion => "recursive wildcards must form a single path component"
  | range => "invalid range pattern"

/-- A fault of a pattern and where it shows. -/
structure PatternError where
  /-- The number of characters before. -/
  position : Nat
  fault : PatternFault
  deriving DecidableEq, Repr, Inhabited

def PatternError.message (e : PatternError) : String :=
  "Pattern syntax error near position " ++ toString e.position ++ ": " ++ e.fault.message

/-! ## Signs -/

/-- The first and the last character of a range. -/
abbrev CharRange : Type := Char × Char

/-- One sign of a pattern. -/
inductive Sign
  | char (c : Char)
  | any
  /-- Any characters. -/
  | sequence
  | within (ranges : List CharRange)
  | without (ranges : List CharRange)
  /-- Any number of components. -/
  | recursion
  deriving DecidableEq, Repr, Inhabited

namespace Sign

/-- The ranges that characters in brackets write.  A single character is a range
by itself, and so is a dash at either end. -/
def ranges : List Char → List CharRange
  | first :: '-' :: last :: rest => (first, last) :: ranges rest
  | c :: rest => (c, c) :: ranges rest
  | [] => []

/-- The sign in brackets, given what follows the opening bracket, and how many of
those characters belong to it. -/
def bracket? (cs : List Char) : Option (Sign × Nat) :=
  match cs with
  | '!' :: first :: rest => closed without 2 first rest
  | '!' :: [] => none
  | first :: rest => closed within 1 first rest
  | [] => none
where
  /-- The sign, if there is a closing bracket behind the first member. -/
  closed (sign : List CharRange → Sign) (used : Nat) (first : Char) (rest : List Char) :
      Option (Sign × Nat) :=
    let more := rest.takeWhile (· ≠ ']')
    if rest.contains ']' then some (sign (ranges (first :: more)), used + more.length + 1)
    else none

/-- Reads a pattern, or a part of one behind `before` at some position. -/
def read (before : Option Char) (position : Nat) (cs : List Char) :
    Except PatternError (List Sign) :=
  match cs with
  | [] => .ok []
  | c :: rest =>
    if c = '?' then (read (some c) (position + 1) rest).map (any :: ·)
    else if c = '*' then
      match rest with
      | '*' :: '*' :: _ => .error ⟨position + 2, .wildcards⟩
      | '*' :: after =>
        if before.any (· ≠ '/') then .error ⟨position - 1, .recursion⟩
        else
          match after with
          | [] => .ok [recursion]
          | d :: after =>
            if d = '/' then (read (some d) (position + 3) after).map (recursion :: ·)
            else .error ⟨position + 2, .recursion⟩
      | other => (read (some c) (position + 1) other).map (sequence :: ·)
    else if c = '[' then
      match bracket? rest with
      | some (sign, used) =>
        (read (some ']') (position + 1 + used) (rest.drop used)).map (sign :: ·)
      | none => .error ⟨position, .range⟩
    else (read (some c) (position + 1) rest).map (char c :: ·)
termination_by cs.length
decreasing_by all_goals simp +arith [List.length_drop]

def inRanges (ranges : List CharRange) (c : Char) : Bool :=
  ranges.any fun (first, last) => first ≤ c && c ≤ last

/-- Whether a sign stands for a character. -/
def allows : Sign → Char → Bool
  | char d, c => c = d
  | any, _ => true
  | within ranges, c => inRanges ranges c
  | without ranges, c => !inRanges ranges c
  | sequence, _ => true
  | recursion, _ => true

/-- Whether a sign stands for characters in any number. -/
def isRepeated : Sign → Bool
  | sequence => true
  | recursion => true
  | _ => false

/-- Puts a sign before signs.  The answers `later` say of a text, and of every text
that is left of it when characters are taken from its front, whether the signs
stand for it; the result says the same of the signs with the new one. -/
def prepend (sign : Sign) : List Char → List Bool → List Bool
  | c :: cs, here :: later =>
    let answers := prepend sign cs later
    let answer :=
      if sign.isRepeated then here || answers.headD false
      else sign.allows c && later.headD false
    answer :: answers
  | [], later => [sign.isRepeated && later.headD false]
  | _ :: _, [] => []

/-- For a text, and for every text that is left of it when characters are taken
from its front, whether signs stand for it. -/
def answers (cs : List Char) : List Sign → List Bool
  | [] => cs.map (fun _ => false) ++ [true]
  | sign :: signs => prepend sign cs (answers cs signs)

/-- Whether signs stand for a text. -/
def covers (signs : List Sign) (cs : List Char) : Bool := (answers cs signs).headD false

/-- The text that signs stand for, if there are no wildcards among them. -/
def literal? : List Sign → Option (List Char)
  | [] => some []
  | char c :: signs => (literal? signs).map (c :: ·)
  | _ :: _ => none

end Sign

/-! ## Patterns -/

/-- One component of a pattern. -/
inductive Segment
  | literal (name : String)
  | wild (signs : List Sign)
  /-- Directories, any number of them. -/
  | recursion
  deriving DecidableEq, Repr, Inhabited

namespace Segment

/-- The component that signs write. -/
def ofSigns (signs : List Sign) : Segment :=
  if signs = [.recursion] then recursion
  else
    match Sign.literal? signs with
    | some name => literal (String.ofList name)
    | none => wild signs

/-- The component that a text writes. -/
def read (text : List Char) : Except PatternError Segment :=
  (Sign.read none 0 text).map ofSigns

/-- Whether a component stands for a name. -/
def covers : Segment → String → Bool
  | literal text, name => name = text
  | wild signs, name => Sign.covers signs name.toList
  | recursion, _ => true

end Segment

/-- A pattern for paths. -/
structure Pattern where
  isAbsolute : Bool
  segments : List Segment
  directoriesOnly : Bool
  deriving DecidableEq, Repr, Inhabited

namespace Pattern

/-- The components of a pattern as they are written.  A slash at the end closes
the last one; behind nothing at all there is one that is empty. -/
def texts (cs : List Char) : List (List Char) :=
  match (Path.splitOn '/' cs).reverse with
  | [] :: last :: before => (last :: before).reverse
  | all => all.reverse

/-- Reads a pattern.  It is looked at as a whole first, and then component by
component, because brackets must not reach across a slash. -/
def read (text : String) : Except PatternError Pattern := do
  let cs := text.toList
  let isAbsolute := Path.isAbsolute text
  let _ ← Sign.read none 0 cs
  let segments ← (texts (if isAbsolute then cs.drop 1 else cs)).mapM Segment.read
  return { isAbsolute, segments, directoriesOnly := cs.getLast? = some '/' }

end Pattern

end GraphLint
