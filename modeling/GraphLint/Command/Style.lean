/-!
# Coloured text

Text on a terminal can be coloured.  Whether it is depends on what the command
line asks for, then on the environment, and at last on whether there is a
terminal.
-/

set_option autoImplicit false

namespace GraphLint

inductive Hue
  | red | green | yellow
  deriving DecidableEq, Repr, Inhabited

def Hue.code : Hue → String
  | red => "31"
  | green => "32"
  | yellow => "33"

structure Style where
  hue : Hue
  bold : Bool
  deriving DecidableEq, Repr, Inhabited

namespace Style

def plain (hue : Hue) : Style := ⟨hue, false⟩

def strong (hue : Hue) : Style := ⟨hue, true⟩

/-- What turns a style on. -/
def opening (s : Style) : String :=
  "\x1b[" ++ (if s.bold then "1;" else "") ++ s.hue.code ++ "m"

/-- What turns every style off. -/
def closing : String := "\x1b[0m"

/-- A text in which `resume` stands behind all that turns styles off. -/
def resumeAfterClosing (resume : List Char) : List Char → List Char
  | '\x1b' :: '[' :: '0' :: 'm' :: rest =>
    closing.toList ++ resume ++ resumeAfterClosing resume rest
  | c :: rest => c :: resumeAfterClosing resume rest
  | [] => []

/-- A text in a style, if colours are on.  Where the text itself turns styles off,
this one is resumed. -/
def paint (coloured : Bool) (s : Style) (text : String) : String :=
  if coloured then
    s.opening ++ String.ofList (resumeAfterClosing s.opening.toList text.toList) ++ closing
  else text

end Style

/-- What else decides about colours. -/
structure Surroundings where
  noColor : Option String
  cliColor : Option String
  cliColorForce : Option String
  isTerminal : Bool
  deriving DecidableEq, Repr, Inhabited

/-- What the command line asks for. -/
structure ColourWish where
  on : Bool
  off : Bool
  deriving DecidableEq, Repr, Inhabited

/-- Whether colours are on.  `NO_COLOR` turns them off whatever its value;
`CLICOLOR_FORCE` turns them on unless it is `0`.  Otherwise it takes a terminal,
and `CLICOLOR` must not be `0`. -/
def ColourWish.decide (wish : ColourWish) (around : Surroundings) : Bool :=
  if wish.on then true
  else if wish.off || around.noColor.isSome then false
  else if around.cliColorForce.any (· ≠ "0") then true
  else around.isTerminal && around.cliColor ≠ some "0"

end GraphLint
