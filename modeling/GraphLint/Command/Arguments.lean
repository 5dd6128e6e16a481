import GraphLint.Command.Style

/-!
# Arguments

The words on the command line ask for help, for the version, or for a check.

Options may stand before the name of the command and behind it; what stands
behind wins.  An option with a value takes it from its own word (`--format=json`,
`-fjson`, `-f=json`) or from the next one, unless that looks like an option.
Short options without a value can share a word.  Behind `--` nothing is an
option.  On either side of the command's name no option may be repeated, apart
from the ones that name schema files.

A value is looked at when the next word that is not its own has to be placed, and
at the end of its side of the command's name.  So a request for help behind that
name is granted in spite of a wrong value before it.
-/

set_option autoImplicit false

namespace GraphLint

inductive OutputFormat
  | human
  | json
  deriving DecidableEq, Repr, Inhabited

def OutputFormat.ofName? : String → Option OutputFormat
  | "human" => some human
  | "json" => some json
  | _ => none

inductive CommandName
  | validate
  /-- Checks schemas for repeated definitions. -/
  | checkSchema
  deriving DecidableEq, Repr, Inhabited

def CommandName.ofName? : String → Option CommandName
  | "validate" => some validate
  | "check-schema" => some checkSchema
  | _ => none

/-- A check that is asked for. -/
structure Invocation where
  command : CommandName
  config : Option String
  format : OutputFormat
  colour : ColourWish
  quiet : Bool
  schemas : List String
  inputs : List String
  deriving DecidableEq, Repr, Inhabited

/-- What the words on a command line ask for. -/
inductive Request
  | help
  | version
  | check (invocation : Invocation)
  deriving DecidableEq, Repr, Inhabited

/-- Why the words on a command line ask for nothing. -/
inductive UsageError
  | unknownOption (name : String)
  | unexpectedValue (name : String)
  | missingValue (name : String)
  | invalidValue (name value : String)
  | repeated (name : String)
  | conflict (first second : String)
  | unknownCommand (name : String)
  | missingCommand
  | missing (what : String)
  deriving DecidableEq, Repr, Inhabited

def UsageError.message : UsageError → String
  | unknownOption name => "unexpected argument '" ++ name ++ "' found"
  | unexpectedValue name => "the option '" ++ name ++ "' takes no value"
  | missingValue name => "a value is required for '" ++ name ++ "'"
  | invalidValue name value => "invalid value '" ++ value ++ "' for '" ++ name ++ "'"
  | repeated name => "the argument '" ++ name ++ "' cannot be used multiple times"
  | conflict first second =>
    "the argument '" ++ first ++ "' cannot be used with '" ++ second ++ "'"
  | unknownCommand name => "unrecognized subcommand '" ++ name ++ "'"
  | missingCommand => "a subcommand is required"
  | missing what => "the following required argument was not provided: " ++ what

namespace Arguments

/-! ## Options -/

/-- Options without a value. -/
inductive Switch
  | colour
  | noColour
  | quiet
  deriving DecidableEq, Repr, Inhabited

/-- Options with a value. -/
inductive Setting
  | config
  | format
  | schema
  deriving DecidableEq, Repr, Inhabited

inductive Flag
  | switch (s : Switch)
  | setting (s : Setting)
  | help
  | version
  deriving DecidableEq, Repr, Inhabited

/-- The option of a long name.  The command, if its name stands before the
option, decides what a schema is called; the version has to be asked for before. -/
def longFlag? (command : Option CommandName) (name : String) : Option Flag :=
  match name, command with
  | "config", _ => some (.setting .config)
  | "format", _ => some (.setting .format)
  | "color", _ => some (.switch .colour)
  | "no-color", _ => some (.switch .noColour)
  | "quiet", _ => some (.switch .quiet)
  | "help", _ => some .help
  | "version", none => some .version
  | "schema", some .validate => some (.setting .schema)
  | "base", some .checkSchema => some (.setting .schema)
  | _, _ => none

def shortFlag? (command : Option CommandName) (letter : Char) : Option Flag :=
  match letter, command with
  | 'c', _ => some (.setting .config)
  | 'f', _ => some (.setting .format)
  | 'q', _ => some (.switch .quiet)
  | 'h', _ => some .help
  | 'V', none => some .version
  | 's', some .validate => some (.setting .schema)
  | 'b', some .checkSchema => some (.setting .schema)
  | _, _ => none

def Switch.name : Switch → String
  | colour => "--color"
  | noColour => "--no-color"
  | quiet => "--quiet"

def Setting.name : Setting → String
  | config => "--config"
  | format => "--format"
  | schema => "--schema"

/-! ## What is given -/

/-- What the words on one side of the command's name give. -/
structure Given where
  switches : List Switch
  config : Option String
  format : Option OutputFormat
  schemas : List String
  inputs : List String
  /-- A value that has not been looked at yet. -/
  pending : Option (Setting × String)
  deriving DecidableEq, Repr, Inhabited

/-- Why reading ends before the words do. -/
inductive Stop
  | help
  | version
  | error (e : UsageError)
  deriving DecidableEq, Repr, Inhabited

namespace Given

def nothing : Given := ⟨[], none, none, [], [], none⟩

/-- Looks at the value of a setting. -/
def accept (g : Given) (s : Setting) (value : String) : Except Stop Given :=
  match s with
  | .config =>
    if g.config.isSome then .error (.error (.repeated s.name))
    else if value = "" then .error (.error (.invalidValue s.name value))
    else .ok { g with config := some value }
  | .format =>
    if g.format.isSome then .error (.error (.repeated s.name))
    else
      match OutputFormat.ofName? value with
      | some format => .ok { g with format := some format }
      | none => .error (.error (.invalidValue s.name value))
  | .schema =>
    if value = "" then .error (.error (.invalidValue s.name value))
    else .ok { g with schemas := g.schemas ++ [value] }

/-- Looks at the value that has not been looked at yet. -/
def settle (g : Given) : Except Stop Given :=
  match g.pending with
  | some (s, value) => accept { g with pending := none } s value
  | none => .ok g

def turnOn (g : Given) (s : Switch) : Except Stop Given :=
  if s ∈ g.switches then .error (.error (.repeated s.name))
  else .ok { g with switches := s :: g.switches }

/-- Takes an option.  If its value is not in its own word, the setting that needs
one is handed on. -/
def take (g : Given) (name : String) (flag : Flag) (attached : Option String) :
    Except Stop (Given × Option Setting) :=
  match flag, attached with
  | .setting s, some value => do return (← (← g.settle).accept s value, none)
  | .setting s, none => do return (← g.settle, some s)
  | _, some _ => .error (.error (.unexpectedValue name))
  | .switch s, none => do return (← (← g.settle).turnOn s, none)
  | .help, none => do
    let _ ← g.settle
    .error .help
  | .version, none => do
    let _ ← g.settle
    .error .version

end Given

/-! ## Words -/

/-- What a word looks like. -/
inductive Shape
  /-- The end of all options. -/
  | terminator
  /-- A long option, with the value behind an equals sign. -/
  | long (name : String) (attached : Option String)
  | short (letters : List Char)
  | plain
  deriving DecidableEq, Repr, Inhabited

def Shape.ofWord (word : String) : Shape :=
  match word.toList with
  | ['-', '-'] => .terminator
  | '-' :: '-' :: cs =>
    let name := cs.takeWhile (· ≠ '=')
    let attached :=
      if cs.contains '=' then some (String.ofList (cs.drop (name.length + 1))) else none
    .long (String.ofList name) attached
  | '-' :: c :: cs => .short (c :: cs)
  | _ => .plain

/-- Takes the short options of a word.  What follows an option with a value is
that value. -/
def takeLetters (command : Option CommandName) (g : Given) :
    List Char → Except Stop (Given × Option Setting)
  | [] => .ok (g, none)
  | c :: cs =>
    let name := String.ofList ['-', c]
    match shortFlag? command c with
    | none => .error (.error (.unknownOption name))
    | some (.setting s) =>
      let attached := match cs with
        | [] => none
        | '=' :: value => some (String.ofList value)
        | value => some (String.ofList value)
      g.take name (.setting s) attached
    | some flag => do
      let (g, _) ← g.take name flag none
      takeLetters command g cs

/-- Reads the words on one side of the command's name, and hands on those that
begin with the command's name, if it has not been met. -/
def readSide (command : Option CommandName) :
    Given → List String → Except Stop (Given × List String)
  | g, [] => do return (← g.settle, [])
  | g, word :: words =>
    match Shape.ofWord word with
    | .terminator =>
      match command, words with
      | none, word :: _ => .error (.error (.unknownOption word))
      | _, _ => do
        let g ← g.settle
        return ({ g with inputs := g.inputs ++ words }, [])
    | .plain =>
      match command with
      | none => .ok (g, word :: words)
      | some _ => do
        let g ← g.settle
        readSide command { g with inputs := g.inputs ++ [word] } words
    | .long name attached =>
      match longFlag? command name with
      | none => .error (.error (.unknownOption word))
      | some flag => go words (g.take ("--" ++ name) flag attached)
    | .short letters => go words (takeLetters command g letters)
termination_by _ words => 2 * words.length
where
  /-- Goes on behind an option, with the value that it still needs. -/
  go (words : List String) (taken : Except Stop (Given × Option Setting)) :
      Except Stop (Given × List String) :=
    match taken, words with
    | .error stop, _ => .error stop
    | .ok (g, none), words => readSide command g words
    | .ok (_, some s), [] => .error (.error (.missingValue s.name))
    | .ok (g, some s), value :: words =>
      if Shape.ofWord value = .plain then
        readSide command { g with pending := some (s, value) } words
      else .error (.error (.missingValue s.name))
  termination_by 2 * words.length + 1

/-! ## Requests -/

/-- Makes sure that colours are not both asked for and not. -/
def checkConflicts (g : Given) : Except Stop Unit :=
  if Switch.colour ∈ g.switches ∧ Switch.noColour ∈ g.switches then
    .error (.error (.conflict Switch.colour.name Switch.noColour.name))
  else .ok ()

/-- Help on the commands that words name, of which there is at most one. -/
def readHelp (words : List String) : Stop :=
  match words with
  | [] => .help
  | [name] =>
    if name = "help" ∨ (CommandName.ofName? name).isSome then .help
    else .error (.unknownCommand name)
  | _ :: name :: _ => .error (.unknownCommand name)

/-- What the words before and behind the command's name ask for together. -/
def combine (command : CommandName) (before behind : Given) : Invocation :=
  let on (s : Switch) : Bool := s ∈ before.switches || s ∈ behind.switches
  { command
    config := behind.config.or before.config
    format := (behind.format.or before.format).getD .human
    colour := ⟨on .colour, on .noColour⟩
    quiet := on .quiet
    schemas := behind.schemas
    inputs := behind.inputs }

/-- Reads the words behind a command's name. -/
def readCommand (command : CommandName) (before : Given) (words : List String) :
    Except Stop Invocation := do
  let (behind, _) ← readSide (some command) .nothing words
  if command = .validate ∧ behind.schemas = [] then
    throw (.error (.missing "--schema"))
  if behind.inputs = [] then
    throw (.error (.missing "files"))
  checkConflicts behind
  let before ← before.settle
  checkConflicts before
  return combine command before behind

/-- Reads all words. -/
def readAll (words : List String) : Except Stop Invocation := do
  let (before, rest) ← readSide none .nothing words
  match rest with
  | [] => throw (.error .missingCommand)
  | name :: words =>
    if name = "help" then throw (readHelp words)
    else
      match CommandName.ofName? name with
      | none => throw (.error (.unknownCommand name))
      | some command => readCommand command before words

end Arguments

/-- What the words on a command line ask for. -/
def Request.ofWords (words : List String) : Except UsageError Request :=
  match Arguments.readAll words with
  | .ok invocation => .ok (.check invocation)
  | .error .help => .ok .help
  | .error .version => .ok .version
  | .error (.error e) => .error e

end GraphLint
