import GraphLint.Document.Cursor
import GraphLint.Source.Literal

/-!
# The grammar of documents

One production per construct of the language, after the October 2021 edition of
the GraphQL specification.  It is a little wider than the specification: an
argument or a field of an input object may stand without a value, a schema
definition without its root types, a root operation without its type, and the
description before a fragment is read as its keyword.

Selection sets, lists, input objects and list types may be nested, together, as
deep as `nestingLimit`.  A text that goes deeper is not read on.  Productions that
open a level, or hold one that does, are given the number of levels that are left.
-/

set_option autoImplicit false

namespace GraphLint.Grammar

open Production

/-- How many levels may be open at a time. -/
def nestingLimit : Nat := 500

/-- Stops reading because no level is left. -/
def tooDeep : Production Unit := abandon "less nesting"

/-! ## Values, arguments and directives -/

/-- What a string token stands for. -/
def stringValue : Token → String
  | .string content => String.ofList ((Literal.unescape? content.toList).getD [])
  | .blockString content => String.ofList (Literal.blockValue content.toList)
  | _ => ""

/-- An item of a list, given how values are read.  What stands in the place of a value is
taken. -/
def listItem (inner : Production Value) : Production Value := do
  match ← inner with
  | .missing =>
    bump
    return .missing
  | item => return item

/-- A field of an input object behind its name, given how values are read. -/
def objectField (inner : Production Value) (n : Name) : Production ObjectField := do
  let v ← if ← eat .colon then inner else pure .missing
  return .mk (← extentFrom n.token) n v

/-- A value, given how values inside of it are read.  Constant values hold no variables. -/
def valueWith (isConstant : Bool) (inner : Production Value) : Production Value := do
  let start ← here
  match ← peek with
  | some (.punctuator .dollar) =>
    if isConstant then
      fault "a constant value"
    bump
    let n ← name
    return .var (← extentFrom start) n
  | some (.int text) =>
    bump
    return .int (← extentFrom start) text
  | some (.float text) =>
    bump
    return .float (← extentFrom start) text
  | some (.string content) =>
    bump
    return .string (← extentFrom start) (stringValue (.string content))
  | some (.blockString content) =>
    bump
    return .string (← extentFrom start) (stringValue (.blockString content))
  | some (.name text) =>
    bump
    let extent ← extentFrom start
    match text with
    | "true" => return .boolean extent true
    | "false" => return .boolean extent false
    | "null" => return .null extent
    | _ => return .enum extent ⟨text, start⟩
  | some (.punctuator .bracketOpen) =>
    bump
    let items ← many (· != .punctuator .bracketClose) (listItem inner)
    expect .bracketClose
    return .list (← extentFrom start) items
  | some (.punctuator .braceOpen) =>
    bump
    let fields ← manyNamed (objectField inner)
    expect .braceClose
    return .object (← extentFrom start) fields
  | _ =>
    fault "a value"
    return .missing

/-- A value, given the number of levels that are left. -/
def value (isConstant : Bool) : Nat → Production Value
  | 0 => valueWith isConstant do
    tooDeep
    return .missing
  | room + 1 => valueWith isConstant (value isConstant room)

def argument (isConstant : Bool) (room : Nat) (n : Name) : Production Argument := do
  let v ← if ← eat .colon then value isConstant room else pure .missing
  return ⟨← extentFrom n.token, n, v⟩

/-- Arguments in parentheses, of which there is at least one; none if no
parenthesis comes next. -/
def arguments (isConstant : Bool) (room : Nat) : Production (List Argument) := do
  if ← eat .parenOpen then
    let given ← manyNamed (argument isConstant room)
    if given.isEmpty then
      fault "an argument"
    expect .parenClose
    return given
  else
    return []

/-- The use of a directive, which its at sign begins. -/
def directive (isConstant : Bool) (room : Nat) : Production Directive := do
  let start ← here
  expect .atSign
  let n ← name
  let given ← arguments isConstant room
  return ⟨← extentFrom start, n, given⟩

def directives (isConstant : Bool) (room : Nat) : Production (List Directive) :=
  many (· == .punctuator .atSign) (directive isConstant room)

/-- The directives of a definition, whose values are constant. -/
def constantDirectives : Production (List Directive) := directives true nestingLimit

/-! ## Types -/

/-- A type, given how the type of list items is read.  Something else in the place of a type
is thrown out of the text. -/
def typeSyntaxWith (item : Production TypeSyntax) : Production TypeSyntax := do
  match ← peek with
  | some (.name text) =>
    bump
    let core := TypeSyntax.named (some text)
    return if ← eat .bang then .nonNull core else core
  | some (.punctuator .bracketOpen) =>
    bump
    let core := TypeSyntax.list (← item)
    expect .bracketClose
    return if ← eat .bang then .nonNull core else core
  | _ =>
    fault "a type"
    discard
    return .missing

/-- A type, given the number of levels that are left. -/
def typeSyntax : Nat → Production TypeSyntax
  | 0 => typeSyntaxWith do
    tooDeep
    return .missing
  | room + 1 => typeSyntaxWith (typeSyntax room)

/-- A colon, the type behind it, and what may follow the type.  Without a type
nothing follows. -/
def typed {α : Type} (rest : Production α) (nothing : α) : Production (TypeSyntax × α) := do
  if ← eat .colon then
    match ← peek with
    | some (.name _) | some (.punctuator .bracketOpen) =>
      let type ← typeSyntax nestingLimit
      return (type, ← rest)
    | _ =>
      fault "a type"
      return (.missing, nothing)
  else
    fault "a type"
    return (.missing, nothing)

/-- A default value behind an equals sign, if there is one. -/
def defaultValue : Production Value := do
  if ← eat .equals then
    value true nestingLimit
  else
    return .missing

/-- A default value, if there is one, and directives. -/
def defaultAndDirectives : Production (Value × List Directive) := do
  let given ← defaultValue
  let uses ← constantDirectives
  return (given, uses)

/-! ## Executable definitions -/

/-- A type condition: `on` and a name.  Without its `on` the condition is in
error and the name counts. -/
def typeCondition : Production (Option Name) := do
  match ← peek with
  | some (.name "on") =>
    bump
    name
  | some (.name _) =>
    fault "on"
    name
  | _ =>
    fault "a type condition"
    return none

/-- A name other than `on`. -/
def fragmentName : Production (Option Name) := do
  if ← seesWord "on" then
    fault "a fragment name"
    return none
  else
    name

/-- Selections in braces if a brace comes next. -/
def optionalSelections (selections : Production SelectionSet) : Production SelectionSet := do
  if ← sees .braceOpen then
    selections
  else
    return .absent

/-- Selections in braces that the grammar asks for. -/
def requiredSelections (selections : Production SelectionSet) : Production SelectionSet := do
  if ← sees .braceOpen then
    selections
  else
    fault "a selection set"
    return .absent

/-- A field.  A name with a colon right behind it is an alias. -/
def field (room : Nat) (selections : Production SelectionSet) : Production Selection := do
  let start ← here
  let isAlias := (← peekSecond) == some (.punctuator .colon)
  let aliasName ← if isAlias then name? else pure none
  if isAlias then
    bump
  let own ← name
  let given ← arguments false room
  let uses ← directives false room
  let below ← optionalSelections selections
  return .field ⟨← extentFrom start, aliasName, own, given, uses⟩ below

def fragmentSpread (room : Nat) : Production Selection := do
  let start ← here
  expect .spread
  let n ← fragmentName
  let uses ← directives false room
  return .spread ⟨← extentFrom start, n, uses⟩

def inlineFragment (room : Nat) (selections : Production SelectionSet) : Production Selection := do
  let start ← here
  expect .spread
  let condition ← match ← peek with
    | some (.name _) => typeCondition
    | _ => pure none
  let uses ← directives false room
  let below ← requiredSelections selections
  return .inline ⟨← extentFrom start, condition, uses⟩ below

/-- A member of a selection set; none if nothing can be one.  What stands in the
place of the first member is taken all the same, and so is a spread that leads
nowhere. -/
def selection? (room : Nat) (selections : Production SelectionSet) (isFirst : Bool) :
    Production (Option Selection) := do
  match ← peek with
  | some (.punctuator .spread) =>
    match ← peekSecond with
    | some (.name "on") | some (.punctuator .atSign) | some (.punctuator .braceOpen) =>
      return some (← inlineFragment room selections)
    | some (.name _) => return some (← fragmentSpread room)
    | _ =>
      faultAndBump "a fragment"
      return none
  | some (.name _) => return some (← field room selections)
  | some (.punctuator .braceOpen) => return none
  | _ =>
    if isFirst then
      faultAndBump "a selection"
    return none

/-- The members of a selection set, at most `bound` of them. -/
def membersWithin (room : Nat) (selections : Production SelectionSet) (isFirst : Bool) :
    Nat → Production (List Selection)
  | 0 => return []
  | bound + 1 => do
    match ← selection? room selections isFirst with
    | some first =>
      let others ← membersWithin room selections false bound
      return first :: others
    | none => return []

/-- A selection set, given the number of levels that are left with it. -/
def selectionSet (room : Nat) : Production SelectionSet := do
  let start ← here
  expect .braceOpen
  match room with
  | 0 =>
    tooDeep
    return .braces (← extentFrom start) []
  | room + 1 =>
    let found ← membersWithin room (selectionSet room) true (← remaining)
    expect .braceClose
    return .braces (← extentFrom start) found

def selections : Production SelectionSet := requiredSelections (selectionSet nestingLimit)

def variableDefinition : Production VariableDefinition := do
  let start ← here
  expect .dollar
  let n ← name
  let (type, given, uses) ← typed defaultAndDirectives (.missing, [])
  return ⟨← extentFrom start, n, type, given, uses⟩

/-- The variables of an operation, of which there is at least one; none if no
parenthesis comes next. -/
def variableDefinitions : Production (List VariableDefinition) := do
  if ← eat .parenOpen then
    let found ← many (· == .punctuator .dollar) variableDefinition
    if found.isEmpty then
      fault "a variable definition"
    expect .parenClose
    return found
  else
    return []

/-- An operation that a keyword begins.  What stands in the place of its
selections is taken. -/
def operation (kind : OperationKind) : Production Definition := do
  let start ← here
  bump
  let n ← name?
  let defined ← variableDefinitions
  let uses ← directives false nestingLimit
  let below ← if ← sees .braceOpen then selectionSet nestingLimit else do
    faultAndBump "a selection set"
    pure .absent
  return .operation ⟨← extentFrom start, kind, n, defined, uses, below⟩

/-- A query in the shorthand form: selections and nothing else. -/
def shorthand : Production Definition := do
  let start ← here
  let below ← selections
  return .operation ⟨← extentFrom start, .query, none, [], [], below⟩

/-- A named fragment, which its keyword or a description begins. -/
def fragmentDefinition : Production Definition := do
  let start ← here
  bump
  let n ← fragmentName
  let condition ← typeCondition
  let uses ← directives false nestingLimit
  let below ← selections
  return .fragment ⟨← extentFrom start, n, condition, uses, below⟩

/-! ## Type system definitions -/

/-- A description, if there is one. -/
def description : Production (Option String) := do
  match ← peek with
  | some token =>
    if token.isString then
      bump
      return some (stringValue token)
    else
      return none
  | none => return none

/-- Whether a token can begin a member of a definition: its name, or the
description before it. -/
def beginsMember (t : Token) : Bool := t.isName || t.isString

/-- Members between two punctuators, of which there is at least one; none if
the opening one does not come next. -/
def members {α : Type} (opening closing : Punctuator) (expected : String) (member : Production α) :
    Production (List α) := do
  if ← eat opening then
    let found ← many beginsMember member
    if found.isEmpty then
      fault expected
    expect closing
    return found
  else
    return []

def inputValueDefinition : Production InputValueDefinition := do
  let start ← here
  let about ← description
  let n ← name
  let (type, given, uses) ← typed defaultAndDirectives (.missing, [])
  return ⟨← extentFrom start, about, n, type, given, uses⟩

/-- The arguments that a field or directive takes. -/
def argumentDefinitions : Production (List InputValueDefinition) :=
  members .parenOpen .parenClose "an argument definition" inputValueDefinition

def fieldDefinition : Production FieldDefinition := do
  let start ← here
  let about ← description
  let n ← name
  let takes ← argumentDefinitions
  let (type, uses) ← typed (constantDirectives) []
  return ⟨← extentFrom start, about, n, takes, type, uses⟩

def fieldDefinitions : Production (List FieldDefinition) :=
  members .braceOpen .braceClose "a field definition" fieldDefinition

/-- The definition of an enum value, which may not be a name of another kind of
value. -/
def enumValueDefinition : Production EnumValueDefinition := do
  let start ← here
  let about ← description
  if (← seesWord "true") || (← seesWord "false") || (← seesWord "null") then
    fault "an enum value"
  let n ← name
  let uses ← constantDirectives
  return ⟨← extentFrom start, about, n, uses⟩

def names (mark : Punctuator) : Production (List Name) := do
  return (← separated mark name).filterMap id

/-- The interfaces behind `implements`; none if that word does not come next. -/
def interfaces : Production (List Name) := do
  if ← seesWord "implements" then
    bump
    names .ampersand
  else
    return []

/-- The members of a union behind an equals sign; none without one. -/
def unionMembers : Production (List Name) := do
  if ← eat .equals then
    names .pipe
  else
    return []

/-- What stands behind the name of a type definition: directives and a body. -/
def typeBody : TypeKind → Production (List Directive × TypeBody)
  | .object => do
    let shared ← interfaces
    let uses ← constantDirectives
    return (uses, .object shared (← fieldDefinitions))
  | .interface => do
    let shared ← interfaces
    let uses ← constantDirectives
    return (uses, .interface shared (← fieldDefinitions))
  | .union => do
    let uses ← constantDirectives
    return (uses, .union (← unionMembers))
  | .enum => do
    let uses ← constantDirectives
    return (uses, .enum (← members .braceOpen .braceClose "an enum value" enumValueDefinition))
  | .scalar => do
    return (← constantDirectives, .scalar)
  | .inputObject => do
    let uses ← constantDirectives
    return (uses, .inputObject
      (← members .braceOpen .braceClose "an input field" inputValueDefinition))

def typeDefinition (kind : TypeKind) : Production Definition := do
  let start ← here
  let about ← description
  bump
  let n ← name
  let (uses, body) ← typeBody kind
  return .type ⟨← extentFrom start, about, false, n, uses, body⟩

/-- An extension of a type, which has to add something. -/
def typeExtension (kind : TypeKind) : Production Definition := do
  let start ← here
  bump
  bump
  let n ← name
  let before ← here
  let (uses, body) ← typeBody kind
  if before == (← here) then
    fault "an addition to the type"
  return .type ⟨← extentFrom start, none, true, n, uses, body⟩

/-- A root operation behind its keyword, and the name of its type. -/
def rootOperation (word : Name) : Production (Option OperationKind × Option Name) := do
  let kind := OperationKind.ofKeyword? word.text
  if kind.isNone then
    fault "an operation type"
  let n ← if ← eat .colon then name? else do
    fault "a type"
    pure none
  return (kind, n)

/-- The root operations of a schema in braces, each with the name of its type;
none if no brace comes next.  The name may be missing. -/
def rootOperations : Production (List (Option OperationKind × Option Name)) := do
  if ← eat .braceOpen then
    let roots ← manyNamed rootOperation
    expect .braceClose
    return roots
  else
    return []

/-- The root operations that name a type. -/
def namedRoots (roots : List (Option OperationKind × Option Name)) : List (OperationKind × Name) :=
  roots.filterMap fun
    | (some kind, some n) => some (kind, n)
    | _ => none

/-- A schema definition.  Braces, if there are any, hold a root operation. -/
def schemaDefinition : Production Definition := do
  let start ← here
  let _ ← description
  bump
  let uses ← constantDirectives
  let isBraced ← sees .braceOpen
  let roots ← rootOperations
  if isBraced && roots.isEmpty then
    fault "a root operation type"
  return .schema ⟨← extentFrom start, false, uses, namedRoots roots⟩

/-- An extension of a schema, which has to add something. -/
def schemaExtension : Production Definition := do
  let start ← here
  bump
  bump
  let uses ← constantDirectives
  let roots ← rootOperations
  if uses.isEmpty && roots.isEmpty then
    fault "an addition to the schema"
  return .schema ⟨← extentFrom start, true, uses, namedRoots roots⟩

/-- A location that a directive may be used in. -/
def directiveLocation : Production (Option DirectiveLocation) := do
  let place := (← name).bind fun n => DirectiveLocation.ofName? n.text
  if place.isNone then
    fault "a directive location"
  return place

def directiveDefinition : Production Definition := do
  let start ← here
  let about ← description
  bump
  expect .atSign
  let n ← name
  let takes ← argumentDefinitions
  let isRepeatable ← seesWord "repeatable"
  if isRepeatable then
    bump
  if ← seesWord "on" then
    bump
  else
    fault "on"
  let places ← separated .pipe directiveLocation
  return .directive ⟨← extentFrom start, about, n, takes, isRepeatable, places.filterMap id⟩

/-! ## Documents -/

/-- A definition that a keyword begins, or a description and a keyword; none if
no definition can begin here. -/
def definition : Production (Option Definition) := do
  let first ← peek
  let isDescribed := first.any Token.isString
  let leading ← (if isDescribed then peekSecond else pure first)
  let stray : Production (Option Definition) := do
    faultAndBump "a definition"
    return none
  match leading with
  | some (.punctuator .braceOpen) =>
    if isDescribed then stray else return some (← shorthand)
  | some (.name word) =>
    match word with
    | "schema" => return some (← schemaDefinition)
    | "directive" => return some (← directiveDefinition)
    | "fragment" => return some (← fragmentDefinition)
    | "extend" =>
      if isDescribed then
        stray
      else match ← peekSecond with
        | some (.name "schema") => return some (← schemaExtension)
        | some (.name extended) =>
          match TypeKind.ofKeyword? extended with
          | some kind => return some (← typeExtension kind)
          | none => stray
        | _ => stray
    | _ =>
      match TypeKind.ofKeyword? word, OperationKind.ofKeyword? word with
      | some kind, _ => return some (← typeDefinition kind)
      | none, some kind => if isDescribed then stray else return some (← operation kind)
      | none, none => stray
  | _ => stray

/-- A document, which holds at least one definition. -/
def document : Production Document := do
  if (← peek).isNone then
    fault "a definition"
  let definitions ← many (fun _ => true) definition
  return ⟨← extentFrom 0, definitions.filterMap id⟩

end GraphLint.Grammar

namespace GraphLint

/-- The document that a list of tokens writes, and where reading it ended. -/
def Document.ofTokens (tokens : List Upcoming) : Document × Cursor :=
  Grammar.document.run (.start tokens)

end GraphLint
