import GraphLint.Document.ValuePrinter

/-!
# Definitions of a type system

What a type system knows of its types and directives, with no trace of where it
was written.  `TypeDef.ofSyntax` and its companions lower the definitions of a
document; a piece that a faulty text leaves out is left out here as well.

A `TypeDef` has all five member lists whatever its kind.  An extension that is
written for another kind of type still adds its members, so no list can be
ruled out by the kind.
-/

set_option autoImplicit false

namespace GraphLint

/-- The reason reported for deprecations that give none. -/
def defaultDeprecationReason : String := "No longer supported"

/-- The definition of an argument, or of a field of an input object. -/
structure InputDef where
  name : String
  type : TypeRef
  /-- Its default value as printed. -/
  default : Option String
  description : Option String
  /-- Why it is deprecated, if it is. -/
  deprecation : Option String
  deriving DecidableEq, Repr, Inhabited

structure FieldDef where
  name : String
  type : TypeRef
  arguments : List InputDef
  description : Option String
  deprecation : Option String
  deriving DecidableEq, Repr, Inhabited

structure EnumValueDef where
  name : String
  description : Option String
  deprecation : Option String
  deriving DecidableEq, Repr, Inhabited

structure DirectiveDef where
  /-- Its name, without the at sign. -/
  name : String
  description : Option String
  arguments : List InputDef
  isRepeatable : Bool
  locations : List DirectiveLocation
  deriving DecidableEq, Repr, Inhabited

/-- The members of a type, by what they are. -/
structure Members where
  fields : List FieldDef
  inputFields : List InputDef
  interfaces : List String
  unionMembers : List String
  enumValues : List EnumValueDef
  deriving DecidableEq, Repr, Inhabited

namespace Members

def empty : Members := ⟨[], [], [], [], []⟩

/-- The members of both, list by list. -/
def append (a b : Members) : Members :=
  ⟨a.fields ++ b.fields, a.inputFields ++ b.inputFields, a.interfaces ++ b.interfaces,
   a.unionMembers ++ b.unionMembers, a.enumValues ++ b.enumValues⟩

@[simp] theorem append_empty (a : Members) : a.append empty = a := by
  simp [append, empty]

@[simp] theorem empty_append (a : Members) : empty.append a = a := by
  simp [append, empty]

theorem append_assoc (a b c : Members) : (a.append b).append c = a.append (b.append c) := by
  simp [append, List.append_assoc]

end Members

structure TypeDef where
  name : String
  kind : TypeKind
  description : Option String
  members : Members
  /-- Whether this is an extension that no type has taken in. -/
  isExtension : Bool
  deriving DecidableEq, Repr, Inhabited

namespace TypeKind

/-- Whether types of this kind can carry a selection set. -/
def isComposite : TypeKind → Bool
  | object | interface | union => true
  | enum | scalar | inputObject => false

/-- Whether values of this kind of type can be sent. -/
def isInput : TypeKind → Bool
  | scalar | enum | inputObject => true
  | object | interface | union => false

/-- Whether values of this kind of type can be received. -/
def isOutput : TypeKind → Bool
  | inputObject => false
  | object | interface | union | enum | scalar => true

end TypeKind

namespace TypeDef

def isComposite (t : TypeDef) : Bool := t.kind.isComposite

def isInputType (t : TypeDef) : Bool := t.kind.isInput

def isOutputType (t : TypeDef) : Bool := t.kind.isOutput

/-- The first field of this name. -/
def field? (t : TypeDef) (name : String) : Option FieldDef :=
  t.members.fields.find? (·.name = name)

def inputField? (t : TypeDef) (name : String) : Option InputDef :=
  t.members.inputFields.find? (·.name = name)

def enumValue? (t : TypeDef) (name : String) : Option EnumValueDef :=
  t.members.enumValues.find? (·.name = name)

/-- The type with the members of an extension behind its own. -/
def extend (t ext : TypeDef) : TypeDef :=
  { t with members := t.members.append ext.members }

end TypeDef

def FieldDef.argument? (f : FieldDef) (name : String) : Option InputDef :=
  f.arguments.find? (·.name = name)

def DirectiveDef.argument? (d : DirectiveDef) (name : String) : Option InputDef :=
  d.arguments.find? (·.name = name)

/-! ## Lowering -/

/-- The reason that an argument gives: it is named `reason` and is a string. -/
def Argument.deprecationReason? (a : Argument) : Option String :=
  if a.name.text = "reason" then
    match a.value with
    | .string _ text => some text
    | _ => none
  else none

/-- Why the first `deprecated` directive among these deprecates, if there is
one.  Without a reason that is a string, the default reason holds. -/
def deprecation? (uses : List Directive) : Option String :=
  (uses.find? fun d => d.name.any (·.text = "deprecated")).map fun d =>
    (d.arguments.findSome? Argument.deprecationReason?).getD defaultDeprecationReason

/-- The printed form of a default value; none for a missing one. -/
def Value.printed? : Value → Option String
  | .missing => none
  | v => some (v.render 0)

/-- An input value definition as a type system keeps it. -/
def InputDef.ofSyntax? (d : InputValueDefinition) : Option InputDef := do
  let name ← d.name
  let type ← d.type
  return ⟨name.text, type, d.default.printed?, d.description, deprecation? d.directives⟩

def FieldDef.ofSyntax? (d : FieldDefinition) : Option FieldDef := do
  let name ← d.name
  let type ← d.type
  return ⟨name.text, type, d.arguments.filterMap InputDef.ofSyntax?, d.description,
    deprecation? d.directives⟩

def EnumValueDef.ofSyntax? (d : EnumValueDefinition) : Option EnumValueDef :=
  d.name.map fun name => ⟨name.text, d.description, deprecation? d.directives⟩

/-- The members that a body adds to its type. -/
def Members.ofSyntax : TypeBody → Members
  | .object interfaces fields | .interface interfaces fields =>
    { empty with
      fields := fields.filterMap FieldDef.ofSyntax?
      interfaces := interfaces.map (·.text) }
  | .union members => { empty with unionMembers := members.map (·.text) }
  | .enum values => { empty with enumValues := values.filterMap EnumValueDef.ofSyntax? }
  | .scalar => empty
  | .inputObject fields => { empty with inputFields := fields.filterMap InputDef.ofSyntax? }

/-- A type definition or extension as a type system keeps it. -/
def TypeDef.ofSyntax? (d : TypeDefinition) : Option TypeDef :=
  d.name.map fun name =>
    ⟨name.text, d.body.kind, d.description, Members.ofSyntax d.body, d.isExtension⟩

def DirectiveDef.ofSyntax? (d : DirectiveDefinition) : Option DirectiveDef :=
  d.name.map fun name =>
    ⟨name.text, d.description, d.arguments.filterMap InputDef.ofSyntax?, d.isRepeatable,
     d.locations⟩

end GraphLint
