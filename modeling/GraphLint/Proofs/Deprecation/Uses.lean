import GraphLint.Rule.NoDeprecated

/-!
# What a document uses

A document uses fields, arguments, fields of input objects and enum values.
Which element of a type system a piece of the document refers to depends on the
type that is expected at its place, and types are handed down: the type that is
selected from to the selections, the type of a field to what is selected below
it, the type of an argument, a variable, a list item or an input field to the
value that is given for it.

The functions of this module do just that, by recursion on the document, and
list every place that uses something together with the element that is used
there, if the type system has it.  They know nothing of walks.
-/

set_option autoImplicit false

namespace GraphLint

/-! ## Elements -/

/-- What takes arguments. -/
inductive Owner
  /-- A field, as a member of the type that it was selected from. -/
  | field (parent : TypeDef) (field : FieldDef)
  /-- A directive. -/
  | directive (directive : DirectiveDef)
  deriving DecidableEq, Repr

/-- The argument of this name. -/
def Owner.argument? : Owner → String → Option InputDef
  | field _ f, name => f.argument? name
  | directive d, name => d.argument? name

/-- What a document can use of a type system, with what it belongs to. -/
inductive Element
  /-- A field of a composite type. -/
  | field (parent : TypeDef) (field : FieldDef)
  /-- An argument of a field or a directive. -/
  | argument (owner : Owner) (argument : InputDef)
  /-- A field of an input object. -/
  | inputField (object : TypeDef) (field : InputDef)
  /-- A value of an enum. -/
  | enumValue (type : TypeDef) (value : EnumValueDef)
  deriving DecidableEq, Repr

namespace Element

/-- Why the element is deprecated, if it is. -/
def deprecation : Element → Option String
  | field _ f => f.deprecation
  | argument _ a => a.deprecation
  | inputField _ f => f.deprecation
  | enumValue _ v => v.deprecation

/-- How the element is spoken of. -/
def phrase : Element → String
  | field parent f => "The field " ++ parent.name ++ "." ++ f.name
  | argument (.field parent f) a =>
    "Field \"" ++ parent.name ++ "." ++ f.name ++ "\" argument \"" ++ a.name ++ "\""
  | argument (.directive d) a =>
    "Directive \"@" ++ d.name ++ "\" argument \"" ++ a.name ++ "\""
  | inputField object f => "The input field " ++ object.name ++ "." ++ f.name
  | enumValue type v => "The enum value \"" ++ type.name ++ "." ++ v.name ++ "\""

/-- What there is to say against the use of the element. -/
def objection? (e : Element) : Option String :=
  e.deprecation.map fun reason => e.phrase ++ " is deprecated. " ++ reason

theorem objection?_eq_none (e : Element) (h : e.deprecation = none) : e.objection? = none := by
  rw [objection?, h, Option.map_none]

theorem objection?_eq_some (e : Element) {reason : String} (h : e.deprecation = some reason) :
    e.objection? = some (Deprecated.message e.phrase reason) := by
  rw [objection?, h, Option.map_some, Deprecated.message]

end Element

/-- A place in a document that uses something. -/
structure Use where
  /-- The node. -/
  culprit : Culprit Extent
  /-- What it uses, if the type system has it. -/
  element : Option Element
  deriving DecidableEq, Repr

/-- The warning that a use deserves: it blames the node that uses a deprecated
element, and no other. -/
def Use.warning? (u : Use) : Option (Diagnostic Extent) :=
  (u.element.bind Element.objection?).map fun message =>
    ⟨message, [u.culprit], "no_deprecated", .warning⟩

/-! ## Types that are handed down -/

namespace TypeSystem

/-- The composite type that a reference names. -/
def composite? (s : TypeSystem) (ref : Option TypeRef) : Option TypeDef :=
  (ref.bind s.baseType?).filter TypeDef.isComposite

/-- The input object that a reference names. -/
def inputObject? (s : TypeSystem) (ref : Option TypeRef) : Option TypeDef :=
  (ref.bind s.baseType?).filter (·.kind = .inputObject)

/-- The enum that a reference names. -/
def enum? (s : TypeSystem) (ref : Option TypeRef) : Option TypeDef :=
  (ref.bind s.baseType?).filter (·.kind = .enum)

/-- The type that an operation selects from: the root type, which has to be an
object. -/
def operationType (s : TypeSystem) (kind : OperationKind) : Option TypeRef :=
  ((s.rootType? kind).filter (·.kind = .object)).map fun t => .named t.name

end TypeSystem

/-- What the items of a list literal should be.  A literal where no list is
expected has items of the nullable type itself. -/
def TypeRef.literalItem (ref : TypeRef) : TypeRef := ref.item?.getD ref.nullable

/-- The type that an inline fragment selects from: that of its condition, or
else the named type that it stands in. -/
def InlineFragment.type (f : InlineFragment) (around : Option TypeRef) : Option TypeRef :=
  match f.condition with
  | some name => some (.named name.text)
  | none => around.map fun ref => .named ref.baseName

/-! ## Uses in values -/

mutual

/-- What is used in a value of some expected type. -/
def Value.uses (s : TypeSystem) (expected : Option TypeRef) : Value → List Use
  | .enum extent name =>
    [⟨⟨.value .enum, extent⟩,
      (s.enum? expected).bind fun t => (t.enumValue? name.text).map (.enumValue t)⟩]
  | .list _ items => Value.itemUses s (expected.map (·.literalItem)) items
  | .object _ fields => ObjectField.allUses s (s.inputObject? expected) fields
  | _ => []

/-- What is used in the items of a list, all of one expected type. -/
def Value.itemUses (s : TypeSystem) (expected : Option TypeRef) : List Value → List Use
  | [] => []
  | v :: vs => v.uses s expected ++ Value.itemUses s expected vs

/-- What is used in a field of an input object value, the field among it. -/
def ObjectField.uses (s : TypeSystem) (object : Option TypeDef) : ObjectField → List Use
  | .mk extent name value =>
    ⟨⟨.objectField, extent⟩,
      object.bind fun t => (t.inputField? name.text).map (.inputField t)⟩ ::
        value.uses s (object.bind fun t => (t.inputField? name.text).map (·.type))

/-- What is used in the fields of an input object value. -/
def ObjectField.allUses (s : TypeSystem) (object : Option TypeDef) : List ObjectField → List Use
  | [] => []
  | f :: fs => f.uses s object ++ ObjectField.allUses s object fs

end

/-- What is used in an argument, the argument among it. -/
def Argument.uses (s : TypeSystem) (owner : Option Owner) (a : Argument) : List Use :=
  ⟨⟨.argument, a.extent⟩,
    owner.bind fun o => (o.argument? a.name.text).map (.argument o)⟩ ::
      a.value.uses s (owner.bind fun o => (o.argument? a.name.text).map (·.type))

/-- What is used in the use of a directive.  Its arguments are those that the
directive takes, wherever it stands. -/
def Directive.uses (s : TypeSystem) (d : Directive) : List Use :=
  let owner := (d.name.bind fun name => s.directive? name.text).map Owner.directive
  d.arguments.flatMap (·.uses s owner)

/-! ## Uses in selections -/

/-- The field that is selected, on the composite type that it is selected from. -/
def Field.owner? (s : TypeSystem) (around : Option TypeRef) (f : Field) :
    Option (TypeDef × FieldDef) :=
  (s.composite? around).bind fun parent =>
    f.name.bind fun name => (s.field? parent.name name.text).map fun field => (parent, field)

mutual

/-- What is used in a selection from some type. -/
def Selection.uses (s : TypeSystem) (around : Option TypeRef) : Selection → List Use
  | .field f below =>
    let owner := f.owner? s around
    ⟨⟨.field, f.extent⟩, owner.map fun x => .field x.1 x.2⟩ ::
      (f.arguments.flatMap (·.uses s (owner.map fun x => .field x.1 x.2)) ++
        f.directives.flatMap (·.uses s) ++
        below.uses s (owner.map (·.2.type)))
  | .spread f => f.directives.flatMap (·.uses s)
  | .inline f below => f.directives.flatMap (·.uses s) ++ below.uses s (f.type around)

/-- What is used in a selection set. -/
def SelectionSet.uses (s : TypeSystem) (around : Option TypeRef) : SelectionSet → List Use
  | .absent => []
  | .braces _ selections => Selection.allUses s around selections

/-- What is used in several selections from one type. -/
def Selection.allUses (s : TypeSystem) (around : Option TypeRef) : List Selection → List Use
  | [] => []
  | x :: xs => x.uses s around ++ Selection.allUses s around xs

end

/-! ## Uses in definitions -/

/-- What is used in the definition of a variable. -/
def VariableDefinition.uses (s : TypeSystem) (d : VariableDefinition) : List Use :=
  d.default.uses s d.type ++ d.directives.flatMap (·.uses s)

/-- What is used in an operation. -/
def OperationDefinition.uses (s : TypeSystem) (d : OperationDefinition) : List Use :=
  d.variableDefinitions.flatMap (·.uses s) ++ d.directives.flatMap (·.uses s) ++
    d.selections.uses s (s.operationType d.kind)

/-- What is used in a named fragment. -/
def FragmentDefinition.uses (s : TypeSystem) (d : FragmentDefinition) : List Use :=
  d.directives.flatMap (·.uses s) ++
    d.selections.uses s (d.condition.map fun name => .named name.text)

/-- What is used in the definition of an input value.  The type that it declares
belongs to another type system, so nothing is expected of its default. -/
def InputValueDefinition.uses (s : TypeSystem) (d : InputValueDefinition) : List Use :=
  d.default.uses s none ++ d.directives.flatMap (·.uses s)

/-- What is used in the definition of a field. -/
def FieldDefinition.uses (s : TypeSystem) (d : FieldDefinition) : List Use :=
  d.arguments.flatMap (·.uses s) ++ d.directives.flatMap (·.uses s)

/-- What is used in the body of a type. -/
def TypeBody.uses (s : TypeSystem) : TypeBody → List Use
  | .object _ fields => fields.flatMap (·.uses s)
  | .interface _ fields => fields.flatMap (·.uses s)
  | .union _ => []
  | .enum values => values.flatMap fun v => v.directives.flatMap (·.uses s)
  | .scalar => []
  | .inputObject fields => fields.flatMap (·.uses s)

/-- What is used in a definition. -/
def Definition.uses (s : TypeSystem) : Definition → List Use
  | .operation d => d.uses s
  | .fragment d => d.uses s
  | .schema d => d.directives.flatMap (·.uses s)
  | .type d => d.directives.flatMap (·.uses s) ++ d.body.uses s
  | .directive d => d.arguments.flatMap (·.uses s)

/-- What is used in a document, in the order of the text. -/
def Document.uses (s : TypeSystem) (d : Document) : List Use :=
  d.definitions.flatMap (·.uses s)

end GraphLint
