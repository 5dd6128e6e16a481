import GraphLint.TypeSystem.Basic

/-!
# Built-in definitions

The types and directives that every schema has without declaring them: the five
scalars, the directives of the language, and the types of introspection.  They
are taken into a type system behind everything that is written, so a schema that
defines one of these names itself keeps its own definition.
-/

set_option autoImplicit false

namespace GraphLint.Builtin

/-! ## Short forms -/

/-- A type by its name. -/
def one (name : String) : TypeRef := .named name

/-- A type by its name, without null. -/
def required (name : String) : TypeRef := .nonNull (.named name)

/-- A list of values that are not null. -/
def listOf (name : String) : TypeRef := .list (.nonNull (.named name))

/-- An argument that nothing is said of. -/
def argument (name : String) (type : TypeRef) (default : Option String) : InputDef :=
  ⟨name, type, default, none, none⟩

/-- A field that nothing is said of. -/
def field (name : String) (type : TypeRef) : FieldDef := ⟨name, type, [], none, none⟩

/-- A list field that leaves out what is deprecated unless asked otherwise. -/
def filteredField (name : String) (type : TypeRef) : FieldDef :=
  ⟨name, type, [argument "includeDeprecated" (one "Boolean") (some "false")], none, none⟩

def scalar (name : String) : TypeDef := ⟨name, .scalar, none, .empty, false⟩

def object (name : String) (fields : List FieldDef) : TypeDef :=
  ⟨name, .object, none, { Members.empty with fields }, false⟩

def enum (name : String) (values : List String) : TypeDef :=
  ⟨name, .enum, none, { Members.empty with enumValues := values.map (⟨·, none, none⟩) }, false⟩

/-- A directive that one place may use once. -/
def directive (name : String) (arguments : List InputDef) (locations : List DirectiveLocation) :
    DirectiveDef :=
  ⟨name, none, arguments, false, locations⟩

/-! ## The definitions -/

def types : List TypeDef :=
  [scalar "Int", scalar "Float", scalar "String", scalar "Boolean", scalar "ID",
   object "__Schema"
     [field "description" (one "String"),
      field "types" (.nonNull (listOf "__Type")),
      field "queryType" (required "__Type"),
      field "mutationType" (one "__Type"),
      field "subscriptionType" (one "__Type"),
      field "directives" (.nonNull (listOf "__Directive"))],
   object "__Type"
     [field "kind" (required "__TypeKind"),
      field "name" (one "String"),
      field "description" (one "String"),
      filteredField "fields" (listOf "__Field"),
      field "interfaces" (listOf "__Type"),
      field "possibleTypes" (listOf "__Type"),
      filteredField "enumValues" (listOf "__EnumValue"),
      filteredField "inputFields" (listOf "__InputValue"),
      field "ofType" (one "__Type"),
      field "specifiedByURL" (one "String"),
      field "isOneOf" (one "Boolean")],
   enum "__TypeKind"
     ["SCALAR", "OBJECT", "INTERFACE", "UNION", "ENUM", "INPUT_OBJECT", "LIST", "NON_NULL"],
   object "__Field"
     [field "name" (required "String"),
      field "description" (one "String"),
      filteredField "args" (.nonNull (listOf "__InputValue")),
      field "type" (required "__Type"),
      field "isDeprecated" (required "Boolean"),
      field "deprecationReason" (one "String")],
   object "__InputValue"
     [field "name" (required "String"),
      field "description" (one "String"),
      field "type" (required "__Type"),
      field "defaultValue" (one "String"),
      field "isDeprecated" (required "Boolean"),
      field "deprecationReason" (one "String")],
   object "__EnumValue"
     [field "name" (required "String"),
      field "description" (one "String"),
      field "isDeprecated" (required "Boolean"),
      field "deprecationReason" (one "String")],
   object "__Directive"
     [field "name" (required "String"),
      field "description" (one "String"),
      field "locations" (.nonNull (listOf "__DirectiveLocation")),
      filteredField "args" (.nonNull (listOf "__InputValue")),
      field "isRepeatable" (required "Boolean")],
   enum "__DirectiveLocation" (DirectiveLocation.names.map (·.2))]

def directives : List DirectiveDef :=
  [directive "include" [argument "if" (required "Boolean") none]
     [.field, .fragmentSpread, .inlineFragment],
   directive "skip" [argument "if" (required "Boolean") none]
     [.field, .fragmentSpread, .inlineFragment],
   directive "deprecated"
     [argument "reason" (one "String") (some ("\"" ++ defaultDeprecationReason ++ "\""))]
     [.fieldDefinition, .argumentDefinition, .inputFieldDefinition, .enumValue],
   directive "specifiedBy" [argument "url" (required "String") none] [.scalar],
   directive "oneOf" [] [.inputObject]]

end GraphLint.Builtin
