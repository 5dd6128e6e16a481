import GraphLint.Source.Token
import GraphLint.TypeSyntax

/-!
# Documents

The syntax trees of GraphQL texts: operations and fragments as well as type
system definitions and extensions.

Trees exist for texts with errors too.  A piece that a text leaves out is
absent in its tree: a name is an `Option`, a value has the constructor
`missing`, a selection set the constructor `absent`.  The rest of the tree is as
if the piece had been there.

Every construct carries the run of tokens it was read from, from its description
or the first of its punctuators on; lists keep the order of the text.  Nothing
here mentions bytes, so trees of texts that differ in layout only are equal.
-/

set_option autoImplicit false

namespace GraphLint

/-- A name where it is written; it is always one token. -/
structure Name where
  text : String
  /-- Number of the token. -/
  token : Nat
  deriving DecidableEq, Repr, Inhabited

/-- The run of one token that a name is. -/
def Name.extent (n : Name) : Extent := ⟨n.token, n.token + 1⟩

inductive OperationKind
  | query
  | mutation
  | subscription
  deriving DecidableEq, Repr, Inhabited

namespace OperationKind

def all : List OperationKind := [query, mutation, subscription]

def keyword : OperationKind → String
  | query => "query"
  | mutation => "mutation"
  | subscription => "subscription"

def ofKeyword? : String → Option OperationKind
  | "query" => some query
  | "mutation" => some mutation
  | "subscription" => some subscription
  | _ => none

/-- Name of the root type where no schema definition names one. -/
def defaultTypeName : OperationKind → String
  | query => "Query"
  | mutation => "Mutation"
  | subscription => "Subscription"

end OperationKind

/-! ## Values, arguments and directives -/

mutual

inductive Value
  /-- No value, where the grammar asks for one. -/
  | missing
  | var (extent : Extent) (name : Option Name)
  | int (extent : Extent) (text : String)
  | float (extent : Extent) (text : String)
  /-- A string of either form, by what it stands for. -/
  | string (extent : Extent) (text : String)
  | boolean (extent : Extent) (value : Bool)
  | null (extent : Extent)
  /-- Any other name. -/
  | enum (extent : Extent) (name : Name)
  | list (extent : Extent) (items : List Value)
  | object (extent : Extent) (fields : List ObjectField)

inductive ObjectField
  | mk (extent : Extent) (name : Name) (value : Value)

end

instance : Inhabited Value := ⟨.missing⟩

structure Argument where
  extent : Extent
  name : Name
  value : Value
  deriving Inhabited

/-- The use of a directive. -/
structure Directive where
  extent : Extent
  name : Option Name
  arguments : List Argument
  deriving Inhabited

/-! ## Executable definitions -/

/-- A field of a selection set, without what is selected below it. -/
structure Field where
  extent : Extent
  /-- The name that the response uses in place of the field's own. -/
  aliasName : Option Name
  name : Option Name
  arguments : List Argument
  directives : List Directive
  deriving Inhabited

structure FragmentSpread where
  extent : Extent
  name : Option Name
  directives : List Directive
  deriving Inhabited

/-- A fragment written where it is used, without what is selected in it. -/
structure InlineFragment where
  extent : Extent
  /-- The name in its type condition. -/
  condition : Option Name
  directives : List Directive
  deriving Inhabited

mutual

inductive Selection
  | field (field : Field) (selections : SelectionSet)
  | spread (spread : FragmentSpread)
  | inline (fragment : InlineFragment) (selections : SelectionSet)

/-- What is selected below a field, an operation or a fragment. -/
inductive SelectionSet
  /-- Nothing is written. -/
  | absent
  | braces (extent : Extent) (selections : List Selection)

end

instance : Inhabited SelectionSet := ⟨.absent⟩

structure VariableDefinition where
  extent : Extent
  name : Option Name
  typeSyntax : TypeSyntax
  default : Value
  directives : List Directive
  deriving Inhabited

/-- What its type refers to. -/
def VariableDefinition.type (d : VariableDefinition) : Option TypeRef := d.typeSyntax.ref?

structure OperationDefinition where
  extent : Extent
  /-- Its kind; the shorthand form is a query. -/
  kind : OperationKind
  name : Option Name
  variableDefinitions : List VariableDefinition
  directives : List Directive
  selections : SelectionSet
  deriving Inhabited

structure FragmentDefinition where
  extent : Extent
  name : Option Name
  condition : Option Name
  directives : List Directive
  selections : SelectionSet
  deriving Inhabited

/-! ## Type system definitions -/

/-- The definition of an argument or of an input object's field. -/
structure InputValueDefinition where
  extent : Extent
  description : Option String
  name : Option Name
  typeSyntax : TypeSyntax
  default : Value
  directives : List Directive
  deriving Inhabited

def InputValueDefinition.type (d : InputValueDefinition) : Option TypeRef :=
  d.typeSyntax.expression?.map (·.ref)

structure FieldDefinition where
  extent : Extent
  description : Option String
  name : Option Name
  arguments : List InputValueDefinition
  typeSyntax : TypeSyntax
  directives : List Directive
  deriving Inhabited

def FieldDefinition.type (d : FieldDefinition) : Option TypeRef :=
  d.typeSyntax.expression?.map (·.ref)

structure EnumValueDefinition where
  extent : Extent
  description : Option String
  name : Option Name
  directives : List Directive
  deriving Inhabited

inductive TypeKind
  | object
  | interface
  | union
  | enum
  | scalar
  | inputObject
  deriving DecidableEq, Repr, Inhabited

namespace TypeKind

def label : TypeKind → String
  | object => "Object"
  | interface => "Interface"
  | union => "Union"
  | enum => "Enum"
  | scalar => "Scalar"
  | inputObject => "InputObject"

def keyword : TypeKind → String
  | object => "type"
  | interface => "interface"
  | union => "union"
  | enum => "enum"
  | scalar => "scalar"
  | inputObject => "input"

def ofKeyword? : String → Option TypeKind
  | "type" => some object
  | "interface" => some interface
  | "union" => some union
  | "enum" => some enum
  | "scalar" => some scalar
  | "input" => some inputObject
  | _ => none

end TypeKind

/-- What a type definition or extension adds to its type. -/
inductive TypeBody
  | object (interfaces : List Name) (fields : List FieldDefinition)
  | interface (interfaces : List Name) (fields : List FieldDefinition)
  | union (members : List Name)
  | enum (values : List EnumValueDefinition)
  | scalar
  | inputObject (fields : List InputValueDefinition)
  deriving Inhabited

def TypeBody.kind : TypeBody → TypeKind
  | object _ _ => .object
  | interface _ _ => .interface
  | union _ => .union
  | enum _ => .enum
  | scalar => .scalar
  | inputObject _ => .inputObject

/-- The definition of a named type, or an extension of one. -/
structure TypeDefinition where
  extent : Extent
  description : Option String
  isExtension : Bool
  name : Option Name
  directives : List Directive
  body : TypeBody
  deriving Inhabited

inductive DirectiveLocation
  | query | mutation | subscription | field | fragmentDefinition | fragmentSpread
  | inlineFragment | variableDefinition | schema | scalar | object | fieldDefinition
  | argumentDefinition | interface | union | enum | enumValue | inputObject
  | inputFieldDefinition
  deriving DecidableEq, Repr, Inhabited

namespace DirectiveLocation

/-- Every location beside the name that it is written by. -/
def names : List (DirectiveLocation × String) :=
  [(query, "QUERY"), (mutation, "MUTATION"), (subscription, "SUBSCRIPTION"), (field, "FIELD"),
   (fragmentDefinition, "FRAGMENT_DEFINITION"), (fragmentSpread, "FRAGMENT_SPREAD"),
   (inlineFragment, "INLINE_FRAGMENT"), (variableDefinition, "VARIABLE_DEFINITION"),
   (schema, "SCHEMA"), (scalar, "SCALAR"), (object, "OBJECT"),
   (fieldDefinition, "FIELD_DEFINITION"), (argumentDefinition, "ARGUMENT_DEFINITION"),
   (interface, "INTERFACE"), (union, "UNION"), (enum, "ENUM"), (enumValue, "ENUM_VALUE"),
   (inputObject, "INPUT_OBJECT"), (inputFieldDefinition, "INPUT_FIELD_DEFINITION")]

def ofName? (name : String) : Option DirectiveLocation :=
  (names.find? (·.2 = name)).map (·.1)

def name (l : DirectiveLocation) : String :=
  ((names.find? (·.1 = l)).map (·.2)).getD ""

end DirectiveLocation

structure DirectiveDefinition where
  extent : Extent
  description : Option String
  name : Option Name
  arguments : List InputValueDefinition
  isRepeatable : Bool
  locations : List DirectiveLocation
  deriving Inhabited

/-- A schema definition, or an extension of one. -/
structure SchemaDefinition where
  extent : Extent
  isExtension : Bool
  directives : List Directive
  /-- The root types it names, in source order. -/
  roots : List (OperationKind × Name)
  deriving Inhabited

/-! ## Documents -/

/-- A top-level construct of a document. -/
inductive Definition
  | operation (operation : OperationDefinition)
  | fragment (fragment : FragmentDefinition)
  | schema (schema : SchemaDefinition)
  | type (type : TypeDefinition)
  | directive (directive : DirectiveDefinition)
  deriving Inhabited

/-- A whole text. -/
structure Document where
  /-- All tokens of the text. -/
  extent : Extent
  definitions : List Definition
  deriving Inhabited

end GraphLint
