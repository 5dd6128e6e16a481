import GraphLint.Document.Basic

/-!
# The nodes of a document

A walk over a document meets nodes.  A node says which construct it stands for,
what name that construct carries, and which tokens it spans; it also holds the
few further facts that depend on nothing below it, such as the kind of an
operation or the type of a variable.

`Document.tree` arranges the nodes of a document in a tree.  It is the one place
that says which constructs are nodes and in which order the children of a node
stand.  The order is that of the text.  Names and descriptions are no nodes of
their own, and neither is the variable that a variable definition defines.
-/

set_option autoImplicit false

namespace GraphLint

/-! ## Kinds -/

inductive ValueKind
  | var | string | int | float | boolean | null | enum | list | object
  deriving DecidableEq, Repr, Inhabited

def ValueKind.label : ValueKind → String
  | var => "Variable"
  | string => "StringValue"
  | int => "IntValue"
  | float => "FloatValue"
  | boolean => "BooleanValue"
  | null => "NullValue"
  | enum => "EnumValue"
  | list => "ListValue"
  | object => "ObjectValue"

/-- The kinds of construct that diagnostics can point at. -/
inductive NodeKind
  | document
  | operationDefinition
  | fragmentDefinition
  | variableDefinition
  | selectionSet
  | field
  | fragmentSpread
  | inlineFragment
  | argument
  | directive
  | value (kind : ValueKind)
  | objectField
  | schemaDefinition
  | schemaExtension
  | typeDefinition (kind : TypeKind)
  | typeExtension (kind : TypeKind)
  | directiveDefinition
  | fieldDefinition
  | inputValueDefinition
  | enumValueDefinition
  /-- A name; never met on a walk, but diagnostics point at names. -/
  | name
  deriving DecidableEq, Repr, Inhabited

def NodeKind.label : NodeKind → String
  | document => "Document"
  | operationDefinition => "OperationDefinition"
  | fragmentDefinition => "FragmentDefinition"
  | variableDefinition => "VariableDefinition"
  | selectionSet => "SelectionSet"
  | field => "Field"
  | fragmentSpread => "FragmentSpread"
  | inlineFragment => "InlineFragment"
  | argument => "Argument"
  | directive => "Directive"
  | value kind => kind.label
  | objectField => "ObjectField"
  | schemaDefinition => "SchemaDefinition"
  | schemaExtension => "SchemaExtension"
  | typeDefinition kind => kind.label ++ "TypeDefinition"
  | typeExtension kind => kind.label ++ "TypeExtension"
  | directiveDefinition => "DirectiveDefinition"
  | fieldDefinition => "FieldDefinition"
  | inputValueDefinition => "InputValueDefinition"
  | enumValueDefinition => "EnumValueDefinition"
  | name => "Name"

/-! ## Nodes -/

/-- What an argument is given to. -/
inductive ArgumentOwner
  | field
  | directive
  deriving DecidableEq, Repr, Inhabited

/-- The construct a node stands for, with what is particular to it. -/
inductive Construct
  | document
  | operationDefinition (kind : OperationKind)
  | fragmentDefinition (condition : Option String)
  | variableDefinition (type : Option TypeRef)
  | selectionSet
  | field
  | fragmentSpread
  | inlineFragment (condition : Option String)
  | argument (owner : ArgumentOwner)
  | directive
  | value (kind : ValueKind)
  | objectField
  | schema (isExtension : Bool)
  | type (kind : TypeKind) (isExtension : Bool)
  | directiveDefinition
  | fieldDefinition
  | inputValueDefinition
  | enumValueDefinition
  deriving DecidableEq, Repr, Inhabited

def Construct.kind : Construct → NodeKind
  | document => .document
  | operationDefinition _ => .operationDefinition
  | fragmentDefinition _ => .fragmentDefinition
  | variableDefinition _ => .variableDefinition
  | selectionSet => .selectionSet
  | field => .field
  | fragmentSpread => .fragmentSpread
  | inlineFragment _ => .inlineFragment
  | argument _ => .argument
  | directive => .directive
  | value kind => .value kind
  | objectField => .objectField
  | schema false => .schemaDefinition
  | schema true => .schemaExtension
  | type kind false => .typeDefinition kind
  | type kind true => .typeExtension kind
  | directiveDefinition => .directiveDefinition
  | fieldDefinition => .fieldDefinition
  | inputValueDefinition => .inputValueDefinition
  | enumValueDefinition => .enumValueDefinition

/-- What a walk meets. -/
structure Node where
  construct : Construct
  name : Option Name
  extent : Extent
  deriving DecidableEq, Repr, Inhabited

namespace Node

def kind (n : Node) : NodeKind := n.construct.kind

def nameText (n : Node) : Option String := n.name.map (·.text)

/-- The kind of a node and, behind a colon, its name if it has one. -/
def label (n : Node) : String :=
  match n.name with
  | some name => n.kind.label ++ ":" ++ name.text
  | none => n.kind.label

end Node

/-- A node and, in order, the trees of what is inside it. -/
inductive Tree
  | node (root : Node) (children : List Tree)
  deriving Inhabited

/-! ## The tree of a document -/

mutual

/-- The tree of a value; none for a missing one. -/
def Value.trees : Value → List Tree
  | .missing => []
  | .var extent name => [.node ⟨.value .var, name, extent⟩ []]
  | .int extent _ => [.node ⟨.value .int, none, extent⟩ []]
  | .float extent _ => [.node ⟨.value .float, none, extent⟩ []]
  | .string extent _ => [.node ⟨.value .string, none, extent⟩ []]
  | .boolean extent _ => [.node ⟨.value .boolean, none, extent⟩ []]
  | .null extent => [.node ⟨.value .null, none, extent⟩ []]
  | .enum extent name => [.node ⟨.value .enum, some name, extent⟩ []]
  | .list extent items => [.node ⟨.value .list, none, extent⟩ (Value.itemTrees items)]
  | .object extent fields => [.node ⟨.value .object, none, extent⟩ (ObjectField.trees fields)]

def Value.itemTrees : List Value → List Tree
  | [] => []
  | v :: vs => v.trees ++ Value.itemTrees vs

def ObjectField.tree : ObjectField → Tree
  | .mk extent name value => .node ⟨.objectField, some name, extent⟩ value.trees

def ObjectField.trees : List ObjectField → List Tree
  | [] => []
  | f :: fs => f.tree :: ObjectField.trees fs

end

def Argument.tree (owner : ArgumentOwner) (a : Argument) : Tree :=
  .node ⟨.argument owner, some a.name, a.extent⟩ a.value.trees

def Directive.tree (d : Directive) : Tree :=
  .node ⟨.directive, d.name, d.extent⟩ (d.arguments.map (·.tree .directive))

mutual

def Selection.tree : Selection → Tree
  | .field f below =>
    .node ⟨.field, f.name, f.extent⟩
      (f.arguments.map (·.tree .field) ++ f.directives.map (·.tree) ++ below.trees)
  | .spread s => .node ⟨.fragmentSpread, s.name, s.extent⟩ (s.directives.map (·.tree))
  | .inline f below =>
    .node ⟨.inlineFragment (f.condition.map (·.text)), none, f.extent⟩
      (f.directives.map (·.tree) ++ below.trees)

/-- The tree of a selection set; none for an absent one. -/
def SelectionSet.trees : SelectionSet → List Tree
  | .absent => []
  | .braces extent selections =>
    [.node ⟨.selectionSet, none, extent⟩ (Selection.trees selections)]

def Selection.trees : List Selection → List Tree
  | [] => []
  | s :: ss => s.tree :: Selection.trees ss

end

def VariableDefinition.tree (d : VariableDefinition) : Tree :=
  .node ⟨.variableDefinition d.type, none, d.extent⟩
    (d.default.trees ++ d.directives.map (·.tree))

def OperationDefinition.tree (d : OperationDefinition) : Tree :=
  .node ⟨.operationDefinition d.kind, d.name, d.extent⟩
    (d.variableDefinitions.map (·.tree) ++ d.directives.map (·.tree) ++ d.selections.trees)

def FragmentDefinition.tree (d : FragmentDefinition) : Tree :=
  .node ⟨.fragmentDefinition (d.condition.map (·.text)), d.name, d.extent⟩
    (d.directives.map (·.tree) ++ d.selections.trees)

def InputValueDefinition.tree (d : InputValueDefinition) : Tree :=
  .node ⟨.inputValueDefinition, d.name, d.extent⟩ (d.default.trees ++ d.directives.map (·.tree))

def FieldDefinition.tree (d : FieldDefinition) : Tree :=
  .node ⟨.fieldDefinition, d.name, d.extent⟩
    (d.arguments.map (·.tree) ++ d.directives.map (·.tree))

def EnumValueDefinition.tree (d : EnumValueDefinition) : Tree :=
  .node ⟨.enumValueDefinition, d.name, d.extent⟩ (d.directives.map (·.tree))

/-- The trees of the members in a type's body.  Interfaces and union members
are names only. -/
def TypeBody.trees : TypeBody → List Tree
  | .object _ fields => fields.map (·.tree)
  | .interface _ fields => fields.map (·.tree)
  | .union _ => []
  | .enum values => values.map (·.tree)
  | .scalar => []
  | .inputObject fields => fields.map (·.tree)

def TypeDefinition.tree (d : TypeDefinition) : Tree :=
  .node ⟨.type d.body.kind d.isExtension, d.name, d.extent⟩
    (d.directives.map (·.tree) ++ d.body.trees)

def DirectiveDefinition.tree (d : DirectiveDefinition) : Tree :=
  .node ⟨.directiveDefinition, d.name, d.extent⟩ (d.arguments.map (·.tree))

def SchemaDefinition.tree (d : SchemaDefinition) : Tree :=
  .node ⟨.schema d.isExtension, none, d.extent⟩ (d.directives.map (·.tree))

def Definition.tree : Definition → Tree
  | .operation d => d.tree
  | .fragment d => d.tree
  | .schema d => d.tree
  | .type d => d.tree
  | .directive d => d.tree

def Document.tree (d : Document) : Tree :=
  .node ⟨.document, none, d.extent⟩ (d.definitions.map (·.tree))

end GraphLint
