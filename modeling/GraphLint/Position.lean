import GraphLint.Node
import GraphLint.TypeSystem.Basic

/-!
# Positions in a type system

While a walk goes through an executable document, a `Position` keeps track of
what the document says in terms of a type system: the type whose fields are
selected, the field at hand, the type that a value should have.

There are four stacks, for what nests, and three slots, for what does not.  A
walk tells the position of every node that it enters and leaves.  Where the
document names something that the type system lacks, the entry is `none`; it is
pushed all the same, so that every push has its pop.
-/

set_option autoImplicit false

namespace GraphLint

/-- What a document says at some place, in terms of a type system. -/
structure Position where
  schema : TypeSystem
  /-- Types of the enclosing operation or fragment and fields, innermost first. -/
  outputs : List (Option TypeRef)
  /-- Types whose fields are selected, innermost first. -/
  parents : List (Option TypeDef)
  /-- Types of the enclosing values, innermost first. -/
  inputs : List (Option TypeRef)
  /-- The enclosing fields, innermost first. -/
  fields : List (Option FieldDef)
  directive : Option DirectiveDef
  argument : Option InputDef
  enumValue : Option EnumValueDef
  deriving DecidableEq, Repr, Inhabited

namespace Position

def start (schema : TypeSystem) : Position :=
  ⟨schema, [], [], [], [], none, none, none⟩

/-! ## What a position tells -/

/-- The innermost entry of a stack. -/
def top {α : Type} (stack : List (Option α)) : Option α := stack.head?.join

/-- Type of the innermost field, operation or fragment. -/
def outputType (p : Position) : Option TypeRef := top p.outputs

/-- The type whose selection set encloses the place. -/
def parentType (p : Position) : Option TypeDef := top p.parents

/-- The type that the innermost argument, variable or input value should have. -/
def inputType (p : Position) : Option TypeRef := top p.inputs

/-- The input type that encloses `inputType`: inside an object field, the type of
the object it belongs to. -/
def parentInputType (p : Position) : Option TypeRef := top p.inputs.tail

def fieldDef (p : Position) : Option FieldDef := top p.fields

/-- The definition of the type that a reference names. -/
def typeOf (p : Position) (ref : Option TypeRef) : Option TypeDef :=
  ref.bind p.schema.baseType?

/-! ## Types that may stand in a place -/

/-- The reference, if values of its type can be received. -/
def asOutput (p : Position) (ref : Option TypeRef) : Option TypeRef :=
  ref.filter p.schema.isOutputType

/-- The reference, if values of its type can be sent. -/
def asInput (p : Position) (ref : Option TypeRef) : Option TypeRef :=
  ref.filter p.schema.isInputType

/-- The type that a selection set selects from: the type around it, if that is
composite. -/
def selectedType (p : Position) : Option TypeDef :=
  (p.typeOf p.outputType).filter TypeDef.isComposite

/-- The field of this name on the type that is selected from. -/
def selectedField (p : Position) (name : Option String) : Option FieldDef :=
  p.parentType.bind fun parent => name.bind fun n => p.schema.field? parent.name n

/-- The root type for a kind of operation, if it is an object. -/
def rootType (p : Position) (kind : OperationKind) : Option TypeRef :=
  ((p.schema.rootType? kind).filter (·.kind = .object)).map fun t => .named t.name

/-- The type of a fragment: that of its condition, or the type around it
without its wrappers. -/
def fragmentType (p : Position) (condition : Option String) : Option TypeRef :=
  p.asOutput <|
    match condition with
    | some name => some (.named name)
    | none => p.outputType.map fun ref => .named ref.baseName

/-- The definition of an argument given to the enclosing field or directive. -/
def givenArgument (p : Position) (owner : ArgumentOwner) (name : Option String) :
    Option InputDef :=
  name.bind fun n =>
    match owner with
    | .directive => p.directive.bind (·.argument? n)
    | .field => p.fieldDef.bind (·.argument? n)

/-- The type of the items of a list literal.  A literal where no list should
stand has items of the type itself. -/
def itemType (p : Position) : Option TypeRef :=
  p.asInput (p.inputType.map fun ref => ref.item?.getD ref.nullable)

/-- The type of a field of the input object at hand. -/
def inputFieldType (p : Position) (name : Option String) : Option TypeRef :=
  p.asInput <|
    ((p.typeOf p.inputType).filter (·.kind = .inputObject)).bind fun t =>
      name.bind fun n => (t.inputField? n).map (·.type)

/-- The value of this name of the enum at hand. -/
def namedEnumValue (p : Position) (name : Option String) : Option EnumValueDef :=
  ((p.typeOf p.inputType).filter (·.kind = .enum)).bind fun t => name.bind t.enumValue?

/-! ## Entering and leaving nodes -/

/-- The position inside a node. -/
def enter (p : Position) (n : Node) : Position :=
  match n.construct with
  | .selectionSet => { p with parents := p.selectedType :: p.parents }
  | .field =>
    let field := p.selectedField n.nameText
    { p with
      fields := field :: p.fields
      outputs := p.asOutput (field.map (·.type)) :: p.outputs }
  | .directive => { p with directive := n.nameText.bind p.schema.directive? }
  | .operationDefinition kind => { p with outputs := p.rootType kind :: p.outputs }
  | .inlineFragment condition => { p with outputs := p.fragmentType condition :: p.outputs }
  | .fragmentDefinition condition => { p with outputs := p.fragmentType condition :: p.outputs }
  | .variableDefinition type => { p with inputs := p.asInput type :: p.inputs }
  | .argument owner =>
    let argument := p.givenArgument owner n.nameText
    { p with argument, inputs := p.asInput (argument.map (·.type)) :: p.inputs }
  | .value .list => { p with inputs := p.itemType :: p.inputs }
  | .objectField => { p with inputs := p.inputFieldType n.nameText :: p.inputs }
  | .value .enum => { p with enumValue := p.namedEnumValue n.nameText }
  | _ => p

/-- The position behind a node, given the one inside it. -/
def leave (p : Position) (n : Node) : Position :=
  match n.construct with
  | .selectionSet => { p with parents := p.parents.tail }
  | .field => { p with fields := p.fields.tail, outputs := p.outputs.tail }
  | .directive => { p with directive := none }
  | .operationDefinition _ | .inlineFragment _ | .fragmentDefinition _ =>
    { p with outputs := p.outputs.tail }
  | .variableDefinition _ | .value .list | .objectField => { p with inputs := p.inputs.tail }
  | .argument _ => { p with argument := none, inputs := p.inputs.tail }
  | .value .enum => { p with enumValue := none }
  | _ => p

end Position

end GraphLint
