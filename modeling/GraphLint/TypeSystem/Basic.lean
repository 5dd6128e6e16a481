import GraphLint.TypeSystem.Definition

/-!
# Type systems

A `TypeSystem` is a snapshot of all types and directives that a document can
refer to.  It is a finite table and nothing more: the type references in it may
name types that are defined nowhere, and so may the root types.  Every look-up
answers with an `Option`.
-/

set_option autoImplicit false

namespace GraphLint

/-- The recorded names of the root types. -/
structure Roots where
  query : Option String
  mutation : Option String
  subscription : Option String
  deriving DecidableEq, Repr, Inhabited

namespace Roots

def none : Roots := ⟨.none, .none, .none⟩

def get? (r : Roots) : OperationKind → Option String
  | .query => r.query
  | .mutation => r.mutation
  | .subscription => r.subscription

/-- Records a name for a kind of operation in place of any other. -/
def set (r : Roots) (kind : OperationKind) (name : String) : Roots :=
  match kind with
  | .query => { r with query := some name }
  | .mutation => { r with mutation := some name }
  | .subscription => { r with subscription := some name }

/-- A name is found where it was recorded, and other kinds keep theirs. -/
theorem get?_set (r : Roots) (kind other : OperationKind) (name : String) :
    (r.set kind name).get? other = if other = kind then some name else r.get? other := by
  cases kind <;> cases other <;> rfl

end Roots

/-- A snapshot of types, directives and root types. -/
structure TypeSystem where
  /-- The types.  Of several with one name, the first is the one that is found. -/
  types : List TypeDef
  /-- The directives.  Of several with one name, the first is the one that is found. -/
  directives : List DirectiveDef
  roots : Roots
  deriving DecidableEq, Repr, Inhabited

/-! ## Fields that every schema has without declaring them -/

namespace MetaField

/-- The name of the type at hand; every composite type has it. -/
def typename : FieldDef := ⟨"__typename", .nonNull (.named "String"), [], none, none⟩

/-- The schema itself; the query root has it. -/
def schema : FieldDef := ⟨"__schema", .nonNull (.named "__Schema"), [], none, none⟩

/-- A type by its name; the query root has it. -/
def type : FieldDef :=
  ⟨"__type", .named "__Type", [⟨"name", .nonNull (.named "String"), none, none, none⟩], none,
   none⟩

end MetaField

namespace TypeSystem

def type? (s : TypeSystem) (name : String) : Option TypeDef :=
  s.types.find? (·.name = name)

def directive? (s : TypeSystem) (name : String) : Option DirectiveDef :=
  s.directives.find? (·.name = name)

/-- The type that operations of some kind start at, if its name is recorded and
defined. -/
def rootType? (s : TypeSystem) (kind : OperationKind) : Option TypeDef :=
  (s.roots.get? kind).bind s.type?

/-- The definition of a field on a type, both given by name.  A composite type
has `__typename`; the type recorded as query root has `__schema` and `__type`,
and declares no others of these names; all other fields are the type's own. -/
def field? (s : TypeSystem) (parent field : String) : Option FieldDef :=
  (s.type? parent).bind fun t =>
    if field = "__typename" ∧ t.isComposite then some MetaField.typename
    else if field = "__schema" ∧ s.roots.query = some parent then some MetaField.schema
    else if field = "__type" ∧ s.roots.query = some parent then some MetaField.type
    else t.field? field

/-- The type that a reference names, its wrappers aside. -/
def baseType? (s : TypeSystem) (ref : TypeRef) : Option TypeDef :=
  s.type? ref.baseName

/-- Whether a reference names a defined type whose values can be sent. -/
def isInputType (s : TypeSystem) (ref : TypeRef) : Bool :=
  (s.baseType? ref).any TypeDef.isInputType

/-- Whether a reference names a defined type whose values can be received. -/
def isOutputType (s : TypeSystem) (ref : TypeRef) : Bool :=
  (s.baseType? ref).any TypeDef.isOutputType

/-- A type is found under its own name. -/
theorem name_of_type? {s : TypeSystem} {name : String} {t : TypeDef} (h : s.type? name = some t) :
    t.name = name := by
  simpa using List.find?_some h

end TypeSystem

end GraphLint
