import GraphLint.Source
import GraphLint.TypeSystem.Builtin

/-!
# Building a type system

A type system is built from documents, one after another, and the built-in
definitions.

* The first definition of a name holds; later ones are dropped.
* The built-in definitions stand behind all that is written.
* Extensions are set aside and taken in last, in order.  So it does not matter
  whether an extension stands before or after what it extends.  An extension of an
  undefined type has no effect.
* The last name given for a root type holds.  A root type that is not named has
  its default name, if there is a type of that name and no schema definition.

Operations and fragments have no place in a type system and are passed over.
-/

set_option autoImplicit false

namespace GraphLint

/-! ## What documents contribute -/

namespace Definition

def typeDef? : Definition → Option TypeDef
  | .type d => TypeDef.ofSyntax? d
  | _ => none

def directiveDef? : Definition → Option DirectiveDef
  | .directive d => DirectiveDef.ofSyntax? d
  | _ => none

def roots : Definition → List (OperationKind × String)
  | .schema d => d.roots.map fun (kind, name) => (kind, name.text)
  | _ => []

/-- Whether a definition defines the schema; extending it does not count. -/
def definesSchema : Definition → Bool
  | .schema d => !d.isExtension
  | _ => false

end Definition

/-- What definitions contribute to a type system. -/
structure Contribution where
  /-- Types and extensions of types. -/
  types : List TypeDef
  directives : List DirectiveDef
  roots : List (OperationKind × String)
  definesSchema : Bool
  deriving DecidableEq, Repr, Inhabited

/-- What definitions contribute, in the order in which they are written. -/
def Contribution.ofDefinitions (definitions : List Definition) : Contribution where
  types := definitions.filterMap Definition.typeDef?
  directives := definitions.filterMap Definition.directiveDef?
  roots := definitions.flatMap Definition.roots
  definesSchema := definitions.any Definition.definesSchema

/-! ## Merging -/

/-- Adds an element behind the others unless one of them has its name. -/
def insertNew {α : Type} (name : α → String) (known : List α) (x : α) : List α :=
  if known.any (name · = name x) then known else known ++ [x]

/-- Adds the members of an extension to the type that it extends. -/
def takeIn (types : List TypeDef) (ext : TypeDef) : List TypeDef :=
  types.map fun t => if t.name = ext.name then t.extend ext else t

/-- Gives a kind of operation without a root type its default one, if there is
a type of that name. -/
def defaultRoot (types : List TypeDef) (roots : Roots) (kind : OperationKind) : Roots :=
  if (roots.get? kind).isNone && types.any (·.name = kind.defaultTypeName) then
    roots.set kind kind.defaultTypeName
  else roots

/-- A type system that is being built. -/
structure SchemaBuilder where
  /-- The types so far, without their extensions. -/
  types : List TypeDef
  directives : List DirectiveDef
  /-- The extensions that are set aside. -/
  extensions : List TypeDef
  roots : Roots
  definesSchema : Bool
  deriving DecidableEq, Repr, Inhabited

namespace SchemaBuilder

def empty : SchemaBuilder := ⟨[], [], [], .none, false⟩

def addRoot (b : SchemaBuilder) (root : OperationKind × String) : SchemaBuilder :=
  { b with roots := b.roots.set root.1 root.2 }

/-- Adds a type unless its name is taken, or sets an extension aside. -/
def addType (b : SchemaBuilder) (t : TypeDef) : SchemaBuilder :=
  if t.isExtension then { b with extensions := b.extensions ++ [t] }
  else { b with types := insertNew TypeDef.name b.types t }

def addDirective (b : SchemaBuilder) (d : DirectiveDef) : SchemaBuilder :=
  { b with directives := insertNew DirectiveDef.name b.directives d }

def add (b : SchemaBuilder) (c : Contribution) : SchemaBuilder :=
  let b := { b with definesSchema := b.definesSchema || c.definesSchema }
  let b := c.roots.foldl addRoot b
  let b := c.types.foldl addType b
  c.directives.foldl addDirective b

/-- Adds the built-in definitions of names that are not taken. -/
def addBuiltins (b : SchemaBuilder) : SchemaBuilder :=
  { b with
    types := Builtin.types.foldl (insertNew TypeDef.name) b.types
    directives := Builtin.directives.foldl (insertNew DirectiveDef.name) b.directives }

/-- Takes in the extensions that are set aside. -/
def takeInExtensions (b : SchemaBuilder) : SchemaBuilder :=
  { b with types := b.extensions.foldl takeIn b.types, extensions := [] }

/-- Names the default root types unless the schema has been defined. -/
def addDefaultRoots (b : SchemaBuilder) : SchemaBuilder :=
  if b.definesSchema then b
  else { b with roots := OperationKind.all.foldl (defaultRoot b.types) b.roots }

/-- The type system that has been built, when all has been written. -/
def build (b : SchemaBuilder) : TypeSystem :=
  let b := b.addBuiltins.takeInExtensions.addDefaultRoots
  ⟨b.types, b.directives, b.roots⟩

end SchemaBuilder

/-- The type system that documents make up, together with the built-in definitions. -/
def TypeSystem.ofDocuments (documents : List Document) : TypeSystem :=
  (documents.foldl (fun b d => b.add (.ofDefinitions d.definitions)) SchemaBuilder.empty).build

/-! ## Building from texts -/

/-- Why texts make up no type system. -/
inductive SchemaError
  | malformed (path : String) (faults : List SourceFault)
  deriving DecidableEq, Repr, Inhabited

namespace SchemaError

/-- The headline of an error. -/
def headline : SchemaError → String
  | malformed path _ => "Syntax errors in " ++ path ++ ":"

/-- The headline and, below it, a line per fault. -/
def message (e : SchemaError) : String :=
  match e with
  | malformed _ faults =>
    "\n".intercalate (e.headline :: faults.map fun f => f.message)

end SchemaError

/-- The document that a schema text writes; a text with a fault writes none. -/
def readSchema (path text : String) : Except SchemaError Document :=
  let source := Source.read text
  if source.isWellFormed then .ok source.document else .error (.malformed path source.faults)

/-- The type system that texts make up, each given with its path.  The first
text with a fault decides the error. -/
def TypeSystem.ofTexts (texts : List (String × String)) : Except SchemaError TypeSystem := do
  let documents ← texts.mapM fun (path, text) => readSchema path text
  return TypeSystem.ofDocuments documents

end GraphLint
