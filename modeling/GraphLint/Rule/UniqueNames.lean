import GraphLint.Rule.Basic
import GraphLint.TypeSystem.Basic

/-!
# Names are defined once

Two rules over type system documents, one for types and one for directives.
Both are the rule `uniqueNames` over a `Namespace`, which says which nodes
declare a name and what is said of a name that is taken.

A declared name may be taken in two ways.  If a schema is at hand and defines
it, the declaration is reported, and not remembered.  Otherwise the first
declaration of a name is remembered and each later one is reported together with
that first one.  Extensions declare nothing.  Nothing inside a definition can
declare a name, so the rules skip what they have looked at.
-/

set_option autoImplicit false

namespace GraphLint

/-- A set of names of which each should be declared once. -/
structure Namespace where
  declares : NodeKind → Bool
  isDefined : TypeSystem → String → Bool
  /-- What is said of a name that the schema defines. -/
  alreadyDefined : String → String
  /-- What is said of a name that is declared again. -/
  declaredAgain : String → String

namespace Namespace

def types : Namespace where
  declares
    | .typeDefinition _ => true
    | _ => false
  isDefined schema name := (schema.type? name).isSome
  alreadyDefined name :=
    "Type \"" ++ name ++
      "\" already exists in the schema. It cannot also be defined in this type definition."
  declaredAgain name := "There can be only one type named \"" ++ name ++ "\"."

def directives : Namespace where
  declares kind := kind = .directiveDefinition
  isDefined schema name := (schema.directive? name).isSome
  alreadyDefined name :=
    "Directive \"@" ++ name ++ "\" already exists in the schema. It cannot be redefined."
  declaredAgain name := "There can be only one directive named \"@" ++ name ++ "\"."

/-- What happens at a declaration of `name`, where `known` holds the first
declaration of each name so far: the declarations known from now on, and the
reports. -/
def declare (space : Namespace) (schema : Option TypeSystem) (known : List Name) (name : Name) :
    List Name × List Report :=
  if schema.any (space.isDefined · name.text) then
    (known, [⟨space.alreadyDefined name.text, [name.culprit]⟩])
  else
    match known.find? (·.text = name.text) with
    | some first => (known, [⟨space.declaredAgain name.text, [first.culprit, name.culprit]⟩])
    | none => (known ++ [name], [])

end Namespace

/-- The rule that the names of a namespace are declared once.  Its state holds
the first declaration of each name. -/
def uniqueNames (space : Namespace) (name description : String) : Rule (Option TypeSystem) where
  name := name
  description := description
  severity := .error
  State := List Name
  start := []
  enter schema node known :=
    if space.declares node.kind then
      let (known, reports) := match node.name with
        | some name => space.declare schema known name
        | none => (known, [])
      .ok ⟨known, reports, .skip⟩
    else .ok ⟨known, [], .descend⟩
  leave _ _ known := .ok (known, [])

/-- Each directive is defined once. -/
def uniqueDirectiveNames : Rule (Option TypeSystem) :=
  uniqueNames .directives "unique_directive_names" "Ensures each directive is defined only once"

/-- Each type is defined once. -/
def uniqueTypeNames : Rule (Option TypeSystem) :=
  uniqueNames .types "unique_type_names" "Ensures each named type is defined only once"

end GraphLint
