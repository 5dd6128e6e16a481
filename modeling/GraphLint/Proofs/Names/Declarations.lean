import GraphLint.Diagnostic
import GraphLint.TypeSystem.Basic

/-!
# What a document declares

A document declares directives and types, which do not get into each other's way.
`Document.declarations` lists them in the order of the text: definitions with a
name, but no extensions, and nothing that stands inside of a definition.

A declaration deserves a complaint if the schema has its name already, or if an
earlier declaration has the same name.  `Declaration.complaints` goes through a
list of declarations and looks back at those before; it keeps no table.
-/

set_option autoImplicit false

namespace GraphLint

/-- What names are declared for.  Each has a namespace of its own. -/
inductive Subject
  /-- Directives. -/
  | directive
  /-- Types of all kinds. -/
  | type
  deriving DecidableEq, Repr

namespace Subject

/-- Whether a schema has something of this name. -/
def isIn (schema : TypeSystem) (text : String) : Subject → Bool
  | directive => (schema.directive? text).isSome
  | type => (schema.type? text).isSome

/-- What is said of a name that the schema has. -/
def alreadyExists (text : String) : Subject → String
  | directive =>
    "Directive \"@" ++ text ++ "\" already exists in the schema. It cannot be redefined."
  | type =>
    "Type \"" ++ text ++
      "\" already exists in the schema. It cannot also be defined in this type definition."

/-- What is said of a name that has been declared before. -/
def onlyOne (text : String) : Subject → String
  | directive => "There can be only one directive named \"@" ++ text ++ "\"."
  | type => "There can be only one type named \"" ++ text ++ "\"."

/-- The name of the rule that says so. -/
def ruleName : Subject → String
  | directive => "unique_directive_names"
  | type => "unique_type_names"

end Subject

/-- The declaration of a name. -/
structure Declaration where
  /-- What is declared. -/
  subject : Subject
  /-- The name. -/
  name : Name
  deriving DecidableEq, Repr

/-- What a definition is there to declare, if it is there to declare something.  Its name
may be missing. -/
def Definition.subject? : Definition → Option Subject
  | .directive _ => some .directive
  | .type d => if d.isExtension then none else some .type
  | .operation _ | .fragment _ | .schema _ => none

/-- What a definition declares, if it declares something. -/
def Definition.declaration? : Definition → Option Declaration
  | .directive d => d.name.map (⟨.directive, ·⟩)
  | .type d => if d.isExtension then none else d.name.map (⟨.type, ·⟩)
  | .operation _ | .fragment _ | .schema _ => none

/-- What is declared is what the definition is there to declare. -/
theorem Definition.subject?_of_declaration? {d : Definition} {x : Declaration}
    (h : d.declaration? = some x) : d.subject? = some x.subject := by
  cases d with
  | directive d =>
      obtain ⟨n, _, rfl⟩ := Option.map_eq_some_iff.mp h
      rfl
  | type d =>
      change (if d.isExtension then none else d.name.map (⟨.type, ·⟩)) = some x at h
      show (if d.isExtension then none else some Subject.type) = _
      split at h
      · cases h
      · obtain ⟨n, _, rfl⟩ := Option.map_eq_some_iff.mp h
        exact if_neg ‹_›
  | _ => cases h

theorem Definition.declaration?_eq_none {d : Definition} (h : d.subject? = none) :
    d.declaration? = none := by
  cases hx : d.declaration? with
  | none => rfl
  | some x =>
      rw [subject?_of_declaration? hx] at h
      cases h

/-- What a document declares. -/
def Document.declarations (d : Document) : List Declaration :=
  d.definitions.filterMap Definition.declaration?

namespace Declaration

/-- Whether a declaration is one of this name. -/
def declares (subject : Subject) (text : String) (x : Declaration) : Bool :=
  x.subject = subject ∧ x.name.text = text

/-- The complaint that the schema has the name.  It blames this name alone. -/
def taken (x : Declaration) : Diagnostic Extent :=
  ⟨x.subject.alreadyExists x.name.text, [x.name.culprit], x.subject.ruleName, .error⟩

/-- The complaint that the name has been declared.  It blames the first declaration of
the name and then this one. -/
def again (first x : Declaration) : Diagnostic Extent :=
  ⟨x.subject.onlyOne x.name.text, [first.name.culprit, x.name.culprit], x.subject.ruleName,
    .error⟩

/-- The complaint that a declaration deserves behind earlier ones. -/
def complaint? (schema : Option TypeSystem) (before : List Declaration) (x : Declaration) :
    Option (Diagnostic Extent) :=
  if schema.any (x.subject.isIn · x.name.text) then some x.taken
  else (before.find? (declares x.subject x.name.text)).map (again · x)

/-- The complaints that declarations deserve, one after another, behind earlier ones. -/
def complaints (schema : Option TypeSystem) (before : List Declaration) :
    List Declaration → List (Diagnostic Extent)
  | [] => []
  | x :: xs => (x.complaint? schema before).toList ++ complaints schema (before ++ [x]) xs

end Declaration

end GraphLint
