import GraphLint.Rule.NoDeprecated
import GraphLint.Rule.UniqueNames

/-!
# The rules there are

Rules over type system documents are shown the schema that the document adds to,
if there is one.  Rules over executable documents are shown the position.
-/

set_option autoImplicit false

namespace GraphLint.Registry

/-- The rules over type system documents, in the order in which they run. -/
def schemaRules : List (Rule (Option TypeSystem)) := [uniqueDirectiveNames, uniqueTypeNames]

/-- The rules over executable documents, in the order in which they run. -/
def documentRules : List (Rule Position) := [noDeprecated]

/-- The names of all rules, sorted. -/
def ruleNames : List String :=
  (schemaRules.map (·.name) ++ documentRules.map (·.name)).mergeSort (fun a b => decide (a ≤ b))

end GraphLint.Registry
