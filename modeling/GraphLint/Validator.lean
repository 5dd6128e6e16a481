import GraphLint.Config.Basic
import GraphLint.Run
import GraphLint.Source

/-!
# Validating under a configuration

A validation runs the rules that a configuration enables and gives their
diagnostics the severities that it sets.  Each validation is a run of its own:
nothing is kept from one to the next.
-/

set_option autoImplicit false

namespace GraphLint

namespace Config

def enabled {V : Type} (c : Config) (rules : List (Rule V)) : List (Rule V) :=
  rules.filter fun rule => c.isEnabled rule.name

/-- A diagnostic with the severity that a configuration sets for its rule. -/
def relabel {ρ : Type} (c : Config) (d : Diagnostic ρ) : Diagnostic ρ :=
  match c.severity? d.rule with
  | some severity => { d with severity }
  | none => d

end Config

/-- Checks a type system document, with the schema that it adds to. -/
def validateSchema (config : Config) (schema : Option TypeSystem) (tree : Tree) :
    Except Fault (List (Diagnostic Extent)) :=
  (runSchemaRules schema (config.enabled Registry.schemaRules) tree).map (·.map config.relabel)

/-- Checks an executable document against a schema. -/
def validateDocument (config : Config) (schema : TypeSystem) (tree : Tree) :
    Except Fault (List (Diagnostic Extent)) :=
  (runDocumentRules schema (config.enabled Registry.documentRules) tree).map
    (·.map config.relabel)

namespace Source

/-- Diagnostics with bytes of the text in place of tokens. -/
def locate (s : Source) (ds : List (Diagnostic Extent)) : List (Diagnostic Span) :=
  ds.map (·.map s.span)

end Source

end GraphLint
