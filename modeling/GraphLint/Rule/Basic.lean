import GraphLint.Diagnostic
import GraphLint.Walk

/-!
# Rules

A rule is a state machine that hears of the nodes of a walk and reports.  At
each node it is shown a view of the run it belongs to, of some type `V`; it can
look but not touch.  All that a rule can do is change its own state, report, and
ask to skip what is inside a node.

A rule can also fail, when it is shown a view that no walk leads to.
-/

set_option autoImplicit false

namespace GraphLint

/-- A view that contradicts itself. -/
inductive Fault
  /-- A field is known, but not the type it is a field of. -/
  | fieldWithoutParent (field : String)
  /-- An argument is known, but not what it is given to. -/
  | argumentWithoutOwner (argument : String)
  /-- An enum value is known, but not its enum. -/
  | valueWithoutEnum (value : String)
  deriving DecidableEq, Repr, Inhabited

def Fault.message : Fault → String
  | fieldWithoutParent field =>
    "field definition \"" ++ field ++ "\" resolved without a parent type"
  | argumentWithoutOwner argument =>
    "argument definition \"" ++ argument ++
      "\" resolved without a directive or an enclosing field"
  | valueWithoutEnum value =>
    "enum value \"" ++ value ++ "\" resolved without an enclosing enum type"

/-- What a rule does on entering a node. -/
structure Reaction (σ : Type) where
  state : σ
  reports : List Report
  /-- Whether the rule wants to see what is inside the node. -/
  control : Control

/-- A rule over views of type `V`. -/
structure Rule (V : Type) where
  name : String
  description : String
  severity : Severity
  /-- What it remembers during a run. -/
  State : Type
  start : State
  enter : V → Node → State → Except Fault (Reaction State)
  leave : V → Node → State → Except Fault (State × List Report)

end GraphLint
