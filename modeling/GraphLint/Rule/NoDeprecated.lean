import GraphLint.Position
import GraphLint.Rule.Basic

/-!
# Nothing deprecated is used

A rule over executable documents.  It reports every use of something that the
schema deprecates: a field, an argument of a field or directive, a field of an
input object, an enum value.  Uses can stand inside each other, so the rule
never skips anything.

What is used is read off the position of the walk.  Where the position knows an
element but not what the element belongs to, it contradicts itself, and the rule
answers with a fault.
-/

set_option autoImplicit false

namespace GraphLint

namespace Deprecated

/-- What is said of a deprecated element; `subject` names it. -/
def message (subject reason : String) : String := subject ++ " is deprecated. " ++ reason

/-- What is said of the field at hand. -/
def field (p : Position) : Except Fault (Option String) :=
  match p.fieldDef with
  | none => .ok none
  | some f =>
    match f.deprecation, p.parentType with
    | none, _ => .ok none
    | some _, none => .error (.fieldWithoutParent f.name)
    | some reason, some parent =>
      .ok (some (message ("The field " ++ parent.name ++ "." ++ f.name) reason))

/-- What is said of the argument at hand. -/
def argument (p : Position) : Except Fault (Option String) :=
  match p.argument with
  | none => .ok none
  | some a =>
    match a.deprecation with
    | none => .ok none
    | some reason =>
      match p.directive, p.parentType, p.fieldDef with
      | some d, _, _ =>
        .ok (some (message
          ("Directive \"@" ++ d.name ++ "\" argument \"" ++ a.name ++ "\"") reason))
      | none, some parent, some f =>
        .ok (some (message
          ("Field \"" ++ parent.name ++ "." ++ f.name ++ "\" argument \"" ++ a.name ++ "\"")
          reason))
      | none, _, _ => .error (.argumentWithoutOwner a.name)

/-- What is said of a field of the input object at hand. -/
def inputField (p : Position) (name : Option String) : Option String := do
  let object ← (p.typeOf p.parentInputType).filter (·.kind = .inputObject)
  let f ← object.inputField? (← name)
  let reason ← f.deprecation
  return message ("The input field " ++ object.name ++ "." ++ f.name) reason

/-- What is said of the enum value at hand. -/
def enumValue (p : Position) : Except Fault (Option String) :=
  match p.enumValue with
  | none => .ok none
  | some v =>
    match v.deprecation, p.typeOf p.inputType with
    | none, _ => .ok none
    | some _, none => .error (.valueWithoutEnum v.name)
    | some reason, some type =>
      .ok (some (message ("The enum value \"" ++ type.name ++ "." ++ v.name ++ "\"") reason))

/-- What is said of a node, given the position inside it. -/
def atNode (p : Position) (n : Node) : Except Fault (Option String) :=
  match n.construct with
  | .field => field p
  | .argument _ => argument p
  | .objectField => .ok (inputField p n.nameText)
  | .value .enum => enumValue p
  | _ => .ok none

end Deprecated

/-- Nothing deprecated is used. -/
def noDeprecated : Rule Position where
  name := "no_deprecated"
  description := "Warns when using deprecated fields, arguments, input fields, or enum values"
  severity := .warning
  State := Unit
  start := ()
  enter p n _ := do
    let message ← Deprecated.atNode p n
    return ⟨(), message.toList.map (⟨·, [n.culprit]⟩), .descend⟩
  leave _ _ _ := .ok ((), [])

end GraphLint
