import GraphLint.TypeRef

/-!
# Types as they are written

A document keeps the types of variables, arguments and fields as they stand in its text,
with gaps where the text leaves something out.  There are two ways from there to a
reference.  The type of a variable is lowered as it is.  The types of a schema are made into
expressions first, which have no gaps and know a non-null type by a constructor of its own.
-/

set_option autoImplicit false

namespace GraphLint

/-- A type as it stands in a text. -/
inductive TypeSyntax
  | missing
  | named (name : Option String)
  | list (item : TypeSyntax)
  | nonNull (inner : TypeSyntax)
  deriving DecidableEq, Repr, Inhabited

/-- A type that is written in full. -/
inductive TypeExpression
  | named (name : String)
  | nonNullNamed (name : String)
  | list (item : TypeExpression)
  | nonNullList (item : TypeExpression)
  deriving DecidableEq, Repr, Inhabited

/-- What a written type refers to, if nothing of it is missing. -/
def TypeSyntax.ref? : TypeSyntax → Option TypeRef
  | missing => none
  | named name => name.map .named
  | list item => item.ref?.map .list
  | nonNull (named name) => name.map fun name => .nonNull (.named name)
  | nonNull (list item) => item.ref?.map fun item => .nonNull (.list item)
  | nonNull _ => none

/-- The expression that a written type is, if nothing of it is missing. -/
def TypeSyntax.expression? : TypeSyntax → Option TypeExpression
  | missing => none
  | named name => name.map .named
  | list item => item.expression?.map .list
  | nonNull (named name) => name.map .nonNullNamed
  | nonNull (list item) => item.expression?.map .nonNullList
  | nonNull _ => none

/-- What an expression refers to. -/
def TypeExpression.ref : TypeExpression → TypeRef
  | named name => .named name
  | nonNullNamed name => .nonNull (.named name)
  | list item => .list item.ref
  | nonNullList item => .nonNull (.list item.ref)

end GraphLint
