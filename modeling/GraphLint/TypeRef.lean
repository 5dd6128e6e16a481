/-!
# Type references

How fields, arguments and variables name their types: a type by its name, with
list and non-null wrappers around it.

A reference is data of its own, not a look-up: its innermost name may be
defined nowhere.  Wrappers nest freely; that the grammar never puts a non-null
wrapper directly inside another is a fact about parsing, not about this type.
-/

set_option autoImplicit false

namespace GraphLint

inductive TypeRef
  | named (name : String)
  | list (item : TypeRef)
  /-- The type inside without its null. -/
  | nonNull (inner : TypeRef)
  deriving DecidableEq, Repr, Inhabited

namespace TypeRef

/-- The innermost name, with every wrapper removed. -/
def baseName : TypeRef → String
  | named name => name
  | list item => item.baseName
  | nonNull inner => inner.baseName

/-- The reference with one outer non-null wrapper removed. -/
def nullable : TypeRef → TypeRef
  | nonNull inner => inner
  | ref => ref

/-- What the items of the list are, for a list or a non-null list. -/
def item? (ref : TypeRef) : Option TypeRef :=
  match ref.nullable with
  | list item => some item
  | _ => none

def isNonNull : TypeRef → Bool
  | nonNull _ => true
  | _ => false

/-- Whether the reference is a list or a non-null list. -/
def isList (ref : TypeRef) : Bool := ref.item?.isSome

/-- The written form: lists stand in brackets, a bang follows what is not null. -/
def render : TypeRef → String
  | named name => name
  | list item => "[" ++ item.render ++ "]"
  | nonNull inner => inner.render ++ "!"

@[simp] theorem nullable_named (name : String) : (named name).nullable = named name := rfl

@[simp] theorem nullable_list (item : TypeRef) : (list item).nullable = list item := rfl

@[simp] theorem nullable_nonNull (inner : TypeRef) : (nonNull inner).nullable = inner := rfl

@[simp] theorem baseName_nullable (ref : TypeRef) : ref.nullable.baseName = ref.baseName := by
  cases ref <;> rfl

/-- The items of a list have the name of the list. -/
theorem baseName_of_item? {ref item : TypeRef} (h : ref.item? = some item) :
    item.baseName = ref.baseName := by
  unfold item? at h
  rw [← baseName_nullable ref]
  split at h
  · next heq => rw [heq]; cases h; rfl
  · cases h

end TypeRef

end GraphLint
