/-!
# Data

The values that data formats such as JSON and YAML write.  A map keeps its
entries in the order in which they are written, repeated keys included: whether
a key may be repeated is for the reader of the data to say.
-/

set_option autoImplicit false

namespace GraphLint

/-- A value of a data format. -/
inductive Datum
  | null
  | bool (value : Bool)
  /-- A number.  The text of a whole number is decimal, and that of any other is as
  written. -/
  | number (text : String)
  | string (text : String)
  | list (items : List Datum)
  /-- Keys with their values.  Keys need not be strings. -/
  | map (entries : List (Datum × Datum))
  deriving Repr, Inhabited

namespace Datum

/-- The string that a value is. -/
def string? : Datum → Option String
  | string text => some text
  | _ => none

/-- The strings that a sequence consists of; none if an item is no string. -/
def strings? : Datum → Option (List String)
  | list items => items.mapM string?
  | _ => none

/-- A map whose keys are strings. -/
def object (entries : List (String × Datum)) : Datum :=
  map (entries.map fun (key, value) => (string key, value))

end Datum

end GraphLint
