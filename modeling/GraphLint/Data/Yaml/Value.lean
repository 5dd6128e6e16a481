import GraphLint.Data.Yaml.Scalar

/-!
# The values of nodes

What a node stands for.  A mapping has each key once.  Under the key `<<` it takes
over the entries of other mappings, as far as it does not have their keys itself;
of several mappings to take over the later ones go first.
-/

set_option autoImplicit false

namespace GraphLint.Yaml

namespace Node

/-- Whether a key says that entries are to be taken over. -/
def isMergeKey : Node → Bool
  | scalar true none "<<" => true
  | _ => false

/-- Whether two keys are the same: scalars with one tag and one text. -/
def isSameKey : Node → Node → Bool
  | scalar _ tag text, scalar _ tag' text' => tag = tag' && text = text'
  | _, _ => false

end Node

structure Entry where
  key : Node
  /-- The values of key and value, if they have any. -/
  values : Option (Datum × Datum)
  deriving Repr, Inhabited

namespace Entry

/-- Whether no two entries have the same key. -/
def areDistinct : List Entry → Bool
  | [] => true
  | entry :: rest => !rest.any (entry.key.isSameKey ·.key) && areDistinct rest

/-- Entries and others that are taken over if their keys are new. -/
def extend (own : List Entry) : List Entry → List Entry
  | [] => own
  | entry :: rest =>
    extend (if own.any (entry.key.isSameKey ·.key) then own else own ++ [entry]) rest

end Entry

mutual

def value? : Node → Option Datum
  | .scalar isPlain tag text => scalarValue? isPlain tag text
  | .sequence items => (itemValues? items).map .list
  | .mapping entries => do
    let own := ownEntries entries
    let others ← otherEntries? entries
    if Entry.areDistinct own then
      return .map (← (Entry.extend own others).mapM (·.values))
    else
      none

def itemValues? : List Node → Option (List Datum)
  | [] => some []
  | item :: items => do
    return (← value? item) :: (← itemValues? items)

/-- The entries that a mapping has itself. -/
def ownEntries : List (Node × Node) → List Entry
  | [] => []
  | (key, value) :: entries =>
    if key.isMergeKey then ownEntries entries
    else
      let values := do
        return (← value? key, ← value? value)
      ⟨key, values⟩ :: ownEntries entries

/-- The entries that a mapping takes over, those that go first before the others. -/
def otherEntries? : List (Node × Node) → Option (List Entry)
  | [] => some []
  | (key, value) :: entries => do
    let later ← otherEntries? entries
    if key.isMergeKey then
      return later ++ (← sharedEntries? value)
    else
      return later

/-- The entries that a node has for others to take over.  It is a mapping, several
of them, or nothing. -/
def sharedEntries? : Node → Option (List Entry)
  | .scalar isPlain tag text =>
    match scalarValue? isPlain tag text with
    | some .null => some []
    | _ => none
  | .sequence items => itemEntries? items
  | .mapping entries => do
    return ownEntries entries ++ (← otherEntries? entries)

/-- The entries that items have for others to take over. -/
def itemEntries? : List Node → Option (List Entry)
  | [] => some []
  | item :: items => do
    let later ← itemEntries? items
    return later ++ (← sharedEntries? item)

end

end GraphLint.Yaml
