/-!
# Paths

Paths are texts whose components a slash separates.  Empty components say
nothing, and neither does a single point, except at the beginning of a path.

Paths are ordered by their components.  A component that leads up comes before
all names, and names are ordered by their bytes.  Two paths are alike if they
have the same components.
-/

set_option autoImplicit false

namespace GraphLint.Path

/-- The pieces of a list between separators; there is always at least one. -/
def splitOn {α : Type} [DecidableEq α] (separator : α) : List α → List (List α)
  | [] => [[]]
  | c :: rest =>
    if c = separator then [] :: splitOn separator rest
    else
      match splitOn separator rest with
      | [] => [[c]]
      | piece :: pieces => (c :: piece) :: pieces

/-- The pieces of a path between slashes. -/
def pieces (path : String) : List String :=
  (splitOn '/' path.toList).map String.ofList

/-- Whether a path begins at the root of the file system. -/
def isAbsolute (path : String) : Bool := path.toList.head? = some '/'

/-- Whether a piece of a path says something. -/
def tells (piece : String) : Bool := !piece.isEmpty && piece ≠ "."

/-- The components of a path.  A leading slash is a component of its own, written
as a slash. -/
def components (path : String) : List String :=
  match pieces path with
  | [] => []
  | first :: rest =>
    let tail := rest.filter tells
    if first.isEmpty then (if path.isEmpty then tail else "/" :: tail) else first :: tail

/-- The last component, if it names something. -/
def fileName? (path : String) : Option String :=
  (components path).getLast?.filter fun c => c ≠ ".." && c ≠ "." && c ≠ "/"

/-- What stands behind the last point of the file name.  A point that the name
begins with separates nothing. -/
def extension? (path : String) : Option String := do
  let name ← fileName? path
  match (splitOn '.' name.toList).reverse with
  | last :: before =>
    if before.reverse.all List.isEmpty && before.length ≤ 1 then none
    else some (String.ofList last)
  | [] => none

/-- A path with one more component, written behind a slash. -/
def join (path component : String) : String :=
  if path.isEmpty || path.toList.getLast? = some '/' then path ++ component
  else path ++ "/" ++ component

/-- The number of bytes that a path has to stay below. -/
def lengthLimit : Nat := 4096

def isTooLong (path : String) : Bool := path.utf8ByteSize ≥ lengthLimit

/-- The number of bytes that a piece of a path may have. -/
def pieceLimit : Nat := 255

/-- What may be the name of an entry of a directory. -/
structure IsName (name : String) : Prop where
  tells : tells name = true
  not_up : name ≠ ".."
  not_slash : '/' ∉ name.toList
  short : name.utf8ByteSize ≤ pieceLimit

theorem isName_iff {name : String} : IsName name ↔ (Path.tells name = true ∧ name ≠ "..") ∧
    '/' ∉ name.toList ∧ name.utf8ByteSize ≤ pieceLimit :=
  ⟨fun h => ⟨⟨h.tells, h.not_up⟩, h.not_slash, h.short⟩, fun h => ⟨h.1.1, h.1.2, h.2.1, h.2.2⟩⟩

instance : DecidablePred IsName := fun _ => decidable_of_iff _ isName_iff.symm

/-- The place of a component among others: slash, point, two points, names. -/
def rank (component : String) : Nat :=
  if component = "/" then 0 else if component = "." then 1 else if component = ".." then 2 else 3

/-- Whether a component comes before another one. -/
def componentBefore (a b : String) : Bool :=
  rank a < rank b || (rank a = rank b && a < b)

/-- Whether components come before others or are the same. -/
def componentsLe : List String → List String → Bool
  | [], _ => true
  | _ :: _, [] => false
  | a :: as, b :: bs => componentBefore a b || (a = b && componentsLe as bs)

end GraphLint.Path
