import GraphLint.Files.Pattern
import GraphLint.Files.System

/-!
# Matching patterns against a file system

A pattern is followed component by component, from the root or from the working directory on.
What it finds is a `Match`: a place, and the path that leads there as the pattern spells it.

A component without wildcards is looked up; it may also be empty or consist of
points.  A component with wildcards goes through the entries of a directory, and
finds the one and the two points too, if it begins with a point itself.  A
component that stands for any directories goes through everything below.

The first point of a path says nothing and is dropped as soon as anything follows.

What is looked up under a path that is too long is not found.  A directory that is met
among the entries of another is gone through whatever its path, and fails then.
-/

set_option autoImplicit false

namespace GraphLint

/-- A place that a pattern has led to. -/
structure Match where
  path : String
  place : Place
  deriving Inhabited

/-- Why the entries of a directory cannot be gone through. -/
structure ListingError where
  path : String
  cause : ReadError
  deriving DecidableEq, Repr, Inhabited

def ListingError.message (e : ListingError) : String :=
  "attempting to read \x60" ++ e.path ++ "\x60 resulted in an error: " ++ e.cause.message

namespace Match

/-- Where matching begins: at the root, or in the working directory. -/
def start (fs : FileSystem) (isAbsolute : Bool) : Match :=
  if isAbsolute then ⟨"/", fs.root.top⟩ else ⟨".", fs.here⟩

/-- Whether the path says nothing yet. -/
def isStart (m : Match) : Bool := Path.components m.path = ["."]

/-- The path of something in the directory at a path. -/
def childPath (path name : String) : String :=
  if Path.components path = ["."] then name else Path.join path name

/-- Where a piece leads from a match, under the path that leads there. -/
def enter? (m : Match) (path piece : String) : Option Match :=
  if Path.isTooLong path then none
  else
    match m.place.enter piece with
    | .ok place => some ⟨path, place⟩
    | .error _ => none

/-- Looks one component up. -/
def step? (m : Match) (name : String) : Option Match :=
  if m.isStart && name = "" then none else m.enter? (childPath m.path name) name

/-- One of the two components that stand for directories without naming them. -/
def special? (m : Match) (name : String) : Option Match :=
  m.enter? (Path.join m.path name) name

/-- The entries of a directory at a path, if they can be gone through. -/
def listing (path : String) : FileTree → Except ListingError (List (String × FileTree))
  | .directory entries =>
    if Path.isTooLong path then .error ⟨path, .nameTooLong⟩ else .ok entries
  | .lockedDirectory =>
    .error ⟨path, if Path.isTooLong path then .nameTooLong else .denied⟩
  | .file _ => .ok []
  | .lockedFile => .ok []

/-- The entries of a directory under their names.  A file has none. -/
def children (m : Match) : Except ListingError (List (String × Match)) :=
  (listing m.path m.place.tree).map fun entries =>
    entries.map fun (name, tree) =>
      (name, ⟨childPath m.path name, tree, m.place.tree :: m.place.above⟩)

mutual

/-- Everything below a tree at a path, under the names of the entries. -/
def belowTree (path : String) (above : List FileTree) :
    FileTree → Except ListingError (List (String × Match))
  | .directory entries => do
    let _ ← listing path (.directory entries)
    belowEntries path (.directory entries :: above) entries
  | tree => do
    let _ ← listing path tree
    return []

/-- Some entries of a directory at a path, and everything below them. -/
def belowEntries (path : String) (above : List FileTree) :
    List (String × FileTree) → Except ListingError (List (String × Match))
  | [] => .ok []
  | entry :: entries => do
    let found ← belowOne path above entry
    return found ++ (← belowEntries path above entries)

/-- An entry of a directory at a path, and everything below it. -/
def belowOne (path : String) (above : List FileTree) :
    String × FileTree → Except ListingError (List (String × Match))
  | (name, tree) => do
    let path := childPath path name
    return (name, ⟨path, tree, above⟩) :: (← belowTree path above tree)

end

/-- Everything below a match, under the names of the entries. -/
def below (m : Match) : Except ListingError (List (String × Match)) :=
  belowTree m.path m.place.above m.place.tree

def isDirectory (m : Match) : Bool := m.place.tree.isDirectory

end Match

namespace Segment

/-- The matches under names that a component stands for. -/
def select (s : Segment) (found : List (String × Match)) : List Match :=
  found.filterMap fun (name, m) => if s.covers name then some m else none

/-- The points that signs stand for, provided that they begin with one. -/
def points (signs : List Sign) (m : Match) : List Match :=
  if signs.head? = some (.char '.') then
    ([".", ".."].filter (wild signs).covers).filterMap m.special?
  else []

/-- Where components lead from a match. -/
def follow : List Segment → Match → Except ListingError (List Match)
  | [], m => .ok [m]
  | literal name :: segments, m =>
    match m.step? name with
    | some next => follow segments next
    | none => .ok []
  | wild signs :: segments, m => do
    let next := (wild signs).select (← m.children) ++ points signs m
    return (← next.mapM (follow segments)).flatten
  | [recursion], m => return recursion.select ((← m.below).filter (·.2.isDirectory))
  | recursion :: recursion :: segments, m => follow (recursion :: segments) m
  | recursion :: segment :: segments, m => do
    let next := segment.select (← m.below)
    return (← next.mapM (follow segments)).flatten

end Segment

namespace Pattern

/-- What a pattern finds in a file system. -/
def findIn (p : Pattern) (fs : FileSystem) : Except ListingError (List Match) :=
  (Segment.follow p.segments (.start fs p.isAbsolute)).map
    (·.filter fun m => !p.directoriesOnly || m.isDirectory)

end Pattern

end GraphLint
