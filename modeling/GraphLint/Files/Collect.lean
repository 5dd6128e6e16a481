import GraphLint.Files.Braces
import GraphLint.Files.Glob
import GraphLint.Files.Input

/-!
# Collecting input files

The files that patterns stand for, each once and in the order of their paths, no
matter which pattern finds them and how often.  Directories are passed over, and
so is everything in a directory of installed packages.
-/

set_option autoImplicit false

namespace GraphLint

/-- Why files cannot be collected. -/
inductive CollectError
  | pattern (text : String) (cause : PatternError)
  /-- A directory cannot be gone through for a pattern. -/
  | listing (pattern : String) (cause : ListingError)
  | file (path : String) (cause : ReadError)
  deriving DecidableEq, Repr, Inhabited

namespace CollectError

/-- What was tried. -/
def headline : CollectError → String
  | pattern text _ => "Invalid glob pattern: " ++ text
  | listing text _ => "Failed to expand " ++ text
  | file path _ => "Failed to read file: " ++ path

/-- Why it did not work. -/
def reason : CollectError → String
  | pattern _ cause => cause.message
  | listing _ cause => cause.message
  | file _ cause => cause.message

end CollectError

namespace Collect

def packageDirectory : String := "node_modules"

/-- Whether a match is an input file.  Nothing is to be found under a path that is too
long. -/
def isInput (m : Match) : Bool :=
  !Path.isTooLong m.path && m.place.tree.isFile &&
    !(Path.components m.path).contains packageDirectory

/-- The paths of the input files that a pattern without alternatives stands for. -/
def pathsOf (fs : FileSystem) (text : String) : Except CollectError (List String) :=
  match Pattern.read text with
  | .error e => .error (.pattern text e)
  | .ok pattern =>
    match pattern.findIn fs with
    | .error e => .error (.listing text e)
    | .ok found => .ok ((found.filter isInput).map (·.path))

/-- The paths of the input files that patterns stand for, pattern by pattern. -/
def allPaths (fs : FileSystem) (patterns : List String) : Except CollectError (List String) := do
  return (← (patterns.flatMap Braces.expand).mapM (pathsOf fs)).flatten

/-- A path with its components. -/
abbrev Keyed : Type := List String × String

/-- Leaves out what has the same components as what stands before it. -/
def dropRepeated : List Keyed → List Keyed
  | [] => []
  | [path] => [path]
  | first :: second :: rest =>
    if first.1 = second.1 then dropRepeated (first :: rest)
    else first :: dropRepeated (second :: rest)
termination_by paths => paths.length

/-- Paths in order, each once. -/
def inOrder (paths : List String) : List String :=
  let keyed : List Keyed := paths.map fun path => (Path.components path, path)
  (dropRepeated (keyed.mergeSort fun a b => Path.componentsLe a.1 b.1)).map (·.2)

/-- The input file under a path. -/
def readInput (fs : FileSystem) (path : String) : Except CollectError InputFile :=
  match fs.readText path with
  | .ok text => .ok ⟨path, text⟩
  | .error e => .error (.file path e)

end Collect

/-- The input files that patterns stand for. -/
def collectFiles (fs : FileSystem) (patterns : List String) :
    Except CollectError (List InputFile) := do
  let paths ← Collect.allPaths fs patterns
  (Collect.inOrder paths).mapM (Collect.readInput fs)

end GraphLint
