import GraphLint.Command.Run

/-!
# The program

The outer layer of the command line.  It loads the part of the file system that the words on the
command line lead to, hands it over together with them, and writes what it gets back.
-/

set_option autoImplicit false

namespace GraphLint

/-! ## What is loaded -/

/-- Names that lead down from the root, and how many levels below are wanted, too; without a
number, all of them. -/
structure Route where
  names : List String
  depth : Option Nat

namespace Route

/-- Whether all entries of the directory at which a route begins are wanted. -/
def isOpen (r : Route) : Bool := r.names.isEmpty && r.depth ≠ some 0

/-- What is left of a route below an entry.  Where there is no end, links are not followed, since
they may lead round in circles. -/
def enter? (r : Route) (name : String) (isLink : Bool) : Option Route :=
  match r.names, r.depth with
  | first :: rest, depth => if first = name then some ⟨rest, depth⟩ else none
  | [], none => if isLink then none else some r
  | [], some 0 => none
  | [], some (depth + 1) => some ⟨[], some depth⟩

/-- The names of a directory after a piece of a path. -/
def follow (names : List String) (piece : String) : List String :=
  if !Path.tells piece then names
  else if piece = ".." then names.dropLast
  else names ++ [piece]

/-- Routes to all directories that a path leads through, and to its end. -/
def ofPieces : List String → List String → List Route
  | names, [] => [⟨names, some 0⟩]
  | names, piece :: pieces => ⟨names, some 0⟩ :: ofPieces (follow names piece) pieces

/-- The directory that a path begins in. -/
def start (here : List String) (path : String) : List String :=
  if Path.isAbsolute path then [] else here

/-- The routes of a path. -/
def ofPath (here : List String) (path : String) : List Route :=
  ofPieces (start here path) (Path.pieces path)

/-- The routes of a pattern.  From the first wildcard on it may find anything, as deep down as it
has components; where these lead up, it begins higher. -/
def ofPattern (here : List String) (pattern : String) : List Route :=
  let isPlain (piece : String) : Bool := piece.toList.all fun c => !(c = '*' || c = '?' || c = '[')
  let plain := (Path.pieces pattern).takeWhile isPlain
  let wild := (Path.pieces pattern).dropWhile isPlain
  let names := plain.foldl follow (start here pattern)
  let rises := wild.count ".."
  let depth := if wild.contains "**" then none else some (wild.length + rises)
  ⟨names.take (names.length - rises), depth⟩ :: ofPieces (start here pattern) plain

/-- The routes of everything that is asked for on a command line. -/
def ofInvocation (here : List String) (i : Invocation) : List Route :=
  (i.config.toList ++ i.schemas).flatMap (ofPath here) ++
    (i.inputs.flatMap Braces.expand).flatMap (ofPattern here)

end Route

/-- The tree below a directory entry, as far as routes lead.  What is neither a file nor a
directory is left out. -/
partial def loadTree (routes : List Route) (entry : IO.FS.DirEntry) : IO (Option FileTree) := do
  match (← entry.path.metadata).type with
  | .file =>
    try
      return some (.file (← IO.FS.readBinFile entry.path))
    catch _ => return some .lockedFile
  | .dir =>
    try
      let names ← if routes.any (·.isOpen) then
          pure ((← entry.path.readDir).toList.map (·.fileName))
        else pure (routes.filterMap (·.names.head?)).eraseDups
      let mut entries := #[]
      for name in names do
        let child : IO.FS.DirEntry := ⟨entry.path, name⟩
        try
          let isLink := (← child.path.symlinkMetadata).type matches .symlink
          let isLinked ← child.path.isDir
          let further := routes.filterMap (·.enter? name (isLink && isLinked))
          unless further.isEmpty do
            if let some tree ← loadTree further child then
              entries := entries.push (name, tree)
        catch
        | .permissionDenied file code details => throw (.permissionDenied file code details)
        | _ => pure ()
      return some (.directory entries.toList)
    catch _ => return some .lockedDirectory
  | _ => return none

/-- The file system with what a command line leads to, and with the working directory. -/
def loadFileSystem (words : List String) : IO FileSystem := do
  let here := (Path.pieces (← IO.currentDir).toString).filter Path.tells
  let routes := match Request.ofWords words with
    | .ok (.check i) => Route.ofInvocation here i
    | _ => []
  let root ← loadTree (⟨here, some 0⟩ :: routes) ⟨"/", ""⟩
  match root.bind fun tree => FileSystem.ofRoot? tree here with
  | some fs => return fs
  | none => throw (.userError "the working directory cannot be reached")

/-! ## The run -/

/-- What decides about colours. -/
def readSurroundings : IO Surroundings := do
  return {
    noColor := ← IO.getEnv "NO_COLOR"
    cliColor := ← IO.getEnv "CLICOLOR"
    cliColorForce := ← IO.getEnv "CLICOLOR_FORCE"
    isTerminal := ← (← IO.getStdout).isTty }

/-- The exit code of a run that contradicts itself. -/
def faultCode : UInt32 := 101

end GraphLint

/-- Runs the program. -/
def main (words : List String) : IO UInt32 := do
  let around ← GraphLint.readSurroundings
  let fs ← GraphLint.loadFileSystem words
  match GraphLint.Command.run words around fs with
  | .ok outcome =>
    IO.print outcome.stdout
    IO.eprint outcome.stderr
    return outcome.code.toUInt32
  | .error fault =>
    IO.eprintln fault.message
    return GraphLint.faultCode
