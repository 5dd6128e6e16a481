import GraphLint.Files.Tree

/-!
# File systems

What a run sees of the world is a file system: a tree with its root at the top, and the
directory that the run works in.  A path that begins with a slash leads on from the root,
any other one from the working directory.
-/

set_option autoImplicit false

namespace GraphLint

/-- A tree of files with a working directory in it. -/
structure FileSystem where
  root : FileTree
  isProper : root.IsProper
  /-- The names that lead from the root to the working directory. -/
  directory : List String
  here : Place
  reached : directory.foldlM Place.enter root.top = .ok here
  isListed : here.tree.isListed = true

namespace FileSystem

/-- The file system with a tree at its root, if names lead to a directory in it. -/
def ofRoot? (root : FileTree) (directory : List String) : Option FileSystem :=
  match reached : directory.foldlM Place.enter root.tidy.top with
  | .ok here =>
    if isListed : here.tree.isListed = true then
      some ⟨root.tidy, .tidy root, directory, here, reached, isListed⟩
    else none
  | .error _ => none

/-- The name of a working directory whose place does not matter. -/
def mountName : String := "work"

theorem isName_mountName : Path.IsName mountName := by decide

/-- The file system in which there is nothing but a working directory with the entries of a
tree. -/
def around (t : FileTree) : FileSystem where
  root := .directory [(mountName, (FileTree.directory t.entries).tidy)]
  isProper := .directory (List.pairwise_singleton _ _)
    (List.forall_mem_singleton.mpr isName_mountName) (List.forall_mem_singleton.mpr (.tidy _))
  directory := [mountName]
  here := ⟨(FileTree.directory t.entries).tidy,
    [.directory [(mountName, (FileTree.directory t.entries).tidy)]]⟩
  reached := rfl
  isListed := rfl

instance : Coe FileTree FileSystem := ⟨around⟩

variable (fs : FileSystem)

/-- Where a path begins. -/
def start (path : String) : Place := if Path.isAbsolute path then fs.root.top else fs.here

/-- Where a path leads. -/
def find (path : String) : Except ReadError Place :=
  if Path.isTooLong path then .error .nameTooLong
  else if path = "" then .error .notFound
  else (Path.pieces path).foldlM Place.enter (fs.start path)

/-- The text of the file under a path. -/
def readText (path : String) : Except ReadError String :=
  match fs.find path with
  | .ok place => place.tree.text
  | .error e => .error e

end FileSystem

end GraphLint
