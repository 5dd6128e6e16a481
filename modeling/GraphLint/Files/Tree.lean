import GraphLint.Files.Path

/-!
# File trees

A tree of files is a file or a directory with entries.  File systems have proper trees
only: no directory has two entries of one name, and every name is one.

A `Place` is a node of a tree together with the directories above it, so that two points
lead back up.  At the top they stay where they are.
-/

set_option autoImplicit false

namespace GraphLint

/-- Why there is no text under a path. -/
inductive ReadError
  | notFound
  /-- The path goes on behind a file. -/
  | notADirectory
  /-- The path, or a piece of it, has too many bytes. -/
  | nameTooLong
  | isADirectory
  | denied
  /-- There is a file that is no UTF-8 text. -/
  | notText
  deriving DecidableEq, Repr, Inhabited

def ReadError.message : ReadError → String
  | notFound => "No such file or directory (os error 2)"
  | notADirectory => "Not a directory (os error 20)"
  | nameTooLong => "File name too long (os error 36)"
  | isADirectory => "Is a directory (os error 21)"
  | denied => "Permission denied (os error 13)"
  | notText => "stream did not contain valid UTF-8"

/-! ## Trees -/

inductive FileTree
  | file (content : ByteArray)
  | lockedFile
  | directory (entries : List (String × FileTree))
  /-- A directory that may be neither listed nor gone through. -/
  | lockedDirectory
  deriving Inhabited

namespace FileTree

/-- Whether a tree is a directory, locked or not. -/
def isDirectory : FileTree → Bool
  | directory _ => true
  | lockedDirectory => true
  | file _ => false
  | lockedFile => false

/-- Whether a tree is a file, locked or not. -/
def isFile (t : FileTree) : Bool := !t.isDirectory

/-- Whether a tree is a directory whose entries may be seen. -/
def isListed : FileTree → Bool
  | directory _ => true
  | _ => false

/-- What is under a name in a tree. -/
def child : FileTree → String → Except ReadError FileTree
  | directory entries, name =>
    match entries.lookup name with
    | some t => .ok t
    | none => .error .notFound
  | lockedDirectory, _ => .error .denied
  | file _, _ => .error .notADirectory
  | lockedFile, _ => .error .notADirectory

/-- The text that a tree holds. -/
def text : FileTree → Except ReadError String
  | file content =>
    match String.fromUTF8? content with
    | some text => .ok text
    | none => .error .notText
  | lockedFile => .error .denied
  | directory _ => .error .isADirectory
  | lockedDirectory => .error .denied

/-- The entries of a directory.  Nothing else has any. -/
def entries : FileTree → List (String × FileTree)
  | directory entries => entries
  | _ => []

/-! ## Proper trees -/

/-- A tree as file systems have it. -/
inductive IsProper : FileTree → Prop
  | file (content : ByteArray) : IsProper (.file content)
  | lockedFile : IsProper .lockedFile
  | directory {entries : List (String × FileTree)} (distinct : (entries.map (·.1)).Nodup)
    (names : ∀ entry ∈ entries, Path.IsName entry.1)
    (trees : ∀ entry ∈ entries, IsProper entry.2) : IsProper (.directory entries)
  | lockedDirectory : IsProper .lockedDirectory

mutual

/-- A tree without the entries that no file system has: those under what is no name, and of
several with one name all but the first. -/
def tidy : FileTree → FileTree
  | directory entries => directory (tidyEntries [] entries)
  | file content => file content
  | lockedFile => lockedFile
  | lockedDirectory => lockedDirectory

/-- The entries that are left where some names are taken. -/
def tidyEntries (taken : List String) : List (String × FileTree) → List (String × FileTree)
  | [] => []
  | (name, t) :: entries =>
    if Path.IsName name ∧ name ∉ taken then (name, tidy t) :: tidyEntries (name :: taken) entries
    else tidyEntries taken entries

end

/-- Entries that are left have names that are not taken. -/
theorem not_mem_of_mem_tidyEntries {taken : List String} {entries : List (String × FileTree)}
    {name : String} (h : name ∈ (tidyEntries taken entries).map (·.1)) : name ∉ taken := by
  induction entries generalizing taken with
  | nil => cases h
  | cons entry entries ih =>
      rw [tidyEntries] at h
      split at h
      · next hentry =>
          rcases List.mem_cons.mp h with rfl | h
          · exact hentry.2
          · exact fun hmem => ih h (List.mem_cons_of_mem _ hmem)
      · exact ih h

theorem nodup_tidyEntries (taken : List String) (entries : List (String × FileTree)) :
    ((tidyEntries taken entries).map (·.1)).Nodup := by
  induction entries generalizing taken with
  | nil => exact List.nodup_nil
  | cons entry entries ih =>
      rw [tidyEntries]
      split
      · refine List.nodup_cons.mpr ⟨fun h => ?_, ih _⟩
        exact not_mem_of_mem_tidyEntries h List.mem_cons_self
      · exact ih taken

theorem isName_of_mem_tidyEntries {taken : List String} {entries : List (String × FileTree)} :
    ∀ entry ∈ tidyEntries taken entries, Path.IsName entry.1 := by
  induction entries generalizing taken with
  | nil => nofun
  | cons entry entries ih =>
      rw [tidyEntries]
      split
      · next hentry => exact List.forall_mem_cons.mpr ⟨hentry.1, ih⟩
      · exact ih

mutual

theorem IsProper.tidy (t : FileTree) : t.tidy.IsProper := by
  cases t with
  | directory entries =>
      rw [FileTree.tidy]
      exact .directory (nodup_tidyEntries [] entries) isName_of_mem_tidyEntries
        (IsProper.tidyEntries [] entries)
  | file content =>
      rw [FileTree.tidy]
      exact .file content
  | lockedFile =>
      rw [FileTree.tidy]
      exact .lockedFile
  | lockedDirectory =>
      rw [FileTree.tidy]
      exact .lockedDirectory

theorem IsProper.tidyEntries (taken : List String) (entries : List (String × FileTree)) :
    ∀ entry ∈ FileTree.tidyEntries taken entries, entry.2.IsProper := by
  cases entries with
  | nil =>
      rw [FileTree.tidyEntries]
      nofun
  | cons entry entries =>
      obtain ⟨name, t⟩ := entry
      rw [FileTree.tidyEntries]
      split
      · exact List.forall_mem_cons.mpr ⟨.tidy t, IsProper.tidyEntries _ entries⟩
      · exact IsProper.tidyEntries taken entries

end

end FileTree

/-! ## Places -/

/-- A node of a tree with the directories above it, the nearest first. -/
structure Place where
  tree : FileTree
  above : List FileTree
  deriving Inhabited

namespace Place

/-- The place of the directory above.  Above the top there is nothing else. -/
def parent (p : Place) : Place :=
  match p.above with
  | tree :: above => ⟨tree, above⟩
  | [] => p

/-- Where one more piece of a path leads.  An empty piece stays, but only in a directory;
anything else has to go through it. -/
def enter (p : Place) (piece : String) : Except ReadError Place :=
  if !p.tree.isDirectory then .error .notADirectory
  else if piece = "" then .ok p
  else if !p.tree.isListed then .error .denied
  else if piece = "." then .ok p
  else if piece = ".." then .ok p.parent
  else if piece.utf8ByteSize > Path.pieceLimit then .error .nameTooLong
  else (p.tree.child piece).map fun t => ⟨t, p.tree :: p.above⟩

end Place

/-- The top of a tree as a place. -/
def FileTree.top (t : FileTree) : Place := ⟨t, []⟩

end GraphLint
