import GraphLint.Proofs.Files.Leading
import GraphLint.Proofs.Files.Ordering

/-!
# Collected files are a set

The files that patterns stand for are those that one of the patterns finds, each once and in
the order of their paths.  Everything else follows from this: the order of the patterns does
not matter, nor do repetitions, and what two lists of patterns come to together is the union
of what they come to apart (`Collect.IsCollection`).

Paths are the same if they have the same components.  Of the spellings of a path the one that
is found first is shown, and this is all that the order of patterns can change.  The text of a
file does not depend on the spelling, because paths with the same components lead to the same
place.
-/

set_option autoImplicit false

namespace GraphLint

namespace Collect

/-! ## What is selected -/

/-- A pattern without alternatives finds something under a path. -/
def Yields (fs : FileSystem) (text path : String) : Prop :=
  ∃ p found, Pattern.read text = .ok p ∧ p.findIn fs = .ok found ∧ ∃ m ∈ found, m.path = path

/-- There is a file under a path, and none of installed packages. -/
structure IsInputPath (fs : FileSystem) (path : String) : Prop where
  isFile : ∃ place, fs.find path = .ok place ∧ place.tree.isFile = true
  outside : packageDirectory ∉ Path.components path

/-- There is an input file under a path, and one of the patterns finds it there. -/
structure Selected (fs : FileSystem) (patterns : List String) (path : String) : Prop where
  yielded : ∃ pattern ∈ patterns, ∃ text ∈ Braces.expand pattern, Yields fs text path
  isInput : IsInputPath fs path

section

variable {fs : FileSystem} {text path : String} {patterns paths : List String}

theorem Selected.of_subset {others : List String} (h : Selected fs patterns path)
    (hsub : ∀ pattern ∈ patterns, pattern ∈ others) : Selected fs others path := by
  obtain ⟨pattern, hpattern, hyields⟩ := h.yielded
  exact ⟨⟨pattern, hsub pattern hpattern, hyields⟩, h.isInput⟩

/-- The text under a path does not depend on the spelling. -/
theorem Selected.readText_eq {others : List String} {path' : String}
    (h : Selected fs patterns path) (h' : Selected fs others path')
    (hlike : Path.components path = Path.components path') :
    fs.readText path = fs.readText path' := by
  obtain ⟨p, hp, -⟩ := h.isInput.isFile
  obtain ⟨q, hq, -⟩ := h'.isInput.isFile
  exact FileSystem.readText_eq_of_components_eq hp hq hlike

theorem isInput_iff {p : Pattern} {found : List Match} {m : Match}
    (hp : Pattern.read text = .ok p) (hfound : p.findIn fs = .ok found) (hm : m ∈ found) :
    isInput m = true ↔ IsInputPath fs m.path := by
  rw [isInput]
  simp only [Bool.and_eq_true, Bool.not_eq_true']
  constructor
  · rintro ⟨⟨hshort, hfile⟩, houtside⟩
    refine ⟨⟨m.place, Pattern.find_of_findIn hp hfound hm hshort, hfile⟩, ?_⟩
    simpa using houtside
  · rintro ⟨⟨place, hplace, hfile⟩, houtside⟩
    have hshort := (FileSystem.find_eq_ok_iff.mp hplace).1
    have hfind := Pattern.find_of_findIn hp hfound hm hshort
    obtain rfl := Except.ok.inj (hplace.symm.trans hfind)
    exact ⟨⟨hshort, hfile⟩, by simpa using houtside⟩

theorem mem_pathsOf_iff (h : pathsOf fs text = .ok paths) :
    path ∈ paths ↔ Yields fs text path ∧ IsInputPath fs path := by
  rw [pathsOf] at h
  cases hp : Pattern.read text with
  | error e =>
      rw [hp] at h
      cases h
  | ok p =>
      cases hfound : p.findIn fs with
      | error e =>
          simp only [hp, hfound] at h
          cases h
      | ok found =>
          simp only [hp, hfound] at h
          obtain rfl := Except.ok.inj h
          constructor
          · intro hmem
            obtain ⟨m, hm, rfl⟩ := List.mem_map.mp hmem
            obtain ⟨hm, hinput⟩ := List.mem_filter.mp hm
            exact ⟨⟨p, found, hp, hfound, m, hm, rfl⟩, (isInput_iff hp hfound hm).mp hinput⟩
          · rintro ⟨⟨p', found', hp', hfound', m, hm, rfl⟩, hinput⟩
            obtain rfl := Except.ok.inj (hp'.symm.trans hp)
            obtain rfl := Except.ok.inj (hfound'.symm.trans hfound)
            have hm' := (isInput_iff hp hfound hm).mpr hinput
            exact List.mem_map.mpr ⟨m, List.mem_filter.mpr ⟨hm, hm'⟩, rfl⟩

/-! ## All paths -/

theorem allPaths_eq_ok_iff : allPaths fs patterns = .ok paths ↔
    ∃ lists, (patterns.flatMap Braces.expand).mapM (pathsOf fs) = .ok lists ∧
      lists.flatten = paths := by
  rw [allPaths]
  cases (patterns.flatMap Braces.expand).mapM (pathsOf fs) with
  | error e => exact ⟨nofun, nofun⟩
  | ok lists =>
      constructor
      · exact fun h => ⟨lists, rfl, Except.ok.inj h⟩
      · rintro ⟨_, ⟨⟩, rfl⟩
        rfl

theorem mem_allPaths_iff (h : allPaths fs patterns = .ok paths) :
    path ∈ paths ↔ Selected fs patterns path := by
  obtain ⟨lists, hlists, rfl⟩ := allPaths_eq_ok_iff.mp h
  constructor
  · intro hmem
    obtain ⟨text, htext, found, hfound, hpath⟩ := exists_of_mem_flatten hlists hmem
    obtain ⟨pattern, hpattern, htext⟩ := List.mem_flatMap.mp htext
    obtain ⟨hyields, hinput⟩ := (mem_pathsOf_iff hfound).mp hpath
    exact ⟨⟨pattern, hpattern, text, htext, hyields⟩, hinput⟩
  · rintro ⟨⟨pattern, hpattern, text, htext, hyields⟩, hinput⟩
    have hmem := List.mem_flatMap.mpr ⟨pattern, hpattern, htext⟩
    obtain ⟨found, hfound, hpaths⟩ := exists_right_of_mem (mapM_eq_ok_iff.mp hlists) hmem
    exact List.mem_flatten.mpr ⟨found, hfound, (mem_pathsOf_iff hpaths).mpr ⟨hyields, hinput⟩⟩

theorem allPaths_append {xs ys : List String} : allPaths fs (xs ++ ys) = .ok paths ↔
    ∃ ps qs, allPaths fs xs = .ok ps ∧ allPaths fs ys = .ok qs ∧ ps ++ qs = paths := by
  simp only [allPaths_eq_ok_iff, List.flatMap_append, mapM_append_eq_ok_iff]
  constructor
  · rintro ⟨_, ⟨cs, ds, hcs, hds, rfl⟩, rfl⟩
    exact ⟨cs.flatten, ds.flatten, ⟨cs, hcs, rfl⟩, ⟨ds, hds, rfl⟩, List.flatten_append.symm⟩
  · rintro ⟨_, _, ⟨cs, hcs, rfl⟩, ⟨ds, hds, rfl⟩, rfl⟩
    exact ⟨cs ++ ds, ⟨cs, ds, hcs, hds, rfl⟩, List.flatten_append⟩

/-- Among patterns that can all be followed, each can. -/
theorem exists_allPaths_of_subset {others : List String} (h : allPaths fs patterns = .ok paths)
    (hsub : ∀ pattern ∈ others, pattern ∈ patterns) : ∃ found, allPaths fs others = .ok found := by
  obtain ⟨lists, hlists, -⟩ := allPaths_eq_ok_iff.mp h
  have hall : ∀ text ∈ others.flatMap Braces.expand, ∃ found, pathsOf fs text = .ok found := by
    intro text htext
    obtain ⟨pattern, hpattern, htext⟩ := List.mem_flatMap.mp htext
    have hmem := List.mem_flatMap.mpr ⟨pattern, hsub pattern hpattern, htext⟩
    obtain ⟨found, -, hfound⟩ := exists_right_of_mem (mapM_eq_ok_iff.mp hlists) hmem
    exact ⟨found, hfound⟩
  obtain ⟨found, hfound⟩ := exists_mapM_eq_ok hall
  exact ⟨found.flatten, allPaths_eq_ok_iff.mpr ⟨found, hfound, rfl⟩⟩

/-! ## Reading -/

theorem readInput_eq_ok_iff {file : InputFile} :
    readInput fs path = .ok file ↔ file.path = path ∧ fs.readText path = .ok file.text := by
  rw [readInput]
  cases fs.readText path with
  | error e => simp
  | ok content =>
      constructor
      · intro h
        obtain rfl := Except.ok.inj h
        exact ⟨rfl, rfl⟩
      · rintro ⟨rfl, h⟩
        rw [Except.ok.inj h]

theorem mapM_readInput_eq_ok_iff {files : List InputFile} :
    paths.mapM (readInput fs) = .ok files ↔
      files.map (·.path) = paths ∧ ∀ file ∈ files, fs.readText file.path = .ok file.text := by
  rw [mapM_eq_ok_iff]
  constructor
  · intro h
    induction h with
    | nil => exact ⟨rfl, nofun⟩
    | cons hfile _ ih =>
        obtain ⟨rfl, htext⟩ := readInput_eq_ok_iff.mp hfile
        exact ⟨congrArg _ ih.1, List.forall_mem_cons.mpr ⟨htext, ih.2⟩⟩
  · rintro ⟨rfl, h⟩
    refine List.forall₂_map_left_iff.mpr (List.forall₂_same.mpr fun file hfile => ?_)
    exact readInput_eq_ok_iff.mpr ⟨rfl, h file hfile⟩

/-- The files are those at the paths that were found, in order, with their texts. -/
theorem collectFiles_eq_ok_iff {files : List InputFile} : collectFiles fs patterns = .ok files ↔
    ∃ paths, allPaths fs patterns = .ok paths ∧ files.map (·.path) = inOrder paths ∧
      ∀ file ∈ files, fs.readText file.path = .ok file.text := by
  rw [collectFiles]
  cases allPaths fs patterns with
  | error e => exact ⟨nofun, nofun⟩
  | ok paths =>
      constructor
      · exact fun h => ⟨paths, rfl, mapM_readInput_eq_ok_iff.mp h⟩
      · rintro ⟨_, ⟨⟩, h⟩
        exact mapM_readInput_eq_ok_iff.mpr h

end

/-! ## The set -/

section

variable {fs : FileSystem} {patterns others : List String} {files : List InputFile}

theorem ascending_of_collectFiles (h : collectFiles fs patterns = .ok files) :
    files.Pairwise (Path.Precedes ·.path ·.path) := by
  obtain ⟨paths, -, hfiles, -⟩ := collectFiles_eq_ok_iff.mp h
  exact List.pairwise_map.mp (hfiles ▸ inOrder_ascending paths)

theorem mem_files_iff {paths : List String} (hfiles : files.map (·.path) = inOrder paths)
    (htexts : ∀ file ∈ files, fs.readText file.path = .ok file.text) {file : InputFile} :
    file ∈ files ↔ file.path ∈ inOrder paths ∧ fs.readText file.path = .ok file.text := by
  rw [← hfiles]
  constructor
  · exact fun hfile => ⟨List.mem_map_of_mem hfile, htexts file hfile⟩
  · rintro ⟨hpath, htext⟩
    obtain ⟨⟨path, text⟩, hmem, rfl⟩ := List.mem_map.mp hpath
    obtain rfl := Except.ok.inj ((htexts _ hmem).symm.trans htext)
    exact hmem

theorem selected_of_mem (h : collectFiles fs patterns = .ok files) {file : InputFile}
    (hfile : file ∈ files) :
    Selected fs patterns file.path ∧ fs.readText file.path = .ok file.text := by
  obtain ⟨paths, hpaths, hfiles, htexts⟩ := collectFiles_eq_ok_iff.mp h
  obtain ⟨hpath, htext⟩ := (mem_files_iff hfiles htexts).mp hfile
  exact ⟨(mem_allPaths_iff hpaths).mp (mem_of_mem_inOrder hpath), htext⟩

/-- Under each selected path there is the text of one of the files, at a path like it. -/
theorem exists_of_selected (h : collectFiles fs patterns = .ok files) {path : String}
    (hpath : Selected fs patterns path) : ∃ file ∈ files,
      Path.components file.path = Path.components path ∧ fs.readText path = .ok file.text := by
  obtain ⟨paths, hpaths, hfiles, htexts⟩ := collectFiles_eq_ok_iff.mp h
  obtain ⟨first, hfirst, hlike⟩ := exists_mem_inOrder ((mem_allPaths_iff hpaths).mpr hpath)
  obtain ⟨file, hfile, rfl⟩ := List.mem_map.mp (hfiles ▸ hfirst)
  obtain ⟨hselected, htext⟩ := selected_of_mem h hfile
  exact ⟨file, hfile, hlike, hselected.readText_eq hpath hlike ▸ htext⟩

theorem exists_text_of_selected (h : collectFiles fs patterns = .ok files) {path : String}
    (hpath : Selected fs patterns path) : ∃ text, fs.readText path = .ok text := by
  obtain ⟨file, -, -, htext⟩ := exists_of_selected h hpath
  exact ⟨file.text, htext⟩

/-- Patterns that can be followed are collected if what they lead to can be read. -/
theorem exists_collectFiles {paths : List String} (hpaths : allPaths fs patterns = .ok paths)
    (hread : ∀ path ∈ paths, ∃ text, fs.readText path = .ok text) :
    ∃ found, collectFiles fs patterns = .ok found := by
  have hinput : ∀ path ∈ inOrder paths, ∃ file, readInput fs path = .ok file := by
    intro path hpath
    obtain ⟨text, htext⟩ := hread path (mem_of_mem_inOrder hpath)
    exact ⟨⟨path, text⟩, readInput_eq_ok_iff.mpr ⟨rfl, htext⟩⟩
  obtain ⟨found, hfound⟩ := exists_mapM_eq_ok hinput
  obtain ⟨hmap, htexts⟩ := mapM_readInput_eq_ok_iff.mp hfound
  exact ⟨found, collectFiles_eq_ok_iff.mpr ⟨paths, hpaths, hmap, htexts⟩⟩

/-- So are some of the patterns that are collected. -/
theorem exists_collectFiles_of_subset (h : collectFiles fs patterns = .ok files)
    (hsub : ∀ pattern ∈ others, pattern ∈ patterns) :
    ∃ found, collectFiles fs others = .ok found := by
  obtain ⟨paths, hpaths, -⟩ := collectFiles_eq_ok_iff.mp h
  obtain ⟨paths', hpaths'⟩ := exists_allPaths_of_subset hpaths hsub
  refine exists_collectFiles hpaths' fun path hpath => exists_text_of_selected h ?_
  exact ((mem_allPaths_iff hpaths').mp hpath).of_subset hsub

/-- What is found only depends on the patterns that they stand for. -/
theorem collectFiles_eq_of_expand (fs : FileSystem)
    (h : patterns.flatMap Braces.expand = others.flatMap Braces.expand) :
    collectFiles fs patterns = collectFiles fs others := by
  rw [collectFiles, collectFiles, allPaths, allPaths, h]

/-! ### Alike -/

/-- The paths have the same components, and the texts are the same. -/
def Alike (file other : InputFile) : Prop :=
  Path.components file.path = Path.components other.path ∧ file.text = other.text

/-- Patterns that select the same paths come to the same files. -/
theorem alike_of_selected_iff {found : List InputFile}
    (h : collectFiles fs patterns = .ok files) (h' : collectFiles fs others = .ok found)
    (hsame : ∀ path, Selected fs patterns path ↔ Selected fs others path) :
    List.Forall₂ Alike files found := by
  obtain ⟨paths, hpaths, hfiles, -⟩ := collectFiles_eq_ok_iff.mp h
  obtain ⟨paths', hpaths', hfound, -⟩ := collectFiles_eq_ok_iff.mp h'
  have hmem (path : String) : path ∈ paths ↔ path ∈ paths' := by
    rw [mem_allPaths_iff hpaths, hsame, mem_allPaths_iff hpaths']
  have hmap := map_components_inOrder hmem
  rw [← hfiles, ← hfound, List.map_map, List.map_map] at hmap
  refine forall₂_imp_of_mem (forall₂_of_map_eq hmap) fun file hfile other hother hlike => ?_
  obtain ⟨hselected, htext⟩ := selected_of_mem h hfile
  obtain ⟨hselected', htext'⟩ := selected_of_mem h' hother
  have hread := hselected.readText_eq hselected' hlike
  exact ⟨hlike, Except.ok.inj (htext.symm.trans (hread.trans htext'))⟩

/-! ### Unions -/

/-- The files of two lists in order.  Where both have a file at paths that are alike, the one
of the first list is taken. -/
structure IsUnion (files others all : List InputFile) : Prop where
  ascending : all.Pairwise (Path.Precedes ·.path ·.path)
  mem_iff : ∀ file, file ∈ all ↔ file ∈ files ∨ (file ∈ others ∧
    ∀ first ∈ files, Path.components first.path ≠ Path.components file.path)

theorem isUnion_of_append {front back : List String} {found all : List InputFile}
    (hfront : collectFiles fs front = .ok files) (hback : collectFiles fs back = .ok found)
    (h : collectFiles fs (front ++ back) = .ok all) : IsUnion files found all := by
  obtain ⟨xs, hxs, hfiles, hfileTexts⟩ := collectFiles_eq_ok_iff.mp hfront
  obtain ⟨ys, hys, hfound, hfoundTexts⟩ := collectFiles_eq_ok_iff.mp hback
  obtain ⟨zs, hzs, hall, hallTexts⟩ := collectFiles_eq_ok_iff.mp h
  obtain ⟨xs', ys', hxs', hys', rfl⟩ := allPaths_append.mp hzs
  obtain rfl := Except.ok.inj (hxs.symm.trans hxs')
  obtain rfl := Except.ok.inj (hys.symm.trans hys')
  refine ⟨ascending_of_collectFiles h, fun file => ?_⟩
  have hfirst : (∀ first ∈ files, Path.components first.path ≠ Path.components file.path) ↔
      ∀ path ∈ inOrder xs, Path.components path ≠ Path.components file.path := by
    rw [← hfiles, List.forall_mem_map]
  rw [mem_files_iff hall hallTexts, mem_files_iff hfiles hfileTexts,
    mem_files_iff hfound hfoundTexts, hfirst, mem_inOrder_append, or_and_right, and_right_comm]

/-! ### Other patterns -/

/-- What patterns select does not depend on their order, nor on how often they are there. -/
theorem selected_congr (hsame : ∀ pattern, pattern ∈ others ↔ pattern ∈ patterns)
    (path : String) : Selected fs patterns path ↔ Selected fs others path :=
  ⟨fun h => h.of_subset fun pattern => (hsame pattern).mpr,
    fun h => h.of_subset fun pattern => (hsame pattern).mp⟩

theorem exists_alike_of_mem_iff (h : collectFiles fs patterns = .ok files)
    (hsame : ∀ pattern, pattern ∈ others ↔ pattern ∈ patterns) :
    ∃ found, collectFiles fs others = .ok found ∧ List.Forall₂ Alike files found := by
  obtain ⟨found, hfound⟩ := exists_collectFiles_of_subset h fun p => (hsame p).mp
  exact ⟨found, hfound, alike_of_selected_iff h hfound (selected_congr hsame)⟩

/-- If no path is selected in two spellings, the files are the same. -/
theorem eq_of_alike {found : List InputFile}
    (h : collectFiles fs patterns = .ok files) (h' : collectFiles fs others = .ok found)
    (hsame : ∀ pattern, pattern ∈ others ↔ pattern ∈ patterns)
    (halike : List.Forall₂ Alike files found)
    (hspelled : ∀ path path', Selected fs patterns path → Selected fs patterns path' →
      Path.components path = Path.components path' → path = path') : files = found := by
  rw [← List.forall₂_eq_eq_eq]
  refine forall₂_imp_of_mem halike fun file hfile other hother ⟨hlike, htext⟩ => ?_
  have hselected := (selected_of_mem h hfile).1
  have hselected' := (selected_congr hsame _).mpr (selected_of_mem h' hother).1
  have hpath := hspelled file.path other.path hselected hselected' hlike
  cases file
  cases other
  rw [InputFile.mk.injEq]
  exact ⟨hpath, htext⟩

theorem collectFiles_repeat {front back : List String}
    {pattern : String} (h : collectFiles fs (front ++ back) = .ok files)
    (hpattern : pattern ∈ front) : collectFiles fs (front ++ pattern :: back) = .ok files := by
  obtain ⟨paths, hpaths, hfiles, htexts⟩ := collectFiles_eq_ok_iff.mp h
  obtain ⟨xs, zs, hxs, hzs, rfl⟩ := allPaths_append.mp hpaths
  have hsub : ∀ p ∈ [pattern], p ∈ front := List.forall_mem_singleton.mpr hpattern
  obtain ⟨ys, hys⟩ := exists_allPaths_of_subset hxs hsub
  have hmem : ∀ path ∈ ys, path ∈ xs := fun path hpath =>
    (mem_allPaths_iff hxs).mpr (((mem_allPaths_iff hys).mp hpath).of_subset hsub)
  have hbehind : allPaths fs (pattern :: back) = .ok (ys ++ zs) :=
    allPaths_append.mpr ⟨ys, zs, hys, hzs, rfl⟩
  have hall := allPaths_append.mpr ⟨xs, ys ++ zs, hxs, hbehind, rfl⟩
  refine collectFiles_eq_ok_iff.mpr ⟨_, hall, ?_, htexts⟩
  rw [hfiles, inOrder_append_of_subset hmem]

theorem collectFiles_alternatives {front back : List String} {pattern : String}
    {before inside after : List Char} (hgroup : Braces.IsGroup pattern.toList before inside after)
    (hone : ∀ text ∈ Braces.alternatives before inside after, ¬Braces.HasGroup text) :
    collectFiles fs (front ++ (Braces.alternatives before inside after).map String.ofList ++ back)
      = collectFiles fs (front ++ pattern :: back) := by
  refine collectFiles_eq_of_expand fs ?_
  rw [List.flatMap_append, List.flatMap_append, List.flatMap_append, List.flatMap_cons,
    Braces.flatMap_expand_alternatives hone, Braces.expand_of_isGroup hgroup, List.append_assoc]

/-- Patterns that are collected apart are collected together. -/
theorem exists_collectFiles_append {front back : List String}
    {found : List InputFile} (hfront : collectFiles fs front = .ok files)
    (hback : collectFiles fs back = .ok found) :
    ∃ all, collectFiles fs (front ++ back) = .ok all := by
  obtain ⟨xs, hxs, -⟩ := collectFiles_eq_ok_iff.mp hfront
  obtain ⟨ys, hys, -⟩ := collectFiles_eq_ok_iff.mp hback
  refine exists_collectFiles (allPaths_append.mpr ⟨xs, ys, hxs, hys, rfl⟩) fun path hpath => ?_
  rcases List.mem_append.mp hpath with hpath | hpath
  · exact exists_text_of_selected hfront ((mem_allPaths_iff hxs).mp hpath)
  · exact exists_text_of_selected hback ((mem_allPaths_iff hys).mp hpath)

/-! ## All together -/

/-- The files that patterns stand for are a set, in the order of their paths. -/
structure IsCollection (fs : FileSystem) (patterns : List String) (files : List InputFile) :
    Prop where
  /-- The paths are strictly ascending. -/
  ascending : files.Pairwise (Path.Precedes ·.path ·.path)
  /-- Each file is at a path that is selected, with the text that is there. -/
  sound : ∀ file ∈ files,
    Selected fs patterns file.path ∧ fs.readText file.path = .ok file.text
  /-- Each path that is selected is, by its components, the path of one of the files. -/
  complete : ∀ path, Selected fs patterns path → ∃ file ∈ files,
    Path.components file.path = Path.components path ∧ fs.readText path = .ok file.text
  /-- Neither the order of the patterns matters nor how often they are there. -/
  reordered : ∀ others, (∀ pattern, pattern ∈ others ↔ pattern ∈ patterns) →
    ∃ found, collectFiles fs others = .ok found ∧ List.Forall₂ Alike files found
  /-- Unless a path is selected in two spellings, the files are even spelled the same. -/
  spelled : (∀ path path', Selected fs patterns path → Selected fs patterns path' →
      Path.components path = Path.components path' → path = path') →
    ∀ others, (∀ pattern, pattern ∈ others ↔ pattern ∈ patterns) →
      collectFiles fs others = .ok files
  /-- A pattern that has been there before makes no difference. -/
  repeated : ∀ front back pattern, patterns = front ++ back → pattern ∈ front →
    collectFiles fs (front ++ pattern :: back) = .ok files
  /-- A pattern with one group may be replaced by its alternatives. -/
  grouped : ∀ front back pattern before inside after, patterns = front ++ pattern :: back →
    Braces.IsGroup pattern.toList before inside after →
    (∀ text ∈ Braces.alternatives before inside after, ¬Braces.HasGroup text) → collectFiles fs
      (front ++ (Braces.alternatives before inside after).map String.ofList ++ back) = .ok files
  /-- With more patterns behind, the files are those of both. -/
  united : ∀ others found, collectFiles fs others = .ok found →
    ∃ all, collectFiles fs (patterns ++ others) = .ok all ∧ IsUnion files found all
  /-- Cut in two, the patterns are collected in two parts. -/
  parted : ∀ front back, patterns = front ++ back →
    ∃ found found', collectFiles fs front = .ok found ∧
      collectFiles fs back = .ok found' ∧ IsUnion found found' files

theorem isCollection_of_collectFiles
    (h : collectFiles fs patterns = .ok files) : IsCollection fs patterns files where
  ascending := ascending_of_collectFiles h
  sound _ hfile := selected_of_mem h hfile
  complete _ hpath := exists_of_selected h hpath
  reordered _ hsame := exists_alike_of_mem_iff h hsame
  spelled := by
    intro hspelled others hsame
    obtain ⟨found, hfound, halike⟩ := exists_alike_of_mem_iff h hsame
    rw [hfound, eq_of_alike h hfound hsame halike hspelled]
  repeated := by
    rintro front back pattern rfl hpattern
    exact collectFiles_repeat h hpattern
  grouped := by
    rintro front back pattern before inside after rfl hgroup hone
    rw [collectFiles_alternatives hgroup hone, h]
  united := by
    intro others found hfound
    obtain ⟨all, hall⟩ := exists_collectFiles_append h hfound
    exact ⟨all, hall, isUnion_of_append h hfound hall⟩
  parted := by
    rintro front back rfl
    obtain ⟨found, hfound⟩ := exists_collectFiles_of_subset h fun _ =>
      List.mem_append_left back
    obtain ⟨found', hfound'⟩ := exists_collectFiles_of_subset h fun _ =>
      List.mem_append_right front
    exact ⟨found, found', hfound, hfound', isUnion_of_append hfound hfound' h⟩

end

/-- A tree with a directory of installed packages. -/
def packagedTree : FileTree :=
  .directory [
    ("a", .directory [
      ("x.gql", .file "\x7b x \x7d".toUTF8),
      ("y.graphql", .file "\x7b y \x7d".toUTF8)]),
    ("node_modules", .directory [("z.gql", .file "\x7b z \x7d".toUTF8)])]

/-- Patterns that find one file in three spellings, another one in two, and a third one among
the installed packages. -/
def packagedPatterns : List String :=
  ["**/*.\x7bgraphql, gql\x7d", "a/./x.gql", "../work/a/y.graphql", "/work/a/*.gql"]

/-- The files that they find: from the root on, from above the working directory, and in it. -/
def packagedFiles : List InputFile :=
  [⟨"/work/a/x.gql", "\x7b x \x7d"⟩, ⟨"../work/a/y.graphql", "\x7b y \x7d"⟩,
    ⟨"a/x.gql", "\x7b x \x7d"⟩, ⟨"a/y.graphql", "\x7b y \x7d"⟩]

/-- The group may be written out. -/
theorem isCollection_packagedTree :
    collectFiles packagedTree packagedPatterns = .ok packagedFiles ∧
      IsCollection packagedTree packagedPatterns packagedFiles ∧
      collectFiles packagedTree ["**/*.graphql", "**/*.gql", "a/./x.gql", "../work/a/y.graphql",
        "/work/a/*.gql"] = .ok packagedFiles := by
  have h : collectFiles packagedTree packagedPatterns = .ok packagedFiles := by
    refine collectFiles_eq_ok_iff.mpr ⟨["a/y.graphql", "a/x.gql", "a/./x.gql",
      "../work/a/y.graphql", "/work/a/x.gql"], by decide +kernel, ?_, by decide +kernel⟩
    exact (inOrder_eq (by decide +kernel) (by decide +kernel) (by decide +kernel)).symm
  have hcollection := isCollection_of_collectFiles h
  have hgroup : Braces.IsGroup "**/*.\x7bgraphql, gql\x7d".toList "**/*.".toList
      "graphql, gql".toList [] :=
    ⟨by decide +kernel, by decide +kernel, by decide +kernel, by decide +kernel⟩
  refine ⟨h, hcollection, ?_⟩
  exact hcollection.grouped [] _ _ _ _ _ rfl hgroup fun _ =>
    Braces.not_hasGroup_of_mem_alternatives hgroup.not_open (by decide +kernel) (by decide)

end Collect

end GraphLint
