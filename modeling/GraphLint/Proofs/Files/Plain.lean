import GraphLint.Proofs.Files.Collecting
import Mathlib.Data.List.Induction

/-!
# Paths as patterns

A path of names, from the working directory or from the root on, is a pattern, too.  Question
marks and single stars in it stand for themselves among other things, so the path finds what it
leads to.  Without any wildcards it finds nothing else (`Collect.collectFiles_tame`).

Brackets are different: all that is written in them stands for one character.  A file with
brackets in its name need not be found by its own path (`Collect.not_collected_bracketedTree`).
-/

set_option autoImplicit false

namespace GraphLint

namespace Path

/-! ## Spelling -/

/-- The path that names spell, each in the directory of the one before, from the root on or from
the working directory. -/
def spell (isAbsolute : Bool) (names : List String) : String :=
  names.foldl Match.childPath (if isAbsolute then "/" else ".")

/-- Each of the texts may be the name of an entry. -/
def AreNames (names : List String) : Prop :=
  ∀ name ∈ names, tells name = true ∧ name ≠ ".." ∧ '/' ∉ name.toList

theorem AreNames.not_empty {names : List String} (h : AreNames names) : "" ∉ names :=
  fun hmem => (tells_iff.mp (h "" hmem).1).1 rfl

section

variable {isAbsolute : Bool} {names : List String}

theorem spell_concat (isAbsolute : Bool) (names : List String) (name : String) :
    spell isAbsolute (names ++ [name]) = Match.childPath (spell isAbsolute names) name := by
  rw [spell, List.foldl_append]
  rfl

theorem ne_empty_of_tells {path piece : String} (hpiece : piece ∈ pieces path)
    (htells : tells piece = true) : path ≠ "" := by
  rintro rfl
  obtain rfl := List.mem_singleton.mp hpiece
  cases htells

/-- A path with a telling piece says something, so what comes next is put behind it. -/
theorem childPath_of_tells {path piece : String} (hpiece : piece ∈ pieces path)
    (htells : tells piece = true) (name : String) :
    Match.childPath path name = join path name := by
  refine if_neg fun hstart => ?_
  have hmem := List.mem_filter.mpr ⟨hpiece, htells⟩
  rw [not_tells_of_components hstart] at hmem
  cases hmem

theorem pieces_spell (hne : names ≠ []) (h : AreNames names) :
    pieces (spell isAbsolute names) = rootPieces isAbsolute ++ names := by
  induction names using List.reverseRecOn with
  | nil => exact absurd rfl hne
  | append_singleton names name ih =>
      have hname := (h name (by simp)).2.2
      cases names with
      | nil =>
          cases isAbsolute with
          | true =>
              show pieces ("" ++ "/" ++ name) = _
              rw [pieces_append, pieces_of_not_mem hname]
              rfl
          | false => exact pieces_of_not_mem hname
      | cons first names =>
          have hfront : AreNames (first :: names) := fun n hn => h n (List.mem_append_left _ hn)
          have hpieces := ih (List.cons_ne_nil _ _) hfront
          have hfirst : first ∈ pieces (spell isAbsolute (first :: names)) :=
            hpieces ▸ List.mem_append_right _ List.mem_cons_self
          have hend : "" ∉ (pieces (spell isAbsolute (first :: names))).tail := by
            rw [hpieces]
            cases isAbsolute with
            | true => exact hfront.not_empty
            | false => exact fun hmem => hfront.not_empty (List.mem_of_mem_tail hmem)
          have htells := (hfront first List.mem_cons_self).1
          rw [spell_concat, childPath_of_tells hfirst htells,
            pieces_join_of_not_mem (ne_empty_of_tells hfirst htells) hend hname, hpieces,
            List.append_assoc]

/-- A path of names is spelled by them. -/
theorem spell_names {path : String} (h : AreNames (Path.names path)) :
    spell (Path.isAbsolute path) (Path.names path) = path :=
  pieces_injective ((pieces_spell (names_ne_nil path) h).trans (pieces_eq path).symm)

theorem utf8ByteSize_le_join (path name : String) :
    path.utf8ByteSize ≤ (join path name).utf8ByteSize := by
  rw [join]
  split
  · rw [String.utf8ByteSize_append]
    omega
  · rw [String.utf8ByteSize_append, String.utf8ByteSize_append]
    omega

/-- A path does not get shorter on its way. -/
theorem isTooLong_spell {more : List String} (hne : names ≠ []) (h : AreNames (names ++ more))
    (hshort : isTooLong (spell isAbsolute (names ++ more)) = false) :
    isTooLong (spell isAbsolute names) = false := by
  induction more generalizing names with
  | nil => rwa [List.append_nil] at hshort
  | cons name more ih =>
      rw [List.append_cons] at h hshort
      have hnext := ih (List.append_ne_nil_of_right_ne_nil _ (List.cons_ne_nil _ _)) h hshort
      have hnames : AreNames names := fun n hn =>
        h n (List.mem_append_left _ (List.mem_append_left _ hn))
      obtain ⟨first, rest, rfl⟩ := List.exists_cons_of_ne_nil hne
      have hfirst : first ∈ pieces (spell isAbsolute (first :: rest)) :=
        pieces_spell hne hnames ▸ List.mem_append_right _ List.mem_cons_self
      rw [spell_concat, childPath_of_tells hfirst (hnames first List.mem_cons_self).1] at hnext
      have hle := utf8ByteSize_le_join (spell isAbsolute (first :: rest)) name
      simp only [isTooLong, ge_iff_le, decide_eq_false_iff_not] at hnext ⊢
      omega

end

end Path

namespace Place

/-- Entering something by a name goes through the entries of a directory. -/
theorem exists_entry_of_enter {p q : Place} {name : String} (htells : Path.tells name = true)
    (hup : name ≠ "..") (h : p.enter name = .ok q) : ∃ entries t,
      p.tree = .directory entries ∧ (name, t) ∈ entries ∧ q = ⟨t, p.tree :: p.above⟩ := by
  obtain ⟨hempty, hpoint⟩ := Path.tells_iff.mp htells
  rw [enter, if_neg hempty, if_neg hpoint, if_neg hup] at h
  split at h
  · cases h
  split at h
  · cases h
  split at h
  · cases h
  · obtain ⟨t, ht, rfl⟩ := map_eq_ok_iff.mp h
    obtain ⟨entries, htree, hmem⟩ := FileTree.exists_entry_of_child ht
    exact ⟨entries, t, htree, hmem, rfl⟩

end Place

/-! ## Following -/

namespace Match

variable {m : Match} {isAbsolute : Bool} {done : List String} {name : String} {next : Place}

/-- What is entered by a name is looked up by it. -/
theorem step?_of_enter (hpath : m.path = Path.spell isAbsolute done) (hname : Path.tells name = true)
    (hshort : Path.isTooLong (Path.spell isAbsolute (done ++ [name])) = false)
    (hnext : m.place.enter name = .ok next) :
    m.step? name = some ⟨Path.spell isAbsolute (done ++ [name]), next⟩ := by
  rw [step?, if_neg (by simp [(Path.tells_iff.mp hname).1]), enter?_eq_some_iff, hpath,
    ← Path.spell_concat]
  exact ⟨hshort, hnext, rfl⟩

/-- It is among the entries, too. -/
theorem mem_children_of_enter (hpath : m.path = Path.spell isAbsolute done)
    (hname : Path.tells name = true) (hup : name ≠ "..") (hnext : m.place.enter name = .ok next)
    {found : List (String × Match)} (hfound : m.children = .ok found) :
    (name, ⟨Path.spell isAbsolute (done ++ [name]), next⟩) ∈ found := by
  obtain ⟨entries, t, htree, hmem, rfl⟩ := Place.exists_entry_of_enter hname hup hnext
  obtain ⟨listed, hlisted, rfl⟩ := map_eq_ok_iff.mp hfound
  have hentries : listed = entries := by
    rw [htree, listing] at hlisted
    split at hlisted
    · cases hlisted
    · exact (Except.ok.inj hlisted).symm
  refine List.mem_map.mpr ⟨(name, t), hentries ▸ hmem, ?_⟩
  rw [Path.spell_concat, hpath]

end Match

namespace Segment

/-- Components that stand for names find what is under these names. -/
theorem mem_of_follow {isAbsolute : Bool} {segments : List Segment} {names : List String}
    (h : List.Forall₂ Admits segments names) (done : List String) {m : Match} {last : Place}
    {found : List Match} (hpath : m.path = Path.spell isAbsolute done)
    (hnames : Path.AreNames (done ++ names))
    (hshort : Path.isTooLong (Path.spell isAbsolute (done ++ names)) = false)
    (hplace : names.foldlM Place.enter m.place = .ok last)
    (hfound : follow segments m = .ok found) :
    ⟨Path.spell isAbsolute (done ++ names), last⟩ ∈ found := by
  induction h generalizing m done found with
  | nil =>
      rw [follow] at hfound
      obtain rfl := Except.ok.inj hfound
      obtain rfl := Except.ok.inj hplace
      rw [List.append_nil, ← hpath]
      exact List.mem_singleton.mpr rfl
  | @cons segment name segments names hadmits _ ih =>
      rw [List.foldlM_cons] at hplace
      obtain ⟨next, hnext, hplace⟩ := exists_of_bind_eq_ok hplace
      rw [List.append_cons] at hnames hshort ⊢
      obtain ⟨hname, hup, -⟩ := hnames name (by simp)
      cases segment with
      | recursion => exact absurd rfl hadmits.1
      | literal text =>
          obtain rfl : name = text := of_decide_eq_true hadmits.2
          have hnextShort := Path.isTooLong_spell (by simp) hnames hshort
          rw [follow, Match.step?_of_enter hpath hname hnextShort hnext] at hfound
          exact ih _ rfl hnames hshort hplace hfound
      | wild signs =>
          rw [follow] at hfound
          obtain ⟨children, hchildren, hfound⟩ := exists_of_bind_eq_ok hfound
          obtain ⟨lists, hlists, hfound⟩ := exists_of_bind_eq_ok hfound
          obtain rfl := Except.ok.inj hfound
          have hchild := Match.mem_children_of_enter hpath hname hup hnext hchildren
          have hselected := mem_select_iff.mpr ⟨name, hchild, hadmits.2⟩
          obtain ⟨ends, hends, hrest⟩ := exists_right_of_mem (mapM_eq_ok_iff.mp hlists)
            (List.mem_append_left _ hselected)
          exact List.mem_flatten.mpr ⟨ends, hends, ih _ rfl hnames hshort hplace hrest⟩

/-- Names find nothing else. -/
theorem follow_literals {isAbsolute : Bool} (names done : List String) {m : Match} {last : Place}
    (hpath : m.path = Path.spell isAbsolute done) (hnames : Path.AreNames (done ++ names))
    (hshort : Path.isTooLong (Path.spell isAbsolute (done ++ names)) = false)
    (hplace : names.foldlM Place.enter m.place = .ok last) :
    follow (names.map literal) m = .ok [⟨Path.spell isAbsolute (done ++ names), last⟩] := by
  induction names generalizing m done with
  | nil =>
      obtain rfl := Except.ok.inj hplace
      rw [List.map_nil, follow, List.append_nil, ← hpath]
  | cons name names ih =>
      rw [List.foldlM_cons] at hplace
      obtain ⟨next, hnext, hplace⟩ := exists_of_bind_eq_ok hplace
      rw [List.append_cons] at hnames hshort ⊢
      have hname := (hnames name (by simp)).1
      have hnextShort := Path.isTooLong_spell (by simp) hnames hshort
      rw [List.map_cons, follow, Match.step?_of_enter hpath hname hnextShort hnext]
      exact ih _ rfl hnames hshort hplace

end Segment

/-! ## Paths that stand for themselves -/

namespace Path

/-- A path of names that, read as a pattern, holds no brackets, no alternatives and no two stars
in a row. -/
structure IsTame (path : String) : Prop where
  names : ∀ name ∈ names path, tells name = true ∧ name ≠ ".."
  not_bracket : '[' ∉ path.toList
  not_stars : ¬['*', '*'] <:+: path.toList
  not_group : ¬Braces.HasGroup path.toList

namespace IsTame

variable {path : String}

theorem areNames (h : IsTame path) : AreNames (Path.names path) := fun name hname =>
  ⟨(h.names name hname).1, (h.names name hname).2,
    not_mem_of_mem_pieces (mem_pieces_of_mem_names hname)⟩

theorem read_eq (h : IsTame path) : Pattern.read path =
    .ok ⟨isAbsolute path, (Path.names path).map (Segment.ofText ·.toList), false⟩ :=
  Pattern.read_eq_map (fun name hname => (h.names name hname).1) h.not_bracket h.not_stars

theorem admits (h : IsTame path) : List.Forall₂ Segment.Admits
    ((Path.names path).map (Segment.ofText ·.toList)) (Path.names path) := by
  rw [List.forall₂_map_left_iff, List.forall₂_same]
  intro name hname
  have hwithin := infix_of_mem_pieces (mem_pieces_of_mem_names hname)
  have hadmits := Segment.admits_ofText (fun hmem => h.not_bracket (hwithin.subset hmem))
    fun hstars => h.not_stars (hstars.trans hwithin)
  rwa [String.ofList_toList] at hadmits

end IsTame

theorem segments_eq {path : String} (hany : '?' ∉ path.toList) (hstar : '*' ∉ path.toList) :
    (names path).map (Segment.ofText ·.toList) = (names path).map Segment.literal := by
  refine List.map_congr_left fun name hname => ?_
  have hwithin := infix_of_mem_pieces (mem_pieces_of_mem_names hname)
  have hliteral := Segment.ofText_of_plain (fun h => hany (hwithin.subset h))
    fun h => hstar (hwithin.subset h)
  rwa [String.ofList_toList] at hliteral

end Path

namespace Pattern

theorem findIn_of_not_directoriesOnly (isAbsolute : Bool) (segments : List Segment)
    (fs : FileSystem) : findIn ⟨isAbsolute, segments, false⟩ fs =
      Segment.follow segments (.start fs isAbsolute) := by
  rw [findIn]
  cases Segment.follow segments (.start fs isAbsolute) with
  | error e => rfl
  | ok found => exact congrArg Except.ok (List.filter_eq_self.mpr fun _ _ => rfl)

end Pattern

theorem Match.path_start (fs : FileSystem) (isAbsolute : Bool) :
    (Match.start fs isAbsolute).path = Path.spell isAbsolute [] := by
  cases isAbsolute <;> rfl

namespace Collect

variable {fs : FileSystem} {path text : String}

theorem isInputPath_of_readText (htext : fs.readText path = .ok text)
    (houtside : packageDirectory ∉ Path.components path) : IsInputPath fs path := by
  obtain ⟨place, hplace, htext⟩ := FileSystem.readText_eq_ok_iff.mp htext
  exact ⟨⟨place, hplace, FileTree.isFile_of_text htext⟩, houtside⟩

/-- A path leads on by its names from where matching begins. -/
theorem place_of_find {place : Place} (h : fs.find path = .ok place) :
    Path.isTooLong path = false ∧ (Path.names path).foldlM Place.enter
      (Match.start fs (Path.isAbsolute path)).place = .ok place := by
  obtain ⟨hshort, -, hplace⟩ := FileSystem.find_eq_ok_iff.mp h
  refine ⟨hshort, ?_⟩
  rw [Path.pieces_eq, FileSystem.start] at hplace
  cases habsolute : Path.isAbsolute path with
  | true =>
      rw [habsolute] at hplace
      obtain ⟨top, htop, hplace⟩ := exists_of_bind_eq_ok hplace
      obtain rfl := Place.enter_of_not_tells rfl htop
      exact hplace
  | false =>
      rw [habsolute] at hplace
      exact hplace

/-- A tame path finds what it leads to, whatever else it finds. -/
theorem yields_self (hpath : Path.IsTame path) {place : Place} (hplace : fs.find path = .ok place)
    {paths : List String} (h : pathsOf fs path = .ok paths) : Yields fs path path := by
  obtain ⟨hshort, hplace⟩ := place_of_find hplace
  rw [pathsOf, hpath.read_eq] at h
  dsimp only at h
  split at h
  · cases h
  · next found hfound =>
      refine ⟨_, found, hpath.read_eq, hfound, ⟨path, place⟩, ?_, rfl⟩
      rw [Pattern.findIn_of_not_directoriesOnly] at hfound
      have hspell := Path.spell_names hpath.areNames
      have hmem := Segment.mem_of_follow hpath.admits [] (Match.path_start fs _) hpath.areNames
        (hspell.symm ▸ hshort) hplace hfound
      rwa [List.nil_append, hspell] at hmem

/-- Without wildcards, it finds nothing else. -/
theorem pathsOf_plain (hpath : Path.IsTame path) (hany : '?' ∉ path.toList)
    (hstar : '*' ∉ path.toList) {place : Place} (hplace : fs.find path = .ok place)
    (hfile : place.tree.isFile = true) (houtside : packageDirectory ∉ Path.components path) :
    pathsOf fs path = .ok [path] := by
  obtain ⟨hshort, hplace⟩ := place_of_find hplace
  have hspell := Path.spell_names hpath.areNames
  have hfollow := Segment.follow_literals (Path.names path) [] (Match.path_start fs _)
    hpath.areNames (hspell.symm ▸ hshort) hplace
  rw [List.nil_append, hspell] at hfollow
  have hinput : isInput ⟨path, place⟩ = true := by
    simp [isInput, hshort, hfile, houtside]
  rw [pathsOf, hpath.read_eq]
  dsimp only
  rw [Pattern.findIn_of_not_directoriesOnly, Path.segments_eq hany hstar, hfollow]
  dsimp only
  rw [List.filter_cons_of_pos hinput]
  rfl

/-- A path without brackets, without alternatives and without two stars in a row stands for
itself: alone if it has no wildcards, and otherwise whenever the files that it stands for can be
collected. -/
theorem collectFiles_tame (hpath : Path.IsTame path) (htext : fs.readText path = .ok text)
    (houtside : packageDirectory ∉ Path.components path) :
    ('?' ∉ path.toList → '*' ∉ path.toList → collectFiles fs [path] = .ok [⟨path, text⟩]) ∧
      ∀ files, collectFiles fs [path] = .ok files → ∃ file ∈ files, Alike file ⟨path, text⟩ := by
  obtain ⟨place, hplace, hcontent⟩ := FileSystem.readText_eq_ok_iff.mp htext
  have hfile := FileTree.isFile_of_text hcontent
  have hself : Braces.expand path = [path] := Braces.expand_of_not_hasGroup hpath.not_group
  constructor
  · intro hany hstar
    have hpathsOf := pathsOf_plain hpath hany hstar hplace hfile houtside
    have hpaths : allPaths fs [path] = .ok [path] := by
      refine allPaths_eq_ok_iff.mpr ⟨[[path]], ?_, rfl⟩
      rw [List.flatMap_singleton, hself, mapM_eq_ok_iff]
      exact .cons hpathsOf .nil
    refine collectFiles_eq_ok_iff.mpr ⟨[path], hpaths, (inOrder_singleton path).symm, ?_⟩
    exact List.forall_mem_singleton.mpr htext
  · intro files h
    obtain ⟨paths, hpaths, -⟩ := collectFiles_eq_ok_iff.mp h
    obtain ⟨lists, hlists, -⟩ := allPaths_eq_ok_iff.mp hpaths
    have hmem : path ∈ [path].flatMap Braces.expand := by simp [hself]
    obtain ⟨found, -, hfound⟩ := exists_right_of_mem (mapM_eq_ok_iff.mp hlists) hmem
    have hselected : Selected fs [path] path :=
      ⟨⟨path, List.mem_singleton.mpr rfl, path, by simp [hself], yields_self hpath hplace hfound⟩,
        isInputPath_of_readText htext houtside⟩
    obtain ⟨file, hmem, hlike, hread⟩ := exists_of_selected h hselected
    exact ⟨file, hmem, hlike, Except.ok.inj (hread.symm.trans htext)⟩

/-- A path with a directory and without wildcards, and the same from the root on. -/
theorem collectFiles_tame_packagedTree :
    collectFiles packagedTree ["a/x.gql"] = .ok [⟨"a/x.gql", "\x7b x \x7d"⟩] ∧
      (∃ file ∈ [(⟨"a/x.gql", "\x7b x \x7d"⟩ : InputFile)],
        Alike file ⟨"a/x.gql", "\x7b x \x7d"⟩) ∧
      collectFiles packagedTree ["/work/a/x.gql"] = .ok [⟨"/work/a/x.gql", "\x7b x \x7d"⟩] := by
  have hrelative : Path.IsTame "a/x.gql" :=
    ⟨by decide +kernel, by decide +kernel, by decide +kernel,
      Braces.not_hasGroup_of_not_mem (by decide +kernel)⟩
  have habsolute : Path.IsTame "/work/a/x.gql" :=
    ⟨by decide +kernel, by decide +kernel, by decide +kernel,
      Braces.not_hasGroup_of_not_mem (by decide +kernel)⟩
  have htext : FileSystem.readText packagedTree "a/x.gql" = .ok "\x7b x \x7d" := by decide +kernel
  have hsame : FileSystem.readText packagedTree "/work/a/x.gql" = .ok "\x7b x \x7d" := by
    decide +kernel
  obtain ⟨halone, hfound⟩ := collectFiles_tame hrelative htext (by decide +kernel)
  obtain ⟨hthere, -⟩ := collectFiles_tame habsolute hsame (by decide +kernel)
  have h := halone (by decide +kernel) (by decide +kernel)
  exact ⟨h, hfound _ h, hthere (by decide +kernel) (by decide +kernel)⟩

/-- A tree with a file that has brackets in its name. -/
def bracketedTree : FileTree := .directory [("a[1].graphql", .file "\x7b a \x7d".toUTF8)]

/-- Brackets in the name of a file are read as a range, so the file is not found. -/
theorem not_collected_bracketedTree :
    ¬∀ (fs : FileSystem) (path text : String),
      (∀ piece ∈ Path.pieces path, Path.tells piece = true ∧ piece ≠ "..") →
      fs.readText path = .ok text → packageDirectory ∉ Path.components path →
      ∃ files, collectFiles fs [path] = .ok files ∧ ∃ file ∈ files, Alike file ⟨path, text⟩ := by
  intro h
  have htext : FileSystem.readText bracketedTree "a[1].graphql" = .ok "\x7b a \x7d" := by
    decide +kernel
  obtain ⟨files, hfiles, file, hfile, -⟩ :=
    h bracketedTree "a[1].graphql" _ (by decide +kernel) htext (by decide +kernel)
  have hnone : collectFiles bracketedTree ["a[1].graphql"] = .ok [] := by decide +kernel
  obtain rfl := Except.ok.inj (hnone.symm.trans hfiles)
  cases hfile

end Collect

end GraphLint
