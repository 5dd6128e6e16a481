import GraphLint.Files.System

/-!
# Where paths lead

A path is cut into pieces at its slashes, and joining two paths puts the pieces of one behind
those of the other.  Pieces that are empty or a single point say nothing: a place is found
by the other ones alone (`Place.foldlM_telling`).  So paths with the same components that
lead somewhere lead to the same place (`FileSystem.place_eq_of_components_eq`).
-/

set_option autoImplicit false

namespace GraphLint

namespace Path

/-! ## Cutting -/

theorem infix_intercalate {α : Type} (separator : α) {pieces : List (List α)} {piece : List α}
    (h : piece ∈ pieces) : piece <:+: [separator].intercalate pieces := by
  induction pieces with
  | nil => cases h
  | cons first others ih =>
      cases others with
      | nil =>
          obtain rfl := List.mem_singleton.mp h
          simp
      | cons second others =>
          rw [List.intercalate_cons_cons]
          rcases List.mem_cons.mp h with rfl | h
          · exact ⟨[], separator :: [separator].intercalate (second :: others), by simp⟩
          · exact (ih h).trans (List.suffix_append _ _).isInfix

section

variable {α : Type} [DecidableEq α] {separator : α}

theorem splitOn_eq (separator : α) (cs : List α) : splitOn separator cs = cs.splitOn separator := by
  induction cs with
  | nil => rfl
  | cons c cs ih =>
      rw [splitOn, List.splitOn, List.splitOnP_cons_eq_if_modifyHead]
      by_cases hc : c = separator
      · rw [if_pos hc, if_pos (beq_iff_eq.mpr hc), ih]
        rfl
      · rw [if_neg hc, if_neg (by simpa using hc), ih]
        show _ = List.modifyHead (List.cons c) (cs.splitOn separator)
        obtain ⟨piece, pieces, hcut⟩ :=
          List.exists_cons_of_ne_nil (List.splitOn_ne_nil separator cs)
        rw [hcut]
        rfl

theorem splitOn_append (a b : List α) :
    splitOn separator (a ++ separator :: b) = splitOn separator a ++ splitOn separator b := by
  simp only [splitOn_eq]
  exact List.splitOnP_append_cons a b BEq.rfl

theorem splitOn_of_not_mem {cs : List α} (h : separator ∉ cs) : splitOn separator cs = [cs] := by
  rw [splitOn_eq]
  refine List.splitOnP_eq_singleton fun c hc => ?_
  exact beq_eq_false_iff_ne.mpr fun heq => h (heq ▸ hc)

theorem intercalate_splitOn (separator : α) (cs : List α) :
    [separator].intercalate (splitOn separator cs) = cs := by
  rw [splitOn_eq, List.intercalate_splitOn]

theorem splitOn_ne_nil (separator : α) (cs : List α) : splitOn separator cs ≠ [] := by
  rw [splitOn_eq]
  exact List.splitOn_ne_nil separator cs

theorem not_mem_of_mem_splitOn {cs piece : List α} (h : piece ∈ splitOn separator cs) :
    separator ∉ piece := by
  induction cs generalizing piece with
  | nil =>
      obtain rfl := List.mem_singleton.mp h
      exact List.not_mem_nil
  | cons c cs ih =>
      rw [splitOn] at h
      split at h
      · rcases List.mem_cons.mp h with rfl | h
        · exact List.not_mem_nil
        · exact ih h
      · next hc =>
          obtain ⟨first, others, hcut⟩ :=
            List.exists_cons_of_ne_nil (splitOn_ne_nil separator cs)
          rw [hcut] at h ih
          rcases List.mem_cons.mp h with rfl | h
          · rw [List.mem_cons, not_or]
            exact ⟨fun heq => hc heq.symm, ih List.mem_cons_self⟩
          · exact ih (List.mem_cons_of_mem first h)

/-- A piece stands in the list as it is. -/
theorem infix_of_mem_splitOn {cs piece : List α} (h : piece ∈ splitOn separator cs) :
    piece <:+: cs := by
  have hpiece := infix_intercalate separator h
  rwa [intercalate_splitOn] at hpiece

end

/-! ## Pieces -/

theorem pieces_of_not_mem {name : String} (h : '/' ∉ name.toList) : pieces name = [name] := by
  rw [pieces, splitOn_of_not_mem h, List.map_singleton, String.ofList_toList]

theorem pieces_append (a b : String) : pieces (a ++ "/" ++ b) = pieces a ++ pieces b := by
  have hslash : (a ++ "/" ++ b).toList = a.toList ++ '/' :: b.toList := by
    simp [String.toList_append]
  rw [pieces, hslash, splitOn_append, List.map_append]
  rfl

theorem pieces_ne_nil (path : String) : pieces path ≠ [] :=
  fun h => splitOn_ne_nil '/' path.toList (List.map_eq_nil_iff.mp h)

/-- A path is determined by its pieces. -/
theorem pieces_injective {a b : String} (h : pieces a = pieces b) : a = b := by
  have hcut : splitOn '/' a.toList = splitOn '/' b.toList :=
    (List.map_inj_right fun _ _ => String.ofList_injective).mp h
  rw [← String.toList_inj, ← intercalate_splitOn '/' a.toList, hcut, intercalate_splitOn]

theorem not_mem_of_mem_pieces {path piece : String} (h : piece ∈ pieces path) :
    '/' ∉ piece.toList := by
  obtain ⟨cs, hcs, rfl⟩ := List.mem_map.mp h
  rw [String.toList_ofList]
  exact not_mem_of_mem_splitOn hcs

/-- A piece stands in the path as it is. -/
theorem infix_of_mem_pieces {path piece : String} (h : piece ∈ pieces path) :
    piece.toList <:+: path.toList := by
  obtain ⟨cs, hcs, rfl⟩ := List.mem_map.mp h
  rw [String.toList_ofList]
  exact infix_of_mem_splitOn hcs

/-- What stands before the names of a path: an empty piece if it begins at the root. -/
def rootPieces (isAbsolute : Bool) : List String := if isAbsolute then [""] else []

/-- The pieces of a path behind the slash that it may begin with. -/
def names (path : String) : List String :=
  (splitOn '/' (if isAbsolute path then path.toList.drop 1 else path.toList)).map String.ofList

theorem names_ne_nil (path : String) : names path ≠ [] :=
  fun h => splitOn_ne_nil '/' _ (List.map_eq_nil_iff.mp h)

theorem pieces_eq (path : String) : pieces path = rootPieces (isAbsolute path) ++ names path := by
  rw [pieces, names, rootPieces]
  cases habsolute : isAbsolute path with
  | true =>
      obtain ⟨cs, hcs⟩ := List.head?_eq_some_iff.mp (of_decide_eq_true habsolute)
      rw [hcs, splitOn, if_pos rfl]
      rfl
  | false => rfl

theorem mem_pieces_of_mem_names {path name : String} (h : name ∈ names path) :
    name ∈ pieces path :=
  pieces_eq path ▸ List.mem_append_right _ h

theorem tells_iff {piece : String} : tells piece = true ↔ piece ≠ "" ∧ piece ≠ "." := by
  simp [tells]

theorem tells_eq_false_iff {piece : String} :
    tells piece = false ↔ piece = "" ∨ piece = "." := by
  rw [tells, Bool.and_eq_false_iff]
  simp

/-- The path begins with a piece that is not empty: it does not begin at the root of the file
system, and it is not empty itself. -/
def IsRelative (path : String) : Prop := path ≠ "" ∧ isAbsolute path = false

theorem isRelative_iff {path first : String} {rest : List String}
    (h : pieces path = first :: rest) : IsRelative path ↔ first ≠ "" := by
  have hempty : path ≠ "" ↔ path.toList ≠ [] := by simp
  rw [IsRelative, isAbsolute, hempty]
  rw [pieces] at h
  cases hcs : path.toList with
  | nil =>
      rw [hcs] at h
      obtain rfl : "" = first := List.head_eq_of_cons_eq h
      simp
  | cons c cs =>
      rw [hcs, splitOn] at h
      by_cases hc : c = '/'
      · rw [if_pos hc] at h
        obtain rfl : "" = first := List.head_eq_of_cons_eq h
        simp [hc]
      · rw [if_neg hc] at h
        have hfirst : first ≠ "" := by
          split at h
          · obtain rfl := List.head_eq_of_cons_eq h
            simp [← String.toList_inj]
          · obtain rfl := List.head_eq_of_cons_eq h
            simp [← String.toList_inj]
        simp [hc, hfirst]

/-- The components of a relative path are its first piece and the telling ones behind. -/
theorem components_eq {path first : String} {rest : List String}
    (h : pieces path = first :: rest) (hpath : IsRelative path) :
    components path = first :: rest.filter tells := by
  have hfirst : first.isEmpty = false := by
    simpa [String.isEmpty_iff] using (isRelative_iff h).mp hpath
  rw [components, h]
  show (if first.isEmpty = true then _ else first :: rest.filter tells) = _
  rw [hfirst]
  rfl

/-- The components of any other path are the telling pieces, behind a slash unless the path is
empty. -/
theorem components_of_empty {path : String} {rest : List String} (h : pieces path = "" :: rest) :
    components path = if path.isEmpty then rest.filter tells else "/" :: rest.filter tells := by
  rw [components, h]
  rfl

/-- The telling pieces of a path are the telling ones among its components, apart from the
slash. -/
theorem filter_components (path : String) :
    (components path).filter (fun c => tells c && c ≠ "/") = (pieces path).filter tells := by
  obtain ⟨first, rest, h⟩ := List.exists_cons_of_ne_nil (pieces_ne_nil path)
  have hslash : ∀ piece ∈ pieces path, tells piece = (tells piece && decide (piece ≠ "/")) := by
    intro piece hpiece
    have hne : piece ≠ "/" := by
      rintro rfl
      exact not_mem_of_mem_pieces hpiece (by decide)
    rw [decide_eq_true hne, Bool.and_true]
  have hrest : (rest.filter tells).filter (fun c => tells c && c ≠ "/") = rest.filter tells := by
    rw [List.filter_filter]
    refine List.filter_congr fun piece hpiece => ?_
    rw [← hslash piece (h ▸ List.mem_cons_of_mem first hpiece), Bool.and_self]
  by_cases hfirst : first = ""
  · subst hfirst
    rw [components_of_empty h, h, List.filter_cons_of_neg (by decide)]
    split
    · exact hrest
    · rw [List.filter_cons_of_neg (by decide), hrest]
  · have hrelative := (isRelative_iff h).mpr hfirst
    rw [components_eq h hrelative, h, List.filter_cons, List.filter_cons, hrest,
      ← hslash first (h ▸ List.mem_cons_self)]

/-- A path that begins at the root has a slash as its first component. -/
theorem isAbsolute_iff (path : String) :
    isAbsolute path = true ↔ (components path).head? = some "/" := by
  obtain ⟨first, rest, h⟩ := List.exists_cons_of_ne_nil (pieces_ne_nil path)
  by_cases hfirst : first = ""
  · subst hfirst
    rw [components_of_empty h]
    by_cases hempty : path = ""
    · subst hempty
      obtain ⟨-, rfl⟩ := List.cons.inj h
      exact ⟨nofun, nofun⟩
    · rw [if_neg (by simpa [String.isEmpty_iff] using hempty)]
      cases habsolute : isAbsolute path with
      | true => exact ⟨fun _ => rfl, fun _ => rfl⟩
      | false => exact absurd rfl ((isRelative_iff h).mp ⟨hempty, habsolute⟩)
  · have hrelative := (isRelative_iff h).mpr hfirst
    rw [components_eq h hrelative, hrelative.2]
    refine ⟨nofun, fun hhead => ?_⟩
    obtain rfl := Option.some.inj hhead
    exact absurd (h ▸ List.mem_cons_self) fun hmem => not_mem_of_mem_pieces hmem (by decide)

theorem isAbsolute_eq_of_components_eq {a b : String} (h : components a = components b) :
    isAbsolute a = isAbsolute b := by
  rw [Bool.eq_iff_iff, isAbsolute_iff, isAbsolute_iff, h]

/-- A path that says nothing yet begins in the working directory. -/
theorem isAbsolute_eq_false {path : String} (h : components path = ["."]) :
    isAbsolute path = false := by
  rw [Bool.eq_false_iff, ne_eq, isAbsolute_iff, h]
  decide

theorem not_tells_of_components {path : String} (h : components path = ["."]) :
    (pieces path).filter tells = [] := by
  rw [← filter_components, h]
  rfl

/-! ## Joining -/

/-- The name takes its place behind the pieces of a path, or in the place of the last one if
that is empty. -/
theorem pieces_join {path name : String} (hpath : path ≠ "") (hname : '/' ∉ name.toList) :
    pieces (join path name) = pieces path ++ [name] ∨ ∃ front, front ≠ [] ∧
      pieces path = front ++ [""] ∧ pieces (join path name) = front ++ [name] := by
  rw [join]
  by_cases hend : path.toList.getLast? = some '/'
  · obtain ⟨front, hfront⟩ := List.getLast?_eq_some_iff.mp hend
    obtain rfl : String.ofList front ++ "/" ++ "" = path := by
      rw [← String.toList_inj, hfront]
      simp
    rw [if_pos (by simp)]
    refine .inr ⟨_, pieces_ne_nil (String.ofList front), ?_, ?_⟩
    · rw [pieces_append]
      rfl
    · rw [String.append_empty, pieces_append, pieces_of_not_mem hname]
  · rw [if_neg (by simp [String.isEmpty_iff, hpath, hend]), pieces_append,
      pieces_of_not_mem hname]
    exact .inl rfl

theorem pieces_join_of_not_mem {path name : String} (hpath : path ≠ "")
    (hend : "" ∉ (pieces path).tail) (hname : '/' ∉ name.toList) :
    pieces (join path name) = pieces path ++ [name] := by
  rcases pieces_join hpath hname with hjoin | ⟨front, hfront, hcut, -⟩
  · exact hjoin
  · rw [hcut, List.tail_append_of_ne_nil hfront] at hend
    exact absurd (List.mem_append_right _ List.mem_cons_self) hend

theorem join_ne_empty {path name : String} (hpath : path ≠ "") : join path name ≠ "" := by
  rw [join]
  split <;> simp [hpath]

/-- Whatever is joined to a path, it begins where it did. -/
theorem isAbsolute_join {path name : String} (hpath : path ≠ "") :
    isAbsolute (join path name) = isAbsolute path := by
  obtain ⟨c, cs, hcs⟩ := List.exists_cons_of_ne_nil fun h => hpath (String.toList_eq_nil_iff.mp h)
  rw [isAbsolute, isAbsolute, join]
  split <;> simp [hcs]

end Path

/-! ## Places -/

namespace Place

/-- In a directory, a piece that says nothing leads nowhere else. -/
theorem enter_of_not_tells {p q : Place} {piece : String} (hpiece : Path.tells piece = false)
    (h : p.enter piece = .ok q) : q = p := by
  rw [enter] at h
  split at h
  · cases h
  · rcases Path.tells_eq_false_iff.mp hpiece with rfl | rfl
    · exact (Except.ok.inj h).symm
    · rw [if_neg (by decide)] at h
      split at h
      · cases h
      · exact (Except.ok.inj h).symm

/-- Places are found by the pieces that say something. -/
theorem foldlM_telling {pieces : List String} {p q : Place}
    (h : pieces.foldlM enter p = .ok q) : (pieces.filter Path.tells).foldlM enter p = .ok q := by
  induction pieces generalizing p with
  | nil => exact h
  | cons piece pieces ih =>
      rw [List.foldlM_cons] at h
      cases hp : p.enter piece with
      | error e =>
          rw [hp] at h
          cases h
      | ok next =>
          rw [hp] at h
          have hrest := ih h
          by_cases hpiece : Path.tells piece = true
          · rw [List.filter_cons_of_pos hpiece, List.foldlM_cons, hp]
            exact hrest
          · rw [List.filter_cons_of_neg hpiece]
            obtain rfl := enter_of_not_tells (Bool.not_eq_true _ ▸ hpiece) hp
            exact hrest

theorem foldlM_singleton (p : Place) (piece : String) :
    [piece].foldlM enter p = p.enter piece := by
  rw [List.foldlM_cons]
  cases p.enter piece <;> rfl

/-- One more name leads on from where a path leads. -/
theorem foldlM_join {path name : String} {top p : Place} (hpath : path ≠ "")
    (hname : '/' ∉ name.toList) (h : (Path.pieces path).foldlM enter top = .ok p) :
    (Path.pieces (Path.join path name)).foldlM enter top = p.enter name := by
  rcases Path.pieces_join hpath hname with hjoin | ⟨front, -, hcut, hjoin⟩
  · rw [hjoin, List.foldlM_append, h]
    exact foldlM_singleton p name
  · rw [hcut, List.foldlM_append] at h
    rw [hjoin, List.foldlM_append]
    cases hfront : front.foldlM enter top with
    | error e =>
        rw [hfront] at h
        cases h
    | ok q =>
        rw [hfront] at h
        obtain rfl := enter_of_not_tells (by decide) ((foldlM_singleton q "").symm.trans h)
        exact foldlM_singleton p name

end Place

/-- Only files hold texts. -/
theorem FileTree.isFile_of_text {t : FileTree} {text : String} (h : t.text = .ok text) :
    t.isFile = true := by
  cases t with
  | file content => rfl
  | lockedFile => rfl
  | directory entries => cases h
  | lockedDirectory => cases h

namespace FileSystem

variable {fs : FileSystem}

theorem start_of_relative {path : String} (h : Path.IsRelative path) : fs.start path = fs.here := by
  rw [start, h.2]
  rfl

theorem find_eq_ok_iff {path : String} {place : Place} :
    fs.find path = .ok place ↔ Path.isTooLong path = false ∧ path ≠ "" ∧
      (Path.pieces path).foldlM Place.enter (fs.start path) = .ok place := by
  rw [find]
  cases Path.isTooLong path with
  | true => simp
  | false => by_cases hempty : path = "" <;> simp [hempty]

/-- Paths with the same components that lead somewhere lead to the same place. -/
theorem place_eq_of_components_eq {a b : String} {p q : Place} (ha : fs.find a = .ok p)
    (hb : fs.find b = .ok q) (h : Path.components a = Path.components b) : p = q := by
  obtain ⟨-, -, ha⟩ := find_eq_ok_iff.mp ha
  obtain ⟨-, -, hb⟩ := find_eq_ok_iff.mp hb
  have ha := Place.foldlM_telling ha
  have hb := Place.foldlM_telling hb
  rw [← Path.filter_components, h, Path.filter_components, start,
    Path.isAbsolute_eq_of_components_eq h] at ha
  exact Except.ok.inj (ha.symm.trans hb)

theorem readText_eq_ok_iff {path text : String} :
    fs.readText path = .ok text ↔ ∃ place, fs.find path = .ok place ∧ place.tree.text = .ok text := by
  rw [readText]
  cases fs.find path with
  | error e => exact ⟨nofun, nofun⟩
  | ok place =>
      constructor
      · exact fun h => ⟨place, rfl, h⟩
      · rintro ⟨_, ⟨⟩, h⟩
        exact h

theorem readText_eq_of_components_eq {a b : String} {p q : Place} (ha : fs.find a = .ok p)
    (hb : fs.find b = .ok q) (h : Path.components a = Path.components b) :
    fs.readText a = fs.readText b := by
  rw [readText, readText, ha, hb, place_eq_of_components_eq ha hb h]

end FileSystem

end GraphLint
