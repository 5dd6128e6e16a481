import GraphLint.Files.Glob
import GraphLint.Proofs.Files.Patterns

/-!
# Patterns lead where they say

A pattern finds places, each with a path.  The path is made up along the way: a component
that is looked up is written down as the pattern has it, an entry of a directory by its
name, and of points in front nothing remains.  Whoever follows the path gets to the place
all the same (`Pattern.leads_of_findIn`).

This is so because file systems have proper trees only: no directory has two entries of one
name, and a name is not one of those that stand for directories, has no slash in it and is
not too long.
-/

set_option autoImplicit false

namespace GraphLint

/-! ## Proper trees -/

namespace FileTree

/-- What is under a name is found under it. -/
theorem lookup_of_mem {entries : List (String × FileTree)} (h : (entries.map (·.1)).Nodup)
    {name : String} {t : FileTree} (hmem : (name, t) ∈ entries) :
    entries.lookup name = some t := by
  induction entries with
  | nil => cases hmem
  | cons entry entries ih =>
      obtain ⟨hfirst, hothers⟩ := List.nodup_cons.mp h
      rw [List.lookup_cons]
      rcases List.mem_cons.mp hmem with rfl | hmem
      · rw [beq_self_eq_true]
      · have hne : name ≠ entry.1 := by
          rintro rfl
          exact hfirst (List.mem_map.mpr ⟨_, hmem, rfl⟩)
        rw [beq_eq_false_iff_ne.mpr hne]
        exact ih hothers hmem

/-- What is under a name is an entry of a directory. -/
theorem exists_entry_of_child {t u : FileTree} {name : String} (h : t.child name = .ok u) :
    ∃ entries, t = .directory entries ∧ (name, u) ∈ entries := by
  cases t with
  | file content => cases h
  | lockedFile => cases h
  | lockedDirectory => cases h
  | directory entries =>
      rw [child] at h
      cases hfound : entries.lookup name with
      | none =>
          rw [hfound] at h
          cases h
      | some v =>
          rw [hfound] at h
          obtain rfl := Except.ok.inj h
          obtain ⟨before, behind, rfl, -⟩ := List.lookup_eq_some_iff.mp hfound
          exact ⟨_, rfl, by simp⟩

theorem isDirectory_of_isListed {t : FileTree} (h : t.isListed = true) :
    t.isDirectory = true := by
  cases t with
  | directory entries => rfl
  | _ => cases h

theorem IsProper.of_child {t u : FileTree} {name : String} (h : t.IsProper)
    (hu : t.child name = .ok u) : u.IsProper := by
  obtain ⟨entries, rfl, hmem⟩ := exists_entry_of_child hu
  cases h with
  | directory _ _ trees => exact trees (name, u) hmem

end FileTree

/-- A place in a proper tree. -/
def Place.IsProper (p : Place) : Prop := ∀ t ∈ p.tree :: p.above, t.IsProper

namespace Place

variable {p q : Place} {name : String}

theorem IsProper.parent (hp : p.IsProper) : p.parent.IsProper := by
  rw [Place.parent]
  split
  · next tree above habove =>
      intro t ht
      exact hp t (List.mem_cons_of_mem _ (habove ▸ ht))
  · exact hp

theorem IsProper.child (hp : p.IsProper) {t : FileTree} (h : p.tree.child name = .ok t) :
    (⟨t, p.tree :: p.above⟩ : Place).IsProper :=
  List.forall_mem_cons.mpr ⟨(hp p.tree List.mem_cons_self).of_child h, hp⟩

theorem enter_empty (h : p.tree.isDirectory = true) : p.enter "" = .ok p := by
  rw [enter, if_neg (by simp [h]), if_pos rfl]

theorem enter_point (h : p.tree.isListed = true) : p.enter "." = .ok p := by
  rw [enter, if_neg (by simp [FileTree.isDirectory_of_isListed h]), if_neg (by decide),
    if_neg (by simp [h]), if_pos rfl]

/-- Where a piece leads, it stays, goes up, or goes down to what is under its name. -/
theorem cases_of_enter (h : p.enter name = .ok q) : q = p ∨ q = p.parent ∨
    ∃ t, p.tree.child name = .ok t ∧ q = ⟨t, p.tree :: p.above⟩ := by
  rw [enter] at h
  split at h
  · cases h
  split at h
  · exact .inl (Except.ok.inj h).symm
  split at h
  · cases h
  split at h
  · exact .inl (Except.ok.inj h).symm
  split at h
  · exact .inr (.inl (Except.ok.inj h).symm)
  split at h
  · cases h
  · obtain ⟨t, ht, rfl⟩ := map_eq_ok_iff.mp h
    exact .inr (.inr ⟨t, ht, rfl⟩)

theorem IsProper.enter (hp : p.IsProper) (h : p.enter name = .ok q) : q.IsProper := by
  rcases cases_of_enter h with rfl | rfl | ⟨t, ht, rfl⟩
  · exact hp
  · exact hp.parent
  · exact hp.child ht

theorem IsProper.foldlM (hp : p.IsProper) {pieces : List String}
    (h : pieces.foldlM Place.enter p = .ok q) : q.IsProper := by
  induction pieces generalizing p with
  | nil =>
      obtain rfl := Except.ok.inj h
      exact hp
  | cons piece pieces ih =>
      obtain ⟨next, hnext, hrest⟩ := exists_of_bind_eq_ok h
      exact ih (hp.enter hnext) hrest

theorem IsProper.isName {entries : List (String × FileTree)} {t : FileTree} (hp : p.IsProper)
    (htree : p.tree = .directory entries) (h : (name, t) ∈ entries) : Path.IsName name := by
  have hproper := htree ▸ hp p.tree List.mem_cons_self
  cases hproper with
  | directory _ names _ => exact names _ h

/-- An entry of a directory is entered by its name. -/
theorem IsProper.enter_entry {entries : List (String × FileTree)} {t : FileTree}
    (hp : p.IsProper) (htree : p.tree = .directory entries) (h : (name, t) ∈ entries) :
    p.enter name = .ok ⟨t, p.tree :: p.above⟩ := by
  have hname := hp.isName htree h
  have htells := Path.tells_iff.mp hname.tells
  have hshort : ¬name.utf8ByteSize > Path.pieceLimit := Nat.not_lt.mpr hname.short
  have hchild : p.tree.child name = .ok t := by
    have hproper := htree ▸ hp p.tree List.mem_cons_self
    cases hproper with
    | directory distinct _ _ => rw [htree, FileTree.child, FileTree.lookup_of_mem distinct h]
  rw [Place.enter, if_neg (by simp [htree, FileTree.isDirectory]), if_neg htells.1,
    if_neg (by simp [htree, FileTree.isListed]), if_neg htells.2, if_neg hname.not_up,
    if_neg hshort, hchild]
  rfl

end Place

namespace FileSystem

variable (fs : FileSystem)

theorem isProper_top : fs.root.top.IsProper := List.forall_mem_singleton.mpr fs.isProper

theorem isProper_here : fs.here.IsProper := fs.isProper_top.foldlM fs.reached

/-- What has a directory in it is one. -/
theorem isDirectory_root : fs.root.isDirectory = true := by
  have hreached := fs.reached
  cases hnames : fs.directory with
  | nil =>
      rw [hnames] at hreached
      have hlisted := fs.isListed
      rw [← Except.ok.inj hreached] at hlisted
      exact FileTree.isDirectory_of_isListed hlisted
  | cons name names =>
      rw [hnames] at hreached
      obtain ⟨next, hnext, -⟩ := exists_of_bind_eq_ok hreached
      cases hroot : fs.root.isDirectory with
      | true => rfl
      | false =>
          rw [Place.enter, if_pos (by simp [FileTree.top, hroot])] at hnext
          cases hnext

end FileSystem

/-! ## Matches -/

namespace Match

/-- The path of a match leads to its place. -/
structure Leads (fs : FileSystem) (m : Match) : Prop where
  nonempty : m.path ≠ ""
  place : (Path.pieces m.path).foldlM Place.enter (fs.start m.path) = .ok m.place
  proper : m.place.IsProper

variable {fs : FileSystem} {m next : Match}

theorem leads_start (fs : FileSystem) (isAbsolute : Bool) : (start fs isAbsolute).Leads fs := by
  cases isAbsolute with
  | true =>
      have hpieces : Path.pieces "/" = ["", ""] := by decide
      have hstart : fs.start "/" = fs.root.top := if_pos (by decide)
      have hstay : fs.root.top.enter "" = .ok fs.root.top := Place.enter_empty fs.isDirectory_root
      refine ⟨(by decide : "/" ≠ ""), ?_, fs.isProper_top⟩
      show (Path.pieces "/").foldlM Place.enter (fs.start "/") = .ok fs.root.top
      rw [hpieces, hstart, List.foldlM_cons, hstay]
      exact (Place.foldlM_singleton _ _).trans hstay
  | false =>
      have hpieces : Path.pieces "." = ["."] := by decide
      have hstart : fs.start "." = fs.here := if_neg (by decide)
      refine ⟨(by decide : "." ≠ ""), ?_, fs.isProper_here⟩
      show (Path.pieces ".").foldlM Place.enter (fs.start ".") = .ok fs.here
      rw [hpieces, hstart, Place.foldlM_singleton, Place.enter_point fs.isListed]

theorem enter?_eq_some_iff {path piece : String} :
    m.enter? path piece = some next ↔
      Path.isTooLong path = false ∧ m.place.enter piece = .ok next.place ∧
        next.path = path := by
  obtain ⟨nextPath, nextPlace⟩ := next
  rw [enter?]
  cases Path.isTooLong path with
  | true => simp
  | false =>
      cases hplace : m.place.enter piece with
      | error e => simp
      | ok place => simp [and_comm, eq_comm]

/-- Only a directory has something to list. -/
theorem eq_directory_of_mem_listing {path : String} {t : FileTree}
    {entries : List (String × FileTree)} (h : listing path t = .ok entries)
    {entry : String × FileTree} (hentry : entry ∈ entries) : t = .directory entries := by
  cases t with
  | file content =>
      obtain rfl := Except.ok.inj h
      cases hentry
  | lockedFile =>
      obtain rfl := Except.ok.inj h
      cases hentry
  | lockedDirectory => cases h
  | directory entries' =>
      rw [listing] at h
      split at h
      · cases h
      · obtain rfl := Except.ok.inj h
        rfl

/-- Below what is no directory there is nothing. -/
theorem eq_nil_of_belowTree {path : String} {above : List FileTree} {t : FileTree}
    (ht : t.isListed = false) {found : List (String × Match)}
    (h : belowTree path above t = .ok found) : found = [] := by
  rw [belowTree] at h
  · obtain ⟨_, _, h⟩ := exists_of_bind_eq_ok h
    exact (Except.ok.inj h).symm
  · rintro entries rfl
    cases ht

namespace Leads

theorem join (h : m.Leads fs) {name : String} (hname : '/' ∉ name.toList)
    (hnext : m.place.enter name = .ok next.place) (hpath : next.path = Path.join m.path name) :
    next.Leads fs where
  nonempty := hpath ▸ Path.join_ne_empty h.nonempty
  place := by
    rw [hpath, FileSystem.start, Path.isAbsolute_join h.nonempty]
    exact (Place.foldlM_join h.nonempty hname h.place).trans hnext
  proper := h.proper.enter hnext

theorem child (h : m.Leads fs) {name : String} (hname : '/' ∉ name.toList)
    (hne : m.isStart = true → name ≠ "") (hnext : m.place.enter name = .ok next.place)
    (hpath : next.path = childPath m.path name) : next.Leads fs := by
  rw [childPath] at hpath
  split at hpath
  · next hstart =>
      -- a path that says nothing yet leads nowhere but to the working directory
      have hplace := Place.foldlM_telling h.place
      rw [Path.not_tells_of_components hstart, FileSystem.start, Path.isAbsolute_eq_false hstart]
        at hplace
      have hhere : fs.here = m.place := Except.ok.inj hplace
      have hpieces := Path.pieces_of_not_mem hname
      have hrelative := (Path.isRelative_iff hpieces).mpr (hne (decide_eq_true hstart))
      refine ⟨hpath ▸ hrelative.1, ?_, h.proper.enter hnext⟩
      rw [hpath, FileSystem.start_of_relative hrelative, hpieces, Place.foldlM_singleton, hhere,
        hnext]
  · exact h.join hname hnext hpath

theorem step (h : m.Leads fs) {name : String} (hname : '/' ∉ name.toList)
    (hnext : m.step? name = some next) : next.Leads fs := by
  rw [step?] at hnext
  split at hnext
  · cases hnext
  · next hne =>
      obtain ⟨-, hplace, hpath⟩ := enter?_eq_some_iff.mp hnext
      refine h.child hname (fun hstart hempty => hne ?_) hplace hpath
      rw [hstart, hempty]
      rfl

theorem special (h : m.Leads fs) {name : String} (hname : '/' ∉ name.toList)
    (hnext : m.special? name = some next) : next.Leads fs := by
  obtain ⟨-, hplace, hpath⟩ := enter?_eq_some_iff.mp hnext
  exact h.join hname hplace hpath

theorem entry (h : m.Leads fs) {entries : List (String × FileTree)}
    (htree : m.place.tree = .directory entries) {name : String} {t : FileTree}
    (hentry : (name, t) ∈ entries) :
    (⟨childPath m.path name, t, m.place.tree :: m.place.above⟩ : Match).Leads fs := by
  have hname := h.proper.isName htree hentry
  refine h.child hname.not_slash (fun _ => ?_) (h.proper.enter_entry htree hentry) rfl
  exact (Path.tells_iff.mp hname.tells).1

theorem children (h : m.Leads fs) {found : List (String × Match)}
    (hfound : m.children = .ok found) : ∀ entry ∈ found, entry.2.Leads fs := by
  intro entry hentry
  cases hlisting : listing m.path m.place.tree with
  | error e =>
      rw [Match.children, hlisting] at hfound
      cases hfound
  | ok entries =>
      rw [Match.children, hlisting] at hfound
      obtain rfl := Except.ok.inj hfound
      obtain ⟨⟨name, t⟩, hmem, rfl⟩ := List.mem_map.mp hentry
      exact h.entry (eq_directory_of_mem_listing hlisting hmem) hmem

/-! ### Everything below

One statement for each function of the traversal, by the recursion that they share. -/

mutual

theorem belowTree {path : String} {above : List FileTree} (t : FileTree)
    (h : (⟨path, t, above⟩ : Match).Leads fs) {found : List (String × Match)}
    (hfound : Match.belowTree path above t = .ok found) : ∀ entry ∈ found, entry.2.Leads fs := by
  cases t with
  | directory entries =>
      rw [Match.belowTree] at hfound
      obtain ⟨_, _, hfound⟩ := exists_of_bind_eq_ok hfound
      exact belowEntries entries (fun _ hentry => h.entry rfl hentry) hfound
  | file content => exact eq_nil_of_belowTree rfl hfound ▸ nofun
  | lockedFile => exact eq_nil_of_belowTree rfl hfound ▸ nofun
  | lockedDirectory => exact eq_nil_of_belowTree rfl hfound ▸ nofun

theorem belowEntries {path : String} {above : List FileTree} (entries : List (String × FileTree))
    (h : ∀ entry ∈ entries, (⟨childPath path entry.1, entry.2, above⟩ : Match).Leads fs)
    {found : List (String × Match)} (hfound : Match.belowEntries path above entries = .ok found) :
    ∀ entry ∈ found, entry.2.Leads fs := by
  cases entries with
  | nil =>
      rw [Match.belowEntries] at hfound
      obtain rfl := Except.ok.inj hfound
      nofun
  | cons entry entries =>
      rw [List.forall_mem_cons] at h
      rw [Match.belowEntries] at hfound
      obtain ⟨first, hfirst, hfound⟩ := exists_of_bind_eq_ok hfound
      obtain ⟨others, hothers, hfound⟩ := exists_of_bind_eq_ok hfound
      obtain rfl := Except.ok.inj hfound
      exact List.forall_mem_append.mpr
        ⟨belowOne entry h.1 hfirst, belowEntries entries h.2 hothers⟩

theorem belowOne {path : String} {above : List FileTree} (entry : String × FileTree)
    (h : (⟨childPath path entry.1, entry.2, above⟩ : Match).Leads fs)
    {found : List (String × Match)} (hfound : Match.belowOne path above entry = .ok found) :
    ∀ entry ∈ found, entry.2.Leads fs := by
  obtain ⟨name, t⟩ := entry
  rw [Match.belowOne] at hfound
  obtain ⟨others, hothers, hfound⟩ := exists_of_bind_eq_ok hfound
  obtain rfl := Except.ok.inj hfound
  exact List.forall_mem_cons.mpr ⟨h, belowTree t h hothers⟩

end

theorem below (h : m.Leads fs) {found : List (String × Match)}
    (hfound : m.below = .ok found) : ∀ entry ∈ found, entry.2.Leads fs :=
  belowTree m.place.tree h hfound

end Leads

end Match

/-! ## Components of patterns -/

namespace Segment

variable {fs : FileSystem} {m : Match}

theorem mem_select_iff {s : Segment} {found : List (String × Match)} {next : Match} :
    next ∈ s.select found ↔ ∃ name, (name, next) ∈ found ∧ s.covers name = true := by
  rw [select, List.mem_filterMap]
  constructor
  · rintro ⟨⟨name, m⟩, hmem, hm⟩
    obtain ⟨hcovers, hm⟩ := Option.ite_none_right_eq_some.mp hm
    obtain rfl := Option.some.inj hm
    exact ⟨name, hmem, hcovers⟩
  · rintro ⟨name, hmem, hcovers⟩
    exact ⟨(name, next), hmem, if_pos hcovers⟩

theorem leads_of_mem_select {s : Segment} {found : List (String × Match)}
    (h : ∀ entry ∈ found, entry.2.Leads fs) : ∀ next ∈ s.select found, next.Leads fs := by
  intro next hnext
  obtain ⟨name, hmem, -⟩ := mem_select_iff.mp hnext
  exact h (name, next) hmem

theorem leads_of_mem_points {signs : List Sign} (h : m.Leads fs) :
    ∀ next ∈ points signs m, next.Leads fs := by
  intro next hnext
  rw [points] at hnext
  split at hnext
  · obtain ⟨name, hname, hspecial⟩ := List.mem_filterMap.mp hnext
    have hmem : name ∈ [".", ".."] := (List.mem_filter.mp hname).1
    have hslash : ∀ name ∈ [".", ".."], '/' ∉ name.toList := by decide
    exact h.special (hslash name hmem) hspecial
  · cases hnext

/-- A component that is looked up is a name in one directory. -/
def IsInside : Segment → Prop
  | literal name => '/' ∉ name.toList
  | wild _ => True
  | recursion => True

/-- What leads on from matches that lead somewhere does so from a list of them. -/
theorem leads_of_mem_flatten {lead : Match → Except ListingError (List Match)}
    {before : List Match} {lists : List (List Match)} (h : ∀ m ∈ before, m.Leads fs)
    (hlead : ∀ m found, m.Leads fs → lead m = .ok found → ∀ next ∈ found, next.Leads fs)
    (hlists : before.mapM lead = .ok lists) : ∀ next ∈ lists.flatten, next.Leads fs := by
  intro next hnext
  obtain ⟨m, hm, found, hfound, hmem⟩ := exists_of_mem_flatten hlists hnext
  exact hlead m found (h m hm) hfound next hmem

/-- Components lead from matches that lead somewhere to such matches. -/
theorem leads_of_follow (segments : List Segment) (hinside : ∀ s ∈ segments, s.IsInside)
    {m : Match} (h : m.Leads fs) {found : List Match}
    (hfound : follow segments m = .ok found) : ∀ next ∈ found, next.Leads fs := by
  match segments with
  | [] =>
      rw [follow] at hfound
      obtain rfl := Except.ok.inj hfound
      exact List.forall_mem_singleton.mpr h
  | literal name :: segments =>
      obtain ⟨hname, hothers⟩ := List.forall_mem_cons.mp hinside
      rw [follow] at hfound
      split at hfound
      · next hstep => exact leads_of_follow segments hothers (h.step hname hstep) hfound
      · obtain rfl := Except.ok.inj hfound
        nofun
  | wild signs :: segments =>
      obtain ⟨-, hothers⟩ := List.forall_mem_cons.mp hinside
      rw [follow] at hfound
      obtain ⟨children, hchildren, hfound⟩ := exists_of_bind_eq_ok hfound
      obtain ⟨lists, hlists, hfound⟩ := exists_of_bind_eq_ok hfound
      obtain rfl := Except.ok.inj hfound
      have hleads : ∀ next ∈ (wild signs).select children ++ points signs m, next.Leads fs :=
        List.forall_mem_append.mpr
          ⟨leads_of_mem_select (h.children hchildren), leads_of_mem_points h⟩
      exact leads_of_mem_flatten hleads
        (fun _ _ hnext => leads_of_follow segments hothers hnext) hlists
  | [recursion] =>
      rw [follow] at hfound
      obtain ⟨below, hbelow, hfound⟩ := exists_of_bind_eq_ok hfound
      obtain rfl := Except.ok.inj hfound
      refine leads_of_mem_select fun entry hentry => ?_
      exact h.below hbelow entry (List.mem_of_mem_filter hentry)
  | recursion :: segment :: segments =>
      obtain ⟨-, hothers⟩ := List.forall_mem_cons.mp hinside
      by_cases hsegment : segment = recursion
      -- two of them in a row are one
      · subst hsegment
        rw [follow] at hfound
        exact leads_of_follow (recursion :: segments) hothers h hfound
      · rw [follow] at hfound
        · obtain ⟨below, hbelow, hfound⟩ := exists_of_bind_eq_ok hfound
          obtain ⟨lists, hlists, hfound⟩ := exists_of_bind_eq_ok hfound
          obtain rfl := Except.ok.inj hfound
          have hothers := (List.forall_mem_cons.mp hothers).2
          exact leads_of_mem_flatten (leads_of_mem_select (h.below hbelow))
            (fun _ _ hnext => leads_of_follow segments hothers hnext) hlists
        · exact hsegment

end Segment

namespace Pattern

variable {fs : FileSystem} {p : Pattern} {text : String} {found : List Match}

/-- Every match of a pattern leads to its place. -/
theorem leads_of_findIn (hp : read text = .ok p) (hfound : p.findIn fs = .ok found) :
    ∀ m ∈ found, m.Leads fs := by
  intro m hm
  obtain ⟨all, hall, rfl⟩ := map_eq_ok_iff.mp hfound
  have hinside : ∀ s ∈ p.segments, s.IsInside := by
    intro s hs
    cases s with
    | literal name => exact not_mem_of_read hp hs
    | wild signs => trivial
    | recursion => trivial
  have hm := List.mem_of_mem_filter hm
  exact Segment.leads_of_follow p.segments hinside (Match.leads_start fs _) hall m hm

/-- So the path of a match is one of the place, unless it is too long. -/
theorem find_of_findIn (hp : read text = .ok p) (hfound : p.findIn fs = .ok found) {m : Match}
    (hm : m ∈ found) (hshort : Path.isTooLong m.path = false) : fs.find m.path = .ok m.place := by
  have hleads := leads_of_findIn hp hfound m hm
  exact FileSystem.find_eq_ok_iff.mpr ⟨hshort, hleads.nonempty, hleads.place⟩

end Pattern

end GraphLint
