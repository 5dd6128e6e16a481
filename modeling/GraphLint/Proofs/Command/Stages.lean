import GraphLint.Command.Run
import GraphLint.Proofs.Files.Collecting
import GraphLint.Proofs.Validation.Filtering

/-!
# How a check ends

A check goes through stages: the configuration, the files of the schema, the patterns,
the files that they match, and what is found in these.  The first stage that fails
decides the exit code.  `Ends` says which code it is, constructor by constructor in the
order of the stages.  It speaks of the files alone, of how they are found, read and
checked, and knows neither the output nor its format.

A check that comes through all stages `Passes`.  Whatever the files are like, some
constructor applies (`exists_ends`): of each stage, either everything is good, or there
is a first thing that is not.
-/

set_option autoImplicit false

namespace GraphLint

/-- What a check is about: all that is asked for on a command line, apart from how output
is to look. -/
structure Task where
  /-- What is checked. -/
  command : CommandName
  /-- The path of the configuration. -/
  config : Option String
  /-- The paths of the schema that is checked against. -/
  schemas : List String
  /-- The patterns for the files to check. -/
  inputs : List String

/-- What is to be checked. -/
def Invocation.task (i : Invocation) : Task := ⟨i.command, i.config, i.schemas, i.inputs⟩

/-! ## Configurations -/

/-- All names in a configuration stand for something. -/
structure Config.NamesExist (c : Config) : Prop where
  presets : ∀ presets, c.presets? = some presets → ∀ name ∈ presets.names, name = recommendedName
  rules : ∀ name ∈ c.settings.names, name ∈ Registry.ruleNames

theorem Config.find?_presets_eq_none_iff {c : Config} :
    ((c.presets?.map Presets.names).getD []).find? (· ≠ recommendedName) = none ↔
      ∀ presets, c.presets? = some presets → ∀ name ∈ presets.names, name = recommendedName := by
  cases c.presets? <;> simp

theorem Config.unknownNames?_eq_none_iff {c : Config} : c.unknownNames? = none ↔ c.NamesExist := by
  have hrules : (c.settings.names.filter (!Registry.ruleNames.contains ·)).isEmpty = true ↔
      ∀ name ∈ c.settings.names, name ∈ Registry.ruleNames := by
    simp [List.filter_eq_nil_iff]
  dsimp only [unknownNames?]
  constructor
  · intro h
    split at h
    · cases h
    · split at h
      · exact ⟨find?_presets_eq_none_iff.mp ‹_›, hrules.mp ‹_›⟩
      · cases h
  · rintro ⟨hknown, hnames⟩
    rw [find?_presets_eq_none_iff.mpr hknown]
    exact if_pos (hrules.mpr hnames)

/-- The configuration that a check goes by. -/
inductive ConfigFor (fs : FileSystem) : Option String → Config → Prop
  /-- None is given. -/
  | default : ConfigFor fs none .default
  /-- A file holds one. -/
  | file {path text : String} {format : ConfigFormat} {c : Config}
    (read : fs.readText path = .ok text) (known : ConfigFormat.ofPath? path = some format)
    (value : (format.parse? text).bind Config.ofDatum? = some c) (names : c.NamesExist) :
    ConfigFor fs (some path) c

/-- A path leads to no configuration. -/
inductive ConfigRefused (fs : FileSystem) (path : String) : Prop
  /-- There is no text. -/
  | unreadable {e : ReadError} (read : fs.readText path = .error e)
  /-- There is no format for the path. -/
  | unsupported {text : String} (read : fs.readText path = .ok text)
    (unknown : ConfigFormat.ofPath? path = none)
  /-- The text does not write a configuration. -/
  | malformed {text : String} {format : ConfigFormat} (read : fs.readText path = .ok text)
    (known : ConfigFormat.ofPath? path = some format)
    (value : (format.parse? text).bind Config.ofDatum? = none)
  /-- The configuration uses names that stand for nothing. -/
  | unknownNames {text : String} {format : ConfigFormat} {c : Config}
    (read : fs.readText path = .ok text) (known : ConfigFormat.ofPath? path = some format)
    (value : (format.parse? text).bind Config.ofDatum? = some c) (names : ¬c.NamesExist)

/-! ## Files -/

namespace FileSystem

variable (fs : FileSystem)

/-- There is a text without faults under a path. -/
def HoldsWellFormed (path : String) : Prop :=
  ∃ text, fs.readText path = .ok text ∧ (Source.read text).isWellFormed = true

instance (path : String) : Decidable (fs.HoldsWellFormed path) :=
  match h : fs.readText path with
  | .ok text =>
    decidable_of_iff ((Source.read text).isWellFormed = true) (by simp [HoldsWellFormed, h])
  | .error _ => .isFalse (by simp [HoldsWellFormed, h])

/-- The text under a path, or nothing if there is none. -/
def textAt (path : String) : String :=
  match fs.readText path with
  | .ok text => text
  | .error _ => ""

/-- A pattern can be read and followed to its end. -/
def CanFollow (text : String) : Prop :=
  ∃ p found, Pattern.read text = .ok p ∧ p.findIn fs = .ok found

instance (text : String) : Decidable (fs.CanFollow text) :=
  match hp : Pattern.read text with
  | .error _ => .isFalse (by simp [CanFollow, hp])
  | .ok p =>
    match h : p.findIn fs with
    | .error _ => .isFalse (by simp [CanFollow, hp, h])
    | .ok _ => .isTrue ⟨p, _, hp, h⟩

end FileSystem

namespace Task

variable (fs : FileSystem) (t : Task)

/-- The patterns, one for each alternative that is offered. -/
def patterns : List String := t.inputs.flatMap Braces.expand

/-- There is a file to check under a path: one of the patterns finds it there. -/
def Selects (path : String) : Prop := Collect.Selected fs t.inputs path

/-- The type system that the files of the schema make up. -/
def schema : TypeSystem :=
  .ofDocuments (t.schemas.map fun path => (Source.read (fs.textAt path)).document)

/-- What the files are checked against. -/
def standard : Standard :=
  match t.command with
  | .validate => .documents (t.schema fs)
  | .checkSchema => .schemas (if t.schemas = [] then none else some (t.schema fs))

end Task

namespace Standard

/-- What rules report of a document. -/
def validate (c : Config) (d : Document) : Standard → Except Fault (List (Diagnostic Extent))
  | documents schema => validateDocument c schema d.tree
  | schemas base => validateSchema c base d.tree

/-- Rules report an error of a text, by the severities that a configuration sets. -/
def FindsError (s : Standard) (c : Config) (text : String) : Prop :=
  ∃ ds, s.validate c (Source.read text).document = .ok ds ∧ ∃ d ∈ ds, d.severity = .error

instance (s : Standard) (c : Config) (text : String) : Decidable (s.FindsError c text) :=
  match h : s.validate c (Source.read text).document with
  | .ok ds => decidable_of_iff (∃ d ∈ ds, d.severity = .error) (by simp [FindsError, h])
  | .error _ => .isFalse (by simp [FindsError, h])

end Standard

/-! ## Stages -/

section

variable (fs : FileSystem) (t : Task) (c : Config)

/-- The configuration and the schema are good. -/
structure Loaded : Prop where
  config : ConfigFor fs t.config c
  schemas : ∀ path ∈ t.schemas, fs.HoldsWellFormed path

/-- So are the patterns, and the files that they match can be read. -/
structure Collected : Prop extends Loaded fs t c where
  patterns : ∀ text ∈ t.patterns, fs.CanFollow text
  files : ∀ path, t.Selects fs path → ∃ text, fs.readText path = .ok text

/-- There are files, all of them are well-formed, and no rule reports an error. -/
structure Passes : Prop extends Collected fs t c where
  some : ∃ path, t.Selects fs path
  wellFormed : ∀ path, t.Selects fs path → fs.HoldsWellFormed path
  clean : ∀ path, t.Selects fs path → ¬(t.standard fs).FindsError c (fs.textAt path)

end

/-- The exit codes that a check ends with. -/
inductive Ends (fs : FileSystem) (t : Task) : Nat → Prop
  /-- The configuration is refused. -/
  | config {path : String} (given : t.config = some path) (refused : ConfigRefused fs path) :
    Ends fs t 2
  /-- The first file of the schema that is not good cannot be read. -/
  | schemaUnreadable {c : Config} {before behind : List String} {path : String} {e : ReadError}
    (config : ConfigFor fs t.config c) (order : t.schemas = before ++ path :: behind)
    (good : ∀ p ∈ before, fs.HoldsWellFormed p) (read : fs.readText path = .error e) :
    Ends fs t 4
  /-- The first file of the schema that is not good has faults. -/
  | schemaFaulty {c : Config} {before behind : List String} {path text : String}
    (config : ConfigFor fs t.config c) (order : t.schemas = before ++ path :: behind)
    (good : ∀ p ∈ before, fs.HoldsWellFormed p) (read : fs.readText path = .ok text)
    (faulty : (Source.read text).isWellFormed = false) : Ends fs t 3
  /-- The first pattern that cannot be followed is malformed. -/
  | pattern {c : Config} {before behind : List String} {text : String} {e : PatternError}
    (loaded : Loaded fs t c) (order : t.patterns = before ++ text :: behind)
    (good : ∀ p ∈ before, fs.CanFollow p) (malformed : Pattern.read text = .error e) :
    Ends fs t 2
  /-- The first pattern that cannot be followed meets a directory that cannot be listed. -/
  | listing {c : Config} {before behind : List String} {text : String} {p : Pattern}
    {e : ListingError} (loaded : Loaded fs t c) (order : t.patterns = before ++ text :: behind)
    (good : ∀ p ∈ before, fs.CanFollow p) (read : Pattern.read text = .ok p)
    (unlisted : p.findIn fs = .error e) : Ends fs t 4
  /-- A file that is matched cannot be read. -/
  | unreadable {c : Config} {path : String} {e : ReadError} (loaded : Loaded fs t c)
    (patterns : ∀ text ∈ t.patterns, fs.CanFollow text) (selected : t.Selects fs path)
    (read : fs.readText path = .error e) : Ends fs t 4
  /-- No file is matched. -/
  | nothing {c : Config} (loaded : Loaded fs t c)
    (patterns : ∀ text ∈ t.patterns, fs.CanFollow text) (none : ∀ path, ¬t.Selects fs path) :
    Ends fs t 2
  /-- A file has faults. -/
  | faulty {c : Config} {path text : String} (collected : Collected fs t c)
    (selected : t.Selects fs path) (read : fs.readText path = .ok text)
    (faulty : (Source.read text).isWellFormed = false) : Ends fs t 5
  /-- All files are well-formed, and a rule reports an error. -/
  | error {c : Config} {path : String} (collected : Collected fs t c)
    (wellFormed : ∀ p, t.Selects fs p → fs.HoldsWellFormed p) (selected : t.Selects fs path)
    (error : (t.standard fs).FindsError c (fs.textAt path)) : Ends fs t 1
  /-- Nothing fails. -/
  | success {c : Config} (passes : Passes fs t c) : Ends fs t 0

/-! ## Some stage decides -/

/-- Either all of a list is good, or there is a first that is not. -/
theorem forall_or_exists_first {α : Type} (good : α → Prop) (xs : List α) :
    (∀ x ∈ xs, good x) ∨
      ∃ before x behind, xs = before ++ x :: behind ∧ (∀ y ∈ before, good y) ∧ ¬good x := by
  induction xs with
  | nil => exact .inl fun _ h => absurd h List.not_mem_nil
  | cons x xs ih =>
      by_cases hx : good x
      · rcases ih with hall | ⟨before, y, behind, rfl, hbefore, hy⟩
        · exact .inl (List.forall_mem_cons.mpr ⟨hx, hall⟩)
        · exact .inr ⟨x :: before, y, behind, rfl, List.forall_mem_cons.mpr ⟨hx, hbefore⟩, hy⟩
      · exact .inr ⟨[], x, xs, rfl, fun _ h => absurd h List.not_mem_nil, hx⟩

theorem configFor_or_refused (fs : FileSystem) (path : Option String) :
    (∃ c, ConfigFor fs path c) ∨ ∃ p, path = some p ∧ ConfigRefused fs p := by
  cases path with
  | none => exact .inl ⟨_, .default⟩
  | some path =>
      cases hread : fs.readText path with
      | error e => exact .inr ⟨path, rfl, .unreadable hread⟩
      | ok text =>
          cases hformat : ConfigFormat.ofPath? path with
          | none => exact .inr ⟨path, rfl, .unsupported hread hformat⟩
          | some format =>
              cases hvalue : (format.parse? text).bind Config.ofDatum? with
              | none => exact .inr ⟨path, rfl, .malformed hread hformat hvalue⟩
              | some c =>
                  by_cases hnames : c.NamesExist
                  · exact .inl ⟨c, .file hread hformat hvalue hnames⟩
                  · exact .inr ⟨path, rfl, .unknownNames hread hformat hvalue hnames⟩

section

variable {fs : FileSystem} {t : Task} {c : Config}

theorem loaded_or_ends (hconfig : ConfigFor fs t.config c) :
    Loaded fs t c ∨ ∃ code, Ends fs t code := by
  rcases forall_or_exists_first fs.HoldsWellFormed t.schemas with
    hall | ⟨before, path, behind, horder, hbefore, hpath⟩
  · exact .inl ⟨hconfig, hall⟩
  · cases hread : fs.readText path with
    | error e => exact .inr ⟨4, .schemaUnreadable hconfig horder hbefore hread⟩
    | ok text =>
        have hfaulty : (Source.read text).isWellFormed = false :=
          Bool.eq_false_iff.mpr fun h => hpath ⟨text, hread, h⟩
        exact .inr ⟨3, .schemaFaulty hconfig horder hbefore hread hfaulty⟩

theorem collected_or_ends (hloaded : Loaded fs t c) :
    Collected fs t c ∨ ∃ code, Ends fs t code := by
  rcases forall_or_exists_first fs.CanFollow t.patterns with
    hpatterns | ⟨before, text, behind, horder, hbefore, htext⟩
  · by_cases hfiles : ∀ path, t.Selects fs path → ∃ text, fs.readText path = .ok text
    · exact .inl ⟨hloaded, hpatterns, hfiles⟩
    · simp only [not_forall] at hfiles
      obtain ⟨path, hmem, hnone⟩ := hfiles
      cases hread : fs.readText path with
      | ok text => exact absurd ⟨text, hread⟩ hnone
      | error e => exact .inr ⟨4, .unreadable hloaded hpatterns hmem hread⟩
  · cases hread : Pattern.read text with
    | error e => exact .inr ⟨2, .pattern hloaded horder hbefore hread⟩
    | ok p =>
        cases hfound : p.findIn fs with
        | error e => exact .inr ⟨4, .listing hloaded horder hbefore hread hfound⟩
        | ok found => exact absurd ⟨p, found, hread, hfound⟩ htext

theorem Collected.ends (hcollected : Collected fs t c) : ∃ code, Ends fs t code := by
  by_cases hnone : ∀ path, ¬t.Selects fs path
  · exact ⟨2, .nothing hcollected.toLoaded hcollected.patterns hnone⟩
  by_cases hwell : ∀ path, t.Selects fs path → fs.HoldsWellFormed path
  · by_cases hclean : ∀ path, t.Selects fs path →
        ¬(t.standard fs).FindsError c (fs.textAt path)
    · simp only [not_forall, not_not] at hnone
      exact ⟨0, .success ⟨hcollected, hnone, hwell, hclean⟩⟩
    · simp only [not_forall, not_not] at hclean
      obtain ⟨path, hselected, herror⟩ := hclean
      exact ⟨1, .error hcollected hwell hselected herror⟩
  · simp only [not_forall] at hwell
    obtain ⟨path, hselected, hnot⟩ := hwell
    obtain ⟨text, hread⟩ := hcollected.files path hselected
    have hfaulty : (Source.read text).isWellFormed = false :=
      Bool.eq_false_iff.mpr fun h => hnot ⟨text, hread, h⟩
    exact ⟨5, .faulty hcollected hselected hread hfaulty⟩

end

/-- Some stage decides. -/
theorem exists_ends (fs : FileSystem) (t : Task) : ∃ code, Ends fs t code := by
  rcases configFor_or_refused fs t.config with ⟨c, hconfig⟩ | ⟨path, hgiven, hrefused⟩
  · rcases loaded_or_ends hconfig with hloaded | hends
    · rcases collected_or_ends hloaded with hcollected | hends
      · exact hcollected.ends
      · exact hends
    · exact hends
  · exact ⟨2, .config hgiven hrefused⟩

end GraphLint
