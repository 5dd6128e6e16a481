import GraphLint.Proofs.Command.Options
import GraphLint.Proofs.Data.Lists
import GraphLint.Proofs.TypeSystem.Merging

/-!
# The exit code of a run

A run ends with the code that its task ends with, whatever its output looks like.  Each
stage is a step on its own: what it makes of good files, and how it fails at the first
thing that is not good.  `code_of_ends` puts them together.
-/

set_option autoImplicit false

namespace GraphLint

/-! ## Configurations -/

variable {fs : FileSystem} {i : Invocation} {c : Config}

theorem loadConfig_of_for {path : Option String} (h : ConfigFor fs path c) :
    loadConfig fs path = .ok c := by
  cases h with
  | default => rfl
  | file read known value names =>
      have hnames := Config.unknownNames?_eq_none_iff.mpr names
      simp only [loadConfig, Config.ofFile, read, Config.parse, known, value, Config.checkNames,
        hnames]

theorem loadConfig_of_refused {path : String} (h : ConfigRefused fs path) :
    ∃ e, loadConfig fs (some path) = .error (.config path e) := by
  cases h with
  | unreadable read =>
      simp only [loadConfig, Config.ofFile, read]
      exact ⟨_, rfl⟩
  | unsupported read unknown =>
      simp only [loadConfig, Config.ofFile, read, Config.parse, unknown]
      exact ⟨_, rfl⟩
  | malformed read known value =>
      simp only [loadConfig, Config.ofFile, read, Config.parse, known, value]
      exact ⟨_, rfl⟩
  | @unknownNames text format c read known value names =>
      cases hunknown : c.unknownNames? with
      | none => exact absurd (Config.unknownNames?_eq_none_iff.mp hunknown) names
      | some unknown =>
          simp only [loadConfig, Config.ofFile, read, Config.parse, known, value,
            Config.checkNames, hunknown]
          exact ⟨_, rfl⟩

/-! ## Schemas -/

theorem FileSystem.textAt_eq {path text : String} (h : fs.readText path = .ok text) :
    fs.textAt path = text := by
  rw [textAt, h]

theorem FileSystem.HoldsWellFormed.textAt {path : String} (h : fs.HoldsWellFormed path) :
    (Source.read (fs.textAt path)).isWellFormed = true := by
  obtain ⟨text, hread, hwell⟩ := h
  rw [textAt_eq hread]
  exact hwell

theorem loadSchemaFile_of_wellFormed {path : String} (h : fs.HoldsWellFormed path) :
    loadSchemaFile fs path = .ok (Source.read (fs.textAt path)).document := by
  obtain ⟨text, hread, hwell⟩ := h
  rw [FileSystem.textAt_eq hread]
  simp only [loadSchemaFile, hread, TypeSystem.readSchema_eq_ok hwell]

theorem loadSchemaFile_of_faulty {path text : String} (hread : fs.readText path = .ok text)
    (hfaulty : (Source.read text).isWellFormed = false) :
    loadSchemaFile fs path = .error (.schema (.malformed path (Source.read text).faults)) := by
  have hschema : readSchema path text = .error (.malformed path (Source.read text).faults) :=
    if_neg (Bool.eq_false_iff.mp hfaulty)
  simp only [loadSchemaFile, hread, hschema]

theorem loadStandard_of_loaded (h : Loaded fs i.task c) :
    loadStandard fs i = .ok (i.task.standard fs) := by
  have hschema : loadSchema fs i.schemas = .ok (i.task.schema fs) := by
    have hgood : ∀ path ∈ i.schemas, loadSchemaFile fs path =
        .ok (Source.read (fs.textAt path)).document :=
      fun path hpath => loadSchemaFile_of_wellFormed (h.schemas path hpath)
    show (i.schemas.mapM (loadSchemaFile fs) >>= _) = _
    rw [mapM_eq_ok hgood]
    rfl
  have hcommand : i.task.command = i.command := rfl
  have hschemas : i.task.schemas = i.schemas := rfl
  rw [loadStandard, Task.standard, hschema, hcommand, hschemas]
  cases i.command with
  | validate => rfl
  | checkSchema =>
      dsimp only
      split <;> rfl

theorem loadStandard_of_bad {before behind : List String} {path : String} {f : Failure}
    (horder : i.schemas = before ++ path :: behind) (hgood : ∀ p ∈ before, fs.HoldsWellFormed p)
    (hbad : loadSchemaFile fs path = .error f) : loadStandard fs i = .error f := by
  have hschema : loadSchema fs i.schemas = .error f := by
    have hbefore : ∀ p ∈ before, ∃ d, loadSchemaFile fs p = .ok d :=
      fun p hp => ⟨_, loadSchemaFile_of_wellFormed (hgood p hp)⟩
    show (i.schemas.mapM (loadSchemaFile fs) >>= _) = _
    rw [horder, mapM_eq_error hbefore hbad]
    rfl
  unfold loadStandard
  rw [hschema]
  cases i.command with
  | validate => rfl
  | checkSchema => exact if_neg (by simp [horder])

/-! ## Input files -/

theorem exists_pathsOf_of_canFollow {text : String} (h : fs.CanFollow text) :
    ∃ paths, Collect.pathsOf fs text = .ok paths := by
  obtain ⟨p, found, hread, hfound⟩ := h
  simp only [Collect.pathsOf, hread, hfound]
  exact ⟨_, rfl⟩

theorem exists_allPaths_of_canFollow (h : ∀ text ∈ i.task.patterns, fs.CanFollow text) :
    ∃ paths, Collect.allPaths fs i.inputs = .ok paths := by
  obtain ⟨lists, hlists⟩ :=
    exists_mapM_eq_ok fun text htext => exists_pathsOf_of_canFollow (h text htext)
  exact ⟨lists.flatten, Collect.allPaths_eq_ok_iff.mpr ⟨lists, hlists, rfl⟩⟩

theorem loadInputs_of_bad_pattern {before behind : List String} {text : String}
    {e : CollectError} (horder : i.task.patterns = before ++ text :: behind)
    (hgood : ∀ p ∈ before, fs.CanFollow p) (hbad : Collect.pathsOf fs text = .error e) :
    loadInputs fs i = .error (.inputs e) := by
  have hbefore : ∀ p ∈ before, ∃ paths, Collect.pathsOf fs p = .ok paths :=
    fun p hp => exists_pathsOf_of_canFollow (hgood p hp)
  have hpaths : Collect.allPaths fs i.inputs = .error e := by
    show (i.task.patterns.mapM (Collect.pathsOf fs) >>= _) = _
    rw [horder, mapM_eq_error hbefore hbad]
    rfl
  have hcollect : collectFiles fs i.inputs = .error e := by
    show (Collect.allPaths fs i.inputs >>= _) = _
    rw [hpaths]
    rfl
  rw [loadInputs, hcollect]

/-- What is loaded are the texts under the paths that are selected. -/
theorem exists_files_of_collected (h : Collected fs i.task c) :
    ∃ files, loadInputs fs i = .ok files ∧ ∀ holds : String → Prop,
      (∃ file ∈ files, holds file.text) ↔
        ∃ path, i.task.Selects fs path ∧ holds (fs.textAt path) := by
  obtain ⟨paths, hpaths⟩ := exists_allPaths_of_canFollow h.patterns
  obtain ⟨files, hfiles⟩ := Collect.exists_collectFiles hpaths fun path hpath =>
    h.files path ((Collect.mem_allPaths_iff hpaths).mp hpath)
  refine ⟨files, ?_, fun holds => ?_⟩
  · rw [loadInputs, hfiles]
  · constructor
    · rintro ⟨file, hfile, hholds⟩
      obtain ⟨hselected, htext⟩ := Collect.selected_of_mem hfiles hfile
      exact ⟨file.path, hselected, FileSystem.textAt_eq htext ▸ hholds⟩
    · rintro ⟨path, hselected, hholds⟩
      obtain ⟨file, hfile, -, htext⟩ := Collect.exists_of_selected hfiles hselected
      exact ⟨file, hfile, FileSystem.textAt_eq htext ▸ hholds⟩

theorem loadInputs_of_unreadable (h : ∀ text ∈ i.task.patterns, fs.CanFollow text)
    {path : String} (hselected : i.task.Selects fs path) {e : ReadError}
    (hread : fs.readText path = .error e) :
    ∃ path' e', loadInputs fs i = .error (.inputs (.file path' e')) := by
  obtain ⟨paths, hpaths⟩ := exists_allPaths_of_canFollow h
  have hcollect : collectFiles fs i.inputs =
      (Collect.inOrder paths).mapM (Collect.readInput fs) := by
    rw [collectFiles, hpaths]
    rfl
  -- The path has a spelling that is read, and there is no text under that one either.
  obtain ⟨spelled, hmem, hlike⟩ :=
    Collect.exists_mem_inOrder ((Collect.mem_allPaths_iff hpaths).mpr hselected)
  have hspelled := (Collect.mem_allPaths_iff hpaths).mp (Collect.mem_of_mem_inOrder hmem)
  have hunread : ¬∃ text, fs.readText spelled = .ok text := by
    rintro ⟨text, htext⟩
    rw [hspelled.readText_eq hselected hlike, hread] at htext
    cases htext
  -- Some path is the first that cannot be read, this one or one before it.
  rcases forall_or_exists_first (fun p => ∃ text, fs.readText p = .ok text)
    (Collect.inOrder paths) with hall | ⟨before, first, behind, horder, hbefore, hfirst⟩
  · exact absurd (hall spelled hmem) hunread
  · cases hcause : fs.readText first with
    | ok text => exact absurd ⟨text, hcause⟩ hfirst
    | error e' =>
        have hgood : ∀ p ∈ before, ∃ file, Collect.readInput fs p = .ok file := by
          intro p hp
          obtain ⟨text, htext⟩ := hbefore p hp
          exact ⟨⟨p, text⟩, Collect.readInput_eq_ok_iff.mpr ⟨rfl, htext⟩⟩
        have hbad : Collect.readInput fs first = .error (.file first e') := by
          simp only [Collect.readInput, hcause]
        refine ⟨first, e', ?_⟩
        rw [loadInputs, hcollect, horder, mapM_eq_error hgood hbad]

/-! ## Reports -/

/-- What the rules report of a document, they report in the end. -/
theorem Standard.exists_validate (s : Standard) (c : Config) (d : Document) :
    ∃ ds, s.validate c d = .ok ds := by
  cases s with
  | documents schema =>
      obtain ⟨ds, -, hds⟩ := (d.filtered_validateDocument schema).exists_judged c
      exact ⟨_, hds⟩
  | schemas base =>
      obtain ⟨ds, -, hds⟩ := (d.filtered_validateSchema base).exists_judged c
      exact ⟨_, hds⟩

/-- What the check of a file comes to: whether the text has faults, and if it has none,
whether rules report an error of it. -/
theorem Standard.exists_report (s : Standard) (c : Config) (file : InputFile) :
    ∃ r, s.check c file = .ok r ∧ r.hasFaults = !(Source.read file.text).isWellFormed ∧
      ((Source.read file.text).isWellFormed = true →
        (r.hasErrors = true ↔ s.FindsError c file.text)) := by
  have hcheck : s.check c file =
      if (Source.read file.text).isWellFormed then
        (s.validate c (Source.read file.text).document).map fun found =>
          ⟨file, [], (Source.read file.text).locate found⟩
      else .ok ⟨file, (Source.read file.text).faults, []⟩ := by
    cases s <;> rfl
  rw [hcheck]
  cases hwell : (Source.read file.text).isWellFormed with
  | false =>
      refine ⟨_, rfl, ?_, nofun⟩
      exact congrArg Bool.not hwell
  | true =>
      obtain ⟨found, hfound⟩ := s.exists_validate c (Source.read file.text).document
      rw [hfound]
      refine ⟨_, rfl, rfl, fun _ => ?_⟩
      have hsame : s.FindsError c file.text ↔ ∃ d ∈ found, d.severity = .error := by
        unfold FindsError
        rw [hfound]
        simp
      have hserious : ∀ d : Diagnostic Extent, d.severity.isError = true ↔ d.severity = .error := by
        intro d
        cases d.severity <;> simp [Severity.isError]
      rw [hsame]
      show ((found.map _).any _ = true) ↔ _
      simp [List.any_map, Diagnostic.map, hserious]

/-- The code of a check that has files: faults outweigh errors. -/
theorem exists_checked (v : Voice) (c : Config) (s : Standard) {files : List InputFile}
    (hfiles : files ≠ []) :
    ∃ o, Invocation.checked v c s files = .ok o ∧
      ((∃ file ∈ files, (Source.read file.text).isWellFormed = false) → o.code = 5) ∧
      ((∀ file ∈ files, (Source.read file.text).isWellFormed = true) →
        ((∃ file ∈ files, s.FindsError c file.text) → o.code = 1) ∧
        ((∀ file ∈ files, ¬s.FindsError c file.text) → o.code = 0)) := by
  choose report hcheck hfaults herrors using s.exists_report c
  have hreports : files.mapM (s.check c) = .ok (files.map report) :=
    mapM_eq_ok fun file _ => hcheck file
  have hany : (files.map report).any (·.hasFaults) = true ↔
      ∃ file ∈ files, (Source.read file.text).isWellFormed = false := by
    simp [List.any_map, hfaults]
  refine ⟨_, (if_neg hfiles).trans (by rw [hreports]; rfl), ?_, ?_⟩
  · intro hfaulty
    show (ExitStatus.ofReports (files.map report)).code = 5
    rw [ExitStatus.ofReports, if_pos (hany.mpr hfaulty)]
    rfl
  · intro hwell
    have hnone : ¬(files.map report).any (·.hasFaults) = true := by
      rw [hany]
      rintro ⟨file, hfile, hfaulty⟩
      rw [hwell file hfile] at hfaulty
      cases hfaulty
    have herror : (files.map report).any (·.hasErrors) = true ↔
        ∃ file ∈ files, s.FindsError c file.text := by
      rw [List.any_map, List.any_eq_true]
      refine exists_congr fun file => and_congr_right fun hfile => ?_
      exact herrors file (hwell file hfile)
    constructor
    · intro hfound
      show (ExitStatus.ofReports (files.map report)).code = 1
      rw [ExitStatus.ofReports, if_neg hnone, if_pos (herror.mpr hfound)]
      rfl
    · intro hclean
      show (ExitStatus.ofReports (files.map report)).code = 0
      rw [ExitStatus.ofReports, if_neg hnone, if_neg (by rw [herror]; simpa using hclean)]
      rfl

/-! ## Runs -/

variable (i)

theorem run_of_config {around : Surroundings} {f : Failure}
    (h : loadConfig fs i.config = .error f) :
    ∃ o, i.run around fs = .ok o ∧ o.code = f.status.code := by
  simp only [Invocation.run, h]
  exact ⟨_, rfl, rfl⟩

theorem run_of_standard {around : Surroundings} {f : Failure} (hconfig : ConfigFor fs i.config c)
    (h : loadStandard fs i = .error f) :
    ∃ o, i.run around fs = .ok o ∧ o.code = f.status.code := by
  simp only [Invocation.run, loadConfig_of_for hconfig, h]
  exact ⟨_, rfl, rfl⟩

theorem run_of_inputs {around : Surroundings} {f : Failure} (hloaded : Loaded fs i.task c)
    (h : loadInputs fs i = .error f) :
    ∃ o, i.run around fs = .ok o ∧ o.code = f.status.code := by
  have hconfig : loadConfig fs i.config = .ok c := loadConfig_of_for hloaded.config
  simp only [Invocation.run, hconfig, loadStandard_of_loaded hloaded, h]
  exact ⟨_, rfl, rfl⟩

theorem run_of_collected {around : Surroundings} {files : List InputFile}
    (h : Collected fs i.task c) (hfiles : loadInputs fs i = .ok files) :
    i.run around fs = Invocation.checked (i.voice around) c (i.task.standard fs) files := by
  have hconfig : loadConfig fs i.config = .ok c := loadConfig_of_for h.config
  simp only [Invocation.run, hconfig, loadStandard_of_loaded h.toLoaded, hfiles]

/-- The code of a run that has files to check: faults of the texts that are selected outweigh
errors in them. -/
theorem exists_run_of_collected (around : Surroundings) (h : Collected fs i.task c)
    (hsome : ∃ path, i.task.Selects fs path) :
    ∃ o, i.run around fs = .ok o ∧
      ((∃ path, i.task.Selects fs path ∧
        (Source.read (fs.textAt path)).isWellFormed = false) → o.code = 5) ∧
      ((∀ path, i.task.Selects fs path → fs.HoldsWellFormed path) →
        ((∃ path, i.task.Selects fs path ∧
          (i.task.standard fs).FindsError c (fs.textAt path)) → o.code = 1) ∧
        ((∀ path, i.task.Selects fs path →
          ¬(i.task.standard fs).FindsError c (fs.textAt path)) → o.code = 0)) := by
  obtain ⟨files, hfiles, hexists⟩ := exists_files_of_collected h
  have hall (holds : String → Prop) (hpaths : ∀ path, i.task.Selects fs path →
      holds (fs.textAt path)) : ∀ file ∈ files, holds file.text := by
    intro file hfile
    by_contra hnot
    obtain ⟨path, hpath, hpathNot⟩ := (hexists fun text => ¬holds text).mp ⟨file, hfile, hnot⟩
    exact hpathNot (hpaths path hpath)
  have hne : files ≠ [] := by
    obtain ⟨path, hpath⟩ := hsome
    obtain ⟨file, hfile, -⟩ := (hexists fun _ => True).mpr ⟨path, hpath, trivial⟩
    exact List.ne_nil_of_mem hfile
  obtain ⟨o, ho, hfaulty, hwell⟩ := exists_checked (i.voice around) c (i.task.standard fs) hne
  have hfault := hexists fun text => (Source.read text).isWellFormed = false
  refine ⟨o, (run_of_collected i h hfiles).trans ho, fun h => hfaulty (hfault.mpr h), ?_⟩
  intro hpaths
  have hwellFormed : ∀ file ∈ files, (Source.read file.text).isWellFormed = true :=
    hall (fun text => (Source.read text).isWellFormed = true) fun path hpath =>
      (hpaths path hpath).textAt
  obtain ⟨herror, hclean⟩ := hwell hwellFormed
  have hfound := hexists ((i.task.standard fs).FindsError c)
  refine ⟨fun h => herror (hfound.mpr h), fun h => hclean ?_⟩
  exact hall (fun text => ¬(i.task.standard fs).FindsError c text) h

/-- A run ends with a code that its task ends with. -/
theorem code_of_ends (around : Surroundings) {code : Nat} (h : Ends fs i.task code) :
    ∃ o, i.run around fs = .ok o ∧ o.code = code := by
  cases h with
  | @config path given refused =>
      obtain ⟨e, he⟩ := loadConfig_of_refused refused
      exact run_of_config i (given ▸ he)
  | @schemaUnreadable _ _ _ path e config order good read =>
      have hbad : loadSchemaFile fs path = .error (.unreadableSchema path e) := by
        simp only [loadSchemaFile, read]
      exact run_of_standard i config (loadStandard_of_bad order good hbad)
  | schemaFaulty config order good read faulty =>
      have hbad := loadSchemaFile_of_faulty read faulty
      exact run_of_standard i config (loadStandard_of_bad order good hbad)
  | @pattern _ _ _ text e loaded order good malformed =>
      have hbad : Collect.pathsOf fs text = .error (.pattern text e) := by
        simp only [Collect.pathsOf, malformed]
      exact run_of_inputs i loaded (loadInputs_of_bad_pattern order good hbad)
  | @listing _ _ _ text p e loaded order good read unlisted =>
      have hbad : Collect.pathsOf fs text = .error (.listing text e) := by
        simp only [Collect.pathsOf, read, unlisted]
      exact run_of_inputs i loaded (loadInputs_of_bad_pattern order good hbad)
  | unreadable loaded patterns selected read =>
      obtain ⟨path, e, he⟩ := loadInputs_of_unreadable patterns selected read
      exact run_of_inputs i loaded he
  | nothing loaded patterns none =>
      have hcollected : Collected fs i.task _ := ⟨loaded, patterns, fun p h => absurd h (none p)⟩
      obtain ⟨files, hfiles, hexists⟩ := exists_files_of_collected hcollected
      have hnil : files = [] := List.eq_nil_iff_forall_not_mem.mpr fun file hfile => by
        obtain ⟨path, hpath, -⟩ := (hexists fun _ => True).mp ⟨file, hfile, trivial⟩
        exact none path hpath
      rw [run_of_collected i hcollected hfiles, hnil]
      exact ⟨_, rfl, rfl⟩
  | faulty collected selected read faulty =>
      obtain ⟨o, ho, hfaulty, -⟩ := exists_run_of_collected i around collected ⟨_, selected⟩
      rw [← FileSystem.textAt_eq read] at faulty
      exact ⟨o, ho, hfaulty ⟨_, selected, faulty⟩⟩
  | error collected wellFormed selected error =>
      obtain ⟨o, ho, -, hwell⟩ := exists_run_of_collected i around collected ⟨_, selected⟩
      exact ⟨o, ho, (hwell wellFormed).1 ⟨_, selected, error⟩⟩
  | success passes =>
      obtain ⟨o, ho, -, hwell⟩ := exists_run_of_collected i around passes.toCollected passes.some
      exact ⟨o, ho, (hwell passes.wellFormed).2 passes.clean⟩

/-- A command line that asks for a check ends with one code, the one that the first stage
decides that fails.  The code is 0 if and only if the check passes.  No other command line
for the same task ends differently, wherever the output goes.  In particular the code stays
what it is without the options that say how output is to look. -/
theorem Command.run_ends {words : List String} {i : Invocation}
    (h : Request.ofWords words = .ok (.check i)) (around : Surroundings) (fs : FileSystem) :
    ∃ o, run words around fs = .ok o ∧ (∀ code, Ends fs i.task code ↔ code = o.code) ∧
      (o.code = 0 ↔ ∃ c, Passes fs i.task c) ∧
      (∀ (words' : List String) (around' : Surroundings) (i' : Invocation),
        Request.ofWords words' = .ok (.check i') → i'.task = i.task →
          ∃ o', run words' around' fs = .ok o' ∧ o'.code = o.code) ∧
      ∀ (words' : List String) (around' : Surroundings), Arguments.Inserted words words' →
        ∃ o', run words' around' fs = .ok o' ∧ o'.code = o.code := by
  have hrun : ∀ {words : List String} {i : Invocation} (around : Surroundings),
      Request.ofWords words = .ok (.check i) → run words around fs = i.run around fs := by
    intro words i around h
    rw [run, h]
  obtain ⟨code, hends⟩ := exists_ends fs i.task
  obtain ⟨o, ho, rfl⟩ := code_of_ends i around hends
  have hcodes : ∀ code, Ends fs i.task code ↔ code = o.code := by
    intro code
    constructor
    · intro hcode
      obtain ⟨o', ho', rfl⟩ := code_of_ends i around hcode
      rw [ho] at ho'
      exact congrArg Outcome.code (Except.ok.inj ho').symm
    · rintro rfl
      exact hends
  have hsame : ∀ (words' : List String) (around' : Surroundings) (i' : Invocation),
      Request.ofWords words' = .ok (.check i') → i'.task = i.task →
        ∃ o', run words' around' fs = .ok o' ∧ o'.code = o.code := by
    intro words' around' i' h' htask
    rw [hrun around' h']
    exact code_of_ends i' around' (htask ▸ hends)
  refine ⟨o, (hrun around h).trans ho, hcodes, ?_, hsame, ?_⟩
  · constructor
    · intro hzero
      rw [hzero] at hends
      cases hends with
      | success passes => exact ⟨_, passes⟩
    · rintro ⟨c, hpasses⟩
      exact ((hcodes 0).mp (.success hpasses)).symm
  · intro words' around' hinserted
    obtain ⟨i', h', htask⟩ := Arguments.ofWords_of_inserted hinserted h
    exact hsame words' around' i' h' htask

namespace Command

/-- A command line with a pattern that is malformed. -/
def contestedWords : List String := ["validate", "-s", "s", "--quiet", "["]

/-- A tree in which the file of the schema has a fault. -/
def contestedTree : FileTree := .directory [("s", .file "type".toUTF8)]

/-- Nothing that decides about colours. -/
def plainSurroundings : Surroundings := ⟨none, none, none, false⟩

example : (run contestedWords plainSurroundings contestedTree).map (·.code) = .ok 3 := by
  decide +kernel

/-- A command line with paths from the root on, from above the working directory, and in it. -/
def strictWords : List String :=
  ["validate", "-c", "/work/c.json", "-s", "../work/s.graphql", "--quiet", "/work/d/*.graphql",
    "d/b.graphql"]

/-- What it asks for. -/
def strict : Invocation :=
  ⟨.validate, some "/work/c.json", .human, ⟨false, false⟩, true, ["../work/s.graphql"],
    ["/work/d/*.graphql", "d/b.graphql"]⟩

/-- A configuration that makes an error of the use of what is deprecated. -/
def strictText : String := "\x7b\"rules\": \x7b\"no_deprecated\": \"error\"\x7d\x7d"

/-- What the text writes. -/
def strictConfig : Config := .full none (.ofList [("no_deprecated", .error)])

/-- A tree with a document that uses a deprecated field. -/
def strictTree : FileTree :=
  .directory [
    ("c.json", .file strictText.toUTF8),
    ("s.graphql", .file "type Query \x7b old: Int @deprecated \x7d".toUTF8),
    ("d", .directory [
      ("a.graphql", .file "\x7b old \x7d".toUTF8),
      ("b.graphql", .file "\x7b __typename \x7d".toUTF8)])]

/-- The paths that the patterns find. -/
def strictPaths : List String := ["/work/d/a.graphql", "/work/d/b.graphql", "d/b.graphql"]

theorem strict_selects_iff (path : String) :
    strict.task.Selects strictTree path ↔ path ∈ strictPaths := by
  have hpaths : Collect.allPaths strictTree strict.inputs = .ok strictPaths := by decide +kernel
  exact (Collect.mem_allPaths_iff hpaths).symm

theorem strict_loaded : Loaded strictTree strict.task strictConfig where
  config := by
    have hread : FileSystem.readText strictTree "/work/c.json" = .ok strictText := by
      decide +kernel
    have hformat : ConfigFormat.ofPath? "/work/c.json" = some .json := by decide +kernel
    have hvalue : (ConfigFormat.json.parse? strictText).bind Config.ofDatum? = some strictConfig :=
      by decide +kernel
    have hnames : ∀ name ∈ strictConfig.settings.names, name ∈ Registry.ruleNames := by
      have hsettings : strictConfig.settings.names = [noDeprecated.name] := by decide +kernel
      simp [hsettings, Registry.ruleNames, Registry.documentRules]
    exact .file hread hformat hvalue ⟨nofun, hnames⟩
  schemas := by decide +kernel

theorem strict_ends : Ends strictTree strict.task 1 := by
  have hread : ∀ path ∈ strictPaths, FileSystem.HoldsWellFormed strictTree path := by
    decide +kernel
  have hwell (path : String) (h : strict.task.Selects strictTree path) :
      FileSystem.HoldsWellFormed strictTree path := hread path ((strict_selects_iff path).mp h)
  have hfiles (path : String) (h : strict.task.Selects strictTree path) :
      ∃ text, FileSystem.readText strictTree path = .ok text := by
    obtain ⟨text, htext, -⟩ := hwell path h
    exact ⟨text, htext⟩
  have hselected : strict.task.Selects strictTree "/work/d/a.graphql" :=
    (strict_selects_iff _).mpr List.mem_cons_self
  exact .error ⟨strict_loaded, by decide +kernel, hfiles⟩ hwell hselected (by decide +kernel)

/-- The check comes through all stages, and a rule reports an error. -/
theorem run_ends_strict :
    Request.ofWords strictWords = .ok (.check strict) ∧
    ∃ o, run strictWords plainSurroundings strictTree = .ok o ∧ o.code = 1 ∧
      (∀ code, Ends strictTree strict.task code ↔ code = o.code) ∧
      (o.code = 0 ↔ ∃ c, Passes strictTree strict.task c) ∧
      (∀ (words' : List String) (around' : Surroundings) (i' : Invocation),
        Request.ofWords words' = .ok (.check i') → i'.task = strict.task →
          ∃ o', run words' around' strictTree = .ok o' ∧ o'.code = o.code) ∧
      ∀ (words' : List String) (around' : Surroundings),
        Arguments.Inserted strictWords words' →
          ∃ o', run words' around' strictTree = .ok o' ∧ o'.code = o.code := by
  have h : Request.ofWords strictWords = .ok (.check strict) := by decide +kernel
  obtain ⟨o, ho, hcodes, hothers⟩ := run_ends h plainSurroundings strictTree
  exact ⟨h, o, ho, ((hcodes 1).mp strict_ends).symm, hcodes, hothers⟩

end Command

end GraphLint
