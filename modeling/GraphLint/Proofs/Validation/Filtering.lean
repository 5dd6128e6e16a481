import GraphLint.Proofs.Deprecation.Faultless
import GraphLint.Proofs.Names.Listening

/-!
# A configuration filters and relabels

A validation leaves out rules before it runs.  To its reader it looks as if all
rules had run and the configuration had been applied to what they report: the
diagnostics of rules that are off are missing, and the others bear the severity
that is set for their rule.  The two agree because rules that run together do not
notice each other (`runRules_filter`).

What is set for a rule is said by `Config.Sets`, without going through presets in
order: an entry of the rule's own holds, and else the recommended preset, if it
is chosen at all.

`Filtered` sums up what this means for one document and one kind of run.
-/

set_option autoImplicit false

namespace GraphLint

/-! ## What is set for a rule -/

namespace Settings

/-- A name is set to what its entry says, and no name has two entries. -/
theorem get?_eq_some_iff {s : Settings} {name : String} {setting : RuleSetting} :
    s.get? name = some setting ↔ (name, setting) ∈ s.entries := by
  obtain ⟨entries, distinct⟩ := s
  unfold get?
  induction entries with
  | nil => exact ⟨nofun, nofun⟩
  | cons entry rest ih =>
      rw [List.map_cons, List.nodup_cons] at distinct
      obtain ⟨hnew, hrest⟩ := distinct
      rw [List.mem_cons]
      by_cases hname : entry.1 = name
      · rw [List.find?_cons_of_pos (by simpa using hname)]
        have hfirst : (name, setting) ∉ rest := by
          intro hmem
          exact hnew (hname ▸ List.mem_map_of_mem hmem)
        constructor
        · intro h
          cases h
          exact .inl (by rw [← hname])
        · rintro (rfl | hmem)
          · rfl
          · exact absurd hmem hfirst
      · rw [List.find?_cons_of_neg (by simpa using hname), ih hrest]
        constructor
        · exact .inr
        · rintro (rfl | hmem)
          · exact absurd rfl hname
          · exact hmem

theorem get?_eq_none_iff {s : Settings} {name : String} :
    s.get? name = none ↔ ∀ setting, (name, setting) ∉ s.entries := by
  constructor
  · intro hnone setting hmem
    rw [get?_eq_some_iff.mpr hmem] at hnone
    cases hnone
  · intro hall
    cases hget : s.get? name with
    | none => rfl
    | some setting => exact absurd (get?_eq_some_iff.mp hget) (hall setting)

/-- Setting a name sets no other. -/
theorem get?_insert_of_ne (s : Settings) {name other : String} (setting : RuleSetting)
    (hne : other ≠ name) : (s.insert name setting).get? other = s.get? other := by
  obtain ⟨entries, distinct⟩ := s
  show ((put name setting entries).find? _).map _ = (entries.find? _).map _
  clear distinct
  induction entries with
  | nil =>
      rw [put, List.find?_cons_of_neg (by simpa using hne.symm)]
  | cons entry rest ih =>
      unfold put
      split
      · next hname =>
          rw [List.find?_cons_of_neg (by simpa using hne.symm),
            List.find?_cons_of_neg (by simpa [hname] using hne.symm)]
      · by_cases hother : entry.1 = other
        · rw [List.find?_cons_of_pos (by simpa using hother),
            List.find?_cons_of_pos (by simpa using hother)]
        · rw [List.find?_cons_of_neg (by simpa using hother),
            List.find?_cons_of_neg (by simpa using hother)]
          exact ih

end Settings

namespace Config

/-- What a configuration sets for a rule; `none` stands for nothing. -/
inductive Sets (c : Config) (rule : String) : Option RuleSetting → Prop
  /-- The rule has an entry of its own, which may say `off`. -/
  | entry {setting : RuleSetting} (own : (rule, setting) ∈ c.settings.entries) :
    Sets c rule (some setting)
  /-- The rule has no entry of its own, and the recommended preset is chosen. -/
  | preset {presets : Presets} (own : ∀ setting, (rule, setting) ∉ c.settings.entries)
    (chosen : c.presets? = some presets) (recommended : recommendedName ∈ presets.names) :
    Sets c rule (recommendedSetting? rule)
  /-- The rule has no entry of its own, and the recommended preset is not chosen. -/
  | nothing (own : ∀ setting, (rule, setting) ∉ c.settings.entries)
    (chosen : ∀ presets, c.presets? = some presets → recommendedName ∉ presets.names) :
    Sets c rule none

/-- Presets set what the recommended one sets, if it is among them. -/
theorem settingOfPresets?_eq (presets : Presets) (rule : String) :
    settingOfPresets? presets rule =
      if recommendedName ∈ presets.names then recommendedSetting? rule else none := by
  -- The setting so far is overwritten, or stays if the preset sets nothing.
  have hfold : ∀ (names : List String) (sofar : Option RuleSetting),
      names.foldl (fun set preset => (presetSetting? rule preset).or set) sofar =
        if recommendedName ∈ names then (recommendedSetting? rule).or sofar else sofar := by
    intro names
    induction names with
    | nil =>
        intro sofar
        rw [if_neg List.not_mem_nil]
        rfl
    | cons preset names ih =>
        intro sofar
        rw [List.foldl_cons, ih]
        by_cases hpreset : preset = recommendedName
        · have hstep : presetSetting? rule preset = recommendedSetting? rule := if_pos hpreset
          have hmem : recommendedName ∈ preset :: names := hpreset ▸ List.mem_cons_self
          rw [hstep, if_pos hmem]
          split
          · cases recommendedSetting? rule <;> rfl
          · rfl
        · have hstep : presetSetting? rule preset = none := if_neg hpreset
          have hmem : recommendedName ∈ preset :: names ↔ recommendedName ∈ names := by
            rw [List.mem_cons, or_iff_right (Ne.symm hpreset)]
          rw [hstep, Option.none_or]
          simp only [hmem]
  have hpresets := hfold presets.names none
  rw [Option.or_none] at hpresets
  exact hpresets

theorem sets_setting? (c : Config) (rule : String) : c.Sets rule (c.setting? rule) := by
  unfold setting?
  cases hget : c.settings.get? rule with
  | some setting => exact .entry (Settings.get?_eq_some_iff.mp hget)
  | none =>
      have hown := Settings.get?_eq_none_iff.mp hget
      rw [Option.none_or]
      cases hchosen : c.presets? with
      | none =>
          refine .nothing hown ?_
          intro presets hpresets
          rw [hchosen] at hpresets
          cases hpresets
      | some presets =>
          show c.Sets rule (settingOfPresets? presets rule)
          rw [settingOfPresets?_eq]
          split
          · next hmem => exact .preset hown hchosen hmem
          · next hmem =>
              refine .nothing hown ?_
              intro others hothers
              rw [hchosen] at hothers
              cases hothers
              exact hmem

/-- A configuration sets one thing for a rule. -/
theorem sets_iff {c : Config} {rule : String} {setting : Option RuleSetting} :
    c.Sets rule setting ↔ c.setting? rule = setting := by
  constructor
  · intro hsets
    have hcomputed := c.sets_setting? rule
    generalize c.setting? rule = computed at hcomputed
    cases hsets with
    | entry own =>
        cases hcomputed with
        | entry own' =>
            have h := Settings.get?_eq_some_iff.mpr own
            rw [Settings.get?_eq_some_iff.mpr own'] at h
            exact h
        | preset none' => exact absurd own (none' _)
        | nothing none' => exact absurd own (none' _)
    | preset none' chosen recommended =>
        cases hcomputed with
        | entry own' => exact absurd own' (none' _)
        | preset => rfl
        | nothing _ unchosen => exact absurd recommended (unchosen _ chosen)
    | nothing none' unchosen =>
        cases hcomputed with
        | entry own' => exact absurd own' (none' _)
        | preset _ chosen recommended => exact absurd recommended (unchosen _ chosen)
        | nothing => rfl
  · rintro rfl
    exact c.sets_setting? rule

/-! ## What is made of a diagnostic -/

/-- What a configuration makes of a diagnostic: it drops it if the rule is off, and
else gives it the severity that is set for the rule. -/
def judge {ρ : Type} (c : Config) (d : Diagnostic ρ) : Option (Diagnostic ρ) :=
  match c.setting? d.rule with
  | some .error => some { d with severity := .error }
  | some .warn => some { d with severity := .warning }
  | some .off | none => none

theorem rule_of_judge {ρ : Type} {c : Config} {d e : Diagnostic ρ} (h : c.judge d = some e) :
    e.rule = d.rule := by
  unfold judge at h
  split at h <;> cases h <;> rfl

/-- Leaving out the diagnostics of rules that are off and relabelling the others is
judging them. -/
theorem map_relabel_filter {ρ : Type} (c : Config) (ds : List (Diagnostic ρ)) :
    (ds.filter (c.isEnabled ·.rule)).map c.relabel = ds.filterMap c.judge := by
  induction ds with
  | nil => rfl
  | cons d ds ih =>
      have hone : c.judge d = if c.isEnabled d.rule then some (c.relabel d) else none := by
        unfold judge isEnabled relabel severity?
        cases c.setting? d.rule with
        | none => rfl
        | some setting => cases setting <;> rfl
      rw [List.filter_cons, List.filterMap_cons, hone]
      split
      · rw [List.map_cons, ih]
      · exact ih

/-- Two configurations that agree on all rules but one make the same of the
diagnostics of the others. -/
theorem filter_filterMap_judge {ρ : Type} {c c' : Config} {rule : String}
    (hagree : ∀ other, other ≠ rule → c.setting? other = c'.setting? other)
    (ds : List (Diagnostic ρ)) :
    (ds.filterMap c.judge).filter (·.rule ≠ rule) =
      (ds.filterMap c'.judge).filter (·.rule ≠ rule) := by
  have hfilter : ∀ c : Config, (ds.filterMap c.judge).filter (·.rule ≠ rule) =
      (ds.filter (·.rule ≠ rule)).filterMap c.judge := by
    intro c
    rw [List.filter_filterMap, List.filterMap_filter]
    refine List.filterMap_congr ?_
    intro d _
    cases hd : c.judge d with
    | none => simp
    | some e =>
        have hrule := rule_of_judge hd
        by_cases hne : d.rule = rule <;> simp [Option.filter, hrule, hne]
  rw [hfilter, hfilter]
  refine List.filterMap_congr ?_
  intro d hd
  have hne : d.rule ≠ rule := by simpa using (List.mem_filter.mp hd).2
  unfold judge
  rw [hagree d.rule hne]

/-- The recommended preset sets for a rule what the rule itself says. -/
def Recommends {V : Type} (r : Rule V) : Prop :=
  (recommendedSetting? r.name).bind RuleSetting.severity? = some r.severity

theorem recommends_schemaRules : ∀ r ∈ Registry.schemaRules, Recommends r := by
  intro r hr
  rcases List.mem_pair.mp hr with rfl | rfl <;> rfl

theorem recommends_documentRules : ∀ r ∈ Registry.documentRules, Recommends r := by
  intro r hr
  obtain rfl := List.mem_singleton.mp hr
  rfl

/-- The default configuration leaves diagnostics of recommended rules as they are. -/
theorem judge_default {V : Type} {r : Rule V} (hr : Recommends r) (report : Report) :
    default.judge (r.stamp report) = some (r.stamp report) := by
  have hsetting : default.setting? r.name = recommendedSetting? r.name := by
    show settingOfPresets? (.one recommendedName) r.name = _
    rw [settingOfPresets?_eq]
    exact if_pos List.mem_cons_self
  unfold judge
  rw [show (r.stamp report).rule = r.name from rfl, hsetting]
  unfold Recommends at hr
  cases hrec : recommendedSetting? r.name with
  | none =>
      rw [hrec] at hr
      cases hr
  | some setting =>
      rw [hrec] at hr
      have hseverity : (r.stamp report).severity = r.severity := rfl
      cases setting with
      | off => cases hr
      | warn =>
          have hsame : Severity.warning = r.severity := Option.some.inj hr
          show some { r.stamp report with severity := .warning } = _
          rw [hsame]
          rfl
      | error =>
          have hsame : Severity.error = r.severity := Option.some.inj hr
          show some { r.stamp report with severity := .error } = _
          rw [hsame]
          rfl

end Config

/-! ## Validations -/

/-- What a kind of validation of a document has to do with the run of all its
rules. -/
structure Filtered (all : Except Fault (List (Diagnostic Extent)))
    (validated : Config → Except Fault (List (Diagnostic Extent))) : Prop where
  /-- The run of all rules comes to its end. -/
  ends : ∃ ds, all = .ok ds
  /-- A validation answers with what the configuration makes of the diagnostics of
  that run, in the same order. -/
  judged : ∀ c, validated c = all.map (·.filterMap c.judge)
  /-- Where two configurations differ in one rule, the diagnostics of all others are
  the same, in the same order. -/
  others : ∀ (c c' : Config) (rule : String),
    (∀ other, other ≠ rule → c.setting? other = c'.setting? other) →
    ∃ ds ds', validated c = .ok ds ∧ validated c' = .ok ds' ∧
      ds.filter (·.rule ≠ rule) = ds'.filter (·.rule ≠ rule)
  /-- So it is where a rule is set to something else. -/
  switched : ∀ presets settings rule setting,
    ∃ ds ds', validated (.full presets settings) = .ok ds ∧
      validated (.full presets (settings.insert rule setting)) = .ok ds' ∧
      ds.filter (·.rule ≠ rule) = ds'.filter (·.rule ≠ rule)
  /-- The default configuration changes nothing. -/
  default : validated .default = all

/-- A validation comes to its end, with what the configuration makes of all diagnostics. -/
theorem Filtered.exists_judged {all : Except Fault (List (Diagnostic Extent))}
    {validated : Config → Except Fault (List (Diagnostic Extent))} (h : Filtered all validated)
    (c : Config) : ∃ ds, all = .ok ds ∧ validated c = .ok (ds.filterMap c.judge) := by
  obtain ⟨ds, hds⟩ := h.ends
  refine ⟨ds, hds, ?_⟩
  rw [h.judged, hds]
  rfl

section

variable {V : Type} {tracker : Tracker V} {view : V} {tree : Tree} {rules : List (Rule V)}

/-- A run of the rules that a configuration enables, relabelled. -/
theorem runRules_enabled (htree : tracker.Restores view tree) {ds : List (Diagnostic Extent)}
    (hds : runRules tracker view rules tree = .ok ds) (c : Config) :
    (runRules tracker view (c.enabled rules) tree).map (·.map c.relabel) =
      .ok (ds.filterMap c.judge) := by
  have henabled := runRules_filter htree c.isEnabled hds
  rw [Config.enabled, henabled, ← c.map_relabel_filter]
  rfl

theorem filtered (htree : tracker.Restores view tree)
    (hends : ∃ ds, runRules tracker view rules tree = .ok ds)
    (hrules : ∀ r ∈ rules, Config.Recommends r) :
    Filtered (runRules tracker view rules tree)
      (fun c => (runRules tracker view (c.enabled rules) tree).map (·.map c.relabel)) := by
  obtain ⟨ds, hds⟩ := hends
  have hjudged := runRules_enabled htree hds
  have hothers : ∀ (c c' : Config) (rule : String),
      (∀ other, other ≠ rule → c.setting? other = c'.setting? other) →
      ∃ es es', (runRules tracker view (c.enabled rules) tree).map (·.map c.relabel) = .ok es ∧
        (runRules tracker view (c'.enabled rules) tree).map (·.map c'.relabel) = .ok es' ∧
        es.filter (·.rule ≠ rule) = es'.filter (·.rule ≠ rule) := by
    intro c c' rule hagree
    exact ⟨_, _, hjudged c, hjudged c', Config.filter_filterMap_judge hagree ds⟩
  refine ⟨⟨ds, hds⟩, ?_, hothers, ?_, ?_⟩
  · intro c
    rw [hds]
    exact hjudged c
  · intro presets settings rule setting
    refine hothers _ _ rule ?_
    intro other hne
    have hget := settings.get?_insert_of_ne setting hne
    show (settings.get? other).or _ = ((settings.insert rule setting).get? other).or _
    rw [hget]
    rfl
  · have hkept : ds.filterMap Config.default.judge = ds := by
      have hsome : ∀ d ∈ ds, Config.default.judge d = some d := by
        intro d hd
        obtain ⟨r, hr, report, rfl⟩ := exists_stamp_of_mem_runRules htree hds d hd
        exact Config.judge_default (hrules r hr) report
      rw [List.filterMap_congr hsome, List.filterMap_some]
    show (runRules tracker view (Config.default.enabled rules) tree).map _ = _
    rw [hjudged, hkept, hds]

end

theorem isTotal_schemaRules : ∀ r ∈ Registry.schemaRules, r.IsTotal := by
  intro r hr
  rcases List.mem_pair.mp hr with rfl | rfl
  · exact uniqueNames_isTotal
  · exact uniqueNames_isTotal

namespace Document

variable (d : Document)

theorem filtered_validateSchema (schema : Option TypeSystem) :
    Filtered (runSchemaRules schema Registry.schemaRules d.tree)
      (validateSchema · schema d.tree) :=
  have hrestores := Tracker.constant_restores schema d.tree
  filtered hrestores (runRules_of_isTotal hrestores isTotal_schemaRules)
    Config.recommends_schemaRules

theorem filtered_validateDocument (schema : TypeSystem) :
    Filtered (runDocumentRules schema Registry.documentRules d.tree)
      (validateDocument · schema d.tree) :=
  filtered (d.restores schema) (runRules_noDeprecated schema d) Config.recommends_documentRules

end Document

/-- Validating a document is running all rules and applying the configuration to
what they report.  What the configuration sets for a rule is the rule's own entry, or
else what the recommended preset sets, if it is chosen. -/
theorem Document.validations_filtered (d : Document) :
    (∀ (schema : Option TypeSystem),
      Filtered (runSchemaRules schema Registry.schemaRules d.tree)
        (validateSchema · schema d.tree)) ∧
    (∀ (schema : TypeSystem),
      Filtered (runDocumentRules schema Registry.documentRules d.tree)
        (validateDocument · schema d.tree)) ∧
    (∀ (c : Config) (rule : String) (setting : Option RuleSetting),
      c.Sets rule setting ↔ c.setting? rule = setting) :=
  ⟨d.filtered_validateSchema, d.filtered_validateDocument, fun _ _ _ => Config.sets_iff⟩

end GraphLint
