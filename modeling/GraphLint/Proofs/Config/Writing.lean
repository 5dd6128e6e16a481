import GraphLint.Config.Data
import GraphLint.Proofs.Data.Json
import GraphLint.Proofs.Validation.Filtering
import Mathlib.Data.List.Sort

/-!
# Configurations survive being written

A configuration that is written as JSON and read again is the same one: presets stay
presets, one by itself stays apart from a list of one, and a full configuration stays
full even if it says nothing.  Each written form is taken by the reading it is meant
for, and by none that is tried before.

Settings are a map, so their order says nothing and a writer may choose it.  `Same`
is equality up to that order; all that is asked of a configuration is the same for
both (`Same.setting?`, `Same.unknownNames?`).
-/

set_option autoImplicit false

namespace GraphLint

/-! ## Settings -/

namespace Settings

theorem put_of_not_mem {name : String} {setting : RuleSetting}
    {entries : List (String × RuleSetting)} (h : name ∉ entries.map (·.1)) :
    put name setting entries = entries ++ [(name, setting)] := by
  induction entries with
  | nil => rfl
  | cons entry rest ih =>
      rw [List.map_cons, List.mem_cons, not_or] at h
      rw [put, if_neg (Ne.symm h.1), ih h.2, List.cons_append]

/-- Entries of new names are put behind the others. -/
theorem entries_foldl_insert (s : Settings) (entries : List (String × RuleSetting))
    (h : ((s.entries ++ entries).map (·.1)).Nodup) :
    (entries.foldl (fun s (name, setting) => s.insert name setting) s).entries =
      s.entries ++ entries := by
  induction entries generalizing s with
  | nil => rw [List.foldl_nil, List.append_nil]
  | cons entry entries ih =>
      have hnew : entry.1 ∉ s.entries.map (·.1) := by
        intro hmem
        rw [List.map_append, List.map_cons] at h
        exact (List.nodup_append.mp h).2.2 _ hmem _ List.mem_cons_self rfl
      have hput : (s.insert entry.1 entry.2).entries = s.entries ++ [entry] := put_of_not_mem hnew
      have hrest := ih (s.insert entry.1 entry.2) (by
        rw [hput, List.append_assoc, List.singleton_append]
        exact h)
      rw [List.foldl_cons, hrest, hput, List.append_assoc, List.singleton_append]

/-- Settings are made up of their entries. -/
theorem ofList_entries (s : Settings) : ofList s.entries = s := by
  have h := empty.entries_foldl_insert s.entries s.distinct
  obtain ⟨entries, distinct⟩ := s
  exact Settings.mk.injEq .. ▸ h

theorem get?_of_perm {s s' : Settings} (h : s.entries.Perm s'.entries) (name : String) :
    s.get? name = s'.get? name := by
  apply Option.ext
  intro setting
  rw [get?_eq_some_iff, get?_eq_some_iff]
  exact h.mem_iff

end Settings

/-! ## The same configuration -/

/-- Two configurations differ in the order of their settings at most. -/
inductive Config.Same : Config → Config → Prop
  | preset (presets : Presets) : Same (.preset presets) (.preset presets)
  | full (presets : Option Presets) {s s' : Settings} (perm : s.entries.Perm s'.entries) :
    Same (.full presets s) (.full presets s')

namespace Config

theorem Same.presets? {c c' : Config} (h : c.Same c') : c.presets? = c'.presets? := by
  cases h <;> rfl

theorem Same.entries {c c' : Config} (h : c.Same c') :
    c.settings.entries.Perm c'.settings.entries := by
  cases h with
  | preset presets => exact .refl _
  | full presets perm => exact perm

theorem Same.setting? {c c' : Config} (h : c.Same c') (rule : String) :
    c.setting? rule = c'.setting? rule := by
  unfold Config.setting?
  rw [Settings.get?_of_perm h.entries, h.presets?]

theorem Same.isEnabled {c c' : Config} (h : c.Same c') (rule : String) :
    c.isEnabled rule = c'.isEnabled rule := by
  unfold Config.isEnabled severity?
  rw [h.setting?]

theorem pairwise_mergeSort (names : List String) :
    (names.mergeSort fun a b => decide (a ≤ b)).Pairwise (· ≤ ·) := by
  refine (List.pairwise_mergeSort ?_ ?_ names).imp of_decide_eq_true
  · intro a b c hab hbc
    exact decide_eq_true (String.le_trans (of_decide_eq_true hab) (of_decide_eq_true hbc))
  · intro a b
    rw [← Bool.decide_or]
    exact decide_eq_true (String.le_total a b)

/-- Sorting leaves nothing of the order in which names come. -/
theorem mergeSort_eq_of_perm {names names' : List String} (h : names.Perm names') :
    names.mergeSort (fun a b => decide (a ≤ b)) = names'.mergeSort (fun a b => decide (a ≤ b)) := by
  refine List.Perm.eq_of_pairwise (fun a b _ _ => String.le_antisymm) (pairwise_mergeSort names)
    (pairwise_mergeSort names') ?_
  exact ((List.mergeSort_perm names _).trans h).trans (List.mergeSort_perm names' _).symm

/-- Unknown rules are listed in one order, whatever the order of the settings. -/
theorem Same.unknownNames? {c c' : Config} (h : c.Same c') :
    c.unknownNames? = c'.unknownNames? := by
  have hperm : (c.settings.names.filter (!Registry.ruleNames.contains ·)).Perm
      (c'.settings.names.filter (!Registry.ruleNames.contains ·)) :=
    (h.entries.map _).filter _
  dsimp only [Config.unknownNames?]
  rw [h.presets?, mergeSort_eq_of_perm hperm, hperm.isEmpty_eq]

/-! ## Writing and reading -/

end Config

theorem Presets.ofDatum?_toDatum (p : Presets) : ofDatum? p.toDatum = some p := by
  cases p with
  | one name => rfl
  | many names =>
      have hitems : (names.map Datum.string).mapM Datum.string? = some names := by
        rw [List.mapM_map]
        exact List.mapM_pure.trans (congrArg some (List.map_id names))
      show ((names.map Datum.string).mapM Datum.string?).map _ = _
      rw [hitems]
      rfl

theorem Presets.ofOptionalDatum?_toDatum (p : Presets) :
    ofOptionalDatum? p.toDatum = some (some p) := by
  have hread := p.ofDatum?_toDatum
  cases p <;> exact congrArg (Option.map some) hread

theorem RuleSetting.ofDatum?_toDatum (s : RuleSetting) : ofDatum? s.toDatum = some s :=
  ofLabel?_label s

/-- The entry of settings that an entry of a map writes. -/
def Settings.pair? (entry : Datum × Datum) : Option (String × RuleSetting) := do
  return (← entry.1.string?, ← RuleSetting.ofDatum? entry.2)

theorem Settings.ofDatum?_map (entries : List (Datum × Datum)) :
    ofDatum? (.map entries) = (entries.mapM pair?).map ofList := rfl

theorem Settings.ofDatum?_toDatum (s : Settings) : ofDatum? s.toDatum = some s := by
  have hentry : (pair? ∘ fun (key, value) => (.string key, value)) ∘
      (fun (name, setting) => (name, RuleSetting.toDatum setting)) = pure := by
    funext (name, setting)
    show (RuleSetting.ofDatum? setting.toDatum).bind _ = _
    rw [RuleSetting.ofDatum?_toDatum]
    rfl
  rw [toDatum, Datum.object, ofDatum?_map, List.mapM_map, List.mapM_map, hentry]
  have hmapM : s.entries.mapM (pure : _ → Option (String × RuleSetting)) = some s.entries :=
    List.mapM_pure.trans (congrArg some (List.map_id _))
  rw [hmapM, Option.map_some, s.ofList_entries]

namespace Config

theorem Parts.read?_presets (parts : Parts) (h : parts.presets = none) (p : Presets) :
    parts.read? (.string presetsKey, p.toDatum) = some { parts with presets := some (some p) } := by
  have hkey : isKey presetsKey 0 (.string presetsKey) := by decide
  rw [read?, if_pos ⟨hkey, Option.isNone_iff_eq_none.mpr h⟩, Presets.ofOptionalDatum?_toDatum]
  rfl

theorem Parts.read?_settings (parts : Parts) (h : parts.settings = none) (s : Settings) :
    parts.read? (.string settingsKey, s.toDatum) = some { parts with settings := some s } := by
  have hother : ¬isKey presetsKey 0 (.string settingsKey) := by decide
  have hkey : isKey settingsKey 1 (.string settingsKey) := by decide
  rw [read?, if_neg (fun hpresets => hother hpresets.1),
    if_pos ⟨hkey, Option.isNone_iff_eq_none.mpr h⟩, Settings.ofDatum?_toDatum]
  rfl

theorem foldlM_read?_presets (presets : Option Presets) :
    (Json.keyed (presets.map fun p => (presetsKey, p.toDatum)).toList).foldlM Parts.read?
      ⟨none, none⟩ = some ⟨presets.map some, none⟩ := by
  cases presets with
  | none => rfl
  | some p =>
      show (Parts.read? ⟨none, none⟩ (.string presetsKey, p.toDatum)).bind _ = _
      rw [Parts.read?_presets _ rfl]
      rfl

/-- Settings are read as they are, whether they are written or left out. -/
theorem foldlM_read?_settings (presets : Option (Option Presets)) (s : Settings) :
    ∃ settings, (Json.keyed (if s.entries.isEmpty then [] else
      [(settingsKey, s.toDatum)])).foldlM Parts.read? ⟨presets, none⟩ = some ⟨presets, settings⟩ ∧
      settings.getD .empty = s := by
  obtain ⟨entries, distinct⟩ := s
  cases entries with
  | nil => exact ⟨none, rfl, rfl⟩
  | cons entry entries =>
      refine ⟨some ⟨entry :: entries, distinct⟩, ?_, rfl⟩
      show (Parts.read? ⟨presets, none⟩ (.string settingsKey, Settings.toDatum _)).bind _ = _
      rw [Parts.read?_settings _ rfl]
      rfl

theorem fullOfDatum?_toDatum (presets : Option Presets) (s : Settings) :
    fullOfDatum? (full presets s).toDatum = some (.full presets s) := by
  obtain ⟨settings, hsettings, hs⟩ := foldlM_read?_settings (presets.map some) s
  show (List.foldlM Parts.read? _ (Json.keyed (_ ++ _))).bind _ = _
  rw [Json.keyed, List.map_append, List.foldlM_append]
  show (Option.bind (List.foldlM _ _ (Json.keyed _)) _).bind _ = _
  rw [foldlM_read?_presets, Option.bind_some]
  show (List.foldlM Parts.read? _ (Json.keyed _)).bind _ = _
  rw [hsettings, Option.bind_some, hs]
  cases presets <;> rfl

theorem ofDatum?_toDatum (c : Config) : ofDatum? c.toDatum = some c := by
  cases c with
  | preset presets =>
      unfold ofDatum?
      rw [show (preset presets).toDatum = presets.toDatum from rfl, presets.ofDatum?_toDatum]
  | full presets settings =>
      -- An object is not taken for presets.
      have hnone : Presets.ofDatum? (full presets settings).toDatum = none := rfl
      unfold ofDatum?
      rw [hnone]
      exact fullOfDatum?_toDatum presets settings

/-! ## JSON texts -/

/-- The configuration that a JSON text writes, whatever its names. -/
def ofJson? (text : String) : Option Config := (Json.parse? text).bind ofDatum?

/-- The JSON text of a configuration. -/
def toJson (c : Config) (layout : Json.Layout) : String := Json.render layout c.toDatum

theorem isTextual_presets (p : Presets) : p.toDatum.IsTextual := by
  cases p with
  | one name => exact .string name
  | many names =>
      refine .list fun d hd => ?_
      obtain ⟨name, _, rfl⟩ := List.mem_map.mp hd
      exact .string name

theorem isTextual_settings (s : Settings) : s.toDatum.IsTextual := by
  refine .object fun entry he => ?_
  obtain ⟨⟨_, setting⟩, _, rfl⟩ := List.mem_map.mp he
  exact .string setting.label

theorem isTextual_toDatum (c : Config) : c.toDatum.IsTextual := by
  cases c with
  | preset presets => exact isTextual_presets presets
  | full presets settings =>
      refine .object fun entry he => ?_
      rcases List.mem_append.mp he with hpresets | hsettings
      · obtain ⟨p, _, rfl⟩ := Option.map_eq_some_iff.mp (Option.mem_toList.mp hpresets)
        exact isTextual_presets p
      · split at hsettings
        · cases hsettings
        · obtain rfl := List.mem_singleton.mp hsettings
          exact isTextual_settings settings

theorem ofJson?_toJson (c : Config) (layout : Json.Layout) :
    ofJson? (c.toJson layout) = some c := by
  unfold ofJson? toJson
  rw [Json.parse?_render c.isTextual_toDatum, Option.bind_some, ofDatum?_toDatum]

/-- What becomes of a configuration `c` that is written with its settings in the order that
they have in `written`. -/
structure Survives (c written : Config) (layout : Json.Layout) : Prop where
  /-- The value that is written is read as what was written. -/
  datum : ofDatum? written.toDatum = some written
  /-- So is its text. -/
  text : ofJson? (written.toJson layout) = some written
  /-- What was written sets the same for each rule. -/
  setting : ∀ rule, written.setting? rule = c.setting? rule
  /-- The same rules run. -/
  enabled : ∀ rule, written.isEnabled rule = c.isEnabled rule
  /-- The same names are unknown, and the same is said of them. -/
  names : written.unknownNames? = c.unknownNames?

/-- A configuration survives being written, in either layout and with its settings in any
order.  Writing and reading once more changes nothing of what any value or any text is read
as, whichever of its forms it uses. -/
theorem restored_from_json {c written : Config} (h : c.Same written) (layout : Json.Layout) :
    Survives c written layout ∧
    (∀ d : Datum, (ofDatum? d).bind (fun read => ofDatum? read.toDatum) = ofDatum? d) ∧
    (∀ text, (ofJson? text).bind (fun read => ofJson? (read.toJson layout)) = ofJson? text) := by
  refine ⟨?_, fun d => ?_, fun text => ?_⟩
  · exact {
      datum := written.ofDatum?_toDatum
      text := written.ofJson?_toJson layout
      setting := fun rule => (h.setting? rule).symm
      enabled := fun rule => (h.isEnabled rule).symm
      names := h.unknownNames?.symm }
  · simp only [ofDatum?_toDatum, Option.bind_fun_some]
  · simp only [ofJson?_toJson, Option.bind_fun_some]

/-- Presets in a list, of which one is unknown, and settings whose names need escapes. -/
def quaint : Config :=
  .full (some (.many ["recommended", "sa\"y\n"]))
    ⟨[("no_deprecated", .off), ("\x01\\", .warn)], by decide⟩

/-- The same with its settings the other way round. -/
def quaintTurned : Config :=
  .full (some (.many ["recommended", "sa\"y\n"]))
    ⟨[("\x01\\", .warn), ("no_deprecated", .off)], by decide⟩

theorem restored_from_json_quaint : quaint.Same quaintTurned ∧ quaint ≠ quaintTurned ∧
    Survives quaint quaintTurned .lines :=
  have same : quaint.Same quaintTurned := .full _ (.swap _ _ _)
  ⟨same, by decide, (restored_from_json same .lines).1⟩

end Config

end GraphLint
