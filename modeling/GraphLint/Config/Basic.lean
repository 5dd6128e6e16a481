import GraphLint.Data.Datum
import GraphLint.Rule.Registry

/-!
# Configurations

A configuration says which rules run and how much their reports matter.  It is
either a choice of presets or a full configuration: presets, perhaps, and
settings of single rules, which win over the presets.

A rule runs if its setting is `warn` or `error`.  A rule without any setting
does not run.
-/

set_option autoImplicit false

namespace GraphLint

/-- What can be set for a rule. -/
inductive RuleSetting
  | off
  | warn
  | error
  deriving DecidableEq, Repr, Inhabited

namespace RuleSetting

def label : RuleSetting → String
  | off => "off"
  | warn => "warn"
  | error => "error"

/-- The setting that a word stands for. -/
def ofLabel? : String → Option RuleSetting
  | "off" => some off
  | "warn" => some warn
  | "error" => some error
  | _ => none

/-- The severity of a rule's reports, if the rule runs. -/
def severity? : RuleSetting → Option Severity
  | off => none
  | warn => some .warning
  | error => some .error

@[simp] theorem ofLabel?_label (s : RuleSetting) : ofLabel? s.label = some s := by
  cases s <;> rfl

end RuleSetting

/-- A choice of presets. -/
inductive Presets
  | one (name : String)
  | many (names : List String)
  deriving DecidableEq, Repr, Inhabited

def Presets.names : Presets → List String
  | one name => [name]
  | many names => names

/-! ## Settings by name -/

/-- Settings of rules, at most one for each name. -/
structure Settings where
  entries : List (String × RuleSetting)
  distinct : (entries.map (·.1)).Nodup
  deriving DecidableEq, Repr

namespace Settings

def empty : Settings := ⟨[], List.nodup_nil⟩

instance : Inhabited Settings := ⟨empty⟩

def get? (s : Settings) (name : String) : Option RuleSetting :=
  (s.entries.find? (·.1 = name)).map (·.2)

/-- Puts a setting in place of the one with its name, or behind the others. -/
def put (name : String) (setting : RuleSetting) :
    List (String × RuleSetting) → List (String × RuleSetting)
  | [] => [(name, setting)]
  | entry :: rest =>
    if entry.1 = name then (name, setting) :: rest else entry :: put name setting rest

theorem mem_names_put {name other : String} {setting : RuleSetting}
    {entries : List (String × RuleSetting)} :
    other ∈ (put name setting entries).map (·.1) ↔
      other = name ∨ other ∈ entries.map (·.1) := by
  induction entries with
  | nil => simp [put]
  | cons entry rest ih =>
    unfold put
    split
    · next h => simp [h]
    · rw [List.map_cons, List.mem_cons, ih, List.map_cons, List.mem_cons]
      exact or_left_comm

theorem nodup_put {name : String} {setting : RuleSetting} {entries : List (String × RuleSetting)}
    (h : (entries.map (·.1)).Nodup) : ((put name setting entries).map (·.1)).Nodup := by
  induction entries with
  | nil => simp [put]
  | cons entry rest ih =>
    rw [List.map_cons, List.nodup_cons] at h
    unfold put
    split
    · next heq => simpa [← heq] using h
    · next hne =>
      rw [List.map_cons, List.nodup_cons, mem_names_put]
      exact ⟨fun hm => hm.elim hne h.1, ih h.2⟩

/-- Sets a name, in place of what was set for it before. -/
def insert (s : Settings) (name : String) (setting : RuleSetting) : Settings :=
  ⟨put name setting s.entries, nodup_put s.distinct⟩

/-- The settings of a list of entries.  The last entry of a name holds. -/
def ofList (entries : List (String × RuleSetting)) : Settings :=
  entries.foldl (fun s (name, setting) => s.insert name setting) empty

def names (s : Settings) : List String := s.entries.map (·.1)

end Settings

/-! ## Configurations -/

/-- Which rules run, and how much their reports matter. -/
inductive Config
  | preset (presets : Presets)
  /-- Presets, perhaps, and settings that win over them. -/
  | full (presets : Option Presets) (settings : Settings)
  deriving DecidableEq, Repr, Inhabited

namespace Config

/-- The name of the one preset there is. -/
def recommendedName : String := "recommended"

/-- The configuration that is used where none is given. -/
def default : Config := .preset (.one recommendedName)

/-- What the recommended preset sets for a rule: names have to be unique, and
what is deprecated can still be used. -/
def recommendedSetting? : String → Option RuleSetting
  | "unique_directive_names" | "unique_type_names" => some .error
  | "no_deprecated" => some .warn
  | _ => none

/-- What a preset sets for a rule; a preset of another name sets nothing. -/
def presetSetting? (rule preset : String) : Option RuleSetting :=
  if preset = recommendedName then recommendedSetting? rule else none

/-- What presets set for a rule.  Later presets win over earlier ones. -/
def settingOfPresets? (presets : Presets) (rule : String) : Option RuleSetting :=
  presets.names.foldl (fun set preset => (presetSetting? rule preset).or set) none

def presets? : Config → Option Presets
  | preset presets => some presets
  | full presets _ => presets

def settings : Config → Settings
  | preset _ => .empty
  | full _ settings => settings

/-- What a configuration sets for a rule. -/
def setting? (c : Config) (rule : String) : Option RuleSetting :=
  (c.settings.get? rule).or (c.presets?.bind (settingOfPresets? · rule))

/-- The severity of a rule's reports, if the rule runs. -/
def severity? (c : Config) (rule : String) : Option Severity :=
  (c.setting? rule).bind RuleSetting.severity?

def isEnabled (c : Config) (rule : String) : Bool := (c.severity? rule).isSome

/-! ## Names that exist -/

/-- A name in a configuration that stands for nothing. -/
inductive UnknownNames
  | preset (name : String)
  /-- There are no such rules; the names are sorted. -/
  | rules (names : List String)
  deriving DecidableEq, Repr, Inhabited

/-- What is said of unknown names; it lists the names there are. -/
def UnknownNames.message : UnknownNames → String
  | preset name =>
    "Invalid preset name: '" ++ name ++ "'\n\nValid presets are:\n  - " ++ recommendedName
  | rules names =>
    "Invalid rule name(s): " ++ ", ".intercalate names ++ "\n\nValid rule names are:\n" ++
      String.join (Registry.ruleNames.map fun rule => "  - " ++ rule ++ "\n")

/-- The names in a configuration that stand for nothing.  The first unknown
preset counts more than all unknown rules. -/
def unknownNames? (c : Config) : Option UnknownNames :=
  let presets := (c.presets?.map Presets.names).getD []
  match presets.find? (· ≠ recommendedName) with
  | some name => some (.preset name)
  | none =>
    let rules := c.settings.names.filter (!Registry.ruleNames.contains ·)
    if rules.isEmpty then none
    else some (.rules (rules.mergeSort fun a b => decide (a ≤ b)))

end Config

end GraphLint
