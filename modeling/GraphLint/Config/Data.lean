import GraphLint.Config.Basic
import GraphLint.Data.Json
import GraphLint.Data.Yaml
import GraphLint.Files.System

/-!
# Configurations as data

How configurations are written in data formats, and which files hold them.

A string, or a list of strings, is a choice of presets, and nothing else.  A full
configuration is a map with the keys `extends` and `rules`, or a list of their
values in that order, of which the second may be left out.  A key may also be the
number of its place in that order, from zero on.  `extends` may be nothing, which
is as good as absent.  A setting is one of the words for it; `off` may also be
written as false, because YAML reads the bare word so.
-/

set_option autoImplicit false

namespace GraphLint

/-! ## From data -/

def RuleSetting.ofDatum? : Datum → Option RuleSetting
  | .string text => ofLabel? text
  | .bool false => some .off
  | _ => none

def Presets.ofDatum? : Datum → Option Presets
  | .string name => some (.one name)
  | .list items => (Datum.strings? (.list items)).map .many
  | _ => none

/-- The presets that a value writes; nothing stands for no presets. -/
def Presets.ofOptionalDatum? : Datum → Option (Option Presets)
  | .null => some none
  | d => (ofDatum? d).map some

/-- The settings that a map writes.  The last entry of a name holds. -/
def Settings.ofDatum? : Datum → Option Settings
  | .map entries =>
    (entries.mapM fun ((key, value) : Datum × Datum) => do
      return (← key.string?, ← RuleSetting.ofDatum? value)).map Settings.ofList
  | _ => none

namespace Config

def presetsKey : String := "extends"

def settingsKey : String := "rules"

/-- The values of the two keys of a full configuration, as far as they are read. -/
structure Parts where
  presets : Option (Option Presets)
  settings : Option Settings
  deriving DecidableEq, Repr, Inhabited

/-- Whether a key is a name, or the number of the place that goes with it. -/
def isKey (name : String) (place : Nat) : Datum → Bool
  | .string text => text = name
  | .number text => text = toString place
  | _ => false

/-- Reads one more entry of a full configuration.  Each key is read once. -/
def Parts.read? (parts : Parts) (entry : Datum × Datum) : Option Parts := do
  if isKey presetsKey 0 entry.1 ∧ parts.presets.isNone then
    let presets ← Presets.ofOptionalDatum? entry.2
    return { parts with presets := some presets }
  else if isKey settingsKey 1 entry.1 ∧ parts.settings.isNone then
    let settings ← Settings.ofDatum? entry.2
    return { parts with settings := some settings }
  else
    none

/-- The full configuration that a value writes. -/
def fullOfDatum? : Datum → Option Config
  | .map entries => do
    let parts ← entries.foldlM Parts.read? ⟨none, none⟩
    return .full parts.presets.join (parts.settings.getD .empty)
  | .list [presets] => do
    return .full (← Presets.ofOptionalDatum? presets) .empty
  | .list [presets, settings] => do
    return .full (← Presets.ofOptionalDatum? presets) (← Settings.ofDatum? settings)
  | _ => none

/-- The configuration that a value writes.  What can be read as presets is. -/
def ofDatum? (d : Datum) : Option Config :=
  match Presets.ofDatum? d with
  | some presets => some (.preset presets)
  | none => fullOfDatum? d

end Config

/-! ## To data -/

def RuleSetting.toDatum (s : RuleSetting) : Datum := .string s.label

def Presets.toDatum : Presets → Datum
  | one name => .string name
  | many names => .list (names.map .string)

def Settings.toDatum (s : Settings) : Datum :=
  .object (s.entries.map fun (name, setting) => (name, setting.toDatum))

/-- How a configuration is written.  Parts that say nothing are left out. -/
def Config.toDatum : Config → Datum
  | preset presets => presets.toDatum
  | full presets settings =>
    .object
      ((presets.map fun p => (presetsKey, p.toDatum)).toList ++
        if settings.entries.isEmpty then [] else [(settingsKey, settings.toDatum)])

/-! ## Configuration files -/

/-- Why a file holds no configuration. -/
inductive ConfigError
  | unreadable (cause : ReadError)
  | invalid (path : String)
  /-- The name of the file does not say which format it has. -/
  | unsupportedFormat (path : String)
  | unknownNames (names : Config.UnknownNames)
  deriving DecidableEq, Repr, Inhabited

def ConfigError.message : ConfigError → String
  | unreadable cause => "failed to read config file: " ++ cause.message
  | invalid path => "invalid config file " ++ path ++ ": it writes no configuration"
  | unsupportedFormat path =>
    "unsupported config format " ++ path ++ " (expected .yml, .yaml or .json)"
  | unknownNames names => names.message

inductive ConfigFormat
  | yaml
  | json
  deriving DecidableEq, Repr, Inhabited

/-- The format that a path's extension stands for, in any case of its letters. -/
def ConfigFormat.ofPath? (path : String) : Option ConfigFormat :=
  match (Path.extension? path).map (·.map Char.toLower) with
  | some "yml" | some "yaml" => some .yaml
  | some "json" => some .json
  | _ => none

/-- The value that a text writes in a format. -/
def ConfigFormat.parse? : ConfigFormat → String → Option Datum
  | .yaml => Yaml.parse?
  | .json => Json.parse?

namespace Config

/-- A configuration all of whose names exist. -/
def checkNames (c : Config) : Except ConfigError Config :=
  match c.unknownNames? with
  | some names => .error (.unknownNames names)
  | none => .ok c

/-- The configuration that a text writes; the path says in which format. -/
def parse (text path : String) : Except ConfigError Config :=
  match ConfigFormat.ofPath? path with
  | none => .error (.unsupportedFormat path)
  | some format =>
    match (format.parse? text).bind ofDatum? with
    | none => .error (.invalid path)
    | some c => c.checkNames

/-- The configuration in the file under a path. -/
def ofFile (fs : FileSystem) (path : String) : Except ConfigError Config :=
  match fs.readText path with
  | .error e => .error (.unreadable e)
  | .ok text => parse text path

end Config

end GraphLint
