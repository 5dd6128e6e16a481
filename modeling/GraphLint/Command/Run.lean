import GraphLint.Command.Output

/-!
# Running a command

A check goes through stages: the configuration, the schema, the files to check,
and the check itself.  The first stage that fails decides how the run ends, and
what was written before stays written.
-/

set_option autoImplicit false

namespace GraphLint

/-- How a run ends. -/
structure Outcome where
  stdout : String
  stderr : String
  code : Nat
  deriving DecidableEq, Repr, Inhabited

/-- What files are checked against. -/
inductive Standard
  | documents (schema : TypeSystem)
  /-- Schemas are checked by themselves, or as additions to another one. -/
  | schemas (base : Option TypeSystem)
  deriving Inhabited

namespace Standard

def subject : Standard → String
  | documents _ => "document"
  | schemas _ => "schema"

def check (config : Config) : Standard → InputFile → Except Fault FileReport
  | documents schema => FileReport.ofDocument config schema
  | schemas base => FileReport.ofSchema config base

/-- What is written before the files are collected. -/
def notice (v : Voice) : Standard → String
  | documents _ => v.schemaLoaded
  | schemas _ => ""

end Standard

/-! ## Loading -/

/-- The configuration of a run; without a path it is the default one. -/
def loadConfig (fs : FileSystem) (path : Option String) : Except Failure Config :=
  match path with
  | none => .ok .default
  | some path =>
    match Config.ofFile fs path with
    | .ok config => .ok config
    | .error e => .error (.config path e)

def loadSchemaFile (fs : FileSystem) (path : String) : Except Failure Document :=
  match fs.readText path with
  | .error e => .error (.unreadableSchema path e)
  | .ok text =>
    match readSchema path text with
    | .ok document => .ok document
    | .error e => .error (.schema e)

/-- The type system of schema files.  The first file that is no good decides the
failure. -/
def loadSchema (fs : FileSystem) (paths : List String) : Except Failure TypeSystem := do
  return .ofDocuments (← paths.mapM (loadSchemaFile fs))

def loadStandard (fs : FileSystem) (i : Invocation) : Except Failure Standard :=
  match i.command with
  | .validate => (loadSchema fs i.schemas).map .documents
  | .checkSchema =>
    if i.schemas = [] then .ok (.schemas none)
    else (loadSchema fs i.schemas).map (.schemas ∘ some)

def loadInputs (fs : FileSystem) (i : Invocation) : Except Failure (List InputFile) :=
  match collectFiles fs i.inputs with
  | .ok files => .ok files
  | .error e => .error (.inputs e)

/-! ## Checking -/

namespace Invocation

def voice (i : Invocation) (around : Surroundings) : Voice where
  format := i.format
  coloured := i.colour.decide around
  quiet := i.quiet

/-- How a run ends that a failure keeps from its check. -/
def failed (v : Voice) (written : String) (f : Failure) : Outcome :=
  ⟨written, v.failure f, f.status.code⟩

/-- How a run ends that has files to check, or has not. -/
def checked (v : Voice) (config : Config) (standard : Standard) (files : List InputFile) :
    Except Fault Outcome :=
  let notice := standard.notice v
  if files = [] then
    .ok ⟨notice, v.noFiles standard.subject, ExitStatus.configurationError.code⟩
  else
    (files.mapM (standard.check config)).map fun reports =>
      ⟨notice ++ v.reports reports, "", (ExitStatus.ofReports reports).code⟩

def run (i : Invocation) (around : Surroundings) (fs : FileSystem) : Except Fault Outcome :=
  let v := i.voice around
  match loadConfig fs i.config with
  | .error f => .ok (failed v "" f)
  | .ok config =>
    match loadStandard fs i with
    | .error f => .ok (failed v "" f)
    | .ok standard =>
      match loadInputs fs i with
      | .error f => .ok (failed v (standard.notice v) f)
      | .ok files => checked v config standard files

end Invocation

/-! ## Command lines -/

namespace Command

def programName : String := "graphql"

def versionLine : String := programName ++ " 0.1.0\n"

def helpText : String :=
  "Usage: " ++ programName ++ " [OPTIONS] <COMMAND>\n\n" ++
  "Commands:\n" ++
  "  validate -s <FILE>... <DOCUMENT_GLOB>...   Check documents against a schema\n" ++
  "  check-schema [-b <FILE>]... <SDL_FILE>...  Check schemas for repeated definitions\n" ++
  "  help [COMMAND]                             Print this text\n\n" ++
  "Options:\n" ++
  "  -c, --config <FILE>    Configuration file (.yml, .yaml or .json)\n" ++
  "  -f, --format <FORMAT>  Output format: human (default) or json\n" ++
  "      --color            Colour the output whatever it goes to\n" ++
  "      --no-color         Do not colour the output\n" ++
  "  -q, --quiet            Print findings and errors only\n" ++
  "  -h, --help             Print this text\n" ++
  "  -V, --version          Print the version\n"

/-- The exit code of a command line that asks for nothing. -/
def usageCode : Nat := 2

/-- How the program ends, given the words on its command line. -/
def run (words : List String) (around : Surroundings) (fs : FileSystem) :
    Except Fault Outcome :=
  match Request.ofWords words with
  | .ok (.check invocation) => invocation.run around fs
  | .ok .help => .ok ⟨helpText, "", 0⟩
  | .ok .version => .ok ⟨versionLine, "", 0⟩
  | .error e => .ok ⟨"", "error: " ++ e.message ++ "\n\n" ++ helpText, usageCode⟩

end Command

end GraphLint
