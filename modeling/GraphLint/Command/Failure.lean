import GraphLint.Config.Data
import GraphLint.Files.Collect
import GraphLint.Report.ExitStatus
import GraphLint.TypeSystem.Build

/-!
# Failures

What keeps a check from being made at all, and the status that it leads to.
-/

set_option autoImplicit false

namespace GraphLint

/-- Why a check is not made. -/
inductive Failure
  | config (path : String) (cause : ConfigError)
  | unreadableSchema (path : String) (cause : ReadError)
  | schema (cause : SchemaError)
  | inputs (cause : CollectError)
  deriving DecidableEq, Repr, Inhabited

namespace Failure

/-- The wording of a failure, from what was tried to the cause.  What keeps a
configuration file from being read is said twice: as part of what is wrong with
the configuration, and as the cause of that. -/
def message : Failure → String
  | config path cause =>
    let headline := "Failed to load config: " ++ path ++ ": " ++ cause.message
    match cause with
    | .unreadable e => headline ++ ": " ++ e.message
    | _ => headline
  | unreadableSchema path cause =>
    "Failed to read schema file: " ++ path ++ ": " ++ cause.message
  | schema cause => cause.message
  | inputs cause => cause.headline ++ ": " ++ cause.reason

def status : Failure → ExitStatus
  | config _ _ => .configurationError
  | unreadableSchema _ _ => .inputError
  | schema _ => .schemaError
  | inputs (.pattern _ _) => .configurationError
  | inputs (.listing _ _) => .inputError
  | inputs (.file _ _) => .inputError

end Failure

end GraphLint
