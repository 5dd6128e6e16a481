import GraphLint.Command.Arguments
import GraphLint.Command.Failure
import GraphLint.Data.Json
import GraphLint.Report.Finding
import GraphLint.Report.Summary

/-!
# Output

The texts that a check writes: for people, with colours perhaps, or for tools, in
JSON.  All of them end with a newline.
-/

set_option autoImplicit false

namespace GraphLint

structure Voice where
  format : OutputFormat
  coloured : Bool
  /-- Whether only findings and errors are written. -/
  quiet : Bool
  deriving DecidableEq, Repr, Inhabited

namespace Voice

def paint (v : Voice) (s : Style) (text : String) : String := s.paint v.coloured text

def cross (v : Voice) : String := v.paint (.strong .red) "✗"

/-- The line of a finding: errors are red, all else is yellow. -/
def finding (v : Voice) (f : Finding) : String :=
  v.paint (.plain (if f.severity.isError then .red else .yellow)) f.line ++ "\n"

/-- The line that sums a check up.  It stands apart from findings. -/
def summary (v : Voice) (s : Summary) : String :=
  if s.isClean then
    v.paint (.strong .green) "✓" ++ " " ++
      v.paint (.plain .green) ("No issues found in " ++ toString s.files ++ " file(s)") ++ "\n"
  else
    let mark := if s.errors > 0 then v.cross else v.paint (.strong .yellow) "!"
    "\n" ++ mark ++ " " ++ toString s.errors ++ " error(s), " ++ toString s.warnings ++
      " warning(s) in " ++ toString s.files ++ " file(s)\n"

def reports (v : Voice) (rs : List FileReport) : String :=
  match v.format with
  | .human =>
    String.join ((findings rs).map v.finding) ++
      if v.quiet then "" else v.summary (.ofReports rs)
  | .json => Json.render .lines (.list ((findings rs).map Finding.toDatum)) ++ "\n"

def schemaLoaded (v : Voice) : String :=
  match v.format with
  | .human =>
    if v.quiet then "" else v.paint (.plain .green) "✓ Schema loaded successfully" ++ "\n"
  | .json => ""

def noFiles (v : Voice) (sort : String) : String :=
  let text := "No " ++ sort ++ " files found matching the given patterns"
  match v.format with
  | .human => v.cross ++ " " ++ v.paint (.plain .red) (text ++ ".") ++ "\n"
  | .json => Json.render .compact (.object [("error", .string text)]) ++ "\n"

def failure (v : Voice) (f : Failure) : String :=
  match v.format with
  | .human => v.cross ++ " " ++ f.message ++ "\n"
  | .json =>
    Json.render .compact
      (.object [("error", .string f.message), ("kind", .string f.status.label)]) ++ "\n"

end Voice

end GraphLint
