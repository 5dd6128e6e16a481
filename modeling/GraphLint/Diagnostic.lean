import GraphLint.Node

/-!
# Diagnostics

A diagnostic says what is wrong, which rule says so, how much it matters, and
which nodes are to blame.  The nodes keep the order of the report: for a second
declaration of a name the first one comes first and the second one last.

The places of nodes are of some type `ρ`.  Rules report runs of tokens; what
leaves the library speaks of bytes.  `Diagnostic.map` goes from one to the
other and touches nothing else.
-/

set_option autoImplicit false

namespace GraphLint

inductive Severity
  | error
  | warning
  | info
  deriving DecidableEq, Repr, Inhabited

def Severity.label : Severity → String
  | error => "error"
  | warning => "warning"
  | info => "info"

/-- A node that a diagnostic blames: its kind and its place. -/
structure Culprit (ρ : Type) where
  kind : NodeKind
  place : ρ
  deriving DecidableEq, Repr, Inhabited

def Culprit.map {ρ τ : Type} (f : ρ → τ) (c : Culprit ρ) : Culprit τ := ⟨c.kind, f c.place⟩

def Node.culprit (n : Node) : Culprit Extent := ⟨n.kind, n.extent⟩

def Name.culprit (n : Name) : Culprit Extent := ⟨.name, n.extent⟩

/-- An error or a notice, attributed to the nodes to blame. -/
structure Diagnostic (ρ : Type) where
  message : String
  /-- The nodes to blame, in the order of the report. -/
  culprits : List (Culprit ρ)
  rule : String
  severity : Severity
  deriving DecidableEq, Repr, Inhabited

namespace Diagnostic

variable {ρ τ : Type}

def map (f : ρ → τ) (d : Diagnostic ρ) : Diagnostic τ :=
  { d with culprits := d.culprits.map (·.map f) }

/-- The place of the node that triggered the report, which is the last one. -/
def primary? (d : Diagnostic ρ) : Option ρ := d.culprits.getLast?.map (·.place)

/-- The text of a diagnostic, without a place. -/
def render (d : Diagnostic ρ) : String :=
  d.severity.label ++ "[" ++ d.rule ++ "]: " ++ d.message

end Diagnostic

/-! ## Collecting diagnostics -/

/-- What a rule has to say, before it is stamped with the rule's name. -/
structure Report where
  message : String
  culprits : List (Culprit Extent)
  deriving DecidableEq, Repr, Inhabited

/-- Collects the diagnostics of a run.  The rule that has the floor is noted
here, so that reports need not name it. -/
structure Sink where
  /-- The name of the rule that has the floor. -/
  rule : String
  severity : Severity
  diagnostics : List (Diagnostic Extent)
  deriving DecidableEq, Repr, Inhabited

namespace Sink

def empty : Sink := ⟨"", .error, []⟩

/-- Gives a rule the floor. -/
def activate (s : Sink) (rule : String) (severity : Severity) : Sink :=
  { s with rule, severity }

/-- Records a report of the rule that has the floor. -/
def report (s : Sink) (r : Report) : Sink :=
  { s with diagnostics := s.diagnostics ++ [⟨r.message, r.culprits, s.rule, s.severity⟩] }

def reportAll (s : Sink) (rs : List Report) : Sink := rs.foldl report s

/-- Reports are stamped and put behind the others. -/
theorem diagnostics_reportAll (s : Sink) (rs : List Report) :
    (s.reportAll rs).diagnostics =
      s.diagnostics ++ rs.map fun r => ⟨r.message, r.culprits, s.rule, s.severity⟩ := by
  induction rs generalizing s with
  | nil => simp [reportAll]
  | cons r rs ih =>
    have h := ih (s.report r)
    simp only [reportAll, List.foldl_cons] at h ⊢
    rw [h]
    simp [report]

end Sink

end GraphLint
