import GraphLint.Rule.Registry

/-!
# Running rules together

Any number of rules share one walk.  Each node is shown to every rule that is
not skipping, in the order of the rules.  The view is moved before any rule
enters a node and moved back after every rule has left it.

A rule that skips a node is passed over until the walk leaves that node.  The
node is remembered by its depth: the nodes that are open form a path, so a depth
names one of them.  When every rule skips the same node, the walk itself skips
it.

The joint run is a visitor like any other.  After a fault it skips whatever is
left.
-/

set_option autoImplicit false

namespace GraphLint

/-- How a view follows a walk. -/
structure Tracker (V : Type) where
  enter : V → Node → V
  /-- The view behind a node, given the one inside it. -/
  leave : V → Node → V

namespace Tracker

/-- A view that stays the same. -/
def constant (V : Type) : Tracker V := ⟨fun v _ => v, fun v _ => v⟩

/-- A position that follows the walk. -/
def position : Tracker Position := ⟨Position.enter, Position.leave⟩

end Tracker

/-- A rule in the middle of a run. -/
structure ActiveRule (V : Type) where
  rule : Rule V
  state : rule.State
  /-- Depth of the node that it skips, if it skips one. -/
  skipping : Option Nat

namespace ActiveRule

variable {V : Type}

def start (rule : Rule V) : ActiveRule V := ⟨rule, rule.start, none⟩

/-- A rule is told that a node is entered, unless it is skipping. -/
def enter (view : V) (n : Node) (depth : Nat) (a : ActiveRule V) (sink : Sink) :
    Except Fault (ActiveRule V × Sink) :=
  match a.skipping with
  | some _ => .ok (a, sink)
  | none =>
    match a.rule.enter view n a.state with
    | .error fault => .error fault
    | .ok reaction =>
      let skipping := match reaction.control with
        | .skip => some depth
        | .descend => none
      .ok (⟨a.rule, reaction.state, skipping⟩,
        (sink.activate a.rule.name a.rule.severity).reportAll reaction.reports)

/-- A rule is told that a node is left.  If it was skipping that node, it hears
nothing of it and takes part again. -/
def leave (view : V) (n : Node) (depth : Nat) (a : ActiveRule V) (sink : Sink) :
    Except Fault (ActiveRule V × Sink) :=
  match a.skipping with
  | some skipped =>
    .ok (if skipped = depth then { a with skipping := none } else a, sink)
  | none =>
    match a.rule.leave view n a.state with
    | .error fault => .error fault
    | .ok (state, reports) =>
      .ok (⟨a.rule, state, none⟩,
        (sink.activate a.rule.name a.rule.severity).reportAll reports)

/-- Does something with each rule in turn, handing the sink on. -/
def each (step : ActiveRule V → Sink → Except Fault (ActiveRule V × Sink)) :
    List (ActiveRule V) → Sink → Except Fault (List (ActiveRule V) × Sink)
  | [], sink => .ok ([], sink)
  | a :: as, sink => do
    let (a, sink) ← step a sink
    let (as, sink) ← each step as sink
    return (a :: as, sink)

end ActiveRule

/-- How far a joint run has come. -/
structure Progress (V : Type) where
  /-- What rules are shown. -/
  view : V
  /-- Number of open nodes. -/
  depth : Nat
  rules : List (ActiveRule V)
  sink : Sink

namespace Progress

variable {V : Type}

def start (view : V) (rules : List (Rule V)) : Progress V :=
  ⟨view, 0, rules.map ActiveRule.start, .empty⟩

def enter (tracker : Tracker V) (n : Node) (p : Progress V) :
    Except Fault (Progress V × Control) := do
  let view := tracker.enter p.view n
  let depth := p.depth + 1
  let (rules, sink) ← ActiveRule.each (ActiveRule.enter view n depth) p.rules p.sink
  if rules.all (·.skipping == some depth) then
    return (⟨tracker.leave view n, p.depth,
      rules.map fun a => { a with skipping := none }, sink⟩, .skip)
  else
    return (⟨view, depth, rules, sink⟩, .descend)

def leave (tracker : Tracker V) (n : Node) (p : Progress V) : Except Fault (Progress V) := do
  let (rules, sink) ← ActiveRule.each (ActiveRule.leave p.view n p.depth) p.rules p.sink
  return ⟨tracker.leave p.view n, p.depth - 1, rules, sink⟩

end Progress

/-- The joint run as a visitor. -/
def jointVisitor {V : Type} (tracker : Tracker V) : Visitor (Except Fault (Progress V)) where
  enter n s :=
    match s with
    | .error fault => (.error fault, .skip)
    | .ok p =>
      match p.enter tracker n with
      | .error fault => (.error fault, .skip)
      | .ok (p, control) => (.ok p, control)
  leave n s := s.bind (Progress.leave tracker n)

/-- Runs rules over a tree and answers with their diagnostics, in the order of
the reports. -/
def runRules {V : Type} (tracker : Tracker V) (view : V) (rules : List (Rule V)) (tree : Tree) :
    Except Fault (List (Diagnostic Extent)) :=
  (tree.walk (jointVisitor tracker) (.ok (.start view rules))).map (·.sink.diagnostics)

/-- Runs rules over a type system document, with the schema that it adds to. -/
def runSchemaRules (schema : Option TypeSystem) (rules : List (Rule (Option TypeSystem)))
    (tree : Tree) : Except Fault (List (Diagnostic Extent)) :=
  runRules (.constant _) schema rules tree

/-- Runs rules over an executable document. -/
def runDocumentRules (schema : TypeSystem) (rules : List (Rule Position)) (tree : Tree) :
    Except Fault (List (Diagnostic Extent)) :=
  runRules .position (.start schema) rules tree

end GraphLint
