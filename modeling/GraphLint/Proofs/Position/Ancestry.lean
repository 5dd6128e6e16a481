import GraphLint.Proofs.Run.Isolation

/-!
# Positions tell of ancestors

A position goes through a whole walk, and what it holds could come from anywhere
in it.  It comes from the nodes on the way down: the position that a rule is
shown at a node is the one that is reached by entering the document, what stands
in it, and so on down to the node, and by nothing else (`Position.along`).  Of
what a walk has left behind or passed over there is no trace.
-/

set_option autoImplicit false

namespace GraphLint

mutual

/-- Everything that happens on a walk that skips nothing, each event with the
nodes on the way down to its own node, which comes last. -/
def Tree.routes (above : List Node) : Tree → List (Event × List Node)
  | .node root children =>
    (.enter root, above ++ [root]) ::
      (Tree.routesAll (above ++ [root]) children ++ [(.leave root, above ++ [root])])

/-- The same for trees that are walked one after another. -/
def Tree.routesAll (above : List Node) : List Tree → List (Event × List Node)
  | [] => []
  | t :: ts => t.routes above ++ Tree.routesAll above ts

end

/-- The position that is reached by entering nodes, each inside of the last. -/
def Position.along (schema : TypeSystem) (route : List Node) : Position :=
  route.foldl Position.enter (.start schema)

/-- The position inside of one more node. -/
theorem Position.along_snoc (schema : TypeSystem) (route : List Node) (n : Node) :
    along schema (route ++ [n]) = (along schema route).enter n :=
  List.foldl_concat ..

/-- Everything there is to hear on a walk, with positions that are reached along
the way down. -/
def Document.told (schema : TypeSystem) (d : Document) : List (Hearing Position) :=
  (d.tree.routes []).map fun x => ⟨x.1, .along schema x.2⟩

mutual

/-- Below a route, positions are those along routes. -/
theorem Tree.hearings_along (schema : TypeSystem) (above : List Node) :
    ∀ t : Tree, t.hearings .position (.along schema above) =
      (t.routes above).map fun x => ⟨x.1, .along schema x.2⟩
  | .node root children => by
      have henter : Tracker.position.enter (.along schema above) root =
          .along schema (above ++ [root]) :=
        (Position.along_snoc schema above root).symm
      rw [Tree.hearings, Tree.routes, henter, Tree.hearingsAll_along schema _ children]
      simp only [List.map_cons, List.map_append, List.map_nil]

theorem Tree.hearingsAll_along (schema : TypeSystem) (above : List Node) :
    ∀ ts : List Tree, Tree.hearingsAll .position (.along schema above) ts =
      (Tree.routesAll above ts).map fun x => ⟨x.1, .along schema x.2⟩
  | [] => rfl
  | t :: ts => by
      rw [Tree.hearingsAll, Tree.routesAll, List.map_append, Tree.hearings_along schema above t,
        Tree.hearingsAll_along schema above ts]

end

/-- What there is to hear on a walk through a document. -/
theorem Document.hearings_tree (schema : TypeSystem) (d : Document) :
    d.tree.hearings .position (.start schema) = d.told schema :=
  Tree.hearings_along schema [] d.tree

/-- Rules that run over a document are shown positions that tell of ancestors. -/
structure ShownAncestors (schema : TypeSystem) (d : Document) (rules : List (Rule Position)) :
    Prop where
  /-- The run comes to what rules come to that are shown positions reached along
  the way down, faults included.  It ends in the position that it began in. -/
  agrees : Agree (Ended (.start schema)) (jointRun .position (.start schema) rules d.tree)
    ((Audience.ofRules rules).hearAll (d.told schema))
  /-- If the rules keep records, each record is what the rule is told of that, and
  nothing besides. -/
  records : ∀ p, jointRun .position (.start schema) (rules.map Rule.recording) d.tree = .ok p →
    p.view = .start schema ∧
    List.Forall₂
      (fun r a => ∃ state log, a = ⟨r.recording, (state, log), none⟩ ∧
        log = (Listener.ofRule r).heard (d.told schema) ∧
        ∀ h ∈ log, ∃ route, (h.event, route) ∈ d.tree.routes [] ∧ h.view = .along schema route)
      rules p.rules

/-- The position that a rule is shown at a node is the one that is reached by
entering the nodes on the way down to it, and after a run nothing is left of any
of them. -/
theorem Document.rules_shown_ancestors (schema : TypeSystem) (d : Document)
    (rules : List (Rule Position)) : ShownAncestors schema d rules := by
  have hrestores := d.restores schema
  refine ⟨?_, ?_⟩
  · have hrun := jointRun_agrees hrestores rules
    rw [d.hearings_tree] at hrun
    exact hrun
  · intro p hp
    have hrun := jointRun_agrees hrestores (rules.map Rule.recording)
    rw [hp] at hrun
    obtain ⟨_, _, hended⟩ := hrun.of_ok_left
    refine ⟨hended.view_eq, ?_⟩
    refine ((isolated hrestores rules).told p hp).imp ?_
    rintro r a ⟨state, log, halone⟩
    have hlog : log = (Listener.ofRule r).heard (d.told schema) := by
      rw [halone.record, d.hearings_tree]
    refine ⟨state, log, halone.result, hlog, ?_⟩
    intro h hh
    have htold : h ∈ d.told schema := by
      rw [hlog] at hh
      exact ((Listener.ofRule r).heard_sublist _).subset hh
    obtain ⟨⟨event, route⟩, hroute, rfl⟩ := List.mem_map.mp htold
    exact ⟨route, hroute, rfl⟩

end GraphLint
