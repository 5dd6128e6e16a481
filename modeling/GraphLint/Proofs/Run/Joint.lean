import GraphLint.Proofs.Run.Audience

/-!
# A joint run is an audience

A joint run walks a tree: it moves one view down and up again, remembers the
nodes that rules skip by their depths, and skips a node itself when all rules
do.  An audience is read a list and does nothing of the kind.  `jointRun_agrees`
proves that the two agree, fault for fault, wherever the view is moved back to
where it was (`Tracker.Restores`).

The proof is a simulation.  `Attends` says which audience a joint run stands for
when some number of nodes is open; entering and leaving a node preserve it, and
so does a whole tree, by induction on the tree.  A node that the walk skips is a
node inside of which the audience does not listen.
-/

set_option autoImplicit false

universe u

namespace GraphLint

variable {V : Type}

/-! ## Views that are moved back -/

mutual

/-- Leaving takes back what entering has done, at every node of a tree. -/
def Tracker.Restores (tracker : Tracker V) (view : V) : Tree → Prop
  | .node root children =>
    tracker.leave (tracker.enter view root) root = view ∧
      Tracker.RestoresAll tracker (tracker.enter view root) children

/-- Leaving takes back what entering has done, at every node of several trees. -/
def Tracker.RestoresAll (tracker : Tracker V) (view : V) : List Tree → Prop
  | [] => True
  | t :: ts => Tracker.Restores tracker view t ∧ Tracker.RestoresAll tracker view ts

end

mutual

/-- A view that never moves is always where it was. -/
theorem Tracker.constant_restores (view : V) : ∀ t : Tree, (Tracker.constant V).Restores view t
  | .node _ children => by
      rw [Tracker.Restores]
      exact ⟨rfl, Tracker.constant_restoresAll view children⟩

theorem Tracker.constant_restoresAll (view : V) :
    ∀ ts : List Tree, (Tracker.constant V).RestoresAll view ts
  | [] => by
      rw [Tracker.RestoresAll]
      trivial
  | t :: ts => by
      rw [Tracker.RestoresAll]
      exact ⟨Tracker.constant_restores view t, Tracker.constant_restoresAll view ts⟩

end

/-! ## Inside of what is skipped -/

namespace Audience

/-- The audience when one more node is open inside of what each rule skips. -/
def deeper (a : Audience V) : Audience V :=
  ⟨a.listeners.map fun l => { l with muted := l.muted + 1 }, a.diagnostics⟩

theorem flatMap_said_silent (ls : List (Listener V)) :
    (ls.map fun l => (l, ([] : List Report))).flatMap said = [] := by
  rw [List.flatMap_eq_nil_iff]
  intro x hx
  obtain ⟨l, _, rfl⟩ := List.mem_map.mp hx
  rfl

theorem hear_leave_deeper (a : Audience V) (n : Node) (view : V) :
    a.deeper.hear ⟨.leave n, view⟩ = .ok a := by
  refine hear_eq_ok_iff.mpr ⟨a.listeners.map fun l => (l, []), ?_, ?_⟩
  · show List.Forall₂ _ (a.listeners.map _) _
    rw [List.forall₂_map_left_iff, List.forall₂_map_right_iff, List.forall₂_same]
    intro l _
    rfl
  · rw [flatMap_said_silent, List.append_nil, List.map_map]
    simp [deeper, Function.comp_def]

theorem hear_enter_muted {a : Audience V} (ha : ∀ l ∈ a.listeners, 0 < l.muted) (n : Node)
    (view : V) : a.hear ⟨.enter n, view⟩ = .ok a.deeper := by
  refine hear_eq_ok_iff.mpr
    ⟨a.deeper.listeners.map fun l => (l, []), ?_, ?_⟩
  · show List.Forall₂ _ _ ((a.listeners.map _).map _)
    rw [List.forall₂_map_right_iff, List.forall₂_map_right_iff, List.forall₂_same]
    intro l hl
    obtain ⟨rule, state, muted⟩ := l
    cases muted with
    | zero => exact absurd (ha _ hl) (Nat.lt_irrefl 0)
    | succ m => rfl
  · rw [flatMap_said_silent, List.append_nil, List.map_map]
    simp [deeper, Function.comp_def]

theorem muted_deeper (a : Audience V) : ∀ l ∈ a.deeper.listeners, 0 < l.muted := by
  intro l hl
  obtain ⟨m, _, rfl⟩ := List.mem_map.mp hl
  exact Nat.succ_pos m.muted

mutual

/-- Rules that are inside of what they skip come out of a tree as they went in. -/
theorem hearAll_muted (tracker : Tracker V) (view : V) :
    ∀ (t : Tree) {a : Audience V}, (∀ l ∈ a.listeners, 0 < l.muted) →
      a.hearAll (t.hearings tracker view) = .ok a
  | .node root children, a, ha => by
      rw [Tree.hearings, hearAll_cons, hear_enter_muted ha]
      show a.deeper.hearAll (_ ++ _) = _
      rw [hearAll_append, hearAll_muted_all tracker _ children a.muted_deeper]
      show a.deeper.hearAll [_] = _
      rw [hearAll_cons, hear_leave_deeper]
      rfl

theorem hearAll_muted_all (tracker : Tracker V) (view : V) :
    ∀ (ts : List Tree) {a : Audience V}, (∀ l ∈ a.listeners, 0 < l.muted) →
      a.hearAll (Tree.hearingsAll tracker view ts) = .ok a
  | [], _, _ => rfl
  | t :: ts, a, ha => by
      rw [Tree.hearingsAll, hearAll_append, hearAll_muted tracker view t ha]
      exact hearAll_muted_all tracker view ts ha

end

end Audience

/-! ## Visitors that can fault -/

/-- A visitor that goes from state to state until a step faults, and then skips
whatever is left. -/
def Visitor.ofSteps {S : Type u} (enter : Node → S → Except Fault (S × Control))
    (leave : Node → S → Except Fault S) : Visitor (Except Fault S) where
  enter n s :=
    match s with
    | .error fault => (.error fault, .skip)
    | .ok s =>
      match enter n s with
      | .error fault => (.error fault, .skip)
      | .ok (s, control) => (.ok s, control)
  leave n s := s.bind (leave n)

section Steps

variable {S : Type u} {enter : Node → S → Except Fault (S × Control)}
  {leave : Node → S → Except Fault S}

theorem walk_error (fault : Fault) :
    ∀ t : Tree, t.walk (Visitor.ofSteps enter leave) (.error fault) = .error fault
  | .node _ _ => rfl

theorem walkAll_error (fault : Fault) :
    ∀ ts : List Tree, Tree.walkAll (Visitor.ofSteps enter leave) ts (.error fault) = .error fault
  | [] => rfl
  | t :: ts => by
      rw [Tree.walkAll, walk_error]
      exact walkAll_error fault ts

/-- A node is entered and, unless it is skipped, walked and left. -/
theorem walk_node (root : Node) (children : List Tree) (s : S) :
    (Tree.node root children).walk (Visitor.ofSteps enter leave) (.ok s) =
      (enter root s).bind fun entered =>
        match entered.2 with
        | .skip => .ok entered.1
        | .descend =>
          (Tree.walkAll (Visitor.ofSteps enter leave) children (.ok entered.1)).bind
            (leave root) := by
  rw [Tree.walk]
  simp only [Visitor.ofSteps]
  cases enter root s with
  | error fault => rfl
  | ok entered =>
      obtain ⟨s', control⟩ := entered
      cases control <;> rfl

theorem walkAll_cons (t : Tree) (ts : List Tree) (s : S) :
    Tree.walkAll (Visitor.ofSteps enter leave) (t :: ts) (.ok s) =
      (t.walk (Visitor.ofSteps enter leave) (.ok s)).bind fun s' =>
        Tree.walkAll (Visitor.ofSteps enter leave) ts (.ok s') := by
  rw [Tree.walkAll]
  cases t.walk (Visitor.ofSteps enter leave) (.ok s) with
  | error fault => exact walkAll_error fault ts
  | ok s' => rfl

/-- A step of a visitor, and the audience that its state stands for when some view
is shown and some number of nodes is open.  A node that the walk skips is one that
every listener has just begun to skip. -/
structure Simulates (tracker : Tracker V) (enter : Node → S → Except Fault (S × Control))
    (leave : Node → S → Except Fault S) (StandsFor : V → Nat → S → Audience V → Prop) : Prop where
  /-- Entering a node. -/
  enter : ∀ {view : V} {depth : Nat} {s : S} {a : Audience V} (root : Node),
    StandsFor view depth s a →
    Agree
      (fun entered b =>
        match entered.2 with
        | .descend => StandsFor (tracker.enter view root) (depth + 1) entered.1 b
        | .skip => ∃ c, StandsFor (tracker.leave (tracker.enter view root) root) depth entered.1 c ∧
            b = c.deeper)
      (enter root s) (a.hear ⟨.enter root, tracker.enter view root⟩)
  /-- Leaving a node. -/
  leave : ∀ {inside : V} {depth : Nat} {s : S} {a : Audience V} (root : Node),
    StandsFor inside (depth + 1) s a →
    Agree (StandsFor (tracker.leave inside root) depth) (leave root s)
      (a.hear ⟨.leave root, inside⟩)

variable {tracker : Tracker V} {StandsFor : V → Nat → S → Audience V → Prop}

mutual

/-- What holds of every step holds of a walk through a tree. -/
theorem Simulates.walk (sim : Simulates tracker enter leave StandsFor) {view : V} {depth : Nat} :
    ∀ (t : Tree) {s : S} {a : Audience V}, tracker.Restores view t → StandsFor view depth s a →
      Agree (StandsFor view depth) (t.walk (Visitor.ofSteps enter leave) (.ok s))
        (a.hearAll (t.hearings tracker view))
  | .node root children, s, a, ht, hs => by
      rw [Tracker.Restores] at ht
      obtain ⟨hback, hchildren⟩ := ht
      rw [walk_node, Tree.hearings, Audience.hearAll_cons]
      refine Agree.bind (sim.enter root hs) ?_
      rintro ⟨s', control⟩ b hentered
      rw [Audience.hearAll_append]
      cases control with
      | skip =>
          -- Nobody hears what is inside, and the leave of the node wakes everybody.
          obtain ⟨c, hc, rfl⟩ := hentered
          rw [Audience.hearAll_muted_all tracker _ children c.muted_deeper]
          show Agree _ (Except.ok s') (c.deeper.hearAll [_])
          rw [Audience.hearAll_cons, Audience.hear_leave_deeper]
          rw [hback] at hc
          exact hc
      | descend =>
          refine Agree.bind (sim.walkAll children hchildren hentered) ?_
          intro s'' c hc
          have hleave := sim.leave root hc
          rw [hback] at hleave
          rw [Audience.hearAll_singleton]
          exact hleave

theorem Simulates.walkAll (sim : Simulates tracker enter leave StandsFor) {view : V} {depth : Nat} :
    ∀ (ts : List Tree) {s : S} {a : Audience V}, tracker.RestoresAll view ts →
      StandsFor view depth s a →
      Agree (StandsFor view depth) (Tree.walkAll (Visitor.ofSteps enter leave) ts (.ok s))
        (a.hearAll (Tree.hearingsAll tracker view ts))
  | [], _, _, _, hs => hs
  | t :: ts, s, a, hts, hs => by
      rw [Tracker.RestoresAll] at hts
      obtain ⟨ht, hrest⟩ := hts
      rw [walkAll_cons, Tree.hearingsAll, Audience.hearAll_append]
      refine Agree.bind (sim.walk t ht hs) ?_
      intro s' b hb
      exact sim.walkAll ts hrest hb

end

end Steps

/-! ## Single rules -/

namespace ActiveRule

/-- What a rule in a joint run is as a listener, when some number of nodes is
open. -/
def listener (depth : Nat) (a : ActiveRule V) : Listener V :=
  ⟨a.rule, a.state, match a.skipping with
    | none => 0
    | some skipped => depth + 1 - skipped⟩

/-- The node that a rule skips is one of the open ones. -/
def SkipsWithin (depth : Nat) (a : ActiveRule V) : Prop :=
  ∀ skipped, a.skipping = some skipped → 0 < skipped ∧ skipped ≤ depth

/-- A rule in a joint run has answered as a listener has. -/
structure Answers (depth : Nat) (sink : Sink) (x : ActiveRule V × Sink)
    (told : Listener V × List Report) : Prop where
  /-- It stands for that listener. -/
  listener_eq : x.1.listener depth = told.1
  /-- It skips an open node, if any. -/
  within : x.1.SkipsWithin depth
  /-- Its reports went to the sink. -/
  diagnostics : x.2.diagnostics = sink.diagnostics ++ Audience.said told

/-- What is passed over adds nothing to the sink. -/
theorem answers_nothing {depth : Nat} {sink : Sink} {a : ActiveRule V} {l : Listener V}
    (hl : a.listener depth = l) (ha : a.SkipsWithin depth) :
    Answers depth sink (a, sink) (l, []) :=
  ⟨hl, ha, (List.append_nil sink.diagnostics).symm⟩

/-- What is reported by the rule that has the floor is stamped with its name. -/
theorem diagnostics_record (sink : Sink) (r : Rule V) (reports : List Report) :
    ((sink.activate r.name r.severity).reportAll reports).diagnostics =
      sink.diagnostics ++ reports.map r.stamp := by
  rw [Sink.diagnostics_reportAll]
  rfl

theorem enter_agrees {depth : Nat} {a : ActiveRule V} (ha : a.SkipsWithin depth) (view : V)
    (n : Node) (sink : Sink) :
    Agree (Answers (depth + 1) sink) (a.enter view n (depth + 1) sink)
      ((a.listener depth).hear ⟨.enter n, view⟩) := by
  obtain ⟨rule, state, skipping⟩ := a
  cases skipping with
  | some skipped =>
      obtain ⟨hpos, hle⟩ := ha skipped rfl
      have hmuted : depth + 1 - skipped = depth - skipped + 1 := by omega
      have hmuted' : depth + 1 + 1 - skipped = depth - skipped + 2 := by omega
      simp only [listener, enter, Listener.hear, hmuted]
      refine answers_nothing ?_ ?_
      · simp only [listener, hmuted']
      · intro k hk
        cases hk
        exact ⟨hpos, Nat.le_succ_of_le hle⟩
  | none =>
      simp only [listener, enter, Listener.hear]
      cases rule.enter view n state with
      | error fault => exact rfl
      | ok reaction =>
          refine ⟨?_, ?_, diagnostics_record sink rule reaction.reports⟩
          · cases hcontrol : reaction.control with
            | descend => rfl
            | skip => simp [listener]
          · intro k hk
            cases hcontrol : reaction.control with
            | descend =>
                simp only [hcontrol] at hk
                cases hk
            | skip =>
                simp only [hcontrol] at hk
                cases hk
                exact ⟨Nat.succ_pos depth, Nat.le_refl _⟩

theorem leave_agrees {depth : Nat} {a : ActiveRule V} (ha : a.SkipsWithin (depth + 1)) (view : V)
    (n : Node) (sink : Sink) :
    Agree (Answers depth sink) (a.leave view n (depth + 1) sink)
      ((a.listener (depth + 1)).hear ⟨.leave n, view⟩) := by
  obtain ⟨rule, state, skipping⟩ := a
  cases skipping with
  | some skipped =>
      obtain ⟨hpos, hle⟩ := ha skipped rfl
      have hmuted : depth + 1 + 1 - skipped = depth + 1 - skipped + 1 := by omega
      simp only [listener, leave, Listener.hear, hmuted]
      by_cases hthis : skipped = depth + 1
      · subst hthis
        rw [if_pos rfl]
        refine answers_nothing ?_ ?_
        · simp [listener]
        · intro k hk
          cases hk
      · rw [if_neg hthis]
        refine answers_nothing rfl ?_
        intro k hk
        cases hk
        exact ⟨hpos, by omega⟩
  | none =>
      simp only [listener, leave, Listener.hear]
      cases rule.leave view n state with
      | error fault => exact rfl
      | ok result =>
          refine ⟨rfl, ?_, diagnostics_record sink rule result.2⟩
          intro k hk
          cases hk

/-! ## All rules -/

/-- Rules in a joint run have answered as listeners have. -/
structure AllAnswer (depth : Nat) (sink : Sink) (x : List (ActiveRule V) × Sink)
    (told : List (Listener V × List Report)) : Prop where
  /-- They stand for those listeners. -/
  listener_eq : x.1.map (·.listener depth) = told.map (·.1)
  /-- They skip open nodes, if any. -/
  within : ∀ a ∈ x.1, a.SkipsWithin depth
  /-- Their reports went to the sink, in the order of the rules. -/
  diagnostics : x.2.diagnostics = sink.diagnostics ++ told.flatMap Audience.said

/-- If each rule answers as its listener does, then so do all of them in turn. -/
theorem each_agrees {depth depth' : Nat} {h : Hearing V}
    {step : ActiveRule V → Sink → Except Fault (ActiveRule V × Sink)}
    (hstep : ∀ (a : ActiveRule V) (sink : Sink), a.SkipsWithin depth →
      Agree (Answers depth' sink) (step a sink) ((a.listener depth).hear h)) :
    ∀ (as : List (ActiveRule V)) (sink : Sink), (∀ a ∈ as, a.SkipsWithin depth) →
      Agree (AllAnswer depth' sink) (each step as sink)
        ((as.map (·.listener depth)).mapM (Listener.hear · h)) := by
  intro as
  induction as with
  | nil =>
      intro sink _
      refine ⟨rfl, ?_, (List.append_nil sink.diagnostics).symm⟩
      intro a ha
      cases ha
  | cons a as ih =>
      intro sink has
      rw [List.map_cons, List.mapM_cons]
      refine Agree.bind (hstep a sink (has a List.mem_cons_self)) ?_
      rintro ⟨b, sink'⟩ told hb
      refine Agree.bind (ih sink' fun c hc => has c (List.mem_cons_of_mem a hc)) ?_
      rintro ⟨bs, sink''⟩ tolds hbs
      refine ⟨?_, ?_, ?_⟩
      · simp only [List.map_cons]
        rw [hb.listener_eq, hbs.listener_eq]
      · intro c hc
        rcases List.mem_cons.mp hc with rfl | hc
        · exact hb.within
        · exact hbs.within c hc
      · show sink''.diagnostics = _
        rw [hbs.diagnostics, hb.diagnostics, List.flatMap_cons, List.append_assoc]

end ActiveRule

/-! ## Walks -/

/-- Which audience a joint run stands for, when it shows some view and some
number of nodes is open. -/
structure Attends (view : V) (depth : Nat) (p : Progress V) (a : Audience V) : Prop where
  /-- The view. -/
  view_eq : p.view = view
  /-- The number of open nodes. -/
  depth_eq : p.depth = depth
  /-- The rules stand for the listeners. -/
  listeners : a.listeners = p.rules.map (·.listener depth)
  /-- The rules skip open nodes, if any. -/
  within : ∀ r ∈ p.rules, r.SkipsWithin depth
  /-- What has been reported. -/
  diagnostics : a.diagnostics = p.sink.diagnostics

theorem attends_start (view : V) (rules : List (Rule V)) :
    Attends view 0 (Progress.start view rules) (Audience.ofRules rules) := by
  refine ⟨rfl, rfl, ?_, ?_, rfl⟩
  · show rules.map Listener.ofRule = (rules.map ActiveRule.start).map _
    rw [List.map_map]
    rfl
  · intro r hr k hk
    obtain ⟨rule, _, rfl⟩ := List.mem_map.mp hr
    cases hk

variable {tracker : Tracker V}

/-- Entering a node without looking at who skips it. -/
theorem Progress.enter_eq (p : Progress V) (n : Node) :
    p.enter tracker n =
      (ActiveRule.each (ActiveRule.enter (tracker.enter p.view n) n (p.depth + 1))
        p.rules p.sink).bind fun x =>
          if x.1.all (·.skipping == some (p.depth + 1)) then
            .ok (⟨tracker.leave (tracker.enter p.view n) n, p.depth,
              x.1.map fun a => { a with skipping := none }, x.2⟩, .skip)
          else .ok (⟨tracker.enter p.view n, p.depth + 1, x.1, x.2⟩, .descend) := by
  show (ActiveRule.each (ActiveRule.enter (tracker.enter p.view n) n (p.depth + 1))
    p.rules p.sink).bind _ = _
  refine congrArg _ ?_
  funext x
  by_cases hall : x.1.all (·.skipping == some (p.depth + 1)) = true
  · simp only [hall, if_true]
    rfl
  · simp only [hall]
    rfl

theorem enter_agrees {view : V} {depth : Nat} {p : Progress V} {a : Audience V} (root : Node)
    (hp : Attends view depth p a) :
    Agree
      (fun entered b =>
        match entered.2 with
        | .descend => Attends (tracker.enter view root) (depth + 1) entered.1 b
        | .skip => ∃ c, Attends (tracker.leave (tracker.enter view root) root) depth entered.1 c ∧
            b = c.deeper)
      (p.enter tracker root) (a.hear ⟨.enter root, tracker.enter view root⟩) := by
  obtain ⟨rfl, rfl, hlisteners, hwithin, hdiagnostics⟩ := hp
  rw [Progress.enter_eq]
  unfold Audience.hear
  rw [hlisteners]
  refine Agree.bind (ActiveRule.each_agrees
    (fun r sink hr => ActiveRule.enter_agrees hr (tracker.enter p.view root) root sink)
    p.rules p.sink hwithin) ?_
  rintro ⟨rules, sink⟩ told hanswer
  by_cases hall : rules.all (·.skipping == some (p.depth + 1)) = true
  · -- All rules skip the node: each of them stands for a listener that is muted once.
    simp only [hall, if_true]
    refine ⟨⟨(rules.map fun r => { r with skipping := none }).map (·.listener p.depth),
      sink.diagnostics⟩, ⟨rfl, rfl, rfl, ?_, rfl⟩, ?_⟩
    · intro r hr k hk
      obtain ⟨r', _, rfl⟩ := List.mem_map.mp hr
      cases hk
    · have hmuted : told.map (·.1) =
          ((rules.map fun r => { r with skipping := none }).map
            (·.listener p.depth)).map fun l => { l with muted := l.muted + 1 } := by
        rw [← hanswer.listener_eq, List.map_map, List.map_map]
        refine List.map_congr_left ?_
        intro r hr
        have hskip : r.skipping = some (p.depth + 1) := by
          simpa using List.all_eq_true.mp hall r hr
        simp [ActiveRule.listener, hskip]
      rw [hmuted, hdiagnostics, ← hanswer.diagnostics]
      rfl
  · simp only [hall]
    refine ⟨rfl, rfl, hanswer.listener_eq.symm, hanswer.within, ?_⟩
    show a.diagnostics ++ _ = sink.diagnostics
    rw [hdiagnostics, hanswer.diagnostics]

theorem leave_agrees {inside : V} {depth : Nat} {p : Progress V} {a : Audience V} (root : Node)
    (hp : Attends inside (depth + 1) p a) :
    Agree (Attends (tracker.leave inside root) depth) (p.leave tracker root)
      (a.hear ⟨.leave root, inside⟩) := by
  obtain ⟨rfl, hdepth, hlisteners, hwithin, hdiagnostics⟩ := hp
  unfold Progress.leave Audience.hear
  rw [hdepth, hlisteners]
  refine Agree.bind (ActiveRule.each_agrees
    (fun r sink hr => ActiveRule.leave_agrees hr p.view root sink) p.rules p.sink hwithin) ?_
  rintro ⟨rules, sink⟩ told hanswer
  refine ⟨rfl, rfl, hanswer.listener_eq.symm, hanswer.within, ?_⟩
  show a.diagnostics ++ _ = sink.diagnostics
  rw [hdiagnostics, hanswer.diagnostics]

theorem attends_simulates (tracker : Tracker V) :
    Simulates tracker (fun n p => p.enter tracker n) (fun n p => p.leave tracker n) Attends :=
  ⟨enter_agrees, leave_agrees⟩

/-! ## Whole runs -/

/-- A joint run with all that it comes to: the view, the rules and the sink. -/
def jointRun (tracker : Tracker V) (view : V) (rules : List (Rule V)) (tree : Tree) :
    Except Fault (Progress V) :=
  tree.walk (jointVisitor tracker) (.ok (.start view rules))

theorem jointVisitor_eq (tracker : Tracker V) :
    jointVisitor tracker =
      Visitor.ofSteps (fun n p => p.enter tracker n) (fun n p => p.leave tracker n) := by
  unfold jointVisitor Visitor.ofSteps
  congr 1
  funext n s
  cases s with
  | error fault => rfl
  | ok p =>
      dsimp only
      cases p.enter tracker n <;> rfl

/-- What a run answers with is what is in the sink at its end. -/
theorem runRules_eq (tracker : Tracker V) (view : V) (rules : List (Rule V)) (tree : Tree) :
    runRules tracker view rules tree =
      (jointRun tracker view rules tree).map (·.sink.diagnostics) := rfl

/-- A listener as a rule of a joint run that skips nothing. -/
def Listener.atRest (l : Listener V) : ActiveRule V := ⟨l.rule, l.state, none⟩

/-- A joint run has come to its end as an audience has. -/
structure Ended (view : V) (p : Progress V) (a : Audience V) : Prop where
  /-- The view is back where it was. -/
  view_eq : p.view = view
  /-- The rules are in the states of the listeners, and none of them skips anything. -/
  rules : p.rules = a.listeners.map Listener.atRest
  /-- What has been reported. -/
  diagnostics : p.sink.diagnostics = a.diagnostics

/-- A joint run over a tree agrees with an audience that is read the tree's
hearings. -/
theorem jointRun_agrees {view : V} {tree : Tree} (htree : tracker.Restores view tree)
    (rules : List (Rule V)) :
    Agree (Ended view) (jointRun tracker view rules tree)
      ((Audience.ofRules rules).hearAll (tree.hearings tracker view)) := by
  have hwalk := (attends_simulates tracker).walk tree htree (attends_start view rules)
  rw [← jointVisitor_eq] at hwalk
  refine Agree.mono hwalk ?_
  intro p a hp
  refine ⟨hp.view_eq, ?_, hp.diagnostics.symm⟩
  rw [hp.listeners, List.map_map]
  refine (List.map_id p.rules).symm.trans (List.map_congr_left ?_)
  intro r hr
  obtain ⟨rule, state, skipping⟩ := r
  cases skipping with
  | none => rfl
  | some skipped =>
      have hskipped := hp.within _ hr skipped rfl
      omega

end GraphLint
