import GraphLint.Proofs.Position.Slots
import GraphLint.Proofs.Run.Recording

/-!
# Rules do not notice each other

Rules that are run together share one walk, one view and one sink, and the walk
leaves out what all of them skip.  None of this reaches a rule: it is told what
it would be told if it were the only one, which is what a walk tells it that it
goes on by itself (`Rule.visitor`), and it is shown the same views.  What it
reports is what it would report alone.

`Isolated` puts this together for one tree and some rules.  It holds wherever
views are moved back (`isolated`), and so in both kinds of run over documents.
-/

set_option autoImplicit false

namespace GraphLint

variable {V : Type}

/-! ## A rule on a walk of its own -/

/-- A rule as a visitor, which moves the view itself and skips what the rule
skips. -/
def Rule.visitor (tracker : Tracker V) (r : Rule V) : Visitor (Except Fault (V × r.State)) :=
  Visitor.ofSteps
    (fun n s => (r.enter (tracker.enter s.1 n) n s.2).map fun reaction =>
      match reaction.control with
      | .descend => ((tracker.enter s.1 n, reaction.state), .descend)
      | .skip => ((tracker.leave (tracker.enter s.1 n) n, reaction.state), .skip))
    (fun n s => (r.leave s.1 n s.2).map fun left => (tracker.leave s.1 n, left.1))

/-- A rule on a walk of its own stands for a listener that is alone. -/
structure Rule.Attends (r : Rule V) (view : V) (_depth : Nat) (s : V × r.State)
    (a : Audience V) : Prop where
  /-- The view. -/
  view_eq : s.1 = view
  /-- The listener is awake, and what the rule has reported has no influence. -/
  alone : ∃ ds, a = (Audience.alone ⟨r, s.2, 0⟩).after ds

variable {tracker : Tracker V} {view : V} {tree : Tree}

theorem Rule.attends_simulates (tracker : Tracker V) (r : Rule V) :
    Simulates tracker
      (fun n s => (r.enter (tracker.enter s.1 n) n s.2).map fun reaction =>
        match reaction.control with
        | .descend => ((tracker.enter s.1 n, reaction.state), .descend)
        | .skip => ((tracker.leave (tracker.enter s.1 n) n, reaction.state), .skip))
      (fun n s => (r.leave s.1 n s.2).map fun left => (tracker.leave s.1 n, left.1))
      r.Attends := by
  constructor
  · rintro view depth ⟨_, state⟩ a root ⟨rfl, ds, rfl⟩
    rw [Audience.hear_after, Audience.hear_alone]
    simp only [Listener.hear]
    cases r.enter (tracker.enter _ root) root state with
    | error f => exact rfl
    | ok reaction =>
        obtain ⟨next, reports, control⟩ := reaction
        cases control with
        | descend =>
            refine ⟨rfl, ds ++ reports.map r.stamp, ?_⟩
            simp [Audience.after, Audience.alone, Audience.said]
        | skip =>
            refine ⟨(Audience.alone ⟨r, next, 0⟩).after (ds ++ reports.map r.stamp),
              ⟨rfl, _, rfl⟩, ?_⟩
            simp [Audience.after, Audience.alone, Audience.said, Audience.deeper]
  · rintro inside depth ⟨_, state⟩ a root ⟨rfl, ds, rfl⟩
    rw [Audience.hear_after, Audience.hear_alone]
    simp only [Listener.hear]
    cases r.leave _ root state with
    | error f => exact rfl
    | ok left =>
        refine ⟨rfl, ds ++ left.2.map r.stamp, ?_⟩
        simp [Audience.after, Audience.alone, Audience.said]

/-- A rule comes out of a walk of its own as a listener that is alone. -/
theorem Rule.walk_agrees (htree : tracker.Restores view tree) (r : Rule V) :
    Agree (r.Attends view 0) (tree.walk (r.visitor tracker) (.ok (view, r.start)))
      ((Audience.ofRules [r]).hearAll (tree.hearings tracker view)) :=
  (r.attends_simulates tracker).walk tree htree ⟨rfl, [], rfl⟩

/-! ## Rules that never fault -/

/-- A rule that answers whatever it is told. -/
structure Rule.IsTotal (r : Rule V) : Prop where
  /-- It answers when a node is entered. -/
  enter : ∀ view n s, ∃ reaction, r.enter view n s = .ok reaction
  /-- It answers when a node is left. -/
  leave : ∀ view n s, ∃ left, r.leave view n s = .ok left

theorem Rule.IsTotal.recording {r : Rule V} (hr : r.IsTotal) : r.recording.IsTotal := by
  constructor
  · intro view n s
    obtain ⟨reaction, h⟩ := hr.enter view n s.1
    exact ⟨_, congrArg (Except.map _) h⟩
  · intro view n s
    obtain ⟨left, h⟩ := hr.leave view n s.1
    exact ⟨_, congrArg (Except.map _) h⟩

theorem Listener.hear_of_isTotal {l : Listener V} (hl : l.rule.IsTotal) (h : Hearing V) :
    ∃ told, l.hear h = .ok told := by
  obtain ⟨rule, state, muted⟩ := l
  obtain ⟨event, view⟩ := h
  change rule.IsTotal at hl
  cases muted with
  | zero =>
      cases event with
      | enter n =>
          obtain ⟨reaction, hreaction⟩ := hl.enter view n state
          simp only [hear, hreaction]
          exact ⟨_, rfl⟩
      | leave n =>
          obtain ⟨left, hleft⟩ := hl.leave view n state
          simp only [hear, hleft]
          exact ⟨_, rfl⟩
  | succ m => cases event <;> exact ⟨_, rfl⟩

/-- A listener whose rule never faults hears everything out. -/
theorem Audience.hearAll_of_isTotal {l : Listener V} (hl : l.rule.IsTotal)
    (hs : List (Hearing V)) : ∃ a, (alone l).hearAll hs = .ok a := by
  induction hs generalizing l with
  | nil => exact ⟨_, rfl⟩
  | cons h hs ih =>
      obtain ⟨told, htold⟩ := Listener.hear_of_isTotal hl h
      have hrule : told.1.rule.IsTotal := by
        rw [Listener.rule_of_hear htold]
        exact hl
      obtain ⟨a, ha⟩ := ih hrule
      refine ⟨a.after (said told), ?_⟩
      rw [hearAll_cons, hear_alone, htold]
      show ((alone told.1).after (said told)).hearAll hs = _
      rw [hearAll_after, ha]
      rfl

/-! ## Isolation -/

/-- What has become of a rule that keeps a record is what becomes of it when it
is alone: in a run that it has for itself, and on a walk of its own.  Its record
is what it is told of all there is to hear. -/
structure ToldAsAlone (tracker : Tracker V) (view : V) (tree : Tree) (r : Rule V)
    (a : ActiveRule V) (state : r.State) (log : List (Hearing V)) : Prop where
  /-- The state of the rule and its record; it skips nothing any more. -/
  result : a = ⟨r.recording, (state, log), none⟩
  /-- They are those of a run that the rule has for itself. -/
  run : ∃ q, jointRun tracker view [r.recording] tree = .ok q ∧ q.rules = [a]
  /-- They are those of a walk of its own. -/
  walk : tree.walk (r.recording.visitor tracker) (.ok (view, r.recording.start)) =
    .ok (view, (state, log))
  /-- The record is what the rule is told of all there is to hear. -/
  record : log = (Listener.ofRule r).heard (tree.hearings tracker view)

/-- Rules that are run together over a tree do not notice each other. -/
structure Isolated (tracker : Tracker V) (view : V) (tree : Tree) (rules : List (Rule V)) :
    Prop where
  /-- All there is to hear are the events of a walk that skips nothing. -/
  complete : (tree.hearings tracker view).map (·.event) = tree.events
  /-- Keeping records makes no difference to what the run answers. -/
  recording : runRules tracker view (rules.map Rule.recording) tree =
    runRules tracker view rules tree
  /-- Each rule is told what it is told alone. -/
  told : ∀ p, jointRun tracker view (rules.map Rule.recording) tree = .ok p →
    List.Forall₂ (fun r a => ∃ state log, ToldAsAlone tracker view tree r a state log)
      rules p.rules
  /-- What the run answers of rules of distinct names is, rule by rule, what each
  rule answers alone. -/
  diagnostics : (rules.map (·.name)).Nodup → ∀ ds, runRules tracker view rules tree = .ok ds →
    ∀ r ∈ rules, runRules tracker view [r] tree = .ok (ds.filter (·.rule = r.name))
  /-- The run faults only if a rule faults in the same way alone. -/
  fault : ∀ f, runRules tracker view rules tree = .error f →
    ∃ r ∈ rules, runRules tracker view [r] tree = .error f
  /-- Rules that never fault come to the end. -/
  total : (∀ r ∈ rules, r.IsTotal) →
    ∃ p, jointRun tracker view (rules.map Rule.recording) tree = .ok p

/-- A rule that is read everything and then left alone with its record. -/
theorem toldAsAlone (htree : tracker.Restores view tree) {r : Rule V} {m : Listener V}
    {ds : List (Diagnostic Extent)}
    (hm : (Audience.ofRules [r.recording]).hearAll (tree.hearings tracker view) =
      .ok ((Audience.alone m).after ds)) :
    ∃ state log, ToldAsAlone tracker view tree r m.atRest state log := by
  have hrecord := Audience.hearAll_recorded (tree.hearings tracker view) (.ofRule r) []
  change Agree _ _ ((Audience.ofRules [r.recording]).hearAll _) at hrecord
  rw [hm] at hrecord
  obtain ⟨_, _, ⟨rule, state, muted⟩, es, hrule, _, heq⟩ := hrecord.of_ok_right
  cases hrule
  obtain rfl := List.head_eq_of_cons_eq (congrArg Audience.listeners heq)
  refine ⟨state, _, rfl, ?_, ?_, rfl⟩
  · have hrun := jointRun_agrees htree [r.recording]
    rw [hm] at hrun
    obtain ⟨q, hq, hended⟩ := hrun.of_ok_right
    exact ⟨q, hq, hended.rules⟩
  · have hwalk := r.recording.walk_agrees htree
    rw [hm] at hwalk
    obtain ⟨⟨view', s⟩, hs, hview, fs, hfs⟩ := hwalk.of_ok_right
    change view' = view at hview
    injection List.head_eq_of_cons_eq (congrArg Audience.listeners hfs) with _ hstate _
    rw [hs, hview, hstate]

theorem toldAsAlone_each (htree : tracker.Restores view tree) {rules : List (Rule V)}
    {p : Progress V} (hp : jointRun tracker view (rules.map Rule.recording) tree = .ok p) :
    List.Forall₂ (fun r a => ∃ state log, ToldAsAlone tracker view tree r a state log)
      rules p.rules := by
  have hrun := jointRun_agrees htree (rules.map Rule.recording)
  rw [hp] at hrun
  obtain ⟨b, hb, hended⟩ := hrun.of_ok_left
  have heach := Audience.hearAll_each hb
  change List.Forall₂ _ ((rules.map Rule.recording).map Listener.ofRule) _ at heach
  rw [List.map_map, List.forall₂_map_left_iff] at heach
  rw [hended.rules, List.forall₂_map_right_iff]
  refine heach.imp ?_
  rintro r m ⟨ds, hm⟩
  exact toldAsAlone htree hm

/-- What a run answers is stamped by its rules. -/
theorem exists_stamp_of_mem_runRules (htree : tracker.Restores view tree) {rules : List (Rule V)}
    {ds : List (Diagnostic Extent)} (hds : runRules tracker view rules tree = .ok ds) :
    ∀ d ∈ ds, ∃ r ∈ rules, ∃ report, d = r.stamp report := by
  obtain ⟨b, hb, rfl⟩ := (runRules_eq_ok_iff htree).mp hds
  exact ((Audience.stamped_ofRules rules).hearAll hb).stamp

/-- What the run answers of some of its names is what the rules of those names
answer without the others. -/
theorem runRules_filter (htree : tracker.Restores view tree) (keep : String → Bool)
    {rules : List (Rule V)} {ds : List (Diagnostic Extent)}
    (hds : runRules tracker view rules tree = .ok ds) :
    runRules tracker view (rules.filter (keep ·.name)) tree = .ok (ds.filter (keep ·.rule)) := by
  obtain ⟨b, hb, rfl⟩ := (runRules_eq_ok_iff htree).mp hds
  have honly := Audience.hearAll_only keep hb
  rw [Audience.only_ofRules] at honly
  exact (runRules_eq_ok_iff htree).mpr ⟨b.only keep, honly, rfl⟩

/-- Among rules of distinct names, those of the name of one rule are that rule. -/
theorem filter_name_eq {rules : List (Rule V)} (hnames : (rules.map (·.name)).Nodup) {r : Rule V}
    (hr : r ∈ rules) : rules.filter (·.name = r.name) = [r] := by
  induction rules with
  | nil => cases hr
  | cons r' rules ih =>
      rw [List.map_cons, List.nodup_cons] at hnames
      obtain ⟨hnew, hrest⟩ := hnames
      rcases List.mem_cons.mp hr with rfl | hr
      · rw [List.filter_cons_of_pos (by simp), List.filter_eq_nil_iff.mpr]
        intro s hs
        have hne : s.name ≠ r.name := fun h => hnew (h ▸ List.mem_map_of_mem hs)
        simpa using hne
      · have hne : r'.name ≠ r.name := fun h => hnew (h ▸ List.mem_map_of_mem hr)
        rw [List.filter_cons_of_neg (by simpa using hne)]
        exact ih hrest hr

/-- What the run answers of one of its names is what the rule of that name answers
alone. -/
theorem runRules_only (htree : tracker.Restores view tree) {rules : List (Rule V)}
    (hnames : (rules.map (·.name)).Nodup) {ds : List (Diagnostic Extent)}
    (hds : runRules tracker view rules tree = .ok ds) {r : Rule V} (hr : r ∈ rules) :
    runRules tracker view [r] tree = .ok (ds.filter (·.rule = r.name)) := by
  rw [← filter_name_eq hnames hr]
  exact runRules_filter htree (decide <| · = r.name) hds

/-- A run that faults has a rule that faults in the same way alone. -/
theorem exists_runRules_eq_error (htree : tracker.Restores view tree) {rules : List (Rule V)}
    {f : Fault} (hf : runRules tracker view rules tree = .error f) :
    ∃ r ∈ rules, runRules tracker view [r] tree = .error f := by
  rw [runRules_eq_hearAll htree] at hf
  cases hb : (Audience.ofRules rules).hearAll (tree.hearings tracker view) with
  | ok b =>
      rw [hb] at hf
      cases hf
  | error g =>
      rw [hb] at hf
      cases hf
      obtain ⟨l, hl, hfault⟩ := Audience.exists_of_hearAll_eq_error hb
      obtain ⟨r, hr, rfl⟩ := List.mem_map.mp hl
      refine ⟨r, hr, ?_⟩
      rw [runRules_eq_hearAll htree]
      exact congrArg (Except.map _) hfault

/-- Rules that never fault come to the end of a run. -/
theorem runRules_of_isTotal (htree : tracker.Restores view tree) {rules : List (Rule V)}
    (hrules : ∀ r ∈ rules, r.IsTotal) : ∃ ds, runRules tracker view rules tree = .ok ds := by
  cases hrun : runRules tracker view rules tree with
  | ok ds => exact ⟨ds, rfl⟩
  | error f =>
      obtain ⟨r, hr, hf⟩ := exists_runRules_eq_error htree hrun
      have htotal : (Listener.ofRule r).rule.IsTotal := hrules r hr
      obtain ⟨a, ha⟩ := Audience.hearAll_of_isTotal htotal (tree.hearings tracker view)
      rw [runRules_eq_hearAll htree] at hf
      change ((Audience.alone (.ofRule r)).hearAll _).map _ = _ at hf
      rw [ha] at hf
      cases hf

/-- Where views are moved back, rules do not notice each other. -/
theorem isolated (htree : tracker.Restores view tree) (rules : List (Rule V)) :
    Isolated tracker view tree rules where
  complete := Tree.map_event_hearings tracker view tree
  recording := runRules_recording htree rules
  told _ hp := toldAsAlone_each htree hp
  diagnostics hnames _ hds _ hr := runRules_only htree hnames hds hr
  fault _ hf := exists_runRules_eq_error htree hf
  total htotal := by
    have hrecording : ∀ r ∈ rules.map Rule.recording, r.IsTotal := by
      intro r hr
      obtain ⟨s, hs, rfl⟩ := List.mem_map.mp hr
      exact (htotal s hs).recording
    obtain ⟨ds, hds⟩ := runRules_of_isTotal htree hrecording
    rw [runRules_eq] at hds
    cases hp : jointRun tracker view (rules.map Rule.recording) tree with
    | ok p => exact ⟨p, rfl⟩
    | error f =>
        rw [hp] at hds
        cases hds

/-- Rules do not notice each other: neither rules over type system documents, with
or without a schema to add to, nor rules over executable documents. -/
theorem Document.rules_isolated (d : Document) :
    (∀ (schema : Option TypeSystem) (rules : List (Rule (Option TypeSystem))),
      Isolated (.constant _) schema d.tree rules) ∧
    (∀ (schema : TypeSystem) (rules : List (Rule Position)),
      Isolated .position (.start schema) d.tree rules) :=
  ⟨fun schema rules => isolated (Tracker.constant_restores schema d.tree) rules,
    fun schema rules => isolated (d.restores schema) rules⟩

end GraphLint
