import GraphLint.Proofs.Run.Joint

/-!
# Rules that keep a record

What a rule is told on a run is not part of what the run answers with.  To speak
of it, a rule is replaced by one that does the same and keeps a record:
`Rule.recording` writes down every event it is told of and the view it is shown.

Keeping records changes nothing (`runRules_recording`), and what ends up in the
record of a rule that is alone is what the rule is told of all there is to hear
(`Audience.hearAll_recorded`).
-/

set_option autoImplicit false

namespace GraphLint

variable {V : Type}

/-- A rule that writes down what it is told. -/
def Rule.recording (r : Rule V) : Rule V where
  name := r.name
  description := r.description
  severity := r.severity
  State := r.State × List (Hearing V)
  start := (r.start, [])
  enter view n s := (r.enter view n s.1).map fun reaction =>
    ⟨(reaction.state, s.2 ++ [⟨.enter n, view⟩]), reaction.reports, reaction.control⟩
  leave view n s := (r.leave view n s.1).map fun left =>
    ((left.1, s.2 ++ [⟨.leave n, view⟩]), left.2)

namespace Listener

/-- A listener with a record of what it has been told. -/
def recorded (log : List (Hearing V)) (l : Listener V) : Listener V :=
  ⟨l.rule.recording, (l.state, log), l.muted⟩

theorem ofRule_recording (r : Rule V) : ofRule r.recording = (ofRule r).recorded [] := rfl

/-- What a listener is told is added to its record, unless it is passed over. -/
theorem hear_recorded (l : Listener V) (log : List (Hearing V)) (h : Hearing V) :
    (l.recorded log).hear h =
      (l.hear h).map fun told =>
        (told.1.recorded (log ++ if l.muted = 0 then [h] else []), told.2) := by
  obtain ⟨rule, state, muted⟩ := l
  obtain ⟨event, view⟩ := h
  cases muted with
  | zero =>
      cases event with
      | enter n =>
          simp only [recorded, hear, Rule.recording]
          cases rule.enter view n state <;> rfl
      | leave n =>
          simp only [recorded, hear, Rule.recording]
          cases rule.leave view n state <;> rfl
  | succ m =>
      cases event <;> simp [recorded, hear, Except.map]

end Listener

namespace Audience

/-- Diagnostics do not show whether a record is kept. -/
theorem said_recorded (log : List (Hearing V)) (told : Listener V × List Report) :
    said (told.1.recorded log, told.2) = said told := rfl

/-- An audience beside one whose rules keep records. -/
structure Recorded (a b : Audience V) : Prop where
  /-- The same listeners, with records. -/
  listeners : List.Forall₂ (fun l m => ∃ log, m = l.recorded log) a.listeners b.listeners
  /-- The same diagnostics. -/
  diagnostics : b.diagnostics = a.diagnostics

theorem recorded_ofRules (rules : List (Rule V)) :
    Recorded (ofRules rules) (ofRules (rules.map Rule.recording)) := by
  refine ⟨?_, rfl⟩
  show List.Forall₂ _ (rules.map Listener.ofRule) ((rules.map Rule.recording).map Listener.ofRule)
  rw [List.map_map, List.forall₂_map_left_iff, List.forall₂_map_right_iff, List.forall₂_same]
  intro r _
  exact ⟨[], Listener.ofRule_recording r⟩

/-- An audience does not notice whether its rules keep records. -/
theorem hearAll_recorded_agrees {a b : Audience V} (hab : Recorded a b) (hs : List (Hearing V)) :
    Agree Recorded (a.hearAll hs) (b.hearAll hs) := by
  have hbeside : Beside (fun l m => ∃ log, m = l.recorded log) a b :=
    ⟨hab.listeners, hab.diagnostics⟩
  refine (Beside.hearAll (R := fun _ l m => ∃ log, m = l.recorded log) ?_ hbeside).mono ?_
  · rintro h - l m ⟨log, rfl⟩
    rw [Listener.hear_recorded]
    cases l.hear h with
    | error f => exact rfl
    | ok told => exact ⟨⟨_, rfl⟩, said_recorded _ told⟩
  · intro c d hcd
    exact ⟨hcd.listeners, hcd.diagnostics⟩

/-- A rule that is alone ends with what it has been told in its record. -/
theorem hearAll_recorded (hs : List (Hearing V)) (l : Listener V) (log : List (Hearing V)) :
    Agree
      (fun a b => ∃ m ds, m.rule = l.rule ∧ a = (alone m).after ds ∧
        b = (alone (m.recorded (log ++ l.heard hs))).after ds)
      ((alone l).hearAll hs) ((alone (l.recorded log)).hearAll hs) := by
  -- The record grows as the list is read, so it has to be arbitrary from the start.
  induction hs generalizing l log with
  | nil =>
      refine ⟨l, [], rfl, rfl, ?_⟩
      rw [Listener.heard, List.append_nil]
      rfl
  | cons h hs ih =>
      rw [hearAll_cons, hearAll_cons, hear_alone, hear_alone, Listener.hear_recorded]
      cases hl : l.hear h with
      | error f => exact rfl
      | ok told =>
          obtain ⟨m, reports⟩ := told
          have hheard : l.heard (h :: hs) = (if l.muted = 0 then [h] else []) ++ m.heard hs := by
            rw [Listener.heard, hl]
          show Agree _ (((alone m).after (said (m, reports))).hearAll hs)
            (((alone (m.recorded _)).after (said (m, reports))).hearAll hs)
          rw [hearAll_after, hearAll_after]
          refine Agree.map (ih m _) ?_
          rintro a b ⟨n, ds, hrule, rfl, rfl⟩
          refine ⟨n, said (m, reports) ++ ds, hrule.trans (Listener.rule_of_hear hl), ?_, ?_⟩
          · simp only [after, List.append_assoc]
          · rw [hheard, ← List.append_assoc]
            simp only [after, List.append_assoc]

end Audience

variable {tracker : Tracker V} {view : V} {tree : Tree}

/-- What a run answers with is what an audience has reported. -/
theorem runRules_eq_hearAll (htree : tracker.Restores view tree) (rules : List (Rule V)) :
    runRules tracker view rules tree =
      ((Audience.ofRules rules).hearAll (tree.hearings tracker view)).map (·.diagnostics) := by
  rw [runRules_eq]
  refine Agree.map_eq (jointRun_agrees htree rules) ?_
  intro p a hp
  exact hp.diagnostics

/-- A run that comes to its end answers with what an audience has reported. -/
theorem runRules_eq_ok_iff (htree : tracker.Restores view tree) {rules : List (Rule V)}
    {ds : List (Diagnostic Extent)} :
    runRules tracker view rules tree = .ok ds ↔
      ∃ b, (Audience.ofRules rules).hearAll (tree.hearings tracker view) = .ok b ∧
        b.diagnostics = ds := by
  rw [runRules_eq_hearAll htree]
  cases (Audience.ofRules rules).hearAll (tree.hearings tracker view) with
  | error f => exact ⟨nofun, nofun⟩
  | ok b =>
      constructor
      · intro hds
        exact ⟨b, rfl, Except.ok.inj hds⟩
      · rintro ⟨_, hb, rfl⟩
        cases hb
        rfl

/-- A run answers the same whether or not its rules keep records. -/
theorem runRules_recording (htree : tracker.Restores view tree) (rules : List (Rule V)) :
    runRules tracker view (rules.map Rule.recording) tree = runRules tracker view rules tree := by
  rw [runRules_eq_hearAll htree, runRules_eq_hearAll htree]
  refine (Agree.map_eq
    (Audience.hearAll_recorded_agrees (Audience.recorded_ofRules rules) _) ?_).symm
  intro a b hab
  exact hab.diagnostics.symm

end GraphLint
