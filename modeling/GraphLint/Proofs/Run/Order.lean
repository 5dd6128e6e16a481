import GraphLint.Proofs.Run.Isolation

/-!
# In which order a run answers

Rules report while a walk goes on, each of them at the events that it is told of.  All
reports go to one sink, and who has the floor there is noted beforehand, so the order
of the answer and the names in it depend on the course of the whole run.

`Listener.minutes` lists for one rule, event by event, what it reports, without the
other rules and without a sink.  A run answers with the minutes of all rules, read row
by row: `Rule.saidAt` is what all rules report at one event, in the order of the rules,
each report stamped with the rule it comes from, and the answer is what is said at one
event after another (`Audience.diagnostics_hearAll`).

That the minutes are about this run is said by the run itself, in which each rule may
write down what it reports (`Rule.minuting`).
-/

set_option autoImplicit false

universe u v w

namespace GraphLint

variable {V : Type}

/-! ## Minutes -/

/-- A rule that writes down every event that it is told of, with what it reports there. -/
def Rule.minuting (r : Rule V) : Rule V where
  name := r.name
  description := r.description
  severity := r.severity
  State := r.State × List (Event × List Report)
  start := (r.start, [])
  enter view n s := (r.enter view n s.1).map fun reaction =>
    ⟨(reaction.state, s.2 ++ [(.enter n, reaction.reports)]), reaction.reports, reaction.control⟩
  leave view n s := (r.leave view n s.1).map fun left =>
    ((left.1, s.2 ++ [(.leave n, left.2)]), left.2)

namespace Listener

/-- For each of the things there is to hear, what a listener reports on being told;
`none` where it is not told.  Nothing comes after a fault. -/
def minutes : List (Hearing V) → Listener V → List (Option (List Report))
  | [], _ => []
  | h :: hs, l =>
    match l.hear h with
    | .ok (m, reports) => (if l.muted = 0 then some reports else none) :: minutes hs m
    | .error _ => []

/-- The events that are told, with what is reported there. -/
def told (hs : List (Hearing V)) (rows : List (Option (List Report))) :
    List (Event × List Report) :=
  (hs.zip rows).filterMap fun x => x.2.map (x.1.event, ·)

theorem told_cons (h : Hearing V) (hs : List (Hearing V)) (row : Option (List Report))
    (rows : List (Option (List Report))) :
    told (h :: hs) (row :: rows) = (row.map (h.event, ·)).toList ++ told hs rows := by
  unfold told
  rw [List.zip_cons_cons, List.filterMap_cons]
  cases row <;> rfl

theorem minutes_cons {l m : Listener V} {h : Hearing V} {reports : List Report}
    (hl : l.hear h = .ok (m, reports)) (hs : List (Hearing V)) :
    l.minutes (h :: hs) = (if l.muted = 0 then some reports else none) :: m.minutes hs := by
  rw [minutes, hl]

/-- Inside of what it skips a listener reports nothing. -/
theorem reports_of_hear_muted {l m : Listener V} {h : Hearing V} {reports : List Report}
    (hl : l.hear h = .ok (m, reports)) (hmuted : l.muted ≠ 0) : reports = [] := by
  obtain ⟨rule, state, muted⟩ := l
  obtain ⟨event, view⟩ := h
  cases muted with
  | zero => exact absurd rfl hmuted
  | succ k => cases event <;> cases hl <;> rfl

/-- A listener with minutes of what it has reported. -/
def minuted (log : List (Event × List Report)) (l : Listener V) : Listener V :=
  ⟨l.rule.minuting, (l.state, log), l.muted⟩

theorem ofRule_minuting (r : Rule V) : ofRule r.minuting = (ofRule r).minuted [] := rfl

/-- What a listener reports is added to its minutes, unless it is passed over. -/
theorem hear_minuted (l : Listener V) (log : List (Event × List Report)) (h : Hearing V) :
    (l.minuted log).hear h =
      (l.hear h).map fun heard =>
        (heard.1.minuted (log ++ if l.muted = 0 then [(h.event, heard.2)] else []), heard.2) := by
  obtain ⟨rule, state, muted⟩ := l
  obtain ⟨event, view⟩ := h
  cases muted with
  | zero =>
      cases event with
      | enter n =>
          simp only [minuted, hear, Rule.minuting]
          cases rule.enter view n state <;> rfl
      | leave n =>
          simp only [minuted, hear, Rule.minuting]
          cases rule.leave view n state <;> rfl
  | succ m => cases event <;> simp [minuted, hear, Except.map]

/-- A listener beside one that takes minutes, when `hs` is what is left of `all` there is
to hear: what is written down, and what there will be to write down, is what the rule
reports from the beginning to the end. -/
def Minuting (all hs : List (Hearing V)) (l m : Listener V) : Prop :=
  ∃ log, m = l.minuted log ∧
    log ++ told hs (l.minutes hs) = told all ((ofRule l.rule).minutes all)

theorem Minuting.hear {all hs : List (Hearing V)} {h : Hearing V} {l m : Listener V}
    (hlm : Minuting all (h :: hs) l m) :
    Agree (fun x y => Minuting all hs x.1 y.1 ∧ Audience.said y = Audience.said x)
      (l.hear h) (m.hear h) := by
  obtain ⟨log, rfl, hlog⟩ := hlm
  rw [hear_minuted]
  cases hl : l.hear h with
  | error f => exact rfl
  | ok heard =>
      obtain ⟨l', reports⟩ := heard
      refine ⟨⟨_, rfl, ?_⟩, rfl⟩
      rw [minutes_cons hl, told_cons] at hlog
      rw [rule_of_hear hl, ← hlog, List.append_assoc]
      split <;> rfl

end Listener

/-! ## What is said at an event -/

/-- What is reported at event number `i`, by minutes. -/
def reportsAt (rows : List (Option (List Report))) (i : Nat) : List Report :=
  (rows.getD i none).getD []

/-- What a listener says at event number `i`, stamped by its rule. -/
def Listener.saysAt (hs : List (Hearing V)) (i : Nat) (l : Listener V) :
    List (Diagnostic Extent) :=
  (reportsAt (l.minutes hs) i).map l.rule.stamp

namespace Listener

variable {l m : Listener V} {h : Hearing V} {reports : List Report}

theorem saysAt_zero (hl : l.hear h = .ok (m, reports)) (hs : List (Hearing V)) :
    l.saysAt (h :: hs) 0 = Audience.said (m, reports) := by
  have hreports : reportsAt (l.minutes (h :: hs)) 0 = reports := by
    rw [minutes_cons hl]
    by_cases hmuted : l.muted = 0
    · rw [if_pos hmuted]
      rfl
    · rw [if_neg hmuted, reports_of_hear_muted hl hmuted]
      rfl
  rw [saysAt, hreports, Audience.said, rule_of_hear hl]

theorem saysAt_succ (hl : l.hear h = .ok (m, reports)) (hs : List (Hearing V)) (i : Nat) :
    l.saysAt (h :: hs) (i + 1) = m.saysAt hs i := by
  rw [saysAt, saysAt, minutes_cons hl, rule_of_hear hl]
  rfl

end Listener

theorem flatMap_eq_of_forall₂ {α : Type u} {β : Type v} {γ : Type w} {f : α → List γ}
    {g : β → List γ} {as : List α} {bs : List β} (h : List.Forall₂ (fun a b => f a = g b) as bs) :
    as.flatMap f = bs.flatMap g := by
  induction h with
  | nil => rfl
  | cons hab _ ih => rw [List.flatMap_cons, List.flatMap_cons, hab, ih]

namespace Audience

/-- What listeners report is what they say at one event after another, at each event in
the order of the listeners. -/
theorem diagnostics_hearAll {hs : List (Hearing V)} {a b : Audience V}
    (hb : a.hearAll hs = .ok b) :
    b.diagnostics = a.diagnostics ++
      (List.range hs.length).flatMap fun i => a.listeners.flatMap (Listener.saysAt hs i) := by
  induction hs generalizing a with
  | nil =>
      cases hb
      simp
  | cons h hs ih =>
      obtain ⟨c, hc, hrest⟩ := hearAll_cons_eq_ok_iff.mp hb
      obtain ⟨told, htold, rfl⟩ := hear_eq_ok_iff.mp hc
      have hfirst : a.listeners.flatMap (Listener.saysAt (h :: hs) 0) = told.flatMap said := by
        apply flatMap_eq_of_forall₂
        refine htold.imp ?_
        intro l x hx
        exact Listener.saysAt_zero hx hs
      have hlater : ∀ i, a.listeners.flatMap (Listener.saysAt (h :: hs) (i + 1)) =
          (told.map (·.1)).flatMap (Listener.saysAt hs i) := by
        intro i
        rw [List.flatMap_map]
        apply flatMap_eq_of_forall₂
        refine htold.imp ?_
        intro l x hx
        exact Listener.saysAt_succ hx hs i
      rw [ih hrest, List.length_cons, List.range_succ_eq_map, List.flatMap_cons, List.flatMap_map,
        hfirst]
      simp only [hlater, List.append_assoc]

/-- A listener that hears everything out has a row of minutes for everything. -/
theorem length_minutes {hs : List (Hearing V)} {l : Listener V} {b : Audience V}
    (hb : (alone l).hearAll hs = .ok b) : (l.minutes hs).length = hs.length := by
  induction hs generalizing l b with
  | nil => rfl
  | cons h hs ih =>
      obtain ⟨c, hc, hrest⟩ := hearAll_cons_eq_ok_iff.mp hb
      rw [hear_alone] at hc
      cases hl : l.hear h with
      | error f =>
          rw [hl] at hc
          cases hc
      | ok heard =>
          obtain ⟨m, reports⟩ := heard
          rw [hl] at hc
          cases hc
          rw [hearAll_after] at hrest
          cases hm : (alone m).hearAll hs with
          | error f =>
              rw [hm] at hrest
              cases hrest
          | ok d => rw [Listener.minutes_cons hl, List.length_cons, List.length_cons, ih hm]

end Audience

/-! ## Runs -/

namespace Rule

/-- What a rule reports at each event of a walk, told as if it were alone; `none` where
it is skipping. -/
def minutes (tracker : Tracker V) (view : V) (tree : Tree) (r : Rule V) :
    List (Option (List Report)) :=
  (Listener.ofRule r).minutes (tree.hearings tracker view)

/-- The events of a walk that a rule is told of, with what it reports there. -/
def told (tracker : Tracker V) (view : V) (tree : Tree) (r : Rule V) :
    List (Event × List Report) :=
  (tree.events.zip (r.minutes tracker view tree)).filterMap fun x => x.2.map (x.1, ·)

/-- What rules say at event number `i` of a walk: the reports of each, in the order of
the rules, bearing the name and the severity of the rule that makes them. -/
def saidAt (tracker : Tracker V) (view : V) (tree : Tree) (rules : List (Rule V)) (i : Nat) :
    List (Diagnostic Extent) :=
  rules.flatMap fun r => (reportsAt (r.minutes tracker view tree) i).map r.stamp

end Rule

variable {tracker : Tracker V} {view : V} {tree : Tree}

theorem Tree.length_hearings (tracker : Tracker V) (view : V) (tree : Tree) :
    (tree.hearings tracker view).length = tree.events.length := by
  rw [← Tree.map_event_hearings tracker view tree, List.length_map]

theorem Rule.told_eq (r : Rule V) :
    r.told tracker view tree =
      Listener.told (tree.hearings tracker view) (r.minutes tracker view tree) := by
  unfold Rule.told Listener.told
  rw [← Tree.map_event_hearings tracker view tree, List.zip_map_left, List.filterMap_map]
  rfl

/-- A run comes to its end if each rule comes there alone. -/
theorem exists_runRules_iff (htree : tracker.Restores view tree) {rules : List (Rule V)} :
    (∃ ds, runRules tracker view rules tree = .ok ds) ↔
      ∀ r ∈ rules, ∃ ds, runRules tracker view [r] tree = .ok ds := by
  constructor
  · rintro ⟨ds, hds⟩ r hr
    obtain ⟨b, hb, -⟩ := (runRules_eq_ok_iff htree).mp hds
    obtain ⟨m, -, es, hm⟩ := exists_left_of_mem (Audience.hearAll_each hb).flip
      (List.mem_map_of_mem hr)
    exact ⟨_, (runRules_eq_ok_iff htree).mpr ⟨_, hm, rfl⟩⟩
  · intro hall
    cases hrun : runRules tracker view rules tree with
    | ok ds => exact ⟨ds, rfl⟩
    | error f =>
        obtain ⟨r, hr, hf⟩ := exists_runRules_eq_error htree hrun
        obtain ⟨ds, hds⟩ := hall r hr
        rw [hf] at hds
        cases hds

/-- A run answers with what is said at one event after another. -/
theorem runRules_eq_flatMap (htree : tracker.Restores view tree) {rules : List (Rule V)}
    {ds : List (Diagnostic Extent)} (hds : runRules tracker view rules tree = .ok ds) :
    ds = (List.range tree.events.length).flatMap (Rule.saidAt tracker view tree rules) := by
  obtain ⟨b, hb, rfl⟩ := (runRules_eq_ok_iff htree).mp hds
  have hsaid : ∀ i, (rules.map Listener.ofRule).flatMap
      (Listener.saysAt (tree.hearings tracker view) i) = Rule.saidAt tracker view tree rules i := by
    intro i
    rw [List.flatMap_map]
    rfl
  rw [Audience.diagnostics_hearAll hb, Tree.length_hearings]
  show [] ++ (List.range _).flatMap (fun i => (rules.map Listener.ofRule).flatMap _) = _
  simp only [hsaid, List.nil_append]

theorem length_minutes_of_runRules (htree : tracker.Restores view tree) {r : Rule V}
    {ds : List (Diagnostic Extent)} (hds : runRules tracker view [r] tree = .ok ds) :
    (r.minutes tracker view tree).length = tree.events.length := by
  obtain ⟨b, hb, -⟩ := (runRules_eq_ok_iff htree).mp hds
  rw [← Tree.length_hearings tracker view tree]
  exact Audience.length_minutes hb

/-! ## Minutes of a run -/

/-- Rules before they are told anything, beside rules that take minutes.  What will have
been written down in the end is fixed from the start. -/
theorem Audience.beside_minuting (hs : List (Hearing V)) (rules : List (Rule V)) :
    Beside (Listener.Minuting hs hs) (ofRules rules) (ofRules (rules.map Rule.minuting)) := by
  refine ⟨?_, rfl⟩
  show List.Forall₂ _ (rules.map Listener.ofRule) ((rules.map Rule.minuting).map Listener.ofRule)
  rw [List.map_map, List.forall₂_map_left_iff, List.forall₂_map_right_iff, List.forall₂_same]
  intro r _
  exact ⟨[], Listener.ofRule_minuting r, rfl⟩

theorem Audience.map_rule_hearAll {hs : List (Hearing V)} {a b : Audience V}
    (hb : a.hearAll hs = .ok b) : b.listeners.map (·.rule) = a.listeners.map (·.rule) := by
  induction hs generalizing a with
  | nil =>
      cases hb
      rfl
  | cons h hs ih =>
      obtain ⟨c, hc, hrest⟩ := hearAll_cons_eq_ok_iff.mp hb
      obtain ⟨told, htold, rfl⟩ := hear_eq_ok_iff.mp hc
      rw [ih hrest, List.map_map, ← List.forall₂_eq_eq_eq, List.forall₂_map_left_iff,
        List.forall₂_map_right_iff]
      exact htold.flip.imp fun _ _ hx => Listener.rule_of_hear hx

theorem hearAll_minuting_agrees (rules : List (Rule V)) (hs : List (Hearing V)) :
    Agree (Audience.Beside (Listener.Minuting hs []))
      ((Audience.ofRules rules).hearAll hs)
      ((Audience.ofRules (rules.map Rule.minuting)).hearAll hs) :=
  Audience.Beside.hearAll (fun _ _ _ _ hlm => hlm.hear) (Audience.beside_minuting hs rules)

/-- A run answers the same whether or not its rules take minutes. -/
theorem runRules_minuting (htree : tracker.Restores view tree) (rules : List (Rule V)) :
    runRules tracker view (rules.map Rule.minuting) tree = runRules tracker view rules tree := by
  rw [runRules_eq_hearAll htree, runRules_eq_hearAll htree]
  refine (Agree.map_eq (hearAll_minuting_agrees rules _) ?_).symm
  intro a b hab
  exact hab.diagnostics.symm

/-- What rules have written down at the end of a run is what they are told, with what
they report. -/
theorem jointRun_minuting (htree : tracker.Restores view tree) {rules : List (Rule V)}
    {p : Progress V} (hp : jointRun tracker view (rules.map Rule.minuting) tree = .ok p) :
    List.Forall₂
      (fun r a => ∃ state, a = ⟨r.minuting, (state, r.told tracker view tree), none⟩)
      rules p.rules := by
  have hrun := jointRun_agrees htree (rules.map Rule.minuting)
  rw [hp] at hrun
  obtain ⟨b, hb, hended⟩ := hrun.of_ok_left
  have hbeside := hearAll_minuting_agrees rules (tree.hearings tracker view)
  rw [hb] at hbeside
  obtain ⟨a, ha, hab⟩ := hbeside.of_ok_right
  have hrules : rules = a.listeners.map (·.rule) := by
    rw [Audience.map_rule_hearAll ha]
    show rules = (rules.map Listener.ofRule).map (·.rule)
    rw [List.map_map]
    exact (List.map_id rules).symm
  rw [hended.rules, hrules, List.forall₂_map_left_iff, List.forall₂_map_right_iff]
  refine hab.listeners.imp ?_
  rintro l m ⟨log, rfl, hlog⟩
  have hend : log = l.rule.told tracker view tree := by
    rw [Rule.told_eq, Rule.minutes, ← hlog]
    exact (List.append_nil log).symm
  exact ⟨l.state, by rw [← hend]; rfl⟩

/-! ## The order of a run -/

/-- What rules that run together over a tree answer, and in which order. -/
structure Ordered (tracker : Tracker V) (view : V) (tree : Tree) (rules : List (Rule V)) :
    Prop where
  /-- The run comes to its end exactly if each rule comes there alone. -/
  ends : (∃ ds, runRules tracker view rules tree = .ok ds) ↔
    ∀ r ∈ rules, ∃ ds, runRules tracker view [r] tree = .ok ds
  /-- Taking minutes makes no difference to what the run answers. -/
  minuting : runRules tracker view (rules.map Rule.minuting) tree =
    runRules tracker view rules tree
  /-- The minutes that each rule has taken at the end have a row for each event: nothing
  if the rule is passed over there, and otherwise what it reports. -/
  minutes : ∀ p, jointRun tracker view (rules.map Rule.minuting) tree = .ok p →
    List.Forall₂
      (fun r a => (r.minutes tracker view tree).length = tree.events.length ∧
        ∃ state, a = ⟨r.minuting, (state, r.told tracker view tree), none⟩)
      rules p.rules
  /-- The answer is what is said at one event after another, and at each event by one rule
  after another. -/
  diagnostics : ∀ ds, runRules tracker view rules tree = .ok ds →
    ds = (List.range tree.events.length).flatMap (Rule.saidAt tracker view tree rules)
  /-- In another order the rules say the same at each event, one before the other. -/
  permuted : ∀ rules', rules.Perm rules' → ∀ ds, runRules tracker view rules tree = .ok ds →
    runRules tracker view rules' tree =
      .ok ((List.range tree.events.length).flatMap (Rule.saidAt tracker view tree rules')) ∧
    ∀ i, (Rule.saidAt tracker view tree rules i).Perm (Rule.saidAt tracker view tree rules' i)

theorem Rule.saidAt_perm {rules rules' : List (Rule V)} (hperm : rules.Perm rules') (i : Nat) :
    (saidAt tracker view tree rules i).Perm (saidAt tracker view tree rules' i) :=
  hperm.flatMap_right _

/-- Where views are moved back, rules answer in the order of the walk. -/
theorem ordered (htree : tracker.Restores view tree) (rules : List (Rule V)) :
    Ordered tracker view tree rules where
  ends := exists_runRules_iff htree
  minuting := runRules_minuting htree rules
  minutes p hp := by
    have hends : ∃ ds, runRules tracker view rules tree = .ok ds := by
      refine ⟨p.sink.diagnostics, ?_⟩
      rw [← runRules_minuting htree, runRules_eq, hp]
      rfl
    rw [exists_runRules_iff htree] at hends
    rw [List.forall₂_and_left]
    refine ⟨?_, jointRun_minuting htree hp⟩
    intro r hr
    obtain ⟨ds, hds⟩ := hends r hr
    exact length_minutes_of_runRules htree hds
  diagnostics _ hds := runRules_eq_flatMap htree hds
  permuted rules' hperm ds hds := by
    have hends : ∃ ds', runRules tracker view rules' tree = .ok ds' := by
      have halone := (exists_runRules_iff htree).mp ⟨ds, hds⟩
      rw [exists_runRules_iff htree]
      intro r hr
      exact halone r (hperm.mem_iff.mpr hr)
    obtain ⟨ds', hds'⟩ := hends
    refine ⟨?_, Rule.saidAt_perm hperm⟩
    rw [hds', runRules_eq_flatMap htree hds']

/-- The diagnostics of rules come in the order of the walk and, within an event, in the
order of the rules: for rules over type system documents, with or without a schema to
add to, and for rules over executable documents. -/
theorem Document.diagnostics_ordered (d : Document) :
    (∀ (schema : Option TypeSystem) (rules : List (Rule (Option TypeSystem))),
      Ordered (.constant _) schema d.tree rules) ∧
    (∀ (schema : TypeSystem) (rules : List (Rule Position)),
      Ordered .position (.start schema) d.tree rules) :=
  ⟨fun schema rules => ordered (Tracker.constant_restores schema d.tree) rules,
    fun schema rules => ordered (d.restores schema) rules⟩

end GraphLint
