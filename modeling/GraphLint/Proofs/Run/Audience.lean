import GraphLint.Run
import GraphLint.Proofs.Data.Lists

/-!
# What there is to hear

A run shows rules one walk.  This module says what there is to hear on a walk
and what a rule makes of it, without a visitor, without depths and without
leaving a node on the way back.

* `Tree.hearings` lists every event of a walk that skips nothing, each with the
  view that belongs to it.  Views are only ever moved downwards: the view at a
  node is made from the view around the node.
* A `Listener` is a rule that is read such a list.  What it skips is passed over
  by counting the nodes that are open inside of it.
* An `Audience` is any number of listeners that are read the same list.  Nothing
  that one of them does reaches another, and `Audience.hearAll_each` and
  `Audience.hearAll_only` say so: each listener ends as it would have ended
  alone, and has reported the same.

A run agrees with an audience in the sense of `Agree`: both come to related
results or both end with the same fault.
-/

set_option autoImplicit false

universe u v w x

namespace GraphLint

/-! ## Agreement of two computations -/

/-- Both computations come to related results, or both end with the same fault. -/
def Agree {α : Type u} {β : Type v} (R : α → β → Prop) : Except Fault α → Except Fault β → Prop
  | .ok a, .ok b => R a b
  | .error f, .error g => f = g
  | _, _ => False

namespace Agree

variable {α : Type u} {β : Type v} {R S : α → β → Prop}

theorem mono {x : Except Fault α} {y : Except Fault β} (h : Agree R x y)
    (hRS : ∀ a b, R a b → S a b) : Agree S x y := by
  cases x with
  | error f => cases y <;> exact h
  | ok a =>
      cases y with
      | error g => exact h
      | ok b => exact hRS a b h

/-- What goes on from agreeing computations in an agreeing way still agrees. -/
theorem bind {γ : Type u} {δ : Type v} {T : γ → δ → Prop} {x : Except Fault α}
    {y : Except Fault β} {f : α → Except Fault γ} {g : β → Except Fault δ} (h : Agree R x y)
    (hfg : ∀ a b, R a b → Agree T (f a) (g b)) : Agree T (x.bind f) (y.bind g) := by
  cases x with
  | error e =>
      cases y with
      | error f => exact h
      | ok b => exact h.elim
  | ok a =>
      cases y with
      | error f => exact h.elim
      | ok b => exact hfg a b h

theorem map {γ : Type u} {δ : Type v} {T : γ → δ → Prop} {x : Except Fault α}
    {y : Except Fault β} {f : α → γ} {g : β → δ} (h : Agree R x y)
    (hfg : ∀ a b, R a b → T (f a) (g b)) : Agree T (x.map f) (y.map g) := by
  cases x with
  | error e =>
      cases y with
      | error f => exact h
      | ok b => exact h.elim
  | ok a =>
      cases y with
      | error f => exact h.elim
      | ok b => exact hfg a b h

/-- Where the same is made of agreeing results, it does not matter which of the
two is run. -/
theorem map_eq {γ : Type w} {x : Except Fault α} {y : Except Fault β} {f : α → γ} {g : β → γ}
    (h : Agree R x y) (hfg : ∀ a b, R a b → f a = g b) : x.map f = y.map g := by
  cases x with
  | error e =>
      cases y with
      | error f => exact congrArg Except.error h
      | ok b => exact h.elim
  | ok a =>
      cases y with
      | error f => exact h.elim
      | ok b => exact congrArg Except.ok (hfg a b h)

theorem of_ok_left {a : α} {y : Except Fault β} (h : Agree R (.ok a) y) :
    ∃ b, y = .ok b ∧ R a b := by
  cases y with
  | error f => exact h.elim
  | ok b => exact ⟨b, rfl, h⟩

theorem of_ok_right {b : β} {x : Except Fault α} (h : Agree R x (.ok b)) :
    ∃ a, x = .ok a ∧ R a b := by
  cases x with
  | error f => exact h.elim
  | ok a => exact ⟨a, rfl, h⟩

end Agree

theorem Agree.mapM {α : Type u} {β : Type v} {γ : Type u} {δ : Type v} {R : α → β → Prop}
    {S : γ → δ → Prop} {f : α → Except Fault γ} {g : β → Except Fault δ}
    (hfg : ∀ a b, R a b → Agree S (f a) (g b)) {as : List α} {bs : List β}
    (h : List.Forall₂ R as bs) : Agree (List.Forall₂ S) (as.mapM f) (bs.mapM g) := by
  induction h with
  | nil => exact .nil
  | cons hab _ ih =>
      rw [List.mapM_cons, List.mapM_cons]
      refine Agree.bind (hfg _ _ hab) ?_
      intro c d hcd
      refine Agree.bind ih ?_
      intro cs ds hrest
      exact .cons hcd hrest

theorem forall₂_comp {α : Type w} {R S T : α → α → Prop} (hRS : ∀ a b c, R a b → S b c → T a c)
    {as bs cs : List α} (hR : List.Forall₂ R as bs) (hS : List.Forall₂ S bs cs) :
    List.Forall₂ T as cs := by
  induction hR generalizing cs with
  | nil =>
      cases hS
      exact .nil
  | cons hab _ ih =>
      cases hS with
      | cons hbc hrest => exact .cons (hRS _ _ _ hab hbc) (ih hrest)

/-! ## Hearings -/

/-- The node that is entered or left. -/
def Event.node : Event → Node
  | .enter n => n
  | .leave n => n

/-- Something that a rule can be told: an event, and the view that it is shown. -/
structure Hearing (V : Type) where
  /-- What happens. -/
  event : Event
  /-- What is shown. -/
  view : V

variable {V : Type}

mutual

/-- Everything there is to hear on a walk through a tree.  A node is entered and
left with one and the same view, made from the view around it. -/
def Tree.hearings (tracker : Tracker V) (view : V) : Tree → List (Hearing V)
  | .node root children =>
    ⟨.enter root, tracker.enter view root⟩ ::
      (Tree.hearingsAll tracker (tracker.enter view root) children ++
        [⟨.leave root, tracker.enter view root⟩])

/-- Everything there is to hear when trees are walked one after another. -/
def Tree.hearingsAll (tracker : Tracker V) (view : V) : List Tree → List (Hearing V)
  | [] => []
  | t :: ts => t.hearings tracker view ++ Tree.hearingsAll tracker view ts

end

mutual

/-- What there is to hear are the events of a walk that skips nothing. -/
theorem Tree.map_event_hearings (tracker : Tracker V) (view : V) :
    ∀ t : Tree, (t.hearings tracker view).map (·.event) = t.events
  | .node root children => by
      simp only [Tree.hearings, Tree.events, List.map_cons, List.map_append, List.map_nil]
      rw [Tree.map_event_hearingsAll tracker _ children]

theorem Tree.map_event_hearingsAll (tracker : Tracker V) (view : V) :
    ∀ ts : List Tree, (Tree.hearingsAll tracker view ts).map (·.event) = Tree.eventsAll ts
  | [] => rfl
  | t :: ts => by
      simp only [Tree.hearingsAll, Tree.eventsAll, List.map_append]
      rw [Tree.map_event_hearings tracker view t, Tree.map_event_hearingsAll tracker view ts]

end

/-! ## Listeners -/

/-- A rule that is told of one thing after another. -/
structure Listener (V : Type) where
  /-- The rule. -/
  rule : Rule V
  /-- What it remembers. -/
  state : rule.State
  /-- Number of open nodes, counted from the node that it skips on; zero while it
  skips none. -/
  muted : Nat

namespace Listener

/-- A rule before it is told anything. -/
def ofRule (rule : Rule V) : Listener V := ⟨rule, rule.start, 0⟩

/-- A rule is told something, unless it comes from inside of what the rule skips.
With a skipped node the leave of that node is passed over too. -/
def hear (l : Listener V) (h : Hearing V) : Except Fault (Listener V × List Report) :=
  match l.muted, h.event with
  | 0, .enter n =>
    match l.rule.enter h.view n l.state with
    | .error fault => .error fault
    | .ok reaction =>
      let muted := match reaction.control with
        | .skip => 1
        | .descend => 0
      .ok (⟨l.rule, reaction.state, muted⟩, reaction.reports)
  | 0, .leave n =>
    match l.rule.leave h.view n l.state with
    | .error fault => .error fault
    | .ok (state, reports) => .ok (⟨l.rule, state, 0⟩, reports)
  | muted + 1, .enter _ => .ok ({ l with muted := muted + 2 }, [])
  | muted + 1, .leave _ => .ok ({ l with muted := muted }, [])

/-- What a rule is told of all there is to hear: what it skips is left out, and
nothing comes after a fault. -/
def heard : List (Hearing V) → Listener V → List (Hearing V)
  | [], _ => []
  | h :: hs, l =>
    (if l.muted = 0 then [h] else []) ++
      match l.hear h with
      | .ok (l, _) => heard hs l
      | .error _ => []

/-- A rule is told nothing that there is not to hear. -/
theorem heard_sublist (hs : List (Hearing V)) (l : Listener V) : (l.heard hs).Sublist hs := by
  induction hs generalizing l with
  | nil => exact .slnil
  | cons h hs ih =>
      have hfirst : (if l.muted = 0 then [h] else []).Sublist [h] := by
        by_cases hmuted : l.muted = 0
        · rw [if_pos hmuted]
        · rw [if_neg hmuted]
          exact List.nil_sublist [h]
      rw [heard]
      refine List.Sublist.append hfirst (?_ : List.Sublist _ hs)
      cases l.hear h with
      | error f => exact List.nil_sublist hs
      | ok told => exact ih told.1

theorem rule_of_hear {l m : Listener V} {h : Hearing V} {reports : List Report}
    (hl : l.hear h = .ok (m, reports)) : m.rule = l.rule := by
  unfold hear at hl
  split at hl
  · split at hl <;> cases hl
    rfl
  · split at hl <;> cases hl
    rfl
  · cases hl
    rfl
  · cases hl
    rfl

end Listener

/-! ## Audiences -/

/-- A report as a diagnostic of the rule that makes it. -/
def Rule.stamp (r : Rule V) (report : Report) : Diagnostic Extent :=
  ⟨report.message, report.culprits, r.name, r.severity⟩

/-- Rules that are told the same. -/
structure Audience (V : Type) where
  /-- The rules. -/
  listeners : List (Listener V)
  /-- What they have reported. -/
  diagnostics : List (Diagnostic Extent)

namespace Audience

/-- Rules before they are told anything. -/
def ofRules (rules : List (Rule V)) : Audience V := ⟨rules.map Listener.ofRule, []⟩

/-- What one listener adds to the diagnostics. -/
def said (told : Listener V × List Report) : List (Diagnostic Extent) :=
  told.2.map told.1.rule.stamp

/-- Every rule is told something, in the order of the rules. -/
def hear (a : Audience V) (h : Hearing V) : Except Fault (Audience V) :=
  (a.listeners.mapM (Listener.hear · h)).bind fun told =>
    .ok ⟨told.map (·.1), a.diagnostics ++ told.flatMap said⟩

/-- Every rule is told one thing after another. -/
def hearAll (hs : List (Hearing V)) (a : Audience V) : Except Fault (Audience V) :=
  hs.foldlM hear a

@[simp] theorem hearAll_nil (a : Audience V) : a.hearAll [] = .ok a := rfl

@[simp] theorem hearAll_cons (h : Hearing V) (hs : List (Hearing V)) (a : Audience V) :
    a.hearAll (h :: hs) = (a.hear h).bind fun b => b.hearAll hs := rfl

theorem hearAll_cons_eq_ok_iff {h : Hearing V} {hs : List (Hearing V)} {a b : Audience V} :
    a.hearAll (h :: hs) = .ok b ↔ ∃ c, a.hear h = .ok c ∧ c.hearAll hs = .ok b := by
  rw [hearAll_cons]
  cases a.hear h with
  | error f => exact ⟨nofun, nofun⟩
  | ok c =>
      constructor
      · intro hb
        exact ⟨c, rfl, hb⟩
      · rintro ⟨_, hc, hb⟩
        cases hc
        exact hb

theorem hearAll_singleton (h : Hearing V) (a : Audience V) : a.hearAll [h] = a.hear h := by
  rw [hearAll_cons]
  cases a.hear h <;> rfl

theorem hearAll_append (hs ks : List (Hearing V)) (a : Audience V) :
    a.hearAll (hs ++ ks) = (a.hearAll hs).bind fun b => b.hearAll ks :=
  List.foldlM_append

/-- What a step of an audience is: a step of every listener. -/
theorem hear_eq_ok_iff {a b : Audience V} {h : Hearing V} :
    a.hear h = .ok b ↔
      ∃ told, List.Forall₂ (fun l x => l.hear h = .ok x) a.listeners told ∧
        b = ⟨told.map (·.1), a.diagnostics ++ told.flatMap said⟩ := by
  unfold hear
  constructor
  · intro hb
    cases htold : a.listeners.mapM (Listener.hear · h) with
    | error f =>
        rw [htold] at hb
        cases hb
    | ok told =>
        rw [htold] at hb
        exact ⟨told, mapM_eq_ok_iff.mp htold, (Except.ok.inj hb).symm⟩
  · rintro ⟨told, htold, rfl⟩
    rw [mapM_eq_ok_iff.mpr htold]
    rfl

theorem exists_of_hear_eq_error {a : Audience V} {h : Hearing V} {f : Fault}
    (hf : a.hear h = .error f) : ∃ l ∈ a.listeners, l.hear h = .error f := by
  unfold hear at hf
  cases htold : a.listeners.mapM (Listener.hear · h) with
  | error g =>
      rw [htold] at hf
      cases hf
      exact exists_of_mapM_eq_error htold
  | ok told =>
      rw [htold] at hf
      cases hf

/-! ### Whose diagnostics they are -/

/-- All that has been reported bears the name and the severity of one of the rules. -/
structure Stamped (rules : List (Rule V)) (a : Audience V) : Prop where
  /-- No other rules listen. -/
  rule_mem : ∀ l ∈ a.listeners, l.rule ∈ rules
  /-- What has been reported is stamped. -/
  stamp : ∀ d ∈ a.diagnostics, ∃ r ∈ rules, ∃ report, d = r.stamp report

theorem stamped_ofRules (rules : List (Rule V)) : (ofRules rules).Stamped rules := by
  refine ⟨?_, nofun⟩
  intro l hl
  obtain ⟨r, hr, rfl⟩ := List.mem_map.mp hl
  exact hr

theorem Stamped.hear {rules : List (Rule V)} {a b : Audience V} {h : Hearing V}
    (ha : a.Stamped rules) (hb : a.hear h = .ok b) : b.Stamped rules := by
  obtain ⟨told, htold, rfl⟩ := hear_eq_ok_iff.mp hb
  have hrule : ∀ x ∈ told, x.1.rule ∈ rules := by
    intro x hx
    obtain ⟨l, hl, hear⟩ := exists_left_of_mem htold hx
    rw [Listener.rule_of_hear hear]
    exact ha.rule_mem l hl
  refine ⟨?_, ?_⟩
  · intro m hm
    obtain ⟨x, hx, rfl⟩ := List.mem_map.mp hm
    exact hrule x hx
  · intro d hd
    rcases List.mem_append.mp hd with hbefore | hnow
    · exact ha.stamp d hbefore
    · obtain ⟨x, hx, hsaid⟩ := List.mem_flatMap.mp hnow
      obtain ⟨report, _, hstamp⟩ := List.mem_map.mp hsaid
      exact ⟨x.1.rule, hrule x hx, report, hstamp.symm⟩

theorem Stamped.hearAll {rules : List (Rule V)} {hs : List (Hearing V)} {a b : Audience V}
    (ha : a.Stamped rules) (hb : a.hearAll hs = .ok b) : b.Stamped rules := by
  induction hs generalizing a with
  | nil =>
      cases hb
      exact ha
  | cons h hs ih =>
      obtain ⟨c, hc, hrest⟩ := hearAll_cons_eq_ok_iff.mp hb
      exact ih (ha.hear hc) hrest

/-! ### Earlier diagnostics -/

/-- The audience with diagnostics from before. -/
def after (ds : List (Diagnostic Extent)) (a : Audience V) : Audience V :=
  ⟨a.listeners, ds ++ a.diagnostics⟩

theorem hear_after (ds : List (Diagnostic Extent)) (a : Audience V) (h : Hearing V) :
    (a.after ds).hear h = (a.hear h).map (after ds) := by
  unfold hear
  show (a.listeners.mapM (Listener.hear · h)).bind _ = _
  cases a.listeners.mapM (Listener.hear · h) with
  | error f => rfl
  | ok told =>
      show Except.ok _ = Except.ok _
      simp only [after, List.append_assoc]

/-- What has been reported before has no influence. -/
theorem hearAll_after (ds : List (Diagnostic Extent)) (hs : List (Hearing V)) (a : Audience V) :
    (a.after ds).hearAll hs = (a.hearAll hs).map (after ds) := by
  induction hs generalizing a with
  | nil => rfl
  | cons h hs ih =>
      rw [hearAll_cons, hearAll_cons, hear_after]
      cases a.hear h with
      | error f => rfl
      | ok b => exact ih b

/-! ### Each listener alone -/

/-- A single listener. -/
def alone (l : Listener V) : Audience V := ⟨[l], []⟩

theorem hear_alone (l : Listener V) (h : Hearing V) :
    (alone l).hear h = (l.hear h).map fun told => (alone told.1).after (said told) := by
  have hone : [l].mapM (Listener.hear · h) = (l.hear h).map fun told => [told] := by
    rw [List.mapM_cons, List.mapM_nil]
    cases l.hear h <;> rfl
  unfold hear
  show ([l].mapM (Listener.hear · h)).bind _ = _
  rw [hone]
  cases l.hear h with
  | error f => rfl
  | ok told =>
      show Except.ok _ = Except.ok _
      simp [alone, after]

theorem hear_each {a b : Audience V} {h : Hearing V} (hb : a.hear h = .ok b) :
    List.Forall₂ (fun l m => ∃ ds, (alone l).hear h = .ok ((alone m).after ds))
      a.listeners b.listeners := by
  obtain ⟨told, htold, rfl⟩ := hear_eq_ok_iff.mp hb
  show List.Forall₂ _ a.listeners (told.map (·.1))
  rw [List.forall₂_map_right_iff]
  refine htold.imp ?_
  intro l x hx
  refine ⟨said x, ?_⟩
  rw [hear_alone, hx]
  rfl

/-- Each listener of an audience ends as it would have ended alone. -/
theorem hearAll_each {hs : List (Hearing V)} {a b : Audience V} (hb : a.hearAll hs = .ok b) :
    List.Forall₂ (fun l m => ∃ ds, (alone l).hearAll hs = .ok ((alone m).after ds))
      a.listeners b.listeners := by
  induction hs generalizing a with
  | nil =>
      cases hb
      rw [List.forall₂_same]
      intro l _
      exact ⟨[], rfl⟩
  | cons h hs ih =>
      obtain ⟨c, hc, hb'⟩ := hearAll_cons_eq_ok_iff.mp hb
      have hfirst := hear_each hc
      have hrest := ih hb'
      refine forall₂_comp ?_ hfirst hrest
      rintro l m n ⟨ds, hm⟩ ⟨es, hn⟩
      refine ⟨ds ++ es, ?_⟩
      rw [hearAll_cons, hm]
      show ((alone m).after ds).hearAll hs = _
      rw [hearAll_after, hn]
      show Except.ok _ = Except.ok _
      simp only [after, List.append_assoc]

/-- An audience that faults has a listener that faults in the same way alone. -/
theorem exists_of_hearAll_eq_error {hs : List (Hearing V)} {a : Audience V} {f : Fault}
    (hf : a.hearAll hs = .error f) : ∃ l ∈ a.listeners, (alone l).hearAll hs = .error f := by
  induction hs generalizing a with
  | nil => cases hf
  | cons h hs ih =>
      rw [hearAll_cons] at hf
      cases hc : a.hear h with
      | error g =>
          rw [hc] at hf
          cases hf
          obtain ⟨l, hl, hg⟩ := exists_of_hear_eq_error hc
          refine ⟨l, hl, ?_⟩
          rw [hearAll_cons, hear_alone, hg]
          rfl
      | ok c =>
          rw [hc] at hf
          obtain ⟨m, hm, hg⟩ := ih hf
          obtain ⟨l, hl, ds, hlm⟩ := exists_left_of_mem (hear_each hc) hm
          refine ⟨l, hl, ?_⟩
          rw [hearAll_cons, hlm]
          show ((alone m).after ds).hearAll hs = _
          rw [hearAll_after, hg]
          rfl

/-! ### Audiences side by side -/

/-- Two audiences whose listeners are paired, and which have reported the same. -/
structure Beside (R : Listener V → Listener V → Prop) (a b : Audience V) : Prop where
  /-- The listeners. -/
  listeners : List.Forall₂ R a.listeners b.listeners
  /-- What has been reported. -/
  diagnostics : b.diagnostics = a.diagnostics

theorem Beside.hear {R S : Listener V → Listener V → Prop} {h : Hearing V}
    (hstep : ∀ l m, R l m →
      Agree (fun x y => S x.1 y.1 ∧ said y = said x) (l.hear h) (m.hear h))
    {a b : Audience V} (hab : Beside R a b) : Agree (Beside S) (a.hear h) (b.hear h) := by
  refine Agree.bind (Agree.mapM hstep hab.listeners) ?_
  intro told told' htold
  have hsaid : told'.flatMap said = told.flatMap said := by
    induction htold with
    | nil => rfl
    | cons hxy _ ih => rw [List.flatMap_cons, List.flatMap_cons, ih, hxy.2]
  refine ⟨?_, ?_⟩
  · show List.Forall₂ _ (told.map (·.1)) (told'.map (·.1))
    rw [List.forall₂_map_left_iff, List.forall₂_map_right_iff]
    exact htold.imp fun _ _ hxy => hxy.1
  · show b.diagnostics ++ told'.flatMap said = a.diagnostics ++ told.flatMap said
    rw [hab.diagnostics, hsaid]

/-- Listeners that are paired in view of what is still to come, and stay so with
everything they hear, come to the same end. -/
theorem Beside.hearAll {R : List (Hearing V) → Listener V → Listener V → Prop}
    (hstep : ∀ h hs l m, R (h :: hs) l m →
      Agree (fun x y => R hs x.1 y.1 ∧ said y = said x) (l.hear h) (m.hear h))
    {hs : List (Hearing V)} {a b : Audience V} (hab : Beside (R hs) a b) :
    Agree (Beside (R [])) (a.hearAll hs) (b.hearAll hs) := by
  induction hs generalizing a b with
  | nil => exact hab
  | cons h hs ih =>
      rw [hearAll_cons, hearAll_cons]
      exact Agree.bind (hab.hear (hstep h hs)) fun c d hcd => ih hcd

/-! ### The part of some names -/

/-- What an audience is for the rules of some names. -/
def only (keep : String → Bool) (a : Audience V) : Audience V :=
  ⟨a.listeners.filter (keep ·.rule.name), a.diagnostics.filter (keep ·.rule)⟩

theorem filter_flatMap_said (keep : String → Bool) (told : List (Listener V × List Report)) :
    (told.flatMap said).filter (keep ·.rule) = (told.filter (keep ·.1.rule.name)).flatMap said := by
  induction told with
  | nil => rfl
  | cons x told ih =>
      have hrule : ∀ d ∈ said x, d.rule = x.1.rule.name := by
        intro d hd
        obtain ⟨report, _, rfl⟩ := List.mem_map.mp hd
        rfl
      rw [List.flatMap_cons, List.filter_append, ih]
      by_cases hx : keep x.1.rule.name = true
      · have hall : (said x).filter (keep ·.rule) = said x := by
          rw [List.filter_eq_self]
          intro d hd
          rw [hrule d hd]
          exact hx
        rw [hall, List.filter_cons, if_pos hx, List.flatMap_cons]
      · have hnone : (said x).filter (keep ·.rule) = [] := by
          rw [List.filter_eq_nil_iff]
          intro d hd
          rw [hrule d hd]
          exact hx
        rw [hnone, List.filter_cons, if_neg hx, List.nil_append]

theorem hear_only (keep : String → Bool) {a b : Audience V} {h : Hearing V}
    (hb : a.hear h = .ok b) : (a.only keep).hear h = .ok (b.only keep) := by
  obtain ⟨told, htold, rfl⟩ := hear_eq_ok_iff.mp hb
  refine hear_eq_ok_iff.mpr ⟨told.filter (keep ·.1.rule.name), ?_, ?_⟩
  · refine List.rel_filter ?_ htold
    intro l x hx
    show keep l.rule.name = true ↔ keep x.1.rule.name = true
    rw [Listener.rule_of_hear hx]
  · simp only [only, List.filter_map, List.filter_append, filter_flatMap_said]
    rfl

/-- The rules of some names do not need the others. -/
theorem hearAll_only (keep : String → Bool) {hs : List (Hearing V)} {a b : Audience V}
    (hb : a.hearAll hs = .ok b) : (a.only keep).hearAll hs = .ok (b.only keep) := by
  induction hs generalizing a with
  | nil =>
      cases hb
      rfl
  | cons h hs ih =>
      obtain ⟨c, hc, hrest⟩ := hearAll_cons_eq_ok_iff.mp hb
      exact hearAll_cons_eq_ok_iff.mpr ⟨c.only keep, hear_only keep hc, ih hrest⟩

theorem only_ofRules (keep : String → Bool) (rules : List (Rule V)) :
    (ofRules rules).only keep = ofRules (rules.filter (keep ·.name)) := by
  show (⟨(rules.map Listener.ofRule).filter _, []⟩ : Audience V) = ⟨_, []⟩
  rw [List.filter_map]
  rfl

end Audience

end GraphLint
