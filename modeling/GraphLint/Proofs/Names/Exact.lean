import GraphLint.Proofs.Names.Declarations
import GraphLint.Proofs.Names.Listening
import GraphLint.Rule.Registry

/-!
# What the rules about names report

The rules about names keep tables of the first declarations they have heard of and
look names up in them.  What they report of a document are the complaints that its
declarations deserve, one after another (`Declaration.complaints`), which look back
at the text and keep no tables.

The tables do not hold the first declarations of all names: a name that the schema
has is never noted.  `Knows` therefore relates a table to the declarations so far for
the other names only.  Hearing one definition preserves it (`Knows.append`), and
hearing a document follows by induction on its definitions.
-/

set_option autoImplicit false

namespace GraphLint

/-! ## Nothing inside of a definition declares a name -/

namespace Construct

/-- Constructs that stand in a document directly. -/
def isTopLevel : Construct → Bool
  | .operationDefinition _ | .fragmentDefinition _ | .schema _ | .type _ _
  | .directiveDefinition => true
  | _ => false

theorem isTopLevel_of_holds {c d : Construct} (h : c.Holds d) (hc : c ≠ .document) :
    d.isTopLevel = false := by
  cases h <;> first | rfl | exact absurd rfl hc

theorem ne_document_of_holds {c d : Construct} (h : c.Holds d) : d ≠ .document := by
  rintro rfl
  cases h

end Construct

mutual

/-- What stands inside of something in a document does not stand in the document
directly. -/
theorem Tree.isTopLevel_of_fits {outer : Construct} (houter : outer ≠ .document) :
    ∀ t : Tree, t.Fits outer → ∀ n ∈ t.nodes, n.construct.isTopLevel = false
  | .node root children, ht, n, hn => by
      rw [Tree.Fits] at ht
      obtain ⟨hroot, hchildren⟩ := ht
      rcases List.mem_cons.mp hn with rfl | hn
      · exact Construct.isTopLevel_of_holds hroot houter
      · have hinner := Construct.ne_document_of_holds hroot
        exact Tree.isTopLevel_of_fitAll hinner children hchildren n hn

theorem Tree.isTopLevel_of_fitAll {outer : Construct} (houter : outer ≠ .document) :
    ∀ ts : List Tree, Tree.FitAll outer ts → ∀ n ∈ Tree.nodesAll ts, n.construct.isTopLevel = false
  | [], _, n, hn => absurd hn List.not_mem_nil
  | t :: ts, hts, n, hn => by
      rw [Tree.FitAll] at hts
      rcases List.mem_append.mp hn with hn | hn
      · exact Tree.isTopLevel_of_fits houter t hts.1 n hn
      · exact Tree.isTopLevel_of_fitAll houter ts hts.2 n hn

end

/-! ## Namespaces of subjects -/

namespace Subject

/-- The namespace of a subject. -/
def space : Subject → Namespace
  | directive => .directives
  | type => .types

/-- What the rule of a subject is for. -/
def purpose : Subject → String
  | directive => "Ensures each directive is defined only once"
  | type => "Ensures each named type is defined only once"

/-- The rule about the names of a subject, knowing some declarations. -/
def register (known : Subject → List Name) (s : Subject) : Register :=
  ⟨s.space, s.ruleName, s.purpose, known s⟩

theorem isDefined_space (s : Subject) (schema : TypeSystem) (text : String) :
    s.space.isDefined schema text = s.isIn schema text := by
  cases s <;> rfl

theorem alreadyDefined_space (s : Subject) (text : String) :
    s.space.alreadyDefined text = s.alreadyExists text := by
  cases s <;> rfl

theorem declaredAgain_space (s : Subject) (text : String) :
    s.space.declaredAgain text = s.onlyOne text := by
  cases s <;> rfl

/-- No namespace has names that are declared further inside. -/
theorem declares_space_of_not_isTopLevel (s : Subject) {n : Node}
    (hn : n.construct.isTopLevel = false) : s.space.declares n.kind = false := by
  obtain ⟨construct, name, extent⟩ := n
  cases construct with
  | type => cases hn
  | directiveDefinition => cases hn
  | schema => cases hn
  | _ => cases s <;> rfl

end Subject

/-- What the rule of a subject makes of the root of a definition: what it makes of the
name that is declared there, if there is one and it is about the subject. -/
theorem Definition.exists_root (d : Definition) :
    ∃ root children, d.tree = .node root children ∧ ∀ (s : Subject) schema known,
      s.space.note schema known root =
        match d.declaration? with
        | some x => if x.subject = s then s.space.declare schema known x.name else (known, [])
        | none => (known, []) := by
  cases d with
  | operation d => exact ⟨_, _, rfl, fun s _ _ => by cases s <;> rfl⟩
  | fragment d => exact ⟨_, _, rfl, fun s _ _ => by cases s <;> rfl⟩
  | schema d =>
      refine ⟨_, _, rfl, ?_⟩
      intro s known schema
      obtain ⟨extent, isExtension, directives, roots⟩ := d
      cases isExtension <;> cases s <;> rfl
  | type d =>
      refine ⟨_, _, rfl, ?_⟩
      intro s schema known
      obtain ⟨extent, description, isExtension, name, directives, body⟩ := d
      cases isExtension with
      | true => cases s <;> rfl
      | false => cases name <;> cases s <;> rfl
  | directive d =>
      refine ⟨_, _, rfl, ?_⟩
      intro s schema known
      obtain ⟨extent, description, name, arguments, isRepeatable, locations⟩ := d
      cases name <;> cases s <;> rfl

/-! ## Tables of declarations -/

/-- A table holds the first declaration of each name so far, names that the schema has
aside. -/
def Knows (schema : Option TypeSystem) (before : List Declaration)
    (known : Subject → List Name) : Prop :=
  ∀ (s : Subject) (text : String), schema.any (s.isIn · text) = false →
    (known s).find? (·.text = text) =
      (before.find? (Declaration.declares s text)).map (·.name)

theorem knows_nil (schema : Option TypeSystem) : Knows schema [] fun _ => [] :=
  fun _ _ _ => rfl

namespace Declaration

/-- What the rule of a declaration's subject reports is the complaint that it deserves. -/
theorem reports_declare {schema : Option TypeSystem} {before : List Declaration}
    {known : Subject → List Name} (hknown : Knows schema before known) (x : Declaration) :
    (x.subject.space.declare schema (known x.subject) x.name).2.map
        (x.subject.register known).rule.stamp =
      (x.complaint? schema before).toList := by
  obtain ⟨s, name⟩ := x
  unfold Namespace.declare complaint?
  simp only [Subject.isDefined_space, Subject.alreadyDefined_space, Subject.declaredAgain_space]
  cases hschema : schema.any (s.isIn · name.text) with
  | true => rfl
  | false =>
      have hfind := hknown s name.text hschema
      simp only [Bool.false_eq_true, if_false]
      rw [hfind]
      cases before.find? (declares s name.text) <;> rfl

/-- The table behind a declaration. -/
def noted (schema : Option TypeSystem) (x : Declaration) (known : Subject → List Name)
    (s : Subject) : List Name :=
  if x.subject = s then (s.space.declare schema (known s) x.name).1 else known s

end Declaration

/-- Noting a declaration keeps a table in step with the text. -/
theorem Knows.append {schema : Option TypeSystem} {before : List Declaration}
    {known : Subject → List Name} (hknown : Knows schema before known) (x : Declaration) :
    Knows schema (before ++ [x]) (x.noted schema known) := by
  intro s text htext
  have hbefore := hknown s text htext
  rw [List.find?_append]
  unfold Declaration.noted
  by_cases hs : x.subject = s
  · subst hs
    rw [if_pos rfl]
    unfold Namespace.declare
    simp only [Subject.isDefined_space]
    by_cases hname : x.name.text = text
    · subst hname
      have hdeclares : x.declares x.subject x.name.text = true := by simp [Declaration.declares]
      rw [htext]
      simp only [Bool.false_eq_true, if_false]
      cases hfirst : (known x.subject).find? (·.text = x.name.text) with
      | some first =>
          rw [hfirst] at hbefore
          obtain ⟨y, hy, _⟩ := Option.map_eq_some_iff.mp hbefore.symm
          rw [hy] at hbefore ⊢
          rw [hfirst]
          exact hbefore
      | none =>
          rw [hfirst] at hbefore
          have hnone := Option.map_eq_none_iff.mp hbefore.symm
          rw [List.find?_append, hfirst, hnone, List.find?_cons_of_pos hdeclares]
          simp
    · -- Another name is noted at most, behind all others.
      have hdeclares : ¬x.declares x.subject text = true := by
        simpa [Declaration.declares] using hname
      rw [List.find?_cons_of_neg hdeclares, List.find?_nil, Option.or_none, ← hbefore]
      split
      · rfl
      · split
        · rfl
        · rw [List.find?_append, List.find?_cons_of_neg (by simpa using hname), List.find?_nil,
            Option.or_none]
  · have hdeclares : ¬x.declares s text = true := by
      simp [Declaration.declares, hs]
    rw [if_neg hs, List.find?_cons_of_neg hdeclares, List.find?_nil, Option.or_none, hbefore]

/-! ## Hearing definitions -/

section

variable {schema : Option TypeSystem}

/-- The rules of all subjects, in some order. -/
structure Orders (subjects : List Subject) : Prop where
  /-- None is missing, and none occurs twice. -/
  count : ∀ s, subjects.count s = 1

theorem Orders.flatMap {subjects : List Subject} (h : Orders subjects) {α : Type} (s : Subject)
    (xs : List α) : (subjects.flatMap fun s' => if s = s' then xs else []) = xs := by
  have hcount := h.count s
  clear h
  induction subjects with
  | nil => cases hcount
  | cons s' subjects ih =>
      rw [List.flatMap_cons]
      by_cases hs : s = s'
      · subst hs
        have hnone : subjects.count s = 0 := by simpa using hcount
        have hrest : (subjects.flatMap fun s' => if s = s' then xs else []) = [] := by
          rw [List.flatMap_eq_nil_iff]
          intro s' hs'
          have hne : s ≠ s' := by
            rintro rfl
            exact List.count_eq_zero.mp hnone hs'
          rw [if_neg hne]
        rw [if_pos rfl, hrest, List.append_nil]
      · rw [if_neg hs, List.nil_append]
        refine ih ?_
        rwa [List.count_cons_of_ne (Ne.symm hs)] at hcount

theorem Definition.hearAll_tree {subjects : List Subject} (hsubjects : Orders subjects)
    (d : Definition) {before : List Declaration} {known : Subject → List Name}
    (hknown : Knows schema before known) (ds : List (Diagnostic Extent)) :
    ∃ known', Knows schema (before ++ d.declaration?.toList) known' ∧
      (Register.audience (subjects.map (Subject.register known)) ds).hearAll
          (d.tree.hearings (.constant _) schema) =
        .ok (Register.audience (subjects.map (Subject.register known'))
          (ds ++ (d.declaration?.bind (·.complaint? schema before)).toList)) := by
  obtain ⟨root, children, htree, hroot⟩ := d.exists_root
  have hfits := d.fits_tree
  rw [htree, Tree.Fits] at hfits
  have hinner : ∀ n ∈ Tree.nodesAll children, ∀ r ∈ subjects.map (Subject.register known),
      r.space.declares n.kind = false := by
    intro n hn r hr
    obtain ⟨s, _, rfl⟩ := List.mem_map.mp hr
    have hne := Construct.ne_document_of_holds hfits.1
    exact s.declares_space_of_not_isTopLevel
      (Tree.isTopLevel_of_fitAll hne children hfits.2 n hn)
  rw [htree, Register.hearAll_root hinner, List.map_map, List.flatMap_map]
  cases hx : d.declaration? with
  | none =>
      rw [hx] at hroot
      refine ⟨known, ?_, ?_⟩
      · rw [Option.toList_none, List.append_nil]
        exact hknown
      · have hnote : Register.note schema root ∘ Subject.register known =
            Subject.register known := by
          funext s
          simp only [Function.comp_apply, Register.note, Subject.register, hroot]
        have hreports : (subjects.flatMap fun s =>
            Register.reports schema root (s.register known)) = [] := by
          rw [List.flatMap_eq_nil_iff]
          intro s _
          simp only [Register.reports, Subject.register, hroot]
          rfl
        rw [hnote, hreports]
        rfl
  | some x =>
      rw [hx] at hroot
      refine ⟨x.noted schema known, hknown.append x, ?_⟩
      have hnote : Register.note schema root ∘ Subject.register known =
          Subject.register (x.noted schema known) := by
        funext s
        simp only [Function.comp_apply, Register.note, Subject.register, hroot, Declaration.noted]
        split <;> rfl
      have hreports : (subjects.flatMap fun s =>
          Register.reports schema root (s.register known)) =
          (x.complaint? schema before).toList := by
        rw [← x.reports_declare hknown, ← hsubjects.flatMap x.subject
          ((x.subject.space.declare schema (known x.subject) x.name).2.map _)]
        refine List.flatMap_congr ?_
        intro s _
        simp only [Register.reports, Subject.register, hroot]
        by_cases hs : x.subject = s
        · subst hs
          rw [if_pos rfl, if_pos rfl]
        · rw [if_neg hs, if_neg hs]
          rfl
      rw [hnote, hreports]
      rfl

/-- Hearing definitions one after another. -/
theorem Definition.hearAll_trees {subjects : List Subject} (hsubjects : Orders subjects) :
    ∀ (defs : List Definition) {before : List Declaration} {known : Subject → List Name},
      Knows schema before known → ∀ ds : List (Diagnostic Extent), ∃ known',
        (Register.audience (subjects.map (Subject.register known)) ds).hearAll
            (Tree.hearingsAll (.constant _) schema (defs.map Definition.tree)) =
          .ok (Register.audience (subjects.map (Subject.register known'))
            (ds ++ Declaration.complaints schema before (defs.filterMap Definition.declaration?)))
  | [], before, known, _, ds => by
      refine ⟨known, ?_⟩
      rw [List.filterMap_nil, Declaration.complaints, List.append_nil]
      rfl
  | d :: defs, before, known, hknown, ds => by
      obtain ⟨known', hknown', hfirst⟩ := d.hearAll_tree hsubjects hknown ds
      obtain ⟨known'', hrest⟩ := Definition.hearAll_trees hsubjects defs hknown'
        (ds ++ (d.declaration?.bind (·.complaint? schema before)).toList)
      refine ⟨known'', ?_⟩
      rw [List.map_cons, Tree.hearingsAll, Audience.hearAll_append, hfirst]
      show Audience.hearAll _ _ = _
      rw [hrest, List.filterMap_cons]
      cases d.declaration? with
      | none => simp
      | some x => simp [Declaration.complaints]

/-- The rules of all subjects report the complaints that the declarations of a document
deserve. -/
theorem Document.runSchemaRules_subjects (d : Document) {subjects : List Subject}
    (hsubjects : Orders subjects) :
    runSchemaRules schema (subjects.map fun s => (s.register fun _ => []).rule) d.tree =
      .ok (Declaration.complaints schema [] d.declarations) := by
  have hrestores := Tracker.constant_restores schema d.tree
  let docNode : Node := ⟨.document, none, d.extent⟩
  let start := Register.audience (subjects.map (Subject.register fun _ => [])) []
  have hstart : Audience.ofRules (subjects.map fun s => (s.register fun _ => []).rule) = start := by
    show (⟨(subjects.map _).map _, []⟩ : Audience _) = ⟨(subjects.map _).map _, []⟩
    rw [List.map_map, List.map_map]
    rfl
  have hignored : ∀ known ds, ∀ l ∈
      (Register.audience (subjects.map (Subject.register known)) ds).listeners,
      l.rule.Ignores docNode := by
    intro known ds l hl
    obtain ⟨r, hr, rfl⟩ := List.mem_map.mp hl
    obtain ⟨s, _, rfl⟩ := List.mem_map.mp hr
    exact uniqueNames_ignores (s.declares_space_of_not_isTopLevel rfl)
  have hinside : ∀ known ds,
      (Register.audience (subjects.map (Subject.register known)) ds).inside =
        Register.audience (subjects.map (Subject.register known)) ds := by
    intro known ds
    show (⟨((subjects.map _).map _).map _, ds⟩ : Audience _) = _
    rw [List.map_map]
    rfl
  obtain ⟨known, hdefinitions⟩ :=
    Definition.hearAll_trees hsubjects d.definitions (knows_nil schema) []
  have hleave := Audience.hear_leave_ignored
    (hignored known (Declaration.complaints schema [] d.declarations)) schema
  rw [hinside] at hleave
  rw [runSchemaRules, runRules_eq_hearAll hrestores, hstart, Document.tree, Tree.hearings,
    Audience.hearAll_cons]
  show ((start.hear ⟨.enter docNode, schema⟩).bind _).map _ = _
  rw [Audience.hear_enter_ignored (hignored _ _), hinside]
  show (Audience.hearAll (_ ++ _) start).map _ = _
  rw [Audience.hearAll_append]
  show ((start.hearAll (Tree.hearingsAll (.constant _) schema _)).bind _).map _ = _
  rw [hdefinitions]
  show (Audience.hearAll [⟨.leave docNode, schema⟩] _).map _ = _
  rw [Audience.hearAll_singleton]
  show ((Register.audience _ (Declaration.complaints schema [] d.declarations)).hear _).map _ = _
  rw [hleave]
  rfl

end

end GraphLint
