import GraphLint.Proofs.Document.Completeness
import GraphLint.Proofs.Names.Unique
import GraphLint.Proofs.Run.Isolation
import GraphLint.Proofs.TypeSystem.First

/-!
# What a builder discards

A builder discards a definition if it has the name: adding the definition leaves it as
it is.  Nothing tells of that.  The rules about names do, since they go by the first
definition of a name as well, and so of one text they report exactly the definitions
that are discarded, each together with the one that is kept.

A builder that has gone through some definitions has the names that these declare
(`has_ofDefinitions`).  What the rules look up is declared by the same definitions
(`find?_declarations`).  The pairing goes through the rest of the text from there
(`blames_discarded`).
-/

set_option autoImplicit false

namespace GraphLint

/-! ## Discarding -/

section

variable {α : Type} (name : α → String)

theorem insertNew_eq_self_iff (known : List α) (x : α) :
    insertNew name known x = known ↔ known.any (name · = name x) = true := by
  unfold insertNew
  split
  · exact ⟨fun _ => ‹_›, fun _ => rfl⟩
  · refine ⟨fun h => ?_, fun h => absurd h ‹_›⟩
    simp at h

theorem any_foldl_insertNew (xs known : List α) (text : String) :
    (xs.foldl (insertNew name) known).any (name · = text) = (known ++ xs).any (name · = text) := by
  rw [← List.isSome_find?, find?_foldl_insertNew, List.isSome_find?]

end

theorem any_filterMap {α β : Type} (f : α → Option β) (p : β → Bool) (xs : List α) :
    (xs.filterMap f).any p = xs.any fun x => (f x).any p := by
  rw [List.any_filterMap]
  rfl

namespace SchemaBuilder

/-- Whether a definition of a type or directive leaves a builder as it is. -/
def discards (b : SchemaBuilder) (d : Definition) : Bool :=
  d.subject?.isSome ∧ b.add (.ofDefinitions [d]) = b

/-- The definitions that are discarded when some are added one after another. -/
def discarded (b : SchemaBuilder) : List Definition → List Definition
  | [] => []
  | d :: ds =>
    let rest := discarded (b.add (.ofDefinitions [d])) ds
    if b.discards d then d :: rest else rest

/-- Whether a builder has something of a name. -/
def has (b : SchemaBuilder) (text : String) : Subject → Bool
  | .directive => b.directives.any (·.name = text)
  | .type => b.types.any (·.name = text)

theorem add_type_eq_self_iff (b : SchemaBuilder) {d : TypeDefinition} {t : TypeDef}
    (h : TypeDef.ofSyntax? d = some t) (ht : t.isExtension = false) :
    b.add (.ofDefinitions [.type d]) = b ↔ b.has t.name .type = true := by
  have htypes : [Definition.type d].filterMap Definition.typeDef? = [t] :=
    List.filterMap_cons_some h
  have hadd : b.add (.ofDefinitions [.type d]) =
      { b with types := insertNew TypeDef.name b.types t } := by
    simp [add_eq, Contribution.ofDefinitions, htypes, ht, Definition.directiveDef?,
      Definition.roots, Definition.definesSchema, List.filterMap_cons]
  refine Iff.trans ?_ (insertNew_eq_self_iff TypeDef.name b.types t)
  rw [hadd]
  exact ⟨congrArg SchemaBuilder.types, fun h => by rw [h]⟩

theorem add_directive_eq_self_iff (b : SchemaBuilder) {d : DirectiveDefinition}
    {r : DirectiveDef} (h : DirectiveDef.ofSyntax? d = some r) :
    b.add (.ofDefinitions [.directive d]) = b ↔ b.has r.name .directive = true := by
  have hdirectives : [Definition.directive d].filterMap Definition.directiveDef? = [r] :=
    List.filterMap_cons_some h
  have hadd : b.add (.ofDefinitions [.directive d]) =
      { b with directives := insertNew DirectiveDef.name b.directives r } := by
    simp [add_eq, Contribution.ofDefinitions, hdirectives, Definition.typeDef?, Definition.roots,
      Definition.definesSchema, List.filterMap_cons]
  refine Iff.trans ?_ (insertNew_eq_self_iff DirectiveDef.name b.directives r)
  rw [hadd]
  exact ⟨congrArg SchemaBuilder.directives, fun h => by rw [h]⟩

/-- Adding a definition leaves a builder as it is if the builder has the name. -/
theorem add_eq_self_iff (b : SchemaBuilder) {d : Definition} {x : Declaration}
    (hx : d.declaration? = some x) :
    b.add (.ofDefinitions [d]) = b ↔ b.has x.name.text x.subject = true := by
  cases d with
  | type d =>
      obtain ⟨extent, description, isExtension, name, uses, body⟩ := d
      cases isExtension with
      | true => cases hx
      | false =>
          cases name with
          | none => cases hx
          | some n =>
              obtain rfl := Option.some.inj hx
              have hadd := b.add_type_eq_self_iff
                (d := ⟨extent, description, false, some n, uses, body⟩) rfl rfl
              exact hadd
  | directive d =>
      obtain ⟨extent, description, name, arguments, isRepeatable, locations⟩ := d
      cases name with
      | none => cases hx
      | some n =>
          obtain rfl := Option.some.inj hx
          have hadd := b.add_directive_eq_self_iff
            (d := ⟨extent, description, some n, arguments, isRepeatable, locations⟩) rfl
          exact hadd
  | _ => cases hx

/-- A builder has the names that are declared. -/
theorem has_ofDefinitions (definitions : List Definition) (text : String) (s : Subject) :
    (empty.add (.ofDefinitions definitions)).has text s =
      definitions.any (·.declares s text) := by
  rw [add_eq]
  cases s with
  | directive =>
      show (List.foldl (insertNew DirectiveDef.name) [] _).any _ = _
      rw [any_foldl_insertNew, List.nil_append, Contribution.ofDefinitions, any_filterMap]
      simp only [Definition.any_directiveDef?]
  | type =>
      show (List.foldl (insertNew TypeDef.name) [] _).any _ = _
      rw [any_foldl_insertNew, List.nil_append, Contribution.ofDefinitions,
        List.filter_filterMap, any_filterMap]
      simp only [Definition.any_typeDef?]

/-- A definition is discarded behind others if one of them declares its name. -/
theorem discards_behind (before : List Definition) {d : Definition} {x : Declaration}
    (hx : d.declaration? = some x) :
    (empty.add (.ofDefinitions before)).discards d =
      (before.find? (·.declares x.subject x.name.text)).isSome := by
  have hsubject := Definition.subject?_of_declaration? hx
  rw [discards, hsubject, List.isSome_find?, ← has_ofDefinitions, Bool.eq_iff_iff,
    decide_eq_true_eq, ← add_eq_self_iff _ hx]
  exact and_iff_right rfl

theorem discards_of_subject? (b : SchemaBuilder) {d : Definition} (h : d.subject? = none) :
    b.discards d = false := by
  simp [discards, h]

theorem discarded_append (b : SchemaBuilder) (before behind : List Definition) :
    b.discarded (before ++ behind) =
      b.discarded before ++ (b.add (.ofDefinitions before)).discarded behind := by
  induction before generalizing b with
  | nil =>
      have hnone : b.add (.ofDefinitions []) = b := by simp [add_eq, Contribution.ofDefinitions]
      rw [hnone]
      rfl
  | cons d before ih =>
      have hnext := b.add_add [d] before
      rw [List.singleton_append] at hnext
      rw [List.cons_append, discarded, discarded, ih, hnext]
      split <;> rfl

/-- Adding definitions one by one is adding them together. -/
theorem foldl_add_singleton (b : SchemaBuilder) (definitions : List Definition) :
    definitions.foldl (fun b d => b.add (.ofDefinitions [d])) b =
      b.add (.ofDefinitions definitions) := by
  induction definitions generalizing b with
  | nil => simp [add_eq, Contribution.ofDefinitions]
  | cons d definitions ih => rw [List.foldl_cons, ih, add_add, List.singleton_append]

end SchemaBuilder

/-! ## Discarded definitions and complaints -/

/-- A diagnostic says of a definition that its name is declared again, and blames it
together with the first definition of the name, which is held. -/
def Blames (s : TypeSystem) (definitions : List Definition) (e : Diagnostic Extent)
    (d : Definition) : Prop :=
  ∃ first y x, definitions.find? (·.declares x.subject x.name.text) = some first ∧
    first.HeldBy s ∧ first.declaration? = some y ∧ d.declaration? = some x ∧
    e = Declaration.again y x

/-- The complaint that a definition deserves behind others, if there is no schema. -/
def Definition.complaint? (before : List Definition) (d : Definition) :
    Option (Diagnostic Extent) :=
  d.declaration?.bind (·.complaint? none (before.filterMap Definition.declaration?))

theorem complaints_cons (before : List Definition) (d : Definition) (behind : List Definition) :
    Declaration.complaints none (before.filterMap Definition.declaration?)
        ((d :: behind).filterMap Definition.declaration?) =
      (d.complaint? before).toList ++
        Declaration.complaints none ((before ++ [d]).filterMap Definition.declaration?)
          (behind.filterMap Definition.declaration?) := by
  rw [List.filterMap_append]
  cases hx : d.declaration? with
  | none => simp [Definition.complaint?, hx]
  | some x => simp [Definition.complaint?, hx, Declaration.complaints]

section

variable {definitions : List Definition}

/-- A definition is complained of if it is discarded, and then it is blamed. -/
theorem blames_step {before behind : List Definition} {d : Definition}
    (hall : definitions = before ++ d :: behind) (hstated : ∀ d ∈ definitions, d.IsStated) :
    if (SchemaBuilder.empty.add (.ofDefinitions before)).discards d then
      ∃ e, d.complaint? before = some e ∧
        Blames (.ofContribution (.ofDefinitions definitions)) definitions e d
    else d.complaint? before = none := by
  cases hx : d.declaration? with
  | none =>
      have hsubject : d.subject? = none := by
        cases hs : d.subject? with
        | none => rfl
        | some s =>
            have hd : d ∈ definitions := hall ▸ List.mem_append_right _ List.mem_cons_self
            obtain ⟨n, hn⟩ := (hstated d hd).exists_declaration? hs
            rw [hn] at hx
            cases hx
      rw [SchemaBuilder.discards_of_subject? _ hsubject, Definition.complaint?, hx]
      rfl
  | some x =>
      have hcomplaint : d.complaint? before =
          ((before.find? (·.declares x.subject x.name.text)).bind
            Definition.declaration?).map (Declaration.again · x) := by
        rw [Definition.complaint?, hx, ← find?_declarations]
        rfl
      rw [SchemaBuilder.discards_behind before hx, hcomplaint]
      cases hfirst : before.find? (·.declares x.subject x.name.text) with
      | none => exact rfl
      | some first =>
          obtain ⟨n, hn, hname⟩ := Definition.declares_iff.mp (List.find?_some hfirst)
          have hfound : definitions.find? (·.declares x.subject x.name.text) = some first := by
            rw [hall, List.find?_append, hfirst]
            rfl
          have hheld := TypeSystem.heldBy_of_first (hstated first (List.mem_of_find?_eq_some hfound))
            hn (by rw [hname]; exact hfound)
          refine ⟨Declaration.again ⟨x.subject, n⟩ x, ?_, first, _, x, hfound, hheld, hn, hx, rfl⟩
          rw [Option.bind_some, hn]
          rfl

/-- Behind some definitions, the complaints that the others deserve blame those that are
discarded. -/
theorem blames_discarded (before behind : List Definition) (hall : definitions = before ++ behind)
    (hstated : ∀ d ∈ definitions, d.IsStated) :
    List.Forall₂ (Blames (.ofContribution (.ofDefinitions definitions)) definitions)
      (Declaration.complaints none (before.filterMap Definition.declaration?)
        (behind.filterMap Definition.declaration?))
      ((SchemaBuilder.empty.add (.ofDefinitions before)).discarded behind) := by
  induction behind generalizing before with
  | nil => exact .nil
  | cons d behind ih =>
      have hstep := blames_step hall hstated
      have hrest := ih (before ++ [d]) (by rw [hall, List.append_cons])
      rw [← SchemaBuilder.add_add] at hrest
      rw [complaints_cons, SchemaBuilder.discarded]
      split at hstep
      · obtain ⟨e, he, hblames⟩ := hstep
        rw [he, if_pos ‹_›]
        exact .cons hblames hrest
      · rw [hstep, if_neg ‹_›]
        exact hrest

end

/-- The definitions of some subject that are discarded from a text. -/
def discardedOf (s : Subject) (definitions : List Definition) : List Definition :=
  (SchemaBuilder.empty.discarded definitions).filter (·.subject? = some s)

/-- What is reported of a text about the names of a subject is what is discarded from it. -/
structure DiscardsReported (t : TypeSystem) (definitions : List Definition) (s : Subject)
    (ds : List (Diagnostic Extent)) : Prop where
  /-- As many definitions are reported as are discarded. -/
  count : ds.length = (discardedOf s definitions).length
  /-- One after another, those that are discarded are blamed, each with the first definition
  of its name, which is held. -/
  blames : List.Forall₂ (Blames t definitions) ds (discardedOf s definitions)
  /-- One after another, the diagnostics end in the names of those that are discarded. -/
  last : ds.map (·.culprits.getLast?) =
    (discardedOf s definitions).map fun d => d.declaration?.map (·.name.culprit)
  /-- No two diagnostics end in the same name. -/
  distinct : (ds.map (·.culprits.getLast?)).Nodup
  /-- All that is not discarded is held. -/
  kept : ∀ d ∈ definitions, d.subject? = some s → d ∉ discardedOf s definitions → d.HeldBy t

/-- A definition that is not discarded is the first one of its name. -/
theorem heldBy_of_not_discarded {definitions : List Definition} {s : Subject} {d : Definition}
    (hd : d ∈ definitions) (hs : d.subject? = some s) (hstated : d.IsStated)
    (hkept : d ∉ discardedOf s definitions) :
    d.HeldBy (.ofContribution (.ofDefinitions definitions)) := by
  obtain ⟨n, hx⟩ := hstated.exists_declaration? hs
  obtain ⟨before, behind, rfl⟩ := List.append_of_mem hd
  have hbehind := SchemaBuilder.discards_behind before hx
  cases hfirst : before.find? (·.declares s n.text) with
  | some first =>
      rw [hfirst, Option.isSome_some] at hbehind
      have hmem : d ∈ SchemaBuilder.empty.discarded (before ++ d :: behind) := by
        rw [SchemaBuilder.discarded_append, SchemaBuilder.discarded, if_pos hbehind]
        exact List.mem_append_right _ List.mem_cons_self
      exact absurd (List.mem_filter.mpr ⟨hmem, decide_eq_true hs⟩) hkept
  | none =>
      refine TypeSystem.heldBy_of_first hstated hx ?_
      rw [List.find?_append, hfirst, List.find?_cons_of_pos (d.declares_self hx)]
      rfl

/-- The complaints of one subject that the declarations of a text deserve. -/
theorem discardsReported {text : String} (h : (Source.read text).isWellFormed = true)
    (s : Subject) :
    DiscardsReported (.ofContribution (.ofDefinitions (Source.read text).document.definitions))
      (Source.read text).document.definitions s
      ((Declaration.complaints none [] (Source.read text).document.declarations).filter
        (·.rule = s.ruleName)) := by
  have hstated := Source.definitions_stated h
  have hall := blames_discarded [] (Source.read text).document.definitions rfl hstated
  have hsubject : ∀ {t definitions} {e : Diagnostic Extent} {d : Definition},
      Blames t definitions e d → (e.rule = s.ruleName ↔ d.subject? = some s) := by
    rintro t definitions e d ⟨first, y, x, -, -, -, hx, rfl⟩
    rw [Definition.subject?_of_declaration? hx, Option.some.injEq]
    exact Subject.ruleName_injective.eq_iff
  have hblames := List.rel_filter (p := (·.rule = s.ruleName)) (q := (·.subject? = some s))
    (fun e d hed => by simpa using hsubject hed) hall
  have hlast : ∀ {t definitions} {e : Diagnostic Extent} {d : Definition},
      Blames t definitions e d →
        e.culprits.getLast? = d.declaration?.map (·.name.culprit) := by
    rintro t definitions e d ⟨first, y, x, -, -, -, hx, rfl⟩
    rw [hx]
    rfl
  refine ⟨hblames.length_eq, hblames, ?_, ?_, ?_⟩
  · rw [← List.forall₂_eq_eq_eq, List.forall₂_map_left_iff, List.forall₂_map_right_iff]
    exact hblames.imp fun _ _ => hlast
  · exact (last_complaints_nodup none text).sublist (List.filter_sublist.map _)
  · exact fun d hd hs hkept => heldBy_of_not_discarded hd hs (hstated d hd) hkept

/-- What one of the rules about names reports by itself. -/
theorem runSchemaRules_only (d : Document) {r : Rule (Option TypeSystem)}
    (hr : r ∈ Registry.schemaRules) :
    runSchemaRules none [r] d.tree =
      .ok ((Declaration.complaints none [] d.declarations).filter (·.rule = r.name)) :=
  runRules_only (Tracker.constant_restores none d.tree) (by decide) (namesReported none d).reported
    hr

/-- The rules about names report of a text without faults what a builder discards from it. -/
theorem TypeSystem.ofTexts_discards (path text : String)
    (h : (Source.read text).isWellFormed = true) :
    ∃ s, ofTexts [(path, text)] = .ok s ∧
      ((Source.read text).document.definitions.foldl (fun b d => b.add (.ofDefinitions [d]))
        SchemaBuilder.empty).build = s ∧
      (∃ ds, runSchemaRules none [uniqueTypeNames] (Source.read text).document.tree = .ok ds ∧
        DiscardsReported s (Source.read text).document.definitions .type ds) ∧
      ∃ ds, runSchemaRules none [uniqueDirectiveNames] (Source.read text).document.tree = .ok ds ∧
        DiscardsReported s (Source.read text).document.definitions .directive ds := by
  have hall : ∀ t ∈ [(path, text)], (Source.read t.2).isWellFormed = true := by
    intro t ht
    rw [List.mem_singleton.mp ht]
    exact h
  have hs := ofTexts_eq_ok hall
  rw [ofDocuments_eq, List.flatMap_map, List.flatMap_singleton] at hs
  refine ⟨_, hs, ?_, ⟨_, runSchemaRules_only _ ?_, discardsReported h .type⟩,
    ⟨_, runSchemaRules_only _ ?_, discardsReported h .directive⟩⟩
  · rw [SchemaBuilder.foldl_add_singleton]
    rfl
  · exact List.mem_cons_of_mem _ List.mem_cons_self
  · exact List.mem_cons_self

/-- A text that declares names twice, one of them built in. -/
def declaredTwice : String :=
  "type A scalar A scalar Int scalar Int directive @d on FIELD directive @d on QUERY"

theorem TypeSystem.ofTexts_discards_declaredTwice :
    (Source.read declaredTwice).isWellFormed = true ∧
    ∃ s, ofTexts [("a", declaredTwice)] = .ok s ∧
      ((Source.read declaredTwice).document.definitions.foldl
        (fun b d => b.add (.ofDefinitions [d])) SchemaBuilder.empty).build = s ∧
      (∃ ds, runSchemaRules none [uniqueTypeNames] (Source.read declaredTwice).document.tree =
          .ok ds ∧
        DiscardsReported s (Source.read declaredTwice).document.definitions .type ds) ∧
      ∃ ds, runSchemaRules none [uniqueDirectiveNames] (Source.read declaredTwice).document.tree =
          .ok ds ∧
        DiscardsReported s (Source.read declaredTwice).document.definitions .directive ds :=
  ⟨by decide +kernel, ofTexts_discards "a" declaredTwice (by decide +kernel)⟩

example : (discardedOf .type (Source.read declaredTwice).document.definitions).length = 2 := by
  decide +kernel

end GraphLint
