import GraphLint.Proofs.Names.Unique
import GraphLint.Proofs.TypeSystem.Gathering
import GraphLint.Proofs.Validation.Filtering

/-!
# Adding a text to a schema

Texts may be checked against a schema before they are added to the texts that make it
up.  If the check is clean, adding the text enlarges the schema and changes nothing else:
what was there stays, and all that the text defines is taken up.

A builder by itself promises neither.  It drops a definition whose name is taken, and
would put one that is written in place of one that is built in.  Both are what the check
complains of, so of a name that the schema has, the first definition remains the first
(`find?_append_of_isIn`), and of any other name, the one that is added is the first
(`find?_append_of_declared`).
-/

set_option autoImplicit false

namespace GraphLint

/-! ## What a clean check says -/

namespace Declaration

variable {schema : Option TypeSystem}

theorem complaints_append (before xs ys : List Declaration) :
    complaints schema before (xs ++ ys) =
      complaints schema before xs ++ complaints schema (before ++ xs) ys := by
  induction xs generalizing before with
  | nil => rw [List.append_nil]; rfl
  | cons x xs ih =>
      rw [List.cons_append, complaints, complaints, ih, List.append_assoc, List.append_assoc]
      rfl

/-- A declaration that deserves no complaint has a name that is new to the schema and to
what is declared before. -/
theorem new_of_complaint?_eq_none {before : List Declaration} {x : Declaration}
    (h : x.complaint? schema before = none) :
    schema.any (x.subject.isIn · x.name.text) = false ∧
      before.find? (declares x.subject x.name.text) = none := by
  unfold complaint? at h
  split at h
  · cases h
  · exact ⟨Bool.eq_false_iff.mpr ‹_›, Option.map_eq_none_iff.mp h⟩

end Declaration

/-- Definitions whose names are new to a schema, and of which each is the first one of its
name. -/
structure AllNew (s : TypeSystem) (definitions : List Definition) : Prop where
  /-- The schema has none of the names. -/
  schema : ∀ (σ : Subject) (text : String), σ.isIn s text = true →
    definitions.find? (·.declares σ text) = none
  /-- No name is declared before. -/
  first : ∀ d ∈ definitions, ∀ x, d.declaration? = some x →
    definitions.find? (·.declares x.subject x.name.text) = some d

/-- If no complaint is deserved, all names are new. -/
theorem allNew_of_complaints {s : TypeSystem} {definitions : List Definition}
    (h : Declaration.complaints (some s) [] (definitions.filterMap Definition.declaration?) = []) :
    AllNew s definitions := by
  -- Nothing is said of a definition behind those before it.
  have hnew : ∀ d ∈ definitions, ∀ x, d.declaration? = some x →
      x.subject.isIn s x.name.text = false ∧
        definitions.find? (·.declares x.subject x.name.text) = some d := by
    intro d hd x hx
    obtain ⟨pre, post, rfl⟩ := List.append_of_mem hd
    rw [List.filterMap_append, List.filterMap_cons_some hx, Declaration.complaints_append] at h
    have hhere := (List.append_eq_nil_iff.mp (List.append_eq_nil_iff.mp h).2).1
    obtain ⟨hschema, hbefore⟩ :=
      Declaration.new_of_complaint?_eq_none (Option.toList_eq_nil_iff.mp hhere)
    refine ⟨hschema, ?_⟩
    rw [List.find?_append, (find?_declarations_eq_none pre _ _).mp hbefore,
      List.find?_cons_of_pos (d.declares_self hx)]
    rfl
  refine ⟨?_, fun d hd x hx => (hnew d hd x hx).2⟩
  intro σ text hσ
  rw [List.find?_eq_none]
  intro d hd hdeclares
  obtain ⟨n, hx, rfl⟩ := Definition.declares_iff.mp hdeclares
  exact Bool.eq_false_iff.mp (hnew d hd _ hx).1 hσ

/-! ## What adding does -/

/-- A type system that has been enlarged by some definitions. -/
structure Enlarged (s s' : TypeSystem) (added : List Definition) : Prop where
  /-- A type stays what it is, with members only behind those that it has. -/
  type : ∀ t ∈ s.types, ∃ t', s'.type? t.name = some t' ∧ t.Begins t'
  /-- A field that is found stays what it is. -/
  field : ∀ t ∈ s.types, ∀ t', s'.type? t.name = some t' →
    ∀ name f, t.field? name = some f → t'.field? name = some f
  /-- So does an input field. -/
  inputField : ∀ t ∈ s.types, ∀ t', s'.type? t.name = some t' →
    ∀ name f, t.inputField? name = some f → t'.inputField? name = some f
  /-- So does an enum value. -/
  enumValue : ∀ t ∈ s.types, ∀ t', s'.type? t.name = some t' →
    ∀ name v, t.enumValue? name = some v → t'.enumValue? name = some v
  /-- A directive stays what it is. -/
  directive : ∀ d ∈ s.directives, s'.directive? d.name = some d
  /-- All types and directives that are added are there, as they are added. -/
  added : ∀ d ∈ added, d.subject? ≠ none → d.HeldBy s'

namespace TypeSystem

variable {base added : List Definition}

/-- Of a name that the schema has, the first definition remains the first. -/
theorem find?_append_of_isIn (h : AllNew (ofContribution (.ofDefinitions base)) added)
    (σ : Subject) {text : String} (hσ : σ.isIn (ofContribution (.ofDefinitions base)) text = true) :
    (base ++ added).find? (·.declares σ text) = base.find? (·.declares σ text) := by
  rw [List.find?_append, h.schema σ text hσ, Option.or_none]

/-- Of any other name, the definition that is added is the first. -/
theorem find?_append_of_declared (hbase : ∀ d ∈ base, d.IsStated)
    (h : AllNew (ofContribution (.ofDefinitions base)) added) {d : Definition} (hd : d ∈ added) {x : Declaration} (hx : d.declaration? = some x) :
    (base ++ added).find? (·.declares x.subject x.name.text) = some d := by
  have hfirst := h.first d hd x hx
  rw [List.find?_append, hfirst]
  cases hbefore : base.find? (·.declares x.subject x.name.text) with
  | none => rfl
  | some e =>
      obtain ⟨n, hn, hname⟩ := Definition.declares_iff.mp (List.find?_some hbefore)
      have hheld : e.HeldBy (ofContribution (.ofDefinitions base)) := by
        refine heldBy_of_first (hbase e (List.mem_of_find?_eq_some hbefore)) hn ?_
        rw [hname]
        exact hbefore
      have hknown := h.schema _ _ (hheld.isIn hn)
      rw [hname, hfirst] at hknown
      cases hknown

/-- A type that the schema has takes in the extensions that are added, and that is all. -/
theorem type?_append (h : AllNew (ofContribution (.ofDefinitions base)) added) {text : String}
    {t : TypeDef} (ht : (ofContribution (.ofDefinitions base)).type? text = some t) :
    (ofContribution (.ofDefinitions (base ++ added))).type? text =
      some (t.extendAll (extensionsOf added text)) := by
  have hfirst := find?_append_of_isIn h .type (Option.isSome_of_eq_some ht)
  rw [type?_ofContribution, find?_definedTypes] at ht ⊢
  have hexts : extensionsOf (base ++ added) text =
      extensionsOf base text ++ extensionsOf added text := by
    simp [extensionsOf]
  obtain ⟨first, hfound, rfl⟩ := Option.map_eq_some_iff.mp ht
  rw [hfirst, hfound, hexts, ← TypeDef.extendAll_append]
  rfl

/-- A directive that the schema has is not touched. -/
theorem directive?_append (h : AllNew (ofContribution (.ofDefinitions base)) added)
    {text : String} {d : DirectiveDef}
    (hd : (ofContribution (.ofDefinitions base)).directive? text = some d) :
    (ofContribution (.ofDefinitions (base ++ added))).directive? text = some d := by
  have hfirst := find?_append_of_isIn h .directive (Option.isSome_of_eq_some hd)
  rw [directive?_ofContribution, find?_definedDirectives] at hd ⊢
  rw [hfirst, hd]

end TypeSystem

/-- Definitions whose names are all new enlarge a type system. -/
theorem enlarged {base added : List Definition} (hbase : ∀ d ∈ base, d.IsStated)
    (hadded : ∀ d ∈ added, d.IsStated)
    (h : AllNew (TypeSystem.ofContribution (.ofDefinitions base)) added) :
    Enlarged (TypeSystem.ofContribution (.ofDefinitions base))
      (TypeSystem.ofContribution (.ofDefinitions (base ++ added))) added := by
  have htype : ∀ t ∈ (TypeSystem.ofContribution (.ofDefinitions base)).types, ∃ t',
      (TypeSystem.ofContribution (.ofDefinitions (base ++ added))).type? t.name = some t' ∧
        t.Begins t' := by
    intro t ht
    have hfound := find?_eq_some_of_nodup (TypeSystem.nodup_types base) ht
    exact ⟨_, TypeSystem.type?_append h hfound, t.begins_extendAll _⟩
  have hgrows : ∀ t ∈ (TypeSystem.ofContribution (.ofDefinitions base)).types, ∀ t',
      (TypeSystem.ofContribution (.ofDefinitions (base ++ added))).type? t.name = some t' →
        t.GrowsInto t' := by
    intro t ht t' ht'
    obtain ⟨_, hfound, hbegins⟩ := htype t ht
    obtain rfl := Option.some.inj (hfound.symm.trans ht')
    exact hbegins.toGrowsInto
  refine ⟨htype, ?_, ?_, ?_, ?_, ?_⟩
  · exact fun t ht t' ht' name f => ((hgrows t ht t' ht').field? name).eq_some
  · exact fun t ht t' ht' name f => ((hgrows t ht t' ht').inputField? name).eq_some
  · exact fun t ht t' ht' name v => ((hgrows t ht t' ht').enumValue? name).eq_some
  · intro d hd
    exact TypeSystem.directive?_append h
      (find?_eq_some_of_nodup (TypeSystem.nodup_directives base) hd)
  · intro d hd hsubject
    obtain ⟨σ, hσ⟩ := Option.ne_none_iff_exists'.mp hsubject
    obtain ⟨n, hx⟩ := (hadded d hd).exists_declaration? hσ
    exact TypeSystem.heldBy_of_first (hadded d hd) hx
      (TypeSystem.find?_append_of_declared hbase h hd hx)

/-! ## Texts -/

/-- If a default check of a text against a schema reports nothing, no complaint is deserved. -/
theorem Document.complaints_of_validateSchema {d : Document} {schema : Option TypeSystem}
    (h : validateSchema .default schema d.tree = .ok []) :
    Declaration.complaints schema [] d.declarations = [] := by
  have hrun := (d.filtered_validateSchema schema).default
  have hreported := (namesReported schema d).reported
  exact Except.ok.inj (hreported.symm.trans (hrun.symm.trans h))

namespace TypeSystem

/-- A text whose check against a schema is clean enlarges it when it is added. -/
theorem ofTexts_enlarged (base : List (String × String)) (added : String × String)
    (hbase : ∀ t ∈ base, (Source.read t.2).isWellFormed = true)
    (hadded : (Source.read added.2).isWellFormed = true) :
    ∃ s s', ofTexts base = .ok s ∧ ofTexts (base ++ [added]) = .ok s' ∧
      (validateSchema .default (some s) (Source.read added.2).document.tree = .ok [] →
        Enlarged s s' (Source.read added.2).document.definitions) := by
  have hall : ∀ t ∈ base ++ [added], (Source.read t.2).isWellFormed = true := by
    intro t ht
    rcases List.mem_append.mp ht with ht | ht
    · exact hbase t ht
    · rw [List.mem_singleton.mp ht]
      exact hadded
  have hwritten : writtenDefinitions (base ++ [added]) =
      writtenDefinitions base ++ (Source.read added.2).document.definitions := by
    rw [writtenDefinitions, List.flatMap_append, List.flatMap_singleton]
    rfl
  refine ⟨_, _, ofTexts_eq_ofContribution hbase, ofTexts_eq_ofContribution hall, ?_⟩
  rw [hwritten]
  intro hclean
  exact enlarged (writtenDefinitions_stated hbase) (Source.definitions_stated hadded)
    (allNew_of_complaints (Document.complaints_of_validateSchema hclean))

/-- A schema text that extends a type before there is one of its name. -/
def extendingText : String := "extend type B { x: Int } type A { x: Int }"

/-- A text that defines that type, and extends another. -/
def definingText : String := "extend type A { y: Int } type B { y: Int }"

/-- The check of the second text against the schema of the first is clean. -/
theorem ofTexts_enlarged_defining :
    (∀ t ∈ [("a", extendingText)], (Source.read t.2).isWellFormed = true) ∧
    (Source.read definingText).isWellFormed = true ∧
    ∃ s s', ofTexts [("a", extendingText)] = .ok s ∧
      ofTexts [("a", extendingText), ("b", definingText)] = .ok s' ∧
      validateSchema .default (some s) (Source.read definingText).document.tree = .ok [] ∧
      Enlarged s s' (Source.read definingText).document.definitions := by
  have hbase : ∀ t ∈ [("a", extendingText)], (Source.read t.2).isWellFormed = true := by
    decide +kernel
  have hadded : (Source.read definingText).isWellFormed = true := by decide +kernel
  have hchecked : (ofTexts [("a", extendingText)]).map (fun s =>
      validateSchema .default (some s) (Source.read definingText).document.tree) =
        .ok (.ok []) := by decide +kernel
  obtain ⟨s, s', hs, hs', henlarged⟩ :=
    ofTexts_enlarged [("a", extendingText)] ("b", definingText) hbase hadded
  rw [hs] at hchecked
  have hclean := Except.ok.inj hchecked
  exact ⟨hbase, hadded, s, s', hs, hs', hclean, henlarged hclean⟩

end TypeSystem

end GraphLint
