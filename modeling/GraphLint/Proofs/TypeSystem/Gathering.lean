import GraphLint.Proofs.Document.Completeness
import GraphLint.Proofs.TypeSystem.First

/-!
# What texts make up

`Merged` says what definitions make up, and goes by the definitions as they are written.
Under each name there is the type that the first definition of the name states, or the one
that is built in.  Its members are followed by those that the extensions of the name state,
wherever they stand.

Nothing else of the definitions matters.  They may be divided among documents in any way, and
what they state is all that counts of them (`Definition.Alike`).  An extension of a type that is
not defined may be left out.
-/

set_option autoImplicit false

namespace GraphLint

/-! ## Extensions -/

/-- The extension of a type of this name that a definition is. -/
def Definition.extension? (text : String) : Definition → Option TypeDefinition
  | .type d => if d.isExtension && d.name.any (·.text = text) then some d else none
  | _ => none

/-- Whether a type of this name is defined, be it written or built in. -/
def definesType (definitions : List Definition) (text : String) : Bool :=
  definitions.any (·.declares .type text) || Builtin.types.any (·.name = text)

/-- Whether a definition extends a type that is not defined. -/
def Definition.isLoose (definitions : List Definition) : Definition → Bool
  | .type d => d.isExtension && d.name.any (!definesType definitions ·.text)
  | _ => false

/-! ## The statement -/

/-- Definitions that come to the same: they state the same, or name the same root types.
Operations and fragments come to nothing. -/
inductive Definition.Alike : Definition → Definition → Prop
  | operation (d d' : OperationDefinition) : Alike (.operation d) (.operation d')
  | fragment (d d' : FragmentDefinition) : Alike (.fragment d) (.fragment d')
  | schema {d d' : SchemaDefinition} (isExtension : d.isExtension = d'.isExtension)
    (roots : d.roots.map (fun (kind, name) => (kind, name.text)) =
      d'.roots.map fun (kind, name) => (kind, name.text)) : Alike (.schema d) (.schema d')
  | type {d d' : TypeDefinition} (states : ∀ t, d.States t ↔ d'.States t) :
    Alike (.type d) (.type d')
  | directive {d d' : DirectiveDefinition} (states : ∀ r, d.States r ↔ d'.States r) :
    Alike (.directive d) (.directive d')

/-- A type is its definition with the members of extensions behind those of its own. -/
structure TypeDef.Gathers (own : TypeDef) (exts : List TypeDef) (t : TypeDef) : Prop where
  name : t.name = own.name
  kind : t.kind = own.kind
  description : t.description = own.description
  fields : t.members.fields = own.members.fields ++ exts.flatMap (·.members.fields)
  inputFields :
    t.members.inputFields = own.members.inputFields ++ exts.flatMap (·.members.inputFields)
  interfaces :
    t.members.interfaces = own.members.interfaces ++ exts.flatMap (·.members.interfaces)
  unionMembers :
    t.members.unionMembers = own.members.unionMembers ++ exts.flatMap (·.members.unionMembers)
  enumValues :
    t.members.enumValues = own.members.enumValues ++ exts.flatMap (·.members.enumValues)
  isExtension : t.isExtension = false

/-- A type system has under a name what a definition says, with what is written in extensions of
the name. -/
def Gathered (definitions : List Definition) (s : TypeSystem) (text : String) (own : TypeDef) :
    Prop :=
  ∃ exts t,
    List.Forall₂ TypeDefinition.States (definitions.filterMap (Definition.extension? text)) exts ∧
      s.type? text = some t ∧ own.Gathers exts t

/-- What definitions make up, one after another. -/
structure Merged (definitions : List Definition) (s : TypeSystem) : Prop where
  /-- No two types have one name. -/
  typeNames : (s.types.map (·.name)).Nodup
  /-- There is a type of each name that is defined, and of no other. -/
  isType : ∀ text, text ∈ s.types.map (·.name) ↔ definesType definitions text = true
  /-- A type that is written is what its first definition states, with the members that its
  extensions state behind those of the definition. -/
  writtenType : ∀ text d, definitions.find? (·.declares .type text) = some (.type d) →
    ∃ own, own.name = text ∧ d.States own ∧ Gathered definitions s text own
  /-- A type that is not written is what is built in, with the members of its extensions. -/
  builtinType : ∀ text own, definitions.find? (·.declares .type text) = none →
    Builtin.types.find? (·.name = text) = some own → Gathered definitions s text own
  /-- No two directives have one name. -/
  directiveNames : (s.directives.map (·.name)).Nodup
  /-- A directive that is written is what its first definition states. -/
  writtenDirective : ∀ text d,
    definitions.find? (·.declares .directive text) = some (.directive d) →
      ∃ own, own.name = text ∧ d.States own ∧ s.directive? text = some own
  /-- A directive that is not written is what is built in. -/
  builtinDirective : ∀ text, definitions.find? (·.declares .directive text) = none →
    s.directive? text = Builtin.directives.find? (·.name = text)
  /-- Documents make up the same if their definitions come to the same, taken together. -/
  split : ∀ documents : List Document,
    List.Forall₂ Definition.Alike (documents.flatMap (·.definitions)) definitions →
      TypeSystem.ofDocuments documents = s
  /-- Documents make up the same if all they lack is extensions of undefined types. -/
  loose : ∀ documents : List Document,
    List.Forall₂ Definition.Alike (documents.flatMap (·.definitions))
      (definitions.filter (!·.isLoose definitions)) → TypeSystem.ofDocuments documents = s

/-! ## Members of extensions -/

theorem TypeDef.gathers_extendAll {own : TypeDef} (h : own.isExtension = false)
    (exts : List TypeDef) : own.Gathers exts (own.extendAll exts) where
  name := rfl
  kind := rfl
  description := rfl
  fields := rfl
  inputFields := rfl
  interfaces := rfl
  unionMembers := rfl
  enumValues := rfl
  isExtension := h

/-- An extension that is taken in is what a definition states. -/
theorem Definition.IsStated.rel_extension? {d : Definition} (h : d.IsStated) (text : String) :
    Option.Rel TypeDefinition.States (d.extension? text)
      (d.typeDef?.filter fun t => t.isExtension && t.name = text) := by
  cases d with
  | type d =>
      obtain ⟨own, hown⟩ := h
      have hname : d.name.any (·.text = text) = decide (own.name = text) := by
        obtain ⟨n, hn, hname⟩ := Option.map_eq_some_iff.mp hown.name
        simp [hn, hname]
      rw [typeDef?, hown.ofSyntax?_eq, extension?, hname, ← hown.isExtension, Option.filter]
      split
      · exact .some hown
      · exact .none
  | _ => exact .none

theorem forall₂_extensionsOf {definitions : List Definition}
    (h : ∀ d ∈ definitions, d.IsStated) (text : String) :
    List.Forall₂ TypeDefinition.States (definitions.filterMap (Definition.extension? text))
      (extensionsOf definitions text) := by
  have hsame : List.Forall₂ (fun d e => d = e ∧ d.IsStated) definitions definitions :=
    List.forall₂_same.mpr fun d hd => ⟨rfl, h d hd⟩
  rw [extensionsOf, List.filter_filterMap]
  refine List.rel_filterMap ?_ hsame
  rintro d _ ⟨rfl, hstated⟩
  exact hstated.rel_extension? text

theorem gathered_ofContribution {definitions : List Definition}
    (h : ∀ d ∈ definitions, d.IsStated) {text : String} {own : TypeDef}
    (hown : (definedTypes definitions).find? (·.name = text) = some own)
    (hdefines : own.isExtension = false) :
    Gathered definitions (.ofContribution (.ofDefinitions definitions)) text own := by
  refine ⟨_, _, forall₂_extensionsOf h text, ?_, TypeDef.gathers_extendAll hdefines _⟩
  rw [TypeSystem.type?_ofContribution, hown]
  rfl

/-! ## Definitions that come to the same -/

theorem Definition.Alike.contribute {d e : Definition} (h : d.Alike e) (he : e.IsStated) :
    d.typeDef? = e.typeDef? ∧ d.directiveDef? = e.directiveDef? ∧ d.roots = e.roots ∧
      d.definesSchema = e.definesSchema := by
  cases h with
  | operation | fragment => exact ⟨rfl, rfl, rfl, rfl⟩
  | schema isExtension roots => exact ⟨rfl, rfl, roots, congrArg Bool.not isExtension⟩
  | @type d e states =>
      obtain ⟨t, ht⟩ := he
      exact ⟨((states t).mpr ht).ofSyntax?_eq.trans ht.ofSyntax?_eq.symm, rfl, rfl, rfl⟩
  | @directive d e states =>
      obtain ⟨r, hr⟩ := he
      exact ⟨rfl, ((states r).mpr hr).ofSyntax?_eq.trans hr.ofSyntax?_eq.symm, rfl, rfl⟩

/-- Definitions that come to the same contribute the same. -/
theorem ofDefinitions_eq_of_alike {definitions definitions' : List Definition}
    (h : List.Forall₂ Definition.Alike definitions definitions')
    (hstated : ∀ d ∈ definitions', d.IsStated) :
    Contribution.ofDefinitions definitions = Contribution.ofDefinitions definitions' := by
  induction h with
  | nil => rfl
  | cons halike _ ih =>
      rw [List.forall_mem_cons] at hstated
      obtain ⟨htype, hdirective, hroots, hschema⟩ := halike.contribute hstated.1
      have hrest := ih hstated.2
      simp only [Contribution.ofDefinitions, Contribution.mk.injEq] at hrest ⊢
      simp only [List.filterMap_cons, List.flatMap_cons, List.any_cons, htype, hdirective, hroots,
        hschema, hrest, and_self]

/-! ## Loose extensions -/

/-- Whether a type definition or extension extends a type that is not defined. -/
def TypeDef.isLoose (definitions : List Definition) (t : TypeDef) : Bool :=
  t.isExtension && !definesType definitions t.name

theorem Definition.isLoose_eq (definitions : List Definition) (d : Definition) :
    d.isLoose definitions = d.typeDef?.any (TypeDef.isLoose definitions) := by
  cases d with
  | type d =>
      rw [isLoose, typeDef?, TypeDef.ofSyntax?]
      cases d.name with
      | none => exact Bool.and_false _
      | some n => rfl
  | _ => rfl

/-- A definition that contributes a type contributes nothing else. -/
theorem Definition.only_of_typeDef? {d : Definition} {t : TypeDef} (h : d.typeDef? = some t) :
    d.directiveDef? = none ∧ d.roots = [] ∧ d.definesSchema = false := by
  cases d with
  | type d => exact ⟨rfl, rfl, rfl⟩
  | _ => cases h

/-- Loose extensions that are left out are all that definitions contribute less. -/
theorem ofDefinitions_filter_isLoose (definitions written : List Definition) :
    Contribution.ofDefinitions (written.filter (!·.isLoose definitions)) =
      { Contribution.ofDefinitions written with
        types := (written.filterMap Definition.typeDef?).filter (!·.isLoose definitions) } := by
  induction written with
  | nil => rfl
  | cons d written ih =>
      simp only [Contribution.ofDefinitions, Contribution.mk.injEq] at ih ⊢
      obtain ⟨htypes, hdirectives, hroots, hschema⟩ := ih
      have hd := d.isLoose_eq definitions
      cases ht : d.typeDef? with
      | none =>
          rw [ht, Option.any_none] at hd
          simp [List.filterMap_cons, ht, hd, htypes, hdirectives, hroots, hschema]
      | some t =>
          rw [ht, Option.any_some] at hd
          obtain ⟨hdirective, hroot, hdefines⟩ := Definition.only_of_typeDef? ht
          cases hloose : t.isLoose definitions with
          | true =>
              simp [ht, hd, hloose, htypes, hdirectives, hroots, hschema, hdirective, hroot, hdefines]
          | false =>
              simp [List.filterMap_cons, ht, hd, hloose, htypes, hdirectives, hroots, hschema]

theorem definesType_iff (definitions : List Definition) (text : String) :
    definesType definitions text = true ↔ text ∈ (definedTypes definitions).map (·.name) := by
  rw [definesType, ← any_definedTypes, List.any_eq_true, List.mem_map]
  simp only [decide_eq_true_eq]

namespace TypeSystem

theorem ofContribution_filter_isLoose (definitions : List Definition) :
    ofContribution (.ofDefinitions (definitions.filter (!·.isLoose definitions))) =
      ofContribution (.ofDefinitions definitions) := by
  let b := SchemaBuilder.empty.add (.ofDefinitions definitions)
  have hundefined : ∀ ext ∈ b.extensions, (!ext.isLoose definitions) = false →
      ext.name ∉ b.addBuiltins.types.map (·.name) := by
    intro ext _ hloose hmem
    rw [types_addBuiltins, mem_map_name_insertNew, ← definesType_iff] at hmem
    simp [TypeDef.isLoose, hmem] at hloose
  have hkept : ∀ t : TypeDef, (!t.isExtension && !t.isLoose definitions) = !t.isExtension := by
    intro t
    cases ht : t.isExtension <;> simp [TypeDef.isLoose, ht]
  rw [ofContribution, ofContribution, ← b.build_forget hundefined, ofDefinitions_filter_isLoose]
  simp only [b, SchemaBuilder.add_eq, List.filter_filter, hkept]
  simp [SchemaBuilder.empty, Contribution.ofDefinitions, Bool.and_comm]

end TypeSystem

/-! ## All together -/

/-- Definitions that state something make up what they should. -/
theorem merged {definitions : List Definition} (h : ∀ d ∈ definitions, d.IsStated) :
    Merged definitions (.ofContribution (.ofDefinitions definitions)) where
  typeNames := TypeSystem.nodup_types definitions
  isType text := (TypeSystem.mem_types_iff definitions text).trans (definesType_iff _ text).symm
  writtenType text d hfirst := by
    obtain ⟨own, hown⟩ := h _ (List.mem_of_find?_eq_some hfirst)
    obtain ⟨hname, hdefines, hfound⟩ := hown.first hfirst
    exact ⟨own, hname, hown, gathered_ofContribution h hfound hdefines⟩
  builtinType text own hnone hbuiltin := by
    have hfound : (definedTypes definitions).find? (·.name = text) = some own := by
      rw [find?_definedTypes, hnone, hbuiltin]
      rfl
    have hdefines := TypeSystem.isExtension_of_mem_definedTypes _ (List.mem_of_find?_eq_some hfound)
    exact gathered_ofContribution h hfound hdefines
  directiveNames := TypeSystem.nodup_directives definitions
  writtenDirective text d hfirst := by
    obtain ⟨own, hown⟩ := h _ (List.mem_of_find?_eq_some hfirst)
    have hfound := hown.first hfirst
    refine ⟨own, by simpa using List.find?_some hfound, hown, ?_⟩
    rw [TypeSystem.directive?_ofContribution, hfound]
  builtinDirective text hnone := by
    rw [TypeSystem.directive?_ofContribution, find?_definedDirectives, hnone]
    rfl
  split documents halike := by
    rw [TypeSystem.ofDocuments_eq, ofDefinitions_eq_of_alike halike h]
  loose documents halike := by
    have hkept : ∀ d ∈ definitions.filter (!·.isLoose definitions), d.IsStated :=
      fun d hd => h d (List.mem_of_mem_filter hd)
    rw [TypeSystem.ofDocuments_eq, ofDefinitions_eq_of_alike halike hkept,
      TypeSystem.ofContribution_filter_isLoose]

/-! ## Texts -/

/-- Texts without faults leave nothing out. -/
theorem writtenDefinitions_stated {texts : List (String × String)}
    (h : ∀ t ∈ texts, (Source.read t.2).isWellFormed = true) :
    ∀ d ∈ writtenDefinitions texts, d.IsStated := by
  intro d hd
  obtain ⟨t, ht, hd⟩ := List.mem_flatMap.mp hd
  exact Source.definitions_stated (h t ht) d hd

namespace TypeSystem

/-- Texts without faults make up what their definitions make up, one after another,
however they are divided among the texts. -/
theorem ofTexts_merged (texts : List (String × String))
    (h : ∀ t ∈ texts, (Source.read t.2).isWellFormed = true) :
    ∃ s, ofTexts texts = .ok s ∧ Merged (writtenDefinitions texts) s :=
  ⟨_, ofTexts_eq_ofContribution h, merged (writtenDefinitions_stated h)⟩

/-- An extension stands in front of the type that it extends, in a text of its own. -/
theorem ofTexts_merged_extension_first :
    (∀ t ∈ [("b", "extend union A = B"), ("a", "union A = C")],
      (Source.read t.2).isWellFormed = true) ∧
    ∃ s, ofTexts [("b", "extend union A = B"), ("a", "union A = C")] = .ok s ∧
      Merged (writtenDefinitions [("b", "extend union A = B"), ("a", "union A = C")]) s :=
  ⟨by decide +kernel, ofTexts_merged _ (by decide +kernel)⟩

end TypeSystem

end GraphLint
