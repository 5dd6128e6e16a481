import GraphLint.Proofs.TypeSystem.Merging

/-!
# Members and kinds

A type has five lists of members, and its kind has a use for some of them only.
`Members.Suit` says that the others are empty.  Lowering keeps to it: what a definition
or an extension adds suits the kind that it is written for (`Members.suit_ofSyntax`).

Merging does not look at kinds.  An extension reaches the type of its name and puts all
its members into it, so a type has members that do not suit it as soon as one of its
extensions, written for another kind of type, brings some along
(`TypeDef.suit_extendAll`).  That is the only way in: `ofTexts_suit` says that the types
of a type system have members that suit them if and only if the members of every
extension suit the type that it extends.
-/

set_option autoImplicit false

namespace GraphLint

namespace Members

/-- Members of which a kind of type has a use: all lists that it has none for are empty. -/
structure Suit (m : Members) (kind : TypeKind) : Prop where
  /-- Objects and interfaces have fields. -/
  fields : m.fields = [] ∨ kind = .object ∨ kind = .interface
  /-- Input objects have input fields. -/
  inputFields : m.inputFields = [] ∨ kind = .inputObject
  /-- Objects and interfaces implement interfaces. -/
  interfaces : m.interfaces = [] ∨ kind = .object ∨ kind = .interface
  /-- Unions have members. -/
  unionMembers : m.unionMembers = [] ∨ kind = .union
  /-- Enums have values. -/
  enumValues : m.enumValues = [] ∨ kind = .enum

theorem suit_iff {m : Members} {kind : TypeKind} :
    m.Suit kind ↔
      (m.fields = [] ∨ kind = .object ∨ kind = .interface) ∧
      (m.inputFields = [] ∨ kind = .inputObject) ∧
      (m.interfaces = [] ∨ kind = .object ∨ kind = .interface) ∧
      (m.unionMembers = [] ∨ kind = .union) ∧ (m.enumValues = [] ∨ kind = .enum) := by
  constructor
  · rintro ⟨h₁, h₂, h₃, h₄, h₅⟩
    exact ⟨h₁, h₂, h₃, h₄, h₅⟩
  · rintro ⟨h₁, h₂, h₃, h₄, h₅⟩
    exact ⟨h₁, h₂, h₃, h₄, h₅⟩

instance (m : Members) (kind : TypeKind) : Decidable (m.Suit kind) :=
  decidable_of_iff _ suit_iff.symm

/-- No members suit every kind. -/
theorem suit_empty (kind : TypeKind) : empty.Suit kind :=
  ⟨.inl rfl, .inl rfl, .inl rfl, .inl rfl, .inl rfl⟩

/-- Members of two types suit a kind together if those of each do. -/
theorem suit_append {a b : Members} {kind : TypeKind} :
    (a.append b).Suit kind ↔ a.Suit kind ∧ b.Suit kind := by
  rw [suit_iff, suit_iff, suit_iff]
  simp only [append, List.append_eq_nil_iff]
  constructor
  · rintro ⟨h₁, h₂, h₃, h₄, h₅⟩
    refine ⟨⟨h₁.imp_left And.left, h₂.imp_left And.left, h₃.imp_left And.left,
      h₄.imp_left And.left, h₅.imp_left And.left⟩, ?_⟩
    exact ⟨h₁.imp_left And.right, h₂.imp_left And.right, h₃.imp_left And.right,
      h₄.imp_left And.right, h₅.imp_left And.right⟩
  · rintro ⟨⟨a₁, a₂, a₃, a₄, a₅⟩, b₁, b₂, b₃, b₄, b₅⟩
    have both : ∀ {p q r : Prop}, p ∨ r → q ∨ r → (p ∧ q) ∨ r := by
      intro p q r hp hq
      exact and_or_right.mpr ⟨hp, hq⟩
    exact ⟨both a₁ b₁, both a₂ b₂, both a₃ b₃, both a₄ b₄, both a₅ b₅⟩

/-- What a definition or an extension adds suits the kind that it is written for. -/
theorem suit_ofSyntax (body : TypeBody) : (ofSyntax body).Suit body.kind := by
  cases body with
  | object interfaces fields => exact ⟨.inr (.inl rfl), .inl rfl, .inr (.inl rfl), .inl rfl, .inl rfl⟩
  | interface interfaces fields =>
      exact ⟨.inr (.inr rfl), .inl rfl, .inr (.inr rfl), .inl rfl, .inl rfl⟩
  | union members => exact ⟨.inl rfl, .inl rfl, .inl rfl, .inr rfl, .inl rfl⟩
  | enum values => exact ⟨.inl rfl, .inl rfl, .inl rfl, .inl rfl, .inr rfl⟩
  | scalar => exact suit_empty .scalar
  | inputObject fields => exact ⟨.inl rfl, .inr rfl, .inl rfl, .inl rfl, .inl rfl⟩

end Members

namespace TypeDef

/-- A type suits its kind if its members do. -/
def IsSound (t : TypeDef) : Prop := t.members.Suit t.kind

theorem isSound_ofSyntax? {d : TypeDefinition} {t : TypeDef} (h : ofSyntax? d = some t) :
    t.IsSound := by
  obtain ⟨name, -, rfl⟩ := Option.map_eq_some_iff.mp h
  exact Members.suit_ofSyntax d.body

/-- A type that takes in extensions stays sound if the members of each suit its kind. -/
theorem isSound_extendAll {t : TypeDef} (exts : List TypeDef) :
    (t.extendAll exts).IsSound ↔ t.IsSound ∧ ∀ ext ∈ exts, ext.members.Suit t.kind := by
  induction exts generalizing t with
  | nil =>
      rw [extendAll_nil]
      exact ⟨fun ht => ⟨ht, nofun⟩, And.left⟩
  | cons ext exts ih =>
      have hfirst : (t.extend ext).IsSound ↔ t.IsSound ∧ ext.members.Suit t.kind :=
        Members.suit_append
      rw [extendAll_cons, ih, hfirst, List.forall_mem_cons, and_assoc]
      rfl

end TypeDef

theorem isSound_of_mem_builtin : ∀ t ∈ Builtin.types, t.IsSound := by
  have hall : ∀ t ∈ Builtin.types, t.members.Suit t.kind := by decide
  exact hall

section

variable {definitions : List Definition}

theorem isSound_of_typeDef? {t : TypeDef} (h : t ∈ definitions.filterMap Definition.typeDef?) :
    t.IsSound := by
  obtain ⟨d, -, hd⟩ := List.mem_filterMap.mp h
  cases d with
  | type d => exact TypeDef.isSound_ofSyntax? hd
  | _ => cases hd

/-- Lowering makes sound types only. -/
theorem isSound_of_mem_definedTypes {t : TypeDef} (h : t ∈ definedTypes definitions) :
    t.IsSound := by
  rcases List.mem_append.mp h with hwritten | hbuiltin
  · exact isSound_of_typeDef? (List.mem_filter.mp hwritten).1
  · exact isSound_of_mem_builtin t hbuiltin

/-- Every type of a type system has grown out of its first definition. -/
theorem TypeSystem.mem_types_ofContribution {t : TypeDef} :
    t ∈ (ofContribution (.ofDefinitions definitions)).types ↔
      ∃ first, (definedTypes definitions).find? (·.name = first.name) = some first ∧
        t = first.extendAll (extensionsOf definitions first.name) := by
  constructor
  · intro ht
    have hfound : (ofContribution (.ofDefinitions definitions)).type? t.name = some t :=
      find?_eq_some_of_nodup (nodup_types definitions) ht
    rw [type?_ofContribution] at hfound
    obtain ⟨first, hfirst, hgrown⟩ := Option.map_eq_some_iff.mp hfound
    have hname : first.name = t.name := by simpa using List.find?_some hfirst
    rw [← hname] at hfirst hgrown
    exact ⟨first, hfirst, hgrown.symm⟩
  · rintro ⟨first, hfirst, rfl⟩
    have hfound := type?_ofContribution definitions first.name
    rw [hfirst] at hfound
    exact List.mem_of_find?_eq_some hfound

/-- The types of a type system are sound if and only if the members of every extension
suit the kind of the type that it extends. -/
theorem TypeSystem.forall_isSound_iff :
    (∀ t ∈ (ofContribution (.ofDefinitions definitions)).types, t.IsSound) ↔
      ∀ ext ∈ definitions.filterMap Definition.typeDef?, ext.isExtension = true →
        ∀ first, (definedTypes definitions).find? (·.name = ext.name) = some first →
          ext.members.Suit first.kind := by
  constructor
  · intro hall ext hext hextension first hfirst
    have hname : first.name = ext.name := by simpa using List.find?_some hfirst
    rw [← hname] at hfirst
    have hsound := hall _ (mem_types_ofContribution.mpr ⟨first, hfirst, rfl⟩)
    rw [TypeDef.isSound_extendAll] at hsound
    refine hsound.2 ext (List.mem_filter.mpr ⟨hext, ?_⟩)
    simp [hextension, hname]
  · intro hall t ht
    obtain ⟨first, hfirst, rfl⟩ := mem_types_ofContribution.mp ht
    rw [TypeDef.isSound_extendAll]
    refine ⟨isSound_of_mem_definedTypes (List.mem_of_find?_eq_some hfirst), ?_⟩
    intro ext hext
    obtain ⟨hmem, hkept⟩ := List.mem_filter.mp hext
    simp only [Bool.and_eq_true, decide_eq_true_eq] at hkept
    apply hall ext hmem hkept.1 first
    rw [hkept.2]
    exact hfirst

end

namespace TypeSystem

/-- The members of the types that texts make up suit their kinds if and only if those of
every extension suit the kind of the type that it extends; they do if it is written for
types of that kind. -/
theorem ofTexts_suit (texts : List (String × String))
    (h : ∀ t ∈ texts, (Source.read t.2).isWellFormed = true) :
    ∃ s, ofTexts texts = .ok s ∧
      ((∀ t ∈ s.types, t.members.Suit t.kind) ↔
        ∀ ext ∈ (writtenDefinitions texts).filterMap Definition.typeDef?,
          ext.isExtension = true → ∀ first,
          (definedTypes (writtenDefinitions texts)).find? (·.name = ext.name) = some first →
            ext.members.Suit first.kind) ∧
      ∀ ext ∈ (writtenDefinitions texts).filterMap Definition.typeDef?,
        ext.members.Suit ext.kind := by
  refine ⟨_, ofTexts_eq_ok h, ?_, fun ext hext => isSound_of_typeDef? hext⟩
  rw [ofDocuments_eq, List.flatMap_map]
  exact forall_isSound_iff

/-- An object that an interface extension gives a field to. -/
def widenedTexts : List (String × String) :=
  [("a", "extend interface A { y: Int }"), ("b", "type A { x: Int }")]

/-- The kinds differ, but objects have fields as well. -/
theorem ofTexts_suit_widened :
    (∀ t ∈ widenedTexts, (Source.read t.2).isWellFormed = true) ∧
    ∃ s, ofTexts widenedTexts = .ok s ∧
      ((∀ t ∈ s.types, t.members.Suit t.kind) ↔
        ∀ ext ∈ (writtenDefinitions widenedTexts).filterMap Definition.typeDef?,
          ext.isExtension = true → ∀ first,
          (definedTypes (writtenDefinitions widenedTexts)).find? (·.name = ext.name) = some first →
            ext.members.Suit first.kind) ∧
      ∀ ext ∈ (writtenDefinitions widenedTexts).filterMap Definition.typeDef?,
        ext.members.Suit ext.kind :=
  ⟨by decide +kernel, ofTexts_suit _ (by decide +kernel)⟩

/-- An object that an enum extension gives a value to. -/
theorem ofTexts_not_suit :
    (Source.read "type A { x: Int } extend enum A { B }").isWellFormed = true ∧
    ∃ s, ofTexts [("a", "type A { x: Int } extend enum A { B }")] = .ok s ∧
      ∃ t ∈ s.types, t.kind = .object ∧ t.enumValue? "B" ≠ none ∧ ¬ t.members.Suit t.kind := by
  have hread : (Source.read "type A { x: Int } extend enum A { B }").isWellFormed = true := by
    decide +kernel
  have hall : ∀ t ∈ [("a", "type A { x: Int } extend enum A { B }")],
      (Source.read t.2).isWellFormed = true := by
    intro t ht
    rw [List.mem_singleton.mp ht]
    exact hread
  refine ⟨hread, _, ofTexts_eq_ok hall, ?_⟩
  decide +kernel

end TypeSystem

end GraphLint
