import GraphLint.Proofs.Names.Declarations
import GraphLint.Proofs.TypeSystem.Growth
import GraphLint.Proofs.TypeSystem.Merging
import GraphLint.Proofs.TypeSystem.Stating

/-!
# The first definition of a name

The rules about names look at the names that definitions declare, and a builder looks at
the types and directives that it makes of definitions.  Both go by the first definition
of a name.  It is the same definition for both: what is found under a name in a type
system is what the first definition says that declares the name, and what is built in
if none does.

So the first definition of a name is held by the type system (`heldBy_of_first`), with
no more than the members of extensions behind its own.
-/

set_option autoImplicit false

namespace GraphLint

/-! ## Declarations and what is made of them -/

namespace Definition

/-- Whether a definition declares a name. -/
def declares (s : Subject) (text : String) (d : Definition) : Bool :=
  d.declaration?.any (Declaration.declares s text)

theorem declares_self {d : Definition} {x : Declaration} (h : d.declaration? = some x) :
    d.declares x.subject x.name.text = true := by
  simp [declares, h, Declaration.declares]

theorem declares_iff {d : Definition} {s : Subject} {text : String} :
    d.declares s text = true ↔ ∃ n, d.declaration? = some ⟨s, n⟩ ∧ n.text = text := by
  cases hx : d.declaration? with
  | none => simp [declares, hx]
  | some x =>
      obtain ⟨s', n⟩ := x
      simp only [declares, hx, Option.any_some, Declaration.declares, decide_eq_true_eq,
        Option.some.injEq, Declaration.mk.injEq]
      constructor
      · rintro ⟨rfl, rfl⟩
        exact ⟨n, ⟨rfl, rfl⟩, rfl⟩
      · rintro ⟨_, ⟨rfl, rfl⟩, rfl⟩
        exact ⟨rfl, rfl⟩

/-- A type that is defined has the name that is declared. -/
theorem any_typeDef? (d : Definition) (text : String) :
    (d.typeDef?.filter (!·.isExtension)).any (·.name = text) = d.declares .type text := by
  cases d with
  | type d =>
      obtain ⟨extent, description, isExtension, name, directives, body⟩ := d
      cases isExtension <;> cases name <;>
        simp [declares, declaration?, typeDef?, TypeDef.ofSyntax?, Declaration.declares]
  | directive d =>
      cases hname : d.name <;> simp [declares, declaration?, typeDef?, hname, Declaration.declares]
  | _ => rfl

/-- A directive that is defined has the name that is declared. -/
theorem any_directiveDef? (d : Definition) (text : String) :
    d.directiveDef?.any (·.name = text) = d.declares .directive text := by
  cases d with
  | type d =>
      obtain ⟨extent, description, isExtension, name, directives, body⟩ := d
      cases isExtension <;> cases name <;>
        simp [declares, declaration?, directiveDef?, Declaration.declares]
  | directive d =>
      cases hname : d.name <;>
        simp [declares, declaration?, directiveDef?, DirectiveDef.ofSyntax?, hname,
          Declaration.declares]
  | _ => rfl

end Definition

section

variable (definitions : List Definition) (text : String)

/-- The first declaration of a name is that of the first definition that declares it. -/
theorem find?_declarations (s : Subject) :
    (definitions.filterMap Definition.declaration?).find? (Declaration.declares s text) =
      (definitions.find? (·.declares s text)).bind Definition.declaration? :=
  List.find?_filterMap

/-- A name is declared nowhere if no definition declares it. -/
theorem find?_declarations_eq_none (s : Subject) :
    (definitions.filterMap Definition.declaration?).find? (Declaration.declares s text) = none ↔
      definitions.find? (·.declares s text) = none := by
  rw [find?_declarations, Option.bind_eq_none_iff]
  constructor
  · intro hnone
    cases hfirst : definitions.find? (·.declares s text) with
    | none => rfl
    | some d =>
        have hdeclares := List.find?_some hfirst
        rw [Definition.declares, hnone d hfirst] at hdeclares
        cases hdeclares
  · intro hnone d hd
    rw [hnone] at hd
    cases hd

theorem find?_definedTypes :
    (definedTypes definitions).find? (·.name = text) =
      ((definitions.find? (·.declares .type text)).bind
        fun d => d.typeDef?.filter (!·.isExtension)).or (Builtin.types.find? (·.name = text)) := by
  rw [definedTypes, List.find?_append, List.filter_filterMap, List.find?_filterMap]
  simp only [Definition.any_typeDef?]

theorem find?_definedDirectives :
    (definedDirectives definitions).find? (·.name = text) =
      ((definitions.find? (·.declares .directive text)).bind Definition.directiveDef?).or
        (Builtin.directives.find? (·.name = text)) := by
  rw [definedDirectives, List.find?_append, List.find?_filterMap]
  simp only [Definition.any_directiveDef?]

/-- A name is defined if a definition declares it, or if it is built in. -/
theorem any_definedTypes :
    (definedTypes definitions).any (·.name = text) =
      (definitions.any (·.declares .type text) || Builtin.types.any (·.name = text)) := by
  rw [← List.isSome_find?, find?_definedTypes, Option.isSome_or, List.isSome_find?]
  congr 1
  rw [← List.isSome_find?]
  cases hfirst : definitions.find? (·.declares .type text) with
  | none => rfl
  | some d =>
      have hdeclares := List.find?_some hfirst
      rw [← Definition.any_typeDef?] at hdeclares
      exact Option.isSome_of_any hdeclares

end

/-! ## Definitions that come first -/

/-- A definition of a type that declares something is no extension, and declares the name that
it states. -/
theorem TypeDefinition.States.of_declaration? {d : TypeDefinition} {own : TypeDef} {x : Declaration}
    (h : d.States own) (hx : (Definition.type d).declaration? = some x) :
    own.isExtension = false ∧ x.subject = .type ∧ x.name.text = own.name := by
  obtain ⟨n, hn, hname⟩ := Option.map_eq_some_iff.mp h.name
  change (if d.isExtension then none else d.name.map (⟨.type, ·⟩)) = some x at hx
  split at hx
  · cases hx
  · next hdefines =>
      rw [hn] at hx
      obtain rfl := Option.some.inj hx
      exact ⟨h.isExtension.trans (Bool.eq_false_iff.mpr hdefines), rfl, hname⟩

theorem DirectiveDefinition.States.of_declaration? {d : DirectiveDefinition} {own : DirectiveDef}
    {x : Declaration} (h : d.States own) (hx : (Definition.directive d).declaration? = some x) :
    x.subject = .directive ∧ x.name.text = own.name := by
  obtain ⟨n, hn, hname⟩ := Option.map_eq_some_iff.mp h.name
  change d.name.map (⟨.directive, ·⟩) = some x at hx
  rw [hn] at hx
  obtain rfl := Option.some.inj hx
  exact ⟨rfl, hname⟩

/-- What is there to declare something has the name for it, if it states something. -/
theorem Definition.IsStated.exists_declaration? {d : Definition} {s : Subject} (h : d.IsStated)
    (hs : d.subject? = some s) : ∃ n, d.declaration? = some ⟨s, n⟩ := by
  cases d with
  | type d =>
      obtain ⟨t, ht⟩ := h
      obtain ⟨extent, description, isExtension, name, directives, body⟩ := d
      obtain ⟨n, rfl, -⟩ := Option.map_eq_some_iff.mp ht.name
      cases isExtension with
      | true => cases hs
      | false =>
          obtain rfl := Option.some.inj hs
          exact ⟨n, rfl⟩
  | directive d =>
      obtain ⟨r, hr⟩ := h
      obtain ⟨extent, description, name, arguments, isRepeatable, locations⟩ := d
      obtain ⟨n, rfl, -⟩ := Option.map_eq_some_iff.mp hr.name
      obtain rfl := Option.some.inj hs
      exact ⟨n, rfl⟩
  | _ => cases hs

section

variable {definitions : List Definition} {text : String}

/-- The first type of a name that is defined is what the first definition states that declares
the name. -/
theorem TypeDefinition.States.first {d : TypeDefinition} {own : TypeDef} (h : d.States own)
    (hfirst : definitions.find? (·.declares .type text) = some (.type d)) :
    own.name = text ∧ own.isExtension = false ∧
      (definedTypes definitions).find? (·.name = text) = some own := by
  obtain ⟨n, hx, hn⟩ := Definition.declares_iff.mp (List.find?_some hfirst)
  obtain ⟨hdefines, -, hname⟩ := h.of_declaration? hx
  have hlowered : (Definition.type d).typeDef? = some own := h.ofSyntax?_eq
  refine ⟨hname.symm.trans hn, hdefines, ?_⟩
  rw [find?_definedTypes, hfirst, Option.bind_some, hlowered,
    Option.filter_some_pos (by simp [hdefines])]
  rfl

theorem DirectiveDefinition.States.first {d : DirectiveDefinition} {own : DirectiveDef}
    (h : d.States own)
    (hfirst : definitions.find? (·.declares .directive text) = some (.directive d)) :
    (definedDirectives definitions).find? (·.name = text) = some own := by
  have hlowered : (Definition.directive d).directiveDef? = some own := h.ofSyntax?_eq
  rw [find?_definedDirectives, hfirst, Option.bind_some, hlowered]
  rfl

end

/-! ## Types that begin others -/

/-- A type that has grown into another, which has the description of the first. -/
structure TypeDef.Begins (t t' : TypeDef) : Prop extends t.GrowsInto t' where
  description : t'.description = t.description

namespace TypeDef

theorem extendAll_append (t : TypeDef) (exts exts' : List TypeDef) :
    t.extendAll (exts ++ exts') = (t.extendAll exts).extendAll exts' := by
  simp [extendAll, List.append_assoc]

theorem begins_extendAll (t : TypeDef) (exts : List TypeDef) : t.Begins (t.extendAll exts) where
  name := rfl
  kind := rfl
  members := ⟨List.prefix_append _ _, List.prefix_append _ _, List.prefix_append _ _,
    List.prefix_append _ _, List.prefix_append _ _⟩
  description := rfl

end TypeDef

/-! ## Definitions that are held -/

/-- A type system has what a definition declares, as the definition states it.  A type
may have members of extensions behind those of the definition. -/
inductive Definition.HeldBy (s : TypeSystem) : Definition → Prop
  /-- A type. -/
  | type {d : TypeDefinition} {own t : TypeDef} (states : d.States own)
    (found : s.type? own.name = some t) (begins : own.Begins t) : HeldBy s (.type d)
  /-- A directive. -/
  | directive {d : DirectiveDefinition} {own : DirectiveDef} (states : d.States own)
    (found : s.directive? own.name = some own) : HeldBy s (.directive d)

/-- What is held is found under its name. -/
theorem Definition.HeldBy.isIn {s : TypeSystem} {d : Definition} {x : Declaration}
    (h : d.HeldBy s) (hx : d.declaration? = some x) : x.subject.isIn s x.name.text = true := by
  cases h with
  | type states found =>
      obtain ⟨-, hsubject, hname⟩ := states.of_declaration? hx
      rw [hsubject, hname]
      exact Option.isSome_of_eq_some found
  | directive states found =>
      obtain ⟨hsubject, hname⟩ := states.of_declaration? hx
      rw [hsubject, hname]
      exact Option.isSome_of_eq_some found

namespace TypeSystem

variable {definitions : List Definition} {d : Definition} {x : Declaration}

/-- The first definition of a name is held, if it states something. -/
theorem heldBy_of_first (hd : d.IsStated) (hx : d.declaration? = some x)
    (hfirst : definitions.find? (·.declares x.subject x.name.text) = some d) :
    d.HeldBy (ofContribution (.ofDefinitions definitions)) := by
  cases d with
  | type d =>
      obtain ⟨own, hown⟩ := hd
      obtain ⟨-, hsubject, hname⟩ := hown.of_declaration? hx
      rw [hsubject, hname] at hfirst
      refine .type hown ?_ (TypeDef.begins_extendAll _ (extensionsOf definitions own.name))
      rw [type?_ofContribution, (hown.first hfirst).2.2]
      rfl
  | directive d =>
      obtain ⟨own, hown⟩ := hd
      obtain ⟨hsubject, hname⟩ := hown.of_declaration? hx
      rw [hsubject, hname] at hfirst
      exact .directive hown ((directive?_ofContribution _ _).trans (hown.first hfirst))
  | _ => cases hx

end TypeSystem

end GraphLint
