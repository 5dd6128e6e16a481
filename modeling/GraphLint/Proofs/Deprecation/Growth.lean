import GraphLint.Proofs.Deprecation.Exact
import GraphLint.Proofs.TypeSystem.Growth
import GraphLint.Source

/-!
# Warnings stay when a type system grows

What a document uses is found by handing types down.  In a larger type system the same
types are handed down wherever the smaller one hands one down at all, so each use finds
the same element, and the warning it deserved is still deserved.  There may be further
warnings in between: a use that found nothing may find something deprecated.

Uses of one document under two type systems correspond one to one, for there is one at
each node that can use something.  `Use.Grows` relates two of them; the proof follows
the recursion that collects uses, with what is handed down related by `Kept Eq`.
-/

set_option autoImplicit false

namespace GraphLint

/-! ## Elements that are spoken of alike -/

/-- Elements of which the same is said. -/
structure Element.Alike (e e' : Element) : Prop where
  phrase : e'.phrase = e.phrase
  deprecation : e'.deprecation = e.deprecation

theorem Element.Alike.objection? {e e' : Element} (h : e.Alike e') :
    e'.objection? = e.objection? := by
  rw [Element.objection?, Element.objection?, h.phrase, h.deprecation]

/-- What takes the same arguments, which are spoken of alike. -/
structure Owner.Alike (o o' : Owner) : Prop where
  argument? : o'.argument? = o.argument?
  element : ∀ a, (Element.argument o a).Alike (.argument o' a)

theorem Owner.alike_refl (o : Owner) : o.Alike o := ⟨rfl, fun _ => ⟨rfl, rfl⟩⟩

namespace TypeDef.GrowsInto

variable {t t' : TypeDef}

-- Of a type nothing is said but its name.

theorem alike_field (h : t.GrowsInto t') (f : FieldDef) :
    (Element.field t f).Alike (.field t' f) := by
  refine ⟨?_, rfl⟩
  unfold Element.phrase
  dsimp only
  rw [h.name]

theorem alike_inputField (h : t.GrowsInto t') (f : InputDef) :
    (Element.inputField t f).Alike (.inputField t' f) := by
  refine ⟨?_, rfl⟩
  unfold Element.phrase
  dsimp only
  rw [h.name]

theorem alike_enumValue (h : t.GrowsInto t') (v : EnumValueDef) :
    (Element.enumValue t v).Alike (.enumValue t' v) := by
  refine ⟨?_, rfl⟩
  unfold Element.phrase
  dsimp only
  rw [h.name]

theorem alike_owner (h : t.GrowsInto t') (f : FieldDef) :
    (Owner.field t f).Alike (.field t' f) := by
  refine ⟨rfl, fun a => ⟨?_, rfl⟩⟩
  unfold Element.phrase
  dsimp only
  rw [h.name]

end TypeDef.GrowsInto

/-! ## Uses that grow -/

/-- A use at the same node that finds an element which is spoken of alike, if an element
was found at all. -/
structure Use.Grows (u u' : Use) : Prop where
  culprit : u'.culprit = u.culprit
  element : Kept Element.Alike u.element u'.element

/-- A warning that a use deserves stays deserved. -/
theorem Use.Grows.warning? {u u' : Use} (h : u.Grows u') {d : Diagnostic Extent}
    (hd : u.warning? = some d) : u'.warning? = some d := by
  obtain ⟨message, hmessage, rfl⟩ := Option.map_eq_some_iff.mp hd
  obtain ⟨e, he, hobjection⟩ := Option.bind_eq_some_iff.mp hmessage
  obtain ⟨e', he', halike⟩ := h.element e he
  rw [← halike.objection?] at hobjection
  rw [Use.warning?, he', Option.bind_some, hobjection, h.culprit]
  rfl

/-- The warnings that uses deserve are among those that grown ones deserve. -/
theorem sublist_warnings {us us' : List Use} (h : List.Forall₂ Use.Grows us us') :
    (us.filterMap Use.warning?).Sublist (us'.filterMap Use.warning?) := by
  induction h with
  | nil => exact .slnil
  | @cons u u' us us' hu _ ih =>
      cases hd : u.warning? with
      | none =>
          rw [List.filterMap_cons_none hd]
          exact ih.trans ((List.sublist_cons_self u' us').filterMap _)
      | some d =>
          rw [List.filterMap_cons_some hd, List.filterMap_cons_some (hu.warning? hd)]
          exact ih.cons_cons d

/-- Uses in lists grow as those in the items do. -/
theorem grows_flatMap {α : Type} {uses uses' : α → List Use}
    (h : ∀ x, List.Forall₂ Use.Grows (uses x) (uses' x)) (xs : List α) :
    List.Forall₂ Use.Grows (xs.flatMap uses) (xs.flatMap uses') := by
  induction xs with
  | nil => exact .nil
  | cons x xs ih =>
      rw [List.flatMap_cons, List.flatMap_cons]
      exact List.rel_append (h x) ih

/-! ## What is handed down -/

namespace TypeSystem.GrowsInto

variable {s s' : TypeSystem} {ref ref' : Option TypeRef}

theorem composite? (h : s.GrowsInto s') (href : Kept Eq ref ref') :
    Kept TypeDef.GrowsInto (s.composite? ref) (s'.composite? ref') :=
  (h.baseType? href).filter fun _ _ ht hk => ht.isComposite.trans hk

theorem inputObject? (h : s.GrowsInto s') (href : Kept Eq ref ref') :
    Kept TypeDef.GrowsInto (s.inputObject? ref) (s'.inputObject? ref') := by
  refine (h.baseType? href).filter ?_
  intro t t' ht hk
  rwa [ht.kind]

theorem enum? (h : s.GrowsInto s') (href : Kept Eq ref ref') :
    Kept TypeDef.GrowsInto (s.enum? ref) (s'.enum? ref') := by
  refine (h.baseType? href).filter ?_
  intro t t' ht hk
  rwa [ht.kind]

theorem operationType (h : s.GrowsInto s') (kind : OperationKind) :
    Kept Eq (s.operationType kind) (s'.operationType kind) := by
  have hobject : Kept TypeDef.GrowsInto ((s.rootType? kind).filter (·.kind = .object))
      ((s'.rootType? kind).filter (·.kind = .object)) := by
    refine (h.rootType? kind).filter ?_
    intro t t' ht hk
    rwa [ht.kind]
  exact hobject.map fun t t' ht => congrArg TypeRef.named ht.name.symm

end TypeSystem.GrowsInto

section

variable {s s' : TypeSystem}

/-! ## Values -/

mutual

theorem Value.uses_grow (h : s.GrowsInto s') :
    ∀ (v : Value) {expected expected' : Option TypeRef}, Kept Eq expected expected' →
      List.Forall₂ Use.Grows (v.uses s expected) (v.uses s' expected')
  | .missing, _, _, _ => .nil
  | .var _ _, _, _, _ => .nil
  | .int _ _, _, _, _ => .nil
  | .float _ _, _, _, _ => .nil
  | .string _ _, _, _, _ => .nil
  | .boolean _ _, _, _, _ => .nil
  | .null _, _, _, _ => .nil
  | .enum extent name, expected, expected', hexpected => by
      refine .cons ⟨rfl, (h.enum? hexpected).bind ?_⟩ .nil
      intro t t' ht
      refine (ht.enumValue? name.text).map ?_
      rintro v _ rfl
      exact ht.alike_enumValue v
  | .list _ items, expected, expected', hexpected => by
      refine Value.itemUses_grow h items (hexpected.map ?_)
      rintro r _ rfl
      rfl
  | .object _ fields, expected, expected', hexpected =>
      ObjectField.allUses_grow h fields (h.inputObject? hexpected)

theorem Value.itemUses_grow (h : s.GrowsInto s') :
    ∀ (vs : List Value) {expected expected' : Option TypeRef}, Kept Eq expected expected' →
      List.Forall₂ Use.Grows (Value.itemUses s expected vs) (Value.itemUses s' expected' vs)
  | [], _, _, _ => .nil
  | v :: vs, _, _, hexpected =>
      List.rel_append (Value.uses_grow h v hexpected) (Value.itemUses_grow h vs hexpected)

theorem ObjectField.uses_grow (h : s.GrowsInto s') :
    ∀ (f : ObjectField) {object object' : Option TypeDef},
      Kept TypeDef.GrowsInto object object' →
      List.Forall₂ Use.Grows (f.uses s object) (f.uses s' object')
  | .mk extent name value, object, object', hobject => by
      refine .cons ⟨rfl, hobject.bind ?_⟩ (Value.uses_grow h value (hobject.bind ?_))
      · intro t t' ht
        refine (ht.inputField? name.text).map ?_
        rintro f _ rfl
        exact ht.alike_inputField f
      · intro t t' ht
        refine (ht.inputField? name.text).map ?_
        rintro f _ rfl
        rfl

theorem ObjectField.allUses_grow (h : s.GrowsInto s') :
    ∀ (fs : List ObjectField) {object object' : Option TypeDef},
      Kept TypeDef.GrowsInto object object' →
      List.Forall₂ Use.Grows (ObjectField.allUses s object fs) (ObjectField.allUses s' object' fs)
  | [], _, _, _ => .nil
  | f :: fs, _, _, hobject =>
      List.rel_append (ObjectField.uses_grow h f hobject) (ObjectField.allUses_grow h fs hobject)

end

/-! ## Arguments and directives -/

theorem Argument.uses_grow (h : s.GrowsInto s') {owner owner' : Option Owner}
    (howner : Kept Owner.Alike owner owner') (a : Argument) :
    List.Forall₂ Use.Grows (a.uses s owner) (a.uses s' owner') := by
  refine .cons ⟨rfl, howner.bind ?_⟩ (Value.uses_grow h a.value (howner.bind ?_))
  · intro o o' ho
    rw [ho.argument?]
    refine (Kept.refl _).map ?_
    rintro d _ rfl
    exact ho.element d
  · intro o o' ho
    rw [ho.argument?]
    exact .refl _

theorem Directive.uses_grow (h : s.GrowsInto s') (d : Directive) :
    List.Forall₂ Use.Grows (d.uses s) (d.uses s') := by
  refine grows_flatMap (Argument.uses_grow h ?_) d.arguments
  have hfound : Kept Eq (d.name.bind fun name => s.directive? name.text)
      (d.name.bind fun name => s'.directive? name.text) := by
    refine (Kept.refl d.name).bind ?_
    rintro name _ rfl
    exact h.directive name.text
  refine hfound.map ?_
  rintro found _ rfl
  exact Owner.alike_refl _

/-! ## Selections -/

theorem Field.owner?_grow (h : s.GrowsInto s') {around around' : Option TypeRef}
    (haround : Kept Eq around around') (f : Field) :
    Kept (fun x x' => x.1.GrowsInto x'.1 ∧ x.2 = x'.2) (f.owner? s around)
      (f.owner? s' around') := by
  refine (h.composite? haround).bind ?_
  intro parent parent' hparent
  refine (Kept.refl f.name).bind ?_
  rintro name _ rfl
  rw [hparent.name]
  refine (h.field? parent.name name.text).map ?_
  rintro field _ rfl
  exact ⟨hparent, rfl⟩

theorem InlineFragment.type_grow {around around' : Option TypeRef}
    (haround : Kept Eq around around') (f : InlineFragment) :
    Kept Eq (f.type around) (f.type around') := by
  unfold InlineFragment.type
  cases f.condition with
  | some name => exact .refl _
  | none =>
      refine haround.map ?_
      rintro r _ rfl
      rfl

mutual

theorem Selection.uses_grow (h : s.GrowsInto s') :
    ∀ (x : Selection) {around around' : Option TypeRef}, Kept Eq around around' →
      List.Forall₂ Use.Grows (x.uses s around) (x.uses s' around')
  | .field f below, around, around', haround => by
      have howner := Field.owner?_grow h haround f
      have hgiven : Kept Owner.Alike ((f.owner? s around).map fun x => .field x.1 x.2)
          ((f.owner? s' around').map fun x => .field x.1 x.2) := by
        refine howner.map ?_
        rintro ⟨parent, field⟩ ⟨parent', _⟩ ⟨hparent, rfl⟩
        exact hparent.alike_owner field
      refine .cons ⟨rfl, howner.map ?_⟩
        (List.rel_append (List.rel_append ?_ ?_)
          (SelectionSet.uses_grow h below (howner.map ?_)))
      · rintro ⟨parent, field⟩ ⟨parent', _⟩ ⟨hparent, rfl⟩
        exact hparent.alike_field field
      · exact grows_flatMap (Argument.uses_grow h hgiven) f.arguments
      · exact grows_flatMap (Directive.uses_grow h) f.directives
      · rintro ⟨parent, field⟩ ⟨parent', _⟩ ⟨hparent, rfl⟩
        rfl
  | .spread f, _, _, _ => grows_flatMap (Directive.uses_grow h) f.directives
  | .inline f below, _, _, haround =>
      List.rel_append (grows_flatMap (Directive.uses_grow h) f.directives)
        (SelectionSet.uses_grow h below (f.type_grow haround))

theorem SelectionSet.uses_grow (h : s.GrowsInto s') :
    ∀ (x : SelectionSet) {around around' : Option TypeRef}, Kept Eq around around' →
      List.Forall₂ Use.Grows (x.uses s around) (x.uses s' around')
  | .absent, _, _, _ => .nil
  | .braces _ selections, _, _, haround => Selection.allUses_grow h selections haround

theorem Selection.allUses_grow (h : s.GrowsInto s') :
    ∀ (xs : List Selection) {around around' : Option TypeRef}, Kept Eq around around' →
      List.Forall₂ Use.Grows (Selection.allUses s around xs) (Selection.allUses s' around' xs)
  | [], _, _, _ => .nil
  | x :: xs, _, _, haround =>
      List.rel_append (Selection.uses_grow h x haround) (Selection.allUses_grow h xs haround)

end

/-! ## Definitions -/

theorem VariableDefinition.uses_grow (h : s.GrowsInto s') (d : VariableDefinition) :
    List.Forall₂ Use.Grows (d.uses s) (d.uses s') :=
  List.rel_append (Value.uses_grow h d.default (.refl _))
    (grows_flatMap (Directive.uses_grow h) d.directives)

theorem InputValueDefinition.uses_grow (h : s.GrowsInto s') (d : InputValueDefinition) :
    List.Forall₂ Use.Grows (d.uses s) (d.uses s') :=
  List.rel_append (Value.uses_grow h d.default (.refl _))
    (grows_flatMap (Directive.uses_grow h) d.directives)

theorem FieldDefinition.uses_grow (h : s.GrowsInto s') (d : FieldDefinition) :
    List.Forall₂ Use.Grows (d.uses s) (d.uses s') :=
  List.rel_append (grows_flatMap (InputValueDefinition.uses_grow h) d.arguments)
    (grows_flatMap (Directive.uses_grow h) d.directives)

theorem TypeBody.uses_grow (h : s.GrowsInto s') (b : TypeBody) :
    List.Forall₂ Use.Grows (b.uses s) (b.uses s') := by
  cases b with
  | object _ fields => exact grows_flatMap (FieldDefinition.uses_grow h) fields
  | interface _ fields => exact grows_flatMap (FieldDefinition.uses_grow h) fields
  | union _ => exact .nil
  | enum values =>
      exact grows_flatMap (fun v => grows_flatMap (Directive.uses_grow h) v.directives) values
  | scalar => exact .nil
  | inputObject fields => exact grows_flatMap (InputValueDefinition.uses_grow h) fields

theorem Definition.uses_grow (h : s.GrowsInto s') (d : Definition) :
    List.Forall₂ Use.Grows (d.uses s) (d.uses s') := by
  cases d with
  | operation d =>
      exact List.rel_append
        (List.rel_append (grows_flatMap (VariableDefinition.uses_grow h) d.variableDefinitions)
          (grows_flatMap (Directive.uses_grow h) d.directives))
        (SelectionSet.uses_grow h d.selections (h.operationType d.kind))
  | fragment d =>
      exact List.rel_append (grows_flatMap (Directive.uses_grow h) d.directives)
        (SelectionSet.uses_grow h d.selections (.refl _))
  | schema d => exact grows_flatMap (Directive.uses_grow h) d.directives
  | type d =>
      exact List.rel_append (grows_flatMap (Directive.uses_grow h) d.directives)
        (TypeBody.uses_grow h d.body)
  | directive d => exact grows_flatMap (InputValueDefinition.uses_grow h) d.arguments

theorem Document.uses_grow (h : s.GrowsInto s') (d : Document) :
    List.Forall₂ Use.Grows (d.uses s) (d.uses s') :=
  grows_flatMap (Definition.uses_grow h) d.definitions

end

/-! ## Warnings -/

/-- The rule against deprecated elements answers with the warnings that uses deserve. -/
theorem runDocumentRules_noDeprecated (schema : TypeSystem) (d : Document) :
    runDocumentRules schema [noDeprecated] d.tree =
      .ok ((d.uses schema).filterMap Use.warning?) := by
  rw [runDocumentRules, runRules_eq_hearAll (d.restores schema),
    hearAll_noDeprecated (d.coherent_of_mem_hearings schema), ← d.used_tree schema]
  show Except.ok (_ ++ []) = _
  rw [List.append_nil]
  rfl

/-- When a type system grows, the rule against deprecated elements still reports what it
did, in the same order. -/
theorem Document.noDeprecated_grows {s s' : TypeSystem} (h : s.GrowsInto s') (d : Document) :
    ∃ ds ds', runDocumentRules s [noDeprecated] d.tree = .ok ds ∧
      runDocumentRules s' [noDeprecated] d.tree = .ok ds' ∧ ds.Sublist ds' :=
  ⟨_, _, runDocumentRules_noDeprecated s d, runDocumentRules_noDeprecated s' d,
    sublist_warnings (d.uses_grow h)⟩

/-- An object type with one field, which is deprecated. -/
def TypeDef.outdated (name field : String) : TypeDef :=
  ⟨name, .object, none,
    { Members.empty with fields := [⟨field, .named "Int", [], none, some "Gone"⟩] }, false⟩

/-- A system whose only field is deprecated. -/
def TypeSystem.outdated : TypeSystem :=
  ⟨[.outdated "Query" "old"], [], ⟨some "Query", none, none⟩⟩

/-- The same with a type in front of the one that it has, with one more member of that
one, and with a place where mutations start. -/
def TypeSystem.outdatedGrown : TypeSystem :=
  ⟨[.outdated "Mutation" "set", (TypeDef.outdated "Query" "old").extend (.outdated "Query" "new")],
    [], ⟨some "Query", some "Mutation", none⟩⟩

theorem TypeSystem.outdated_growsInto : outdated.GrowsInto outdatedGrown := by
  refine ⟨?_, fun _ => .refl _, rfl, nofun, nofun⟩
  intro name t ht
  by_cases hname : "Query" = name
  · subst hname
    obtain rfl : TypeDef.outdated "Query" "old" = t := Option.some.inj ht
    exact ⟨_, rfl, TypeDef.growsInto_extend _ _⟩
  · simp [outdated, TypeSystem.type?, TypeDef.outdated, hname] at ht

/-- The document uses a field of the smaller system behind one that is new. -/
theorem Document.noDeprecated_grows_outdated :
    TypeSystem.outdated.GrowsInto .outdatedGrown ∧
      ∃ ds ds',
        runDocumentRules .outdated [noDeprecated] (Source.read "{ new old }").document.tree =
          .ok ds ∧
        runDocumentRules .outdatedGrown [noDeprecated] (Source.read "{ new old }").document.tree =
          .ok ds' ∧
        ds.Sublist ds' :=
  ⟨TypeSystem.outdated_growsInto,
    Document.noDeprecated_grows TypeSystem.outdated_growsInto (Source.read "{ new old }").document⟩

/-- Of the two warnings under the larger system, the second one was there before. -/
example :
    (((Source.read "{ new old }").document.uses .outdated).filterMap Use.warning?) =
      (((Source.read "{ new old }").document.uses .outdatedGrown).filterMap
        Use.warning?).drop 1 := by
  decide +kernel

end GraphLint
