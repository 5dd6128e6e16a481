import GraphLint.Proofs.Position.Slots

/-!
# Positions do not contradict themselves

The entries of a position are looked up one from another: a field on the type
that is selected from, an argument on its field or directive, an enum value on
its enum.  But they are kept apart and change at different nodes, so an entry
could be there without the one that it was looked up on.

`Position.Coherent` says that this is not so at the nodes where the entries are
asked for, and `Document.coherent_of_mem_hearings` that a walk through a document
meets no other positions.  Nothing is asked of the type system.
-/

set_option autoImplicit false

namespace GraphLint

namespace Position

/-- Inside of a construct, what is known is known with what it belongs to. -/
structure Coherent (c : Construct) (p : Position) : Prop where
  /-- A field comes with the type that it was selected from. -/
  field : c = .field → ∀ f, p.fieldDef = some f → ∃ t, p.parentType = some t
  /-- An argument comes with a directive, or with a field and the type that the
  field was selected from. -/
  argument : ∀ owner, c = .argument owner → ∀ a, p.argument = some a →
    (∃ d, p.directive = some d) ∨ ∃ t f, p.parentType = some t ∧ p.fieldDef = some f
  /-- An enum value comes with its enum. -/
  enumValue : c = .value .enum → ∀ v, p.enumValue = some v →
    ∃ t, p.typeOf p.inputType = some t

theorem exists_parentType_of_selectedField {p : Position} {name : Option String} {f : FieldDef}
    (h : p.selectedField name = some f) : ∃ t, p.parentType = some t := by
  obtain ⟨t, ht, _⟩ := Option.bind_eq_some_iff.mp h
  exact ⟨t, ht⟩

theorem exists_fieldDef_of_givenArgument {p : Position} {name : Option String} {a : InputDef}
    (h : p.givenArgument .field name = some a) : ∃ f, p.fieldDef = some f := by
  obtain ⟨_, _, ha⟩ := Option.bind_eq_some_iff.mp h
  obtain ⟨f, hf, _⟩ := Option.bind_eq_some_iff.mp ha
  exact ⟨f, hf⟩

theorem exists_directive_of_givenArgument {p : Position} {name : Option String} {a : InputDef}
    (h : p.givenArgument .directive name = some a) : ∃ d, p.directive = some d := by
  obtain ⟨_, _, ha⟩ := Option.bind_eq_some_iff.mp h
  obtain ⟨d, hd, _⟩ := Option.bind_eq_some_iff.mp ha
  exact ⟨d, hd⟩

theorem exists_typeOf_of_namedEnumValue {p : Position} {name : Option String} {v : EnumValueDef}
    (h : p.namedEnumValue name = some v) : ∃ t, p.typeOf p.inputType = some t := by
  obtain ⟨t, ht, _⟩ := Option.bind_eq_some_iff.mp h
  obtain ⟨htype, _⟩ := Option.filter_eq_some_iff.mp ht
  exact ⟨t, htype⟩

theorem Coherent.enter {c : Construct} {n : Node} {p : Position} (h : c.Holds n.construct)
    (hp : p.Coherent c) : (p.enter n).Coherent n.construct := by
  obtain ⟨construct, name, extent⟩ := n
  refine ⟨?_, ?_, ?_⟩
  · intro hc f hf
    cases hc
    exact exists_parentType_of_selectedField hf
  · intro owner hc a ha
    cases hc
    cases owner with
    | directive =>
        left
        exact exists_directive_of_givenArgument ha
    | field =>
        right
        obtain ⟨f, hf⟩ := exists_fieldDef_of_givenArgument ha
        -- What the argument stands in is a field, and was coherent already.
        cases h
        obtain ⟨t, ht⟩ := hp.field rfl f hf
        exact ⟨t, f, ht, hf⟩
  · intro hc v hv
    cases hc
    exact exists_typeOf_of_namedEnumValue hv

theorem coherent_start (schema : TypeSystem) : (start schema).Coherent .document :=
  ⟨nofun, nofun, nofun⟩

end Position

/-- On a walk through a document every position is coherent. -/
theorem Document.coherent_of_mem_hearings (schema : TypeSystem) (d : Document) :
    ∀ h ∈ d.tree.hearings .position (.start schema), h.view.Coherent h.event.node.construct := by
  have step : ∀ (c : Construct) (n : Node) (p : Position), c.Holds n.construct → p.Coherent c →
      (p.enter n).Coherent n.construct :=
    fun _ _ _ h hp => hp.enter h
  exact d.forall_hearings step (Position.coherent_start schema)

end GraphLint
