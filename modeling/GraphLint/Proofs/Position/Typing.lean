import GraphLint.Proofs.Position.Journey

/-!
# Positions are well typed

What a position holds is right in terms of the type system, whatever the document
says and however little of it resolves.

Each of the four stacks has an entry for each open node of the constructs that push to
it, resolved or not, and every entry that is there has what the stack promises
(`Stacked`).  The slots hold what is looked up on the nodes at hand: a field on the
type that is selected from, an argument on the very directive or field that it is
given to, an enum value on the enum that is asked for.

`WellTyped` says so of a position and the nodes that are open.  Entering a node
preserves it (`WellTyped.enter`), so it holds along every route, and so at every
stop of every journey and wherever a rule is shown a position.
-/

set_option autoImplicit false

universe u

namespace GraphLint

/-! ## Stacks -/

namespace Construct

/-- Constructs that push the type they have. -/
def pushesOutput : Construct → Bool
  | .field | .operationDefinition _ | .inlineFragment _ | .fragmentDefinition _ => true
  | _ => false

/-- Constructs that push the type that is selected from. -/
def pushesParent : Construct → Bool
  | .selectionSet => true
  | _ => false

/-- Constructs that push the type that a value should have. -/
def pushesInput : Construct → Bool
  | .variableDefinition _ | .argument _ | .value .list | .objectField => true
  | _ => false

/-- Constructs that push a field. -/
def pushesField : Construct → Bool
  | .field => true
  | _ => false

end Construct

/-- A reference names a type of the schema whose values can be received. -/
def TypeSystem.Receives (s : TypeSystem) (ref : TypeRef) : Prop :=
  ∃ t, s.type? ref.baseName = some t ∧ t.isOutputType = true

/-- A reference names a type of the schema whose values can be sent. -/
def TypeSystem.Sends (s : TypeSystem) (ref : TypeRef) : Prop :=
  ∃ t, s.type? ref.baseName = some t ∧ t.isInputType = true

theorem TypeSystem.receives_of_isOutputType {s : TypeSystem} {ref : TypeRef}
    (h : s.isOutputType ref = true) : s.Receives ref :=
  (Option.any_eq_true _ _).mp h

theorem TypeSystem.sends_of_isInputType {s : TypeSystem} {ref : TypeRef}
    (h : s.isInputType ref = true) : s.Sends ref :=
  (Option.any_eq_true _ _).mp h

section

variable {α : Type}

/-- A stack has an entry for each open node of some constructs, resolved or not, and
what is resolved is good. -/
structure Stacked (pushes : Construct → Bool) (Good : α → Prop) (route : List Node)
    (stack : List (Option α)) : Prop where
  /-- One entry for each. -/
  length : stack.length = route.countP (pushes ·.construct)
  /-- Good ones. -/
  good : ∀ x, some x ∈ stack → Good x

/-- What entering a node does to a stack: it pushes one entry or does nothing. -/
structure Steps (pushes : Construct → Bool) (Good : α → Prop) (n : Node)
    (stack next : List (Option α)) : Prop where
  /-- Nothing is done at other constructs. -/
  keeps : pushes n.construct = false → next = stack
  /-- What is pushed is good if it is resolved. -/
  pushes : pushes n.construct = true → ∃ x?, next = x? :: stack ∧ ∀ x, x? = some x → Good x

theorem Stacked.nil (pushes : Construct → Bool) (Good : α → Prop) : Stacked pushes Good [] [] :=
  ⟨rfl, fun _ h => absurd h List.not_mem_nil⟩

theorem Stacked.step {pushes : Construct → Bool} {Good : α → Prop} {route : List Node} {n : Node}
    {stack next : List (Option α)} (h : Stacked pushes Good route stack)
    (hnext : Steps pushes Good n stack next) : Stacked pushes Good (route ++ [n]) next := by
  cases hn : pushes n.construct with
  | false =>
      rw [hnext.keeps hn]
      refine ⟨?_, h.good⟩
      rw [h.length, List.countP_append, List.countP_singleton, hn]
      simp
  | true =>
      obtain ⟨x?, rfl, hx⟩ := hnext.pushes hn
      refine ⟨?_, ?_⟩
      · rw [List.length_cons, h.length, List.countP_append, List.countP_singleton, hn]
        simp
      · intro x hmem
        rcases List.mem_cons.mp hmem with rfl | hmem
        · exact hx x rfl
        · exact h.good x hmem

end

namespace Position

/-! ## What is pushed -/

section

variable {p : Position}

theorem receives_asOutput {ref? : Option TypeRef} {ref : TypeRef}
    (h : p.asOutput ref? = some ref) : p.schema.Receives ref :=
  TypeSystem.receives_of_isOutputType (Option.filter_eq_some_iff.mp h).2

theorem sends_asInput {ref? : Option TypeRef} {ref : TypeRef} (h : p.asInput ref? = some ref) :
    p.schema.Sends ref :=
  TypeSystem.sends_of_isInputType (Option.filter_eq_some_iff.mp h).2

/-- A root type is an object, and so its values can be received. -/
theorem receives_rootType {kind : OperationKind} {ref : TypeRef} (h : p.rootType kind = some ref) :
    p.schema.Receives ref := by
  obtain ⟨t, ht, rfl⟩ := Option.map_eq_some_iff.mp h
  obtain ⟨hroot, hobject⟩ := Option.filter_eq_some_iff.mp ht
  obtain ⟨name, _, htype⟩ := Option.bind_eq_some_iff.mp hroot
  refine ⟨t, ?_, ?_⟩
  · show p.schema.type? t.name = some t
    rw [TypeSystem.name_of_type? htype, htype]
  · rw [TypeDef.isOutputType, of_decide_eq_true hobject]
    rfl

/-- The type that is selected from is the schema's own. -/
theorem composite_selectedType {t : TypeDef} (h : p.selectedType = some t) :
    p.schema.type? t.name = some t ∧ t.isComposite = true := by
  obtain ⟨htype, hcomposite⟩ := Option.filter_eq_some_iff.mp h
  obtain ⟨ref, _, hbase⟩ := Option.bind_eq_some_iff.mp htype
  refine ⟨?_, hcomposite⟩
  rw [TypeSystem.name_of_type? hbase]
  exact hbase

theorem exists_field?_selectedField {name : Option String} {f : FieldDef}
    (h : p.selectedField name = some f) : ∃ t text, p.schema.field? t text = some f := by
  obtain ⟨t, _, hfield⟩ := Option.bind_eq_some_iff.mp h
  obtain ⟨text, _, hfield⟩ := Option.bind_eq_some_iff.mp hfield
  exact ⟨t.name, text, hfield⟩

/-- An enum value is looked up on the enum that should stand there. -/
theorem exists_enum_of_namedEnumValue {name : Option String} {v : EnumValueDef}
    (h : p.namedEnumValue name = some v) : ∃ text ref t, name = some text ∧
      p.inputType = some ref ∧ p.schema.type? ref.baseName = some t ∧ t.kind = .enum ∧
      t.enumValue? text = some v := by
  obtain ⟨t, ht, hvalue⟩ := Option.bind_eq_some_iff.mp h
  obtain ⟨htype, henum⟩ := Option.filter_eq_some_iff.mp ht
  obtain ⟨ref, href, hbase⟩ := Option.bind_eq_some_iff.mp htype
  obtain ⟨text, htext, hvalue⟩ := Option.bind_eq_some_iff.mp hvalue
  exact ⟨text, ref, t, htext, href, hbase, of_decide_eq_true henum, hvalue⟩

end

section

variable (p : Position) (n : Node)

theorem steps_outputs :
    Steps Construct.pushesOutput p.schema.Receives n p.outputs (p.enter n).outputs := by
  obtain ⟨construct, name, extent⟩ := n
  refine ⟨?_, ?_⟩
  · intro h
    cases construct with
    | field | operationDefinition | inlineFragment | fragmentDefinition => cases h
    | value kind => cases kind <;> rfl
    | _ => rfl
  · intro h
    cases construct with
    | field => exact ⟨_, rfl, fun ref href => receives_asOutput href⟩
    | operationDefinition kind => exact ⟨_, rfl, fun ref href => receives_rootType href⟩
    | inlineFragment condition => exact ⟨_, rfl, fun ref href => receives_asOutput href⟩
    | fragmentDefinition condition => exact ⟨_, rfl, fun ref href => receives_asOutput href⟩
    | _ => cases h

theorem steps_parents :
    Steps Construct.pushesParent (fun t => p.schema.type? t.name = some t ∧ t.isComposite = true) n
      p.parents (p.enter n).parents := by
  obtain ⟨construct, name, extent⟩ := n
  refine ⟨?_, ?_⟩
  · intro h
    cases construct with
    | selectionSet => cases h
    | value kind => cases kind <;> rfl
    | _ => rfl
  · intro h
    cases construct with
    | selectionSet => exact ⟨_, rfl, fun t ht => composite_selectedType ht⟩
    | _ => cases h

theorem steps_inputs :
    Steps Construct.pushesInput p.schema.Sends n p.inputs (p.enter n).inputs := by
  obtain ⟨construct, name, extent⟩ := n
  refine ⟨?_, ?_⟩
  · intro h
    cases construct with
    | variableDefinition | argument | objectField => cases h
    | value kind =>
        cases kind with
        | list => cases h
        | _ => rfl
    | _ => rfl
  · intro h
    cases construct with
    | variableDefinition type => exact ⟨_, rfl, fun ref href => sends_asInput href⟩
    | argument owner => exact ⟨_, rfl, fun ref href => sends_asInput href⟩
    | objectField => exact ⟨_, rfl, fun ref href => sends_asInput href⟩
    | value kind =>
        cases kind with
        | list => exact ⟨_, rfl, fun ref href => sends_asInput href⟩
        | _ => cases h
    | _ => cases h

theorem steps_fields :
    Steps Construct.pushesField (fun f => ∃ t text, p.schema.field? t text = some f) n
      p.fields (p.enter n).fields := by
  obtain ⟨construct, name, extent⟩ := n
  refine ⟨?_, ?_⟩
  · intro h
    cases construct with
    | field => cases h
    | value kind => cases kind <;> rfl
    | _ => rfl
  · intro h
    cases construct with
    | field => exact ⟨_, rfl, fun f hf => exists_field?_selectedField hf⟩
    | _ => cases h

end

end Position

/-! ## Well typed positions -/

/-- What a position holds is right for the nodes that are open. -/
structure WellTyped (schema : TypeSystem) (route : List Node) (p : Position) : Prop where
  /-- The type system stays the same. -/
  schema_eq : p.schema = schema
  /-- Types of operations, fragments and fields can be received. -/
  outputs : Stacked Construct.pushesOutput schema.Receives route p.outputs
  /-- Types that are selected from are the schema's own, and composite. -/
  parents : Stacked Construct.pushesParent
    (fun t => schema.type? t.name = some t ∧ t.isComposite = true) route p.parents
  /-- Types that values should have can be sent. -/
  inputs : Stacked Construct.pushesInput schema.Sends route p.inputs
  /-- Fields are fields of the schema. -/
  fields : Stacked Construct.pushesField (fun f => ∃ t text, schema.field? t text = some f) route
    p.fields
  /-- At a field there is its definition on the type that is selected from. -/
  field : ∀ n, route.getLast? = some n → n.construct = .field →
    p.fieldDef = p.parentType.bind fun parent => n.nameText.bind (schema.field? parent.name)
  /-- At a directive there is its definition. -/
  directive : ∀ n, route.getLast? = some n → n.construct = .directive →
    p.directive = n.nameText.bind schema.directive?
  /-- At an argument of a directive there is its definition on the directive right around. -/
  argumentOfDirective : ∀ n, route.getLast? = some n → n.construct = .argument .directive →
    ∃ owner, route.dropLast.getLast? = some owner ∧ owner.construct = .directive ∧
      p.directive = owner.nameText.bind schema.directive? ∧
      p.argument = n.nameText.bind fun text => p.directive.bind (·.argument? text)
  /-- At an argument of a field there is its definition on the field right around. -/
  argumentOfField : ∀ n, route.getLast? = some n → n.construct = .argument .field →
    ∃ owner, route.dropLast.getLast? = some owner ∧ owner.construct = .field ∧
      p.fieldDef =
        (p.parentType.bind fun parent => owner.nameText.bind (schema.field? parent.name)) ∧
      p.argument = n.nameText.bind fun text => p.fieldDef.bind (·.argument? text)
  /-- An enum value is the value of its name of the enum that should stand there. -/
  enumValue : ∀ v, p.enumValue = some v → ∃ n text ref t,
    route.getLast? = some n ∧ n.construct = .value .enum ∧ n.nameText = some text ∧
      p.inputType = some ref ∧ schema.type? ref.baseName = some t ∧ t.kind = .enum ∧
      t.enumValue? text = some v

theorem wellTyped_start (schema : TypeSystem) : WellTyped schema [] (.start schema) where
  schema_eq := rfl
  outputs := .nil _ _
  parents := .nil _ _
  inputs := .nil _ _
  fields := .nil _ _
  field := nofun
  directive := nofun
  argumentOfDirective := nofun
  argumentOfField := nofun
  enumValue := nofun

namespace WellTyped

variable {schema : TypeSystem} {p : Position}

/-- Entering the document leaves the position where it is. -/
theorem document {n : Node} (hn : n.construct = .document) :
    WellTyped schema [n] ((Position.start schema).enter n) := by
  have h := wellTyped_start schema
  obtain ⟨construct, name, extent⟩ := n
  cases hn
  exact
    { schema_eq := rfl
      outputs := h.outputs.step (Position.steps_outputs (.start schema) _)
      parents := h.parents.step (Position.steps_parents (.start schema) _)
      inputs := h.inputs.step (Position.steps_inputs (.start schema) _)
      fields := h.fields.step (Position.steps_fields (.start schema) _)
      field := by rintro _ ⟨⟩ ⟨⟩
      directive := by rintro _ ⟨⟩ ⟨⟩
      argumentOfDirective := by rintro _ ⟨⟩ ⟨⟩
      argumentOfField := by rintro _ ⟨⟩ ⟨⟩
      enumValue := nofun }

/-- What is right around a node is right inside of it. -/
theorem enter {above : List Node} {outer n : Node} (hn : outer.construct.Holds n.construct)
    (h : WellTyped schema (above ++ [outer]) p) :
    WellTyped schema (above ++ [outer] ++ [n]) (p.enter n) := by
  obtain rfl := h.schema_eq
  have hlast : (above ++ [outer] ++ [n]).getLast? = some n := List.getLast?_concat
  have hlastAround : (above ++ [outer]).getLast? = some outer := List.getLast?_concat
  have hbefore : (above ++ [outer] ++ [n]).dropLast.getLast? = some outer := by
    rw [List.dropLast_concat, hlastAround]
  obtain ⟨construct, name, extent⟩ := n
  obtain ⟨outerConstruct, outerName, outerExtent⟩ := outer
  refine
    { schema_eq := p.schema_enter _
      outputs := h.outputs.step (p.steps_outputs _)
      parents := h.parents.step (p.steps_parents _)
      inputs := h.inputs.step (p.steps_inputs _)
      fields := h.fields.step (p.steps_fields _)
      field := ?field
      directive := ?directive
      argumentOfDirective := ?argumentOfDirective
      argumentOfField := ?argumentOfField
      enumValue := ?enumValue }
  case field =>
    intro m hm hfield
    obtain rfl := Option.some.inj (hlast.symm.trans hm)
    cases hfield
    rfl
  case directive =>
    intro m hm hdirective
    obtain rfl := Option.some.inj (hlast.symm.trans hm)
    cases hdirective
    rfl
  case argumentOfDirective =>
    intro m hm hargument
    obtain rfl := Option.some.inj (hlast.symm.trans hm)
    cases hargument
    cases hn
    exact ⟨_, hbefore, rfl, h.directive _ hlastAround rfl, rfl⟩
  case argumentOfField =>
    intro m hm hargument
    obtain rfl := Option.some.inj (hlast.symm.trans hm)
    cases hargument
    cases hn
    exact ⟨_, hbefore, rfl, h.field _ hlastAround rfl, rfl⟩
  case enumValue =>
    intro v hv
    by_cases hc : construct = .value .enum
    · subst hc
      obtain ⟨text, ref, t, htext, href, htype, henum, hvalue⟩ := Position.exists_enum_of_namedEnumValue hv
      exact ⟨_, text, ref, t, hlast, rfl, htext, href, htype, henum, hvalue⟩
    · -- The value would have been there before, and nothing stands inside of one.
      rw [Position.enumValue_enter hc] at hv
      obtain ⟨m, _, _, _, hm, hconstruct, _⟩ := h.enumValue v hv
      obtain rfl := Option.some.inj (hlastAround.symm.trans hm)
      exact absurd hconstruct (Construct.not_enum_of_holds hn)

end WellTyped

/-- Positions along routes are well typed. -/
theorem Position.wellTyped_along (schema : TypeSystem) {route : List Node} (h : Nested route) :
    WellTyped schema route (.along schema route) := by
  induction h with
  | outside => exact wellTyped_start schema
  | document hn => exact .document hn
  | inside _ hn ih =>
      rw [Position.along_snoc]
      exact ih.enter hn

/-! ## Walks -/

/-- A position that is shown at an event of a walk is well typed for the nodes on the way
down to the event's own node. -/
def ShownTyped (schema : TypeSystem) (d : Document) (h : Hearing Position) : Prop :=
  ∃ route, (h.event, route) ∈ d.tree.routes [] ∧ route.getLast? = some h.event.node ∧
    WellTyped schema route h.view

theorem Document.shownTyped_of_mem_hearings (schema : TypeSystem) (d : Document) :
    ∀ h ∈ d.tree.hearings .position (.start schema), ShownTyped schema d h := by
  intro h hh
  rw [d.hearings_tree] at hh
  obtain ⟨⟨event, route⟩, hroute, rfl⟩ := List.mem_map.mp hh
  obtain ⟨hnested, hlast⟩ := Tree.nested_of_mem_routes d.tree d.continues _ hroute
  exact ⟨route, hroute, hlast, Position.wellTyped_along schema hnested⟩

/-- Positions are well typed wherever a walk through a document brings them. -/
structure PositionsTyped (schema : TypeSystem) (d : Document) : Prop where
  /-- At each stop of each traveller, whatever it passes. -/
  stops : ∀ {σ : Type u} (v : Traveller σ) (s : σ),
    ∀ p ∈ (d.tree.walk v.visitor (.start schema s)).stops, WellTyped schema p.opened p.position
  /-- In runs of rules, wherever a rule is shown a position, whatever the rules skip. -/
  shown : ∀ (rules : List (Rule Position)) p,
    jointRun .position (.start schema) (rules.map Rule.recording) d.tree = .ok p →
    List.Forall₂
      (fun r a => ∃ state log, a = ⟨r.recording, (state, log), none⟩ ∧
        ∀ h ∈ log, ShownTyped schema d h)
      rules p.rules

/-- The positions of all walks through a document are well typed, whatever the type system
and the document are. -/
theorem Document.positions_wellTyped (schema : TypeSystem) (d : Document) :
    PositionsTyped.{u} schema d where
  stops v s p hp := by
    have hroute := d.stops_onRoute schema v s p hp
    rw [hroute.along]
    exact Position.wellTyped_along schema hroute.nested
  shown rules p hp := by
    refine (toldAsAlone_each (d.restores schema) hp).imp ?_
    rintro r a ⟨state, log, halone⟩
    refine ⟨state, log, halone.result, ?_⟩
    intro h hh
    rw [halone.record] at hh
    exact d.shownTyped_of_mem_hearings schema h (((Listener.ofRule r).heard_sublist _).subset hh)

end GraphLint
