import GraphLint.Proofs.Deprecation.Uses
import GraphLint.Proofs.Position.Coherence
import GraphLint.Proofs.Run.Joint

/-!
# What the rule against deprecated elements makes of a walk

The rule reads the element that is used at a node off a position, and faults if
the position knows the element without what it belongs to.  At a coherent
position it does not fault, and it objects to the element that
`Position.element` names.  It skips nothing and remembers nothing, so what it
reports of a walk is what it reports of one hearing after another.
-/

set_option autoImplicit false

namespace GraphLint

namespace Position

/-- What an argument is given to, as far as a position tells.  Inside of a
directive it is the directive. -/
def owner (p : Position) : Option Owner :=
  match p.directive with
  | some d => some (.directive d)
  | none => p.parentType.bind fun t => p.fieldDef.map (.field t)

/-- The element that is used at a node, read off the position inside of it. -/
def element (p : Position) (n : Node) : Option Element :=
  match n.construct with
  | .field => p.parentType.bind fun t => p.fieldDef.map (.field t)
  | .argument _ => p.owner.bind fun o => p.argument.map (.argument o)
  | .objectField =>
    ((p.typeOf p.parentInputType).filter (·.kind = .inputObject)).bind fun t =>
      n.nameText.bind fun name => (t.inputField? name).map (.inputField t)
  | .value .enum => (p.typeOf p.inputType).bind fun t => p.enumValue.map (.enumValue t)
  | _ => none

variable {p : Position}

theorem deprecated_field (h : ∀ f, p.fieldDef = some f → ∃ t, p.parentType = some t) :
    Deprecated.field p =
      .ok ((p.parentType.bind fun t => p.fieldDef.map (Element.field t)).bind
        Element.objection?) := by
  unfold Deprecated.field
  cases hf : p.fieldDef with
  | none => cases p.parentType <;> rfl
  | some f =>
      obtain ⟨t, ht⟩ := h f hf
      rw [ht]
      show _ = Except.ok (Element.field t f).objection?
      cases hreason : f.deprecation with
      | none =>
          simp only [hreason]
          rw [Element.objection?_eq_none (.field t f) hreason]
      | some reason =>
          simp only [hreason]
          rw [Element.objection?_eq_some (.field t f) hreason]
          rfl

theorem deprecated_argument
    (h : ∀ a, p.argument = some a →
      (∃ d, p.directive = some d) ∨ ∃ t f, p.parentType = some t ∧ p.fieldDef = some f) :
    Deprecated.argument p =
      .ok ((p.owner.bind fun o => p.argument.map (Element.argument o)).bind
        Element.objection?) := by
  unfold Deprecated.argument owner
  cases ha : p.argument with
  | none =>
      cases p.directive with
      | some d => rfl
      | none => cases p.parentType <;> cases p.fieldDef <;> rfl
  | some a =>
      cases hd : p.directive with
      | some d =>
          show _ = Except.ok (Element.argument (.directive d) a).objection?
          cases hreason : a.deprecation with
          | none =>
              simp only [hreason]
              rw [Element.objection?_eq_none (.argument (.directive d) a) hreason]
          | some reason =>
              simp only [hreason]
              rw [Element.objection?_eq_some (.argument (.directive d) a) hreason]
              rfl
      | none =>
          rcases h a ha with ⟨d, hd'⟩ | ⟨t, f, ht, hf⟩
          · rw [hd] at hd'
            cases hd'
          · rw [ht, hf]
            show _ = Except.ok (Element.argument (.field t f) a).objection?
            cases hreason : a.deprecation with
            | none =>
                simp only [hreason]
                rw [Element.objection?_eq_none (.argument (.field t f) a) hreason]
            | some reason =>
                simp only [hreason]
                rw [Element.objection?_eq_some (.argument (.field t f) a) hreason]
                rfl

theorem deprecated_inputField (name : Option String) :
    Deprecated.inputField p name =
      (((p.typeOf p.parentInputType).filter (·.kind = .inputObject)).bind fun t =>
        name.bind fun n => (t.inputField? n).map (Element.inputField t)).bind
          Element.objection? := by
  unfold Deprecated.inputField
  cases (p.typeOf p.parentInputType).filter (·.kind = .inputObject) with
  | none => rfl
  | some t =>
      cases name with
      | none => rfl
      | some n =>
          show (t.inputField? n).bind _ = ((t.inputField? n).map _).bind _
          cases t.inputField? n with
          | none => rfl
          | some f =>
              show f.deprecation.bind _ = (Element.inputField t f).objection?
              cases hreason : f.deprecation with
              | none => rw [Element.objection?_eq_none (.inputField t f) hreason, Option.bind_none]
              | some reason =>
                  rw [Element.objection?_eq_some (.inputField t f) hreason, Option.bind_some]
                  rfl

theorem deprecated_enumValue
    (h : ∀ v, p.enumValue = some v → ∃ t, p.typeOf p.inputType = some t) :
    Deprecated.enumValue p =
      .ok (((p.typeOf p.inputType).bind fun t => p.enumValue.map (Element.enumValue t)).bind
        Element.objection?) := by
  unfold Deprecated.enumValue
  cases hv : p.enumValue with
  | none => cases p.typeOf p.inputType <;> rfl
  | some v =>
      obtain ⟨t, ht⟩ := h v hv
      rw [ht]
      show _ = Except.ok (Element.enumValue t v).objection?
      cases hreason : v.deprecation with
      | none =>
          simp only [hreason]
          rw [Element.objection?_eq_none (.enumValue t v) hreason]
      | some reason =>
          simp only [hreason]
          rw [Element.objection?_eq_some (.enumValue t v) hreason]
          rfl

/-- At a coherent position the rule objects to the element that is used. -/
theorem atNode_of_coherent {n : Node} (h : p.Coherent n.construct) :
    Deprecated.atNode p n = .ok ((p.element n).bind Element.objection?) := by
  obtain ⟨construct, name, extent⟩ := n
  cases construct with
  | field => exact deprecated_field (h.field rfl)
  | argument owner => exact deprecated_argument (h.argument owner rfl)
  | objectField => exact congrArg Except.ok (deprecated_inputField _)
  | value kind =>
      cases kind with
      | enum => exact deprecated_enumValue (h.enumValue rfl)
      | _ => rfl
  | _ => rfl

/-- A position that no walk leads to: a deprecated field is at hand, but no type. -/
example (schema : TypeSystem) :
    Deprecated.field
        { start schema with fields := [some ⟨"old", .named "T", [], none, some "Use new"⟩] } =
      .error (.fieldWithoutParent "old") := rfl

end Position

/-! ## Hearing by hearing -/

/-- Constructs that use an element of a type system. -/
def Construct.isUse : Construct → Bool
  | .field | .argument _ | .objectField | .value .enum => true
  | _ => false

theorem Position.element_eq_none {p : Position} {n : Node} (h : n.construct.isUse = false) :
    p.element n = none := by
  obtain ⟨construct, name, extent⟩ := n
  cases construct with
  | field => cases h
  | argument owner => cases h
  | objectField => cases h
  | value kind =>
      cases kind with
      | enum => cases h
      | _ => rfl
  | _ => rfl

/-- What is used at the node that a hearing tells of. -/
def Hearing.use? (h : Hearing Position) : Option Use :=
  match h.event with
  | .enter n => if n.construct.isUse then some ⟨n.culprit, h.view.element n⟩ else none
  | .leave _ => none

/-- The rule answers an entered node with what is wrong with the element. -/
theorem enter_noDeprecated {p : Position} {n : Node} (h : p.Coherent n.construct) :
    noDeprecated.enter p n noDeprecated.start =
      .ok ⟨noDeprecated.start, ((p.element n).bind Element.objection?).toList.map (⟨·, [n.culprit]⟩),
        .descend⟩ := by
  have hatNode := Position.atNode_of_coherent h
  unfold noDeprecated
  simp only [hatNode]
  rfl

/-- What the rule says at a hearing. -/
theorem hear_noDeprecated {h : Hearing Position} (hc : h.view.Coherent h.event.node.construct) :
    ∃ reports, (Listener.ofRule noDeprecated).hear h = .ok (.ofRule noDeprecated, reports) ∧
      reports.map noDeprecated.stamp = (h.use?.bind Use.warning?).toList := by
  obtain ⟨event, p⟩ := h
  cases event with
  | leave n => exact ⟨[], rfl, rfl⟩
  | enter n =>
      refine ⟨((p.element n).bind Element.objection?).toList.map (⟨·, [n.culprit]⟩), ?_, ?_⟩
      · have henter : noDeprecated.enter p n noDeprecated.start = _ := enter_noDeprecated hc
        simp only [Listener.ofRule, Listener.hear]
        rw [henter]
      · unfold Hearing.use?
        show _ = ((if n.construct.isUse then some (⟨n.culprit, p.element n⟩ : Use) else none).bind
          Use.warning?).toList
        cases huse : n.construct.isUse with
        | false =>
            rw [Position.element_eq_none huse]
            rfl
        | true =>
            show _ = (((p.element n).bind Element.objection?).map _).toList
            cases (p.element n).bind Element.objection? <;> rfl

/-- What the rule says of all there is to hear: it warns of what is used, one use
after another, and never faults. -/
theorem hearAll_noDeprecated {hs : List (Hearing Position)}
    (hc : ∀ h ∈ hs, h.view.Coherent h.event.node.construct) :
    (Audience.ofRules [noDeprecated]).hearAll hs =
      .ok ((Audience.ofRules [noDeprecated]).after
        ((hs.filterMap Hearing.use?).filterMap Use.warning?)) := by
  induction hs with
  | nil => rfl
  | cons h hs ih =>
      rw [List.forall_mem_cons] at hc
      obtain ⟨hfirst, hrest⟩ := hc
      obtain ⟨reports, hreports, hstamped⟩ := hear_noDeprecated hfirst
      have hsplit : ((h :: hs).filterMap Hearing.use?).filterMap Use.warning? =
          (h.use?.bind Use.warning?).toList ++
            (hs.filterMap Hearing.use?).filterMap Use.warning? := by
        rw [List.filterMap_filterMap, List.filterMap_filterMap, List.filterMap_cons]
        cases h.use?.bind Use.warning? <;> rfl
      rw [Audience.hearAll_cons]
      show ((Audience.alone (.ofRule noDeprecated)).hear h).bind _ = _
      rw [Audience.hear_alone, hreports]
      show ((Audience.ofRules [noDeprecated]).after (reports.map noDeprecated.stamp)).hearAll hs = _
      rw [Audience.hearAll_after, ih hrest, hstamped, hsplit]
      show Except.ok _ = Except.ok _
      simp only [Audience.after, List.append_assoc]

end GraphLint
