import GraphLint.Proofs.Document.Nesting

/-!
# Positions are moved back

A position has four stacks and three slots.  A stack gets back what it was by a
pop; a slot does not, for leaving a node empties the slot whatever it held
before.  So leaving takes back entering only if the slot was empty
(`Position.leave_enter`).

It always was, because the constructs that fill a slot do not stand inside of
each other.  `Position.Tidy` says where a slot can be filled; entering a node
preserves it, and `Document.restores` follows: on a walk through any document
every position comes back.
-/

set_option autoImplicit false

namespace GraphLint

/-! ## Where slots are filled -/

namespace Construct

/-- Constructs that can stand inside of the use of a directive, the use itself
among them. -/
def inDirective : Construct → Bool
  | .directive | .argument .directive | .value _ | .objectField => true
  | _ => false

/-- Constructs that can stand inside of an argument, the argument itself among
them. -/
def inArgument : Construct → Bool
  | .argument _ | .value _ | .objectField => true
  | _ => false

theorem inDirective_of_holds {c d : Construct} (h : c.Holds d) (hc : c.inDirective = true) :
    d.inDirective = true := by
  cases h <;> first | rfl | cases hc

theorem inArgument_of_holds {c d : Construct} (h : c.Holds d) (hc : c.inArgument = true) :
    d.inArgument = true := by
  cases h <;> first | rfl | cases hc

theorem not_inDirective_of_holds_directive {c : Construct} (h : c.Holds .directive) :
    c.inDirective = false := by
  cases h <;> rfl

theorem not_inArgument_of_holds_argument {c : Construct} {owner : ArgumentOwner}
    (h : c.Holds (.argument owner)) : c.inArgument = false := by
  cases h <;> rfl

theorem not_enum_of_holds {c d : Construct} (h : c.Holds d) : c ≠ .value .enum := by
  rintro rfl
  cases h

end Construct

namespace Position

/-! ## What entering a node leaves alone -/

theorem directive_enter {p : Position} {n : Node} (h : n.construct ≠ .directive) :
    (p.enter n).directive = p.directive := by
  unfold enter
  split <;> first | rfl | exact absurd ‹_› h

theorem argument_enter {p : Position} {n : Node} (h : ∀ owner, n.construct ≠ .argument owner) :
    (p.enter n).argument = p.argument := by
  unfold enter
  split <;> first | rfl | exact absurd ‹_› (h _)

theorem enumValue_enter {p : Position} {n : Node} (h : n.construct ≠ .value .enum) :
    (p.enter n).enumValue = p.enumValue := by
  unfold enter
  split <;> first | rfl | exact absurd ‹_› h

/-- No step goes to another type system. -/
@[simp] theorem schema_enter (p : Position) (n : Node) : (p.enter n).schema = p.schema := by
  unfold enter
  split <;> rfl

/-! ## Leaving takes back entering -/

/-- The slot that a node fills is empty. -/
def SlotFree (p : Position) (n : Node) : Prop :=
  match n.construct with
  | .directive => p.directive = none
  | .argument _ => p.argument = none
  | .value .enum => p.enumValue = none
  | _ => True

/-- Stacks are popped; slots are emptied, so they have to be empty before. -/
theorem leave_enter {p : Position} {n : Node} (h : p.SlotFree n) : (p.enter n).leave n = p := by
  obtain ⟨construct, name, extent⟩ := n
  obtain ⟨schema, outputs, parents, inputs, fields, directive, argument, enumValue⟩ := p
  unfold SlotFree at h
  cases construct with
  | directive =>
      cases h
      rfl
  | argument owner =>
      cases h
      rfl
  | value kind =>
      cases kind with
      | enum =>
          cases h
          rfl
      | _ => rfl
  | _ => rfl

/-- Slots are filled only where what fills them encloses the place. -/
structure Tidy (c : Construct) (p : Position) : Prop where
  /-- A directive is at hand only inside of the use of a directive. -/
  directive : p.directive ≠ none → c.inDirective = true
  /-- An argument is at hand only inside of an argument. -/
  argument : p.argument ≠ none → c.inArgument = true
  /-- An enum value is at hand only at an enum value. -/
  enumValue : p.enumValue ≠ none → c = .value .enum

theorem tidy_start (schema : TypeSystem) : (start schema).Tidy .document :=
  ⟨fun h => absurd rfl h, fun h => absurd rfl h, fun h => absurd rfl h⟩

theorem Tidy.enter {c : Construct} {n : Node} {p : Position} (h : c.Holds n.construct)
    (hp : p.Tidy c) : (p.enter n).Tidy n.construct := by
  refine ⟨?_, ?_, ?_⟩
  · intro hfilled
    by_cases hn : n.construct = .directive
    · rw [hn]
      rfl
    · rw [directive_enter hn] at hfilled
      exact Construct.inDirective_of_holds h (hp.directive hfilled)
  · intro hfilled
    by_cases hn : ∃ owner, n.construct = .argument owner
    · obtain ⟨owner, hn⟩ := hn
      rw [hn]
      rfl
    · have hne : ∀ owner, n.construct ≠ .argument owner := fun owner ho => hn ⟨owner, ho⟩
      rw [argument_enter hne] at hfilled
      exact Construct.inArgument_of_holds h (hp.argument hfilled)
  · intro hfilled
    by_cases hn : n.construct = .value .enum
    · exact hn
    · rw [enumValue_enter hn] at hfilled
      exact absurd (hp.enumValue hfilled) (Construct.not_enum_of_holds h)

/-- Where slots are tidy, the slot that a node fills is empty. -/
theorem Tidy.slotFree {c : Construct} {n : Node} {p : Position} (h : c.Holds n.construct)
    (hp : p.Tidy c) : p.SlotFree n := by
  unfold SlotFree
  split
  · next hn =>
      rw [hn] at h
      by_contra hfilled
      have hc := hp.directive hfilled
      rw [Construct.not_inDirective_of_holds_directive h] at hc
      cases hc
  · next owner hn =>
      rw [hn] at h
      by_contra hfilled
      have hc := hp.argument hfilled
      rw [Construct.not_inArgument_of_holds_argument h] at hc
      cases hc
  · next hn =>
      by_contra hfilled
      exact Construct.not_enum_of_holds h (hp.enumValue hfilled)
  · trivial

end Position

/-- On a walk through a document every position comes back. -/
theorem Document.restores (schema : TypeSystem) (d : Document) :
    Tracker.position.Restores (.start schema) d.tree := by
  have step : ∀ (c : Construct) (n : Node) (p : Position), c.Holds n.construct → p.Tidy c →
      (p.enter n).Tidy n.construct :=
    fun _ _ _ h hp => hp.enter h
  have back : ∀ (c : Construct) (n : Node) (p : Position), c.Holds n.construct → p.Tidy c →
      (p.enter n).leave n = p :=
    fun _ _ _ h hp => Position.leave_enter (hp.slotFree h)
  unfold Document.tree
  rw [Tracker.Restores]
  exact ⟨rfl, Tree.restoresAll_of_fitAll step back _ d.fits (Position.tidy_start schema)⟩

end GraphLint
