import GraphLint.Proofs.Document.Reading
import GraphLint.Proofs.TypeSystem.Stating
import GraphLint.Source

/-!
# Texts without faults leave nothing out

Where the grammar asks for a name or for a type and there is none, a fault is noted.  So
in a text without faults every definition states what it is there to state
(`Source.definitions_stated`): it has its name, and so have its members, each with the
type that belongs to it.

There is one lemma for each production of the grammar that a name or a type is read in.
-/

set_option autoImplicit false

namespace GraphLint.Grammar

open Production

/-! ## Types -/

/-- A type is complete if the types of list items are. -/
theorem typeSyntaxWith_refers {item : Production TypeSyntax}
    (h : item.Ensures fun t => ∃ ref, t.Refers ref) :
    (typeSyntaxWith item).Ensures fun t => ∃ ref, t.Refers ref := by
  refine .behind peek fun next => ?_
  split
  · refine .behind bump fun _ => .behind (eat .bang) fun isBanged => .silent fun _ => ?_
    cases isBanged with
    | true => exact ⟨_, .nonNullNamed _⟩
    | false => exact ⟨_, .named _⟩
  · refine .behind bump fun _ => .bind h ?_
    rintro t ⟨ref, href⟩
    refine .behind (expect _) fun _ => .behind (eat .bang) fun isBanged => .silent fun _ => ?_
    cases isBanged with
    | true => exact ⟨_, .nonNullList href⟩
    | false => exact ⟨_, .list href⟩
  · exact .fault _

theorem typeSyntax_refers (room : Nat) :
    (typeSyntax room).Ensures fun t => ∃ ref, t.Refers ref := by
  induction room with
  | zero => exact typeSyntaxWith_refers (.abandon _)
  | succ room ih => exact typeSyntaxWith_refers ih

theorem typed_refers {α : Type} (rest : Production α) (nothing : α) :
    (typed rest nothing).Ensures fun x => ∃ ref, x.1.Refers ref := by
  refine .behind (eat .colon) fun hasColon => ?_
  split
  · refine .behind peek fun next => ?_
    split
    · exact .bind (typeSyntax_refers _) fun t ht => .behind rest fun _ => .silent fun _ => ht
    · exact .bind (typeSyntax_refers _) fun t ht => .behind rest fun _ => .silent fun _ => ht
    · exact .fault _
  · exact .fault _

/-! ## Members -/

theorem members_ensures {α : Type} {opening closing : Punctuator} {expected : String}
    {member : Production α} {good : α → Prop} (h : member.Ensures good) :
    (members opening closing expected member).Ensures fun xs => ∀ x ∈ xs, good x := by
  refine .behind (eat opening) fun isOpen => ?_
  split
  · refine .bind h.many fun found hfound => ?_
    split
    · exact .fault _
    · exact .behind (expect closing) fun _ => .silent fun _ => hfound
  · exact .silent fun _ => nofun

theorem inputValueDefinition_states :
    inputValueDefinition.Ensures fun d => ∃ i, d.States i := by
  refine .behind here fun start => .behind description fun about => .bind .name ?_
  rintro _ ⟨n, rfl⟩
  refine .bind (typed_refers _ _) ?_
  rintro ⟨t, given, uses⟩ ⟨ref, href⟩
  exact .silent fun _ => InputValueDefinition.exists_states rfl href

theorem argumentDefinitions_states :
    argumentDefinitions.Ensures fun ds => ∀ d ∈ ds, ∃ i, d.States i :=
  members_ensures inputValueDefinition_states

theorem fieldDefinition_states : fieldDefinition.Ensures fun d => ∃ f, d.States f := by
  refine .behind here fun start => .behind description fun about => .bind .name ?_
  rintro _ ⟨n, rfl⟩
  refine .bind argumentDefinitions_states fun takes htakes => .bind (typed_refers _ _) ?_
  rintro ⟨t, uses⟩ ⟨ref, href⟩
  exact .silent fun _ => FieldDefinition.exists_states rfl href htakes

theorem enumValueDefinition_states : enumValueDefinition.Ensures fun d => ∃ v, d.States v := by
  refine .behind here fun start => .behind description fun about => ?_
  refine .behind (seesWord _) fun _ => .behind (seesWord _) fun _ => .behind (seesWord _) fun _ => ?_
  split
  · exact .fault _
  · refine .bind .name ?_
    rintro _ ⟨n, rfl⟩
    exact .silent fun _ => EnumValueDefinition.exists_states rfl

theorem typeBody_states (kind : TypeKind) :
    (typeBody kind).Ensures fun x => ∃ kind own, x.2.States kind own := by
  have hfields : fieldDefinitions.Ensures fun ds => ∀ d ∈ ds, ∃ f, d.States f :=
    members_ensures fieldDefinition_states
  cases kind with
  | object =>
      refine .behind interfaces fun _ => .behind constantDirectives fun _ => .bind hfields ?_
      intro written hwritten
      obtain ⟨fields, hstated⟩ := exists_forall₂ hwritten
      exact .silent fun _ => ⟨_, _, .object hstated⟩
  | interface =>
      refine .behind interfaces fun _ => .behind constantDirectives fun _ => .bind hfields ?_
      intro written hwritten
      obtain ⟨fields, hstated⟩ := exists_forall₂ hwritten
      exact .silent fun _ => ⟨_, _, .interface hstated⟩
  | union =>
      refine .behind constantDirectives fun _ => .behind unionMembers fun _ => ?_
      exact .silent fun _ => ⟨_, _, .union _⟩
  | enum =>
      refine .behind constantDirectives fun _ => ?_
      refine .bind (members_ensures enumValueDefinition_states) fun written hwritten => ?_
      obtain ⟨values, hstated⟩ := exists_forall₂ hwritten
      exact .silent fun _ => ⟨_, _, .enum hstated⟩
  | scalar => exact .behind constantDirectives fun _ => .silent fun _ => ⟨_, _, .scalar⟩
  | inputObject =>
      refine .behind constantDirectives fun _ => ?_
      refine .bind (members_ensures inputValueDefinition_states) fun written hwritten => ?_
      obtain ⟨fields, hstated⟩ := exists_forall₂ hwritten
      exact .silent fun _ => ⟨_, _, .inputObject hstated⟩

/-! ## Definitions -/

theorem typeDefinition_stated (kind : TypeKind) :
    (typeDefinition kind).Ensures Definition.IsStated := by
  refine .behind here fun start => .behind description fun about => .behind bump fun _ => ?_
  refine .bind .name ?_
  rintro _ ⟨n, rfl⟩
  refine .bind (typeBody_states kind) ?_
  rintro ⟨uses, body⟩ ⟨_, own, hbody⟩
  exact .silent fun _ => TypeDefinition.exists_states rfl hbody

theorem typeExtension_stated (kind : TypeKind) :
    (typeExtension kind).Ensures Definition.IsStated := by
  refine .behind here fun start => .behind bump fun _ => .behind bump fun _ => .bind .name ?_
  rintro _ ⟨n, rfl⟩
  refine .behind here fun before => .bind (typeBody_states kind) ?_
  rintro ⟨uses, body⟩ ⟨_, own, hbody⟩
  refine .behind here fun stop => ?_
  split
  · exact .fault _
  · exact .silent fun _ => TypeDefinition.exists_states rfl hbody

theorem directiveDefinition_stated : directiveDefinition.Ensures Definition.IsStated := by
  refine .behind here fun start => .behind description fun about => .behind bump fun _ => ?_
  refine .behind (expect .atSign) fun _ => .bind .name ?_
  rintro _ ⟨n, rfl⟩
  refine .bind argumentDefinitions_states fun takes htakes => ?_
  refine .silent ?_
  intro c
  -- Whether `repeatable` and `on` stand there makes no difference to name and arguments.
  simp only [run_bind]
  split <;> simp only [run_bind] <;> split <;>
    exact DirectiveDefinition.exists_states rfl htakes

theorem stated_of_defines {p : Production Definition} (h : Defines p) :
    p.Ensures Definition.IsStated := by
  cases h with
  | shorthand => exact .silent fun _ => trivial
  | operation kind => exact .silent (operation_gives kind fun _ _ => trivial)
  | fragment => exact .silent fun _ => trivial
  | schema => exact .silent (schemaDefinition_gives fun _ => trivial)
  | schemaExtension => exact .silent (schemaExtension_gives fun _ => trivial)
  | type kind => exact typeDefinition_stated kind
  | typeExtension kind => exact typeExtension_stated kind
  | directive => exact directiveDefinition_stated

/-- Whatever definition begins here, it states something. -/
theorem definition_stated : definition.Ensures fun d? => ∀ d, d? = some d → d.IsStated := by
  refine definition_of_defines (Q := (·.Ensures _)) .behind (.silent fun _ _ => nofun) ?_
  intro p hp
  refine .map (stated_of_defines hp) ?_
  rintro d hd _ ⟨⟩
  exact hd

theorem document_stated : document.Ensures fun d => ∀ x ∈ d.definitions, x.IsStated := by
  refine .behind peek fun first => ?_
  split
  · exact .fault _
  · intro c hc hfaults x hx
    obtain ⟨d?, hpiece, hd⟩ := List.mem_filterMap.mp hx
    exact definition_stated.many c hc hfaults d? hpiece x hd

end GraphLint.Grammar

namespace GraphLint

/-- All definitions of a text without faults state something. -/
theorem Source.definitions_stated {text : String} (h : (Source.read text).isWellFormed = true) :
    ∀ d ∈ (Source.read text).document.definitions, d.IsStated := by
  have hfaults := List.append_eq_nil_iff.mp (List.isEmpty_iff.mp h)
  have hnone := List.reverse_eq_nil_iff.mp (List.map_eq_nil_iff.mp hfaults.2)
  exact Grammar.document_stated (.start _) rfl hnone

end GraphLint
