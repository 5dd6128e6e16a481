import GraphLint.Proofs.Document.Reading
import GraphLint.Proofs.Names.Declarations
import GraphLint.Source

/-!
# Where declared names stand

The names that a text declares are tokens of their own, and stand in the order of its
declarations.  So no two complaints about a text end in the same name.
-/

set_option autoImplicit false

namespace GraphLint

/-- Number of the token that a definition declares, if it declares something. -/
def Definition.declaredTokens (d : Definition) : List Nat :=
  d.declaration?.toList.map (·.name.token)

namespace Grammar

open Production

theorem typeDefinition_writes (kind : TypeKind) :
    (typeDefinition kind).Writes Definition.declaredTokens := by
  refine .behind here fun start => .behind description fun about => .behind bump fun _ => ?_
  refine .named ?_
  intro n c
  cases n <;> rfl

theorem directiveDefinition_writes : directiveDefinition.Writes Definition.declaredTokens := by
  refine .behind here fun start => .behind description fun about => .behind bump fun _ => ?_
  refine .behind (expect .atSign) fun _ => .named ?_
  intro n c
  -- The name is what it is, whether `repeatable` and `on` stand behind it or not.
  simp only [run_bind]
  split <;> simp only [run_bind] <;> split <;> cases n <;> rfl

/-! ### Definitions that declare nothing -/

theorem typeExtension_undeclared (kind : TypeKind) :
    (typeExtension kind).Gives (·.subject? = none) := by
  refine .behind here fun start => .behind bump fun _ => .behind bump fun _ => ?_
  refine .behind name fun n => .behind here fun before => .behind (typeBody kind) fun added => ?_
  refine .behind here fun stop => ?_
  split
  · exact fun _ => rfl
  · exact fun _ => rfl

/-- Of all that definitions are read by, only the definitions of types and directives
declare something. -/
theorem undeclared_of_defines {p : Production Definition} (h : Defines p) :
    (∃ kind, p = typeDefinition kind) ∨ p = directiveDefinition ∨
      p.Gives (·.subject? = none) := by
  cases h with
  | shorthand => exact .inr (.inr fun _ => rfl)
  | operation kind => exact .inr (.inr (operation_gives kind fun _ _ => rfl))
  | fragment => exact .inr (.inr fun _ => rfl)
  | schema => exact .inr (.inr (schemaDefinition_gives fun _ => rfl))
  | schemaExtension => exact .inr (.inr (schemaExtension_gives fun _ => rfl))
  | type kind => exact .inl ⟨kind, rfl⟩
  | typeExtension kind => exact .inr (.inr (typeExtension_undeclared kind))
  | directive => exact .inr (.inl rfl)

/-! ### Documents -/

/-- Whatever definition begins here, what it declares is put in. -/
theorem definition_writes :
    definition.Writes fun d? => (d?.map Definition.declaredTokens).getD [] := by
  refine definition_of_defines (Q := (·.Writes _)) .behind (.silent fun _ => rfl) ?_
  intro p hp
  rcases undeclared_of_defines hp with ⟨kind, rfl⟩ | rfl | hnothing
  · exact .map (typeDefinition_writes kind) fun _ => rfl
  · exact .map directiveDefinition_writes fun _ => rfl
  · have hsilent : p.Writes Definition.declaredTokens := .silent fun c =>
      congrArg (·.toList.map (·.name.token)) (Definition.declaration?_eq_none (hnothing c))
    exact .map hsilent fun _ => rfl

/-- The tokens that a list of pieces of a document declares, where some pieces are no
definitions. -/
theorem declarations_tokens (extent : Extent) (pieces : List (Option Definition)) :
    (Document.declarations ⟨extent, pieces.filterMap id⟩).map (·.name.token) =
      pieces.flatMap fun d? => (d?.map Definition.declaredTokens).getD [] := by
  induction pieces with
  | nil => rfl
  | cons d? pieces ih =>
      rw [List.flatMap_cons, ← ih]
      cases d? with
      | none => rfl
      | some d =>
          simp only [Document.declarations, List.filterMap_cons, id_eq, Option.map_some,
            Option.getD_some, Definition.declaredTokens]
          cases d.declaration? <;> rfl

theorem document_writes : document.Writes fun d => d.declarations.map (·.name.token) := by
  have hdefinitions : (do
      let pieces ← many (fun _ => true) definition
      return ⟨← extentFrom 0, pieces.filterMap id⟩ : Production Document).Writes
        fun d => d.declarations.map (·.name.token) := by
    intro c
    show Ascend _ ((Document.declarations ⟨_, _⟩).map (·.name.token)) _
    rw [declarations_tokens]
    exact definition_writes.many c
  refine .behind peek fun first => ?_
  split
  · exact .behind (fault _) fun _ => hdefinitions
  · exact hdefinitions

end Grammar

/-- The names that a text declares stand in the order of its declarations. -/
theorem Source.declarations_ordered (text : String) :
    (Source.read text).document.declarations.Pairwise (·.name.token < ·.name.token) :=
  List.pairwise_map.mp (Grammar.document_writes _).order

end GraphLint
