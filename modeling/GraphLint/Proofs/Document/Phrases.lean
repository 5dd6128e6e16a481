import GraphLint.Walk

/-!
# What a document consists of

The tree of a document is made for walks.  A document itself consists of phrases: it has
definitions, a definition has directives, a directive has arguments, and so on.
`Phrase.parts` lists, in the order of the text, what a phrase consists of, and
`Phrase.Leads` goes down from a phrase to what it consists of, to what that consists of,
and so on.

Where a text leaves out a value or a selection set, the phrase for it has no node.
-/

set_option autoImplicit false

namespace GraphLint

/-- A construct that a document may have in it, as it was read. -/
inductive Phrase
  | document (d : Document)
  | definition (d : Definition)
  | variableDefinition (d : VariableDefinition)
  | selectionSet (s : SelectionSet)
  | selection (s : Selection)
  | directive (d : Directive)
  | argument (owner : ArgumentOwner) (a : Argument)
  | value (v : Value)
  | objectField (f : ObjectField)
  | fieldDefinition (d : FieldDefinition)
  | inputValueDefinition (d : InputValueDefinition)
  | enumValueDefinition (d : EnumValueDefinition)

theorem Tree.nodesAll_append (ts us : List Tree) :
    Tree.nodesAll (ts ++ us) = Tree.nodesAll ts ++ Tree.nodesAll us := by
  induction ts with
  | nil => rfl
  | cons t ts ih => rw [List.cons_append, nodesAll, nodesAll, ih, List.append_assoc]

/-- What the body of a type consists of.  Interfaces and union members are names only. -/
def TypeBody.phrases : TypeBody → List Phrase
  | object _ fields => fields.map .fieldDefinition
  | interface _ fields => fields.map .fieldDefinition
  | union _ => []
  | enum values => values.map .enumValueDefinition
  | scalar => []
  | inputObject fields => fields.map .inputValueDefinition

namespace Phrase

/-- The node that a phrase is, unless the text leaves it out. -/
def node? : Phrase → Option Node
  | document d => some ⟨.document, none, d.extent⟩
  | definition (.operation d) => some ⟨.operationDefinition d.kind, d.name, d.extent⟩
  | definition (.fragment d) =>
    some ⟨.fragmentDefinition (d.condition.map (·.text)), d.name, d.extent⟩
  | definition (.schema d) => some ⟨.schema d.isExtension, none, d.extent⟩
  | definition (.type d) => some ⟨.type d.body.kind d.isExtension, d.name, d.extent⟩
  | definition (.directive d) => some ⟨.directiveDefinition, d.name, d.extent⟩
  | variableDefinition d => some ⟨.variableDefinition d.type, none, d.extent⟩
  | selectionSet .absent => none
  | selectionSet (.braces extent _) => some ⟨.selectionSet, none, extent⟩
  | selection (.field f _) => some ⟨.field, f.name, f.extent⟩
  | selection (.spread s) => some ⟨.fragmentSpread, s.name, s.extent⟩
  | selection (.inline f _) =>
    some ⟨.inlineFragment (f.condition.map (·.text)), none, f.extent⟩
  | directive d => some ⟨.directive, d.name, d.extent⟩
  | argument owner a => some ⟨.argument owner, some a.name, a.extent⟩
  | value .missing => none
  | value (.var extent name) => some ⟨.value .var, name, extent⟩
  | value (.int extent _) => some ⟨.value .int, none, extent⟩
  | value (.float extent _) => some ⟨.value .float, none, extent⟩
  | value (.string extent _) => some ⟨.value .string, none, extent⟩
  | value (.boolean extent _) => some ⟨.value .boolean, none, extent⟩
  | value (.null extent) => some ⟨.value .null, none, extent⟩
  | value (.enum extent name) => some ⟨.value .enum, some name, extent⟩
  | value (.list extent _) => some ⟨.value .list, none, extent⟩
  | value (.object extent _) => some ⟨.value .object, none, extent⟩
  | objectField (.mk extent name _) => some ⟨.objectField, some name, extent⟩
  | fieldDefinition d => some ⟨.fieldDefinition, d.name, d.extent⟩
  | inputValueDefinition d => some ⟨.inputValueDefinition, d.name, d.extent⟩
  | enumValueDefinition d => some ⟨.enumValueDefinition, d.name, d.extent⟩

/-- What a phrase directly consists of, apart from names and descriptions, in the order of
the text. -/
def parts : Phrase → List Phrase
  | document d => d.definitions.map definition
  | definition (.operation d) =>
    d.variableDefinitions.map variableDefinition ++ d.directives.map directive ++
      [selectionSet d.selections]
  | definition (.fragment d) => d.directives.map directive ++ [selectionSet d.selections]
  | definition (.schema d) => d.directives.map directive
  | definition (.type d) => d.directives.map directive ++ d.body.phrases
  | definition (.directive d) => d.arguments.map inputValueDefinition
  | variableDefinition d => value d.default :: d.directives.map directive
  | selectionSet .absent => []
  | selectionSet (.braces _ selections) => selections.map selection
  | selection (.field f below) =>
    f.arguments.map (argument .field) ++ f.directives.map directive ++ [selectionSet below]
  | selection (.spread s) => s.directives.map directive
  | selection (.inline f below) => f.directives.map directive ++ [selectionSet below]
  | directive d => d.arguments.map (argument .directive)
  | argument _ a => [value a.value]
  | value (.list _ items) => items.map value
  | value (.object _ fields) => fields.map objectField
  | value _ => []
  | objectField (.mk _ _ v) => [value v]
  | fieldDefinition d => d.arguments.map inputValueDefinition ++ d.directives.map directive
  | inputValueDefinition d => value d.default :: d.directives.map directive
  | enumValueDefinition d => d.directives.map directive

/-- The name that a phrase gives to what it selects. -/
def alias? : Phrase → Option Name
  | selection (.field f _) => f.aliasName
  | _ => none

/-- Whether a phrase is a definition. -/
def IsDefinition : Phrase → Prop
  | definition _ => True
  | _ => False

/-- A phrase leads to another one: from part to part, down a path, which says by numbers
which part to go to next.  The nodes of the phrases on the way are put in front of those
`above`, so the innermost comes first; the last phrase is not among them. -/
inductive Leads : List Node → Phrase → List Nat → List Node → Phrase → Prop
  | here {above : List Node} {p : Phrase} : Leads above p [] above p
  | inside {above route : List Node} {p q r : Phrase} {n : Node} {i : Nat} {path : List Nat}
    (hp : p.node? = some n) (hq : p.parts[i]? = some q) (hr : Leads (n :: above) q path route r) :
    Leads above p (i :: path) route r

/-! ## Trees of phrases -/

/-- The tree of a phrase; none for what the text leaves out. -/
def trees : Phrase → List Tree
  | document d => [d.tree]
  | definition d => [d.tree]
  | variableDefinition d => [d.tree]
  | selectionSet s => s.trees
  | selection s => [s.tree]
  | directive d => [d.tree]
  | argument owner a => [a.tree owner]
  | value v => v.trees
  | objectField f => [f.tree]
  | fieldDefinition d => [d.tree]
  | inputValueDefinition d => [d.tree]
  | enumValueDefinition d => [d.tree]

theorem trees_items (vs : List Value) : (vs.map value).flatMap trees = Value.itemTrees vs := by
  induction vs with
  | nil => rfl
  | cons v vs ih => rw [List.map_cons, List.flatMap_cons, ih, Value.itemTrees, trees]

theorem trees_fields (fs : List ObjectField) :
    (fs.map objectField).flatMap trees = ObjectField.trees fs := by
  induction fs with
  | nil => rfl
  | cons f fs ih =>
      rw [List.map_cons, List.flatMap_cons, ih, ObjectField.trees]
      rfl

theorem trees_selections (ss : List Selection) :
    (ss.map selection).flatMap trees = Selection.trees ss := by
  induction ss with
  | nil => rfl
  | cons s ss ih =>
      rw [List.map_cons, List.flatMap_cons, ih, Selection.trees]
      rfl

/-- Phrases of a kind that is never left out have one tree each. -/
theorem trees_map {α : Type} {make : α → Phrase} {tree : α → Tree}
    (h : ∀ x, (make x).trees = [tree x]) (xs : List α) :
    (xs.map make).flatMap trees = xs.map tree := by
  induction xs with
  | nil => rfl
  | cons x xs ih =>
      rw [List.map_cons, List.flatMap_cons, ih, h, List.map_cons, List.singleton_append]

theorem trees_body (b : TypeBody) : b.phrases.flatMap trees = b.trees := by
  cases b with
  | object _ fields => exact trees_map (fun _ => rfl) fields
  | interface _ fields => exact trees_map (fun _ => rfl) fields
  | union _ => rfl
  | enum values => exact trees_map (fun _ => rfl) values
  | scalar => rfl
  | inputObject fields => exact trees_map (fun _ => rfl) fields

/-- The tree of a phrase that has a node consists of the trees of its parts. -/
theorem trees_of_node? {p : Phrase} {n : Node} (h : p.node? = some n) :
    p.trees = [.node n (p.parts.flatMap trees)] := by
  have hdirectives : ∀ ds : List Directive, (ds.map directive).flatMap trees = ds.map (·.tree) :=
    trees_map fun _ => rfl
  have harguments : ∀ (owner : ArgumentOwner) (as : List Argument),
      (as.map (argument owner)).flatMap trees = as.map (·.tree owner) :=
    fun _ => trees_map fun _ => rfl
  have hinputs : ∀ ds : List InputValueDefinition,
      (ds.map inputValueDefinition).flatMap trees = ds.map (·.tree) := trees_map fun _ => rfl
  have hvariables : ∀ ds : List VariableDefinition,
      (ds.map variableDefinition).flatMap trees = ds.map (·.tree) := trees_map fun _ => rfl
  have hdefinitions : ∀ ds : List Definition,
      (ds.map definition).flatMap trees = ds.map (·.tree) := trees_map fun _ => rfl
  cases p with
  | document d =>
      obtain rfl := Option.some.inj h
      rw [parts, hdefinitions]
      rfl
  | definition d =>
      cases d <;> obtain rfl := Option.some.inj h <;>
        simp only [parts, List.flatMap_append, List.flatMap_singleton, hdirectives, hvariables,
          hinputs, trees_body] <;> rfl
  | selectionSet s =>
      cases s with
      | absent => cases h
      | braces extent selections =>
          obtain rfl := Option.some.inj h
          rw [parts, trees_selections, trees, SelectionSet.trees]
  | selection s =>
      cases s <;> obtain rfl := Option.some.inj h <;>
        simp only [parts, List.flatMap_append, List.flatMap_singleton, hdirectives, harguments,
          trees, Selection.tree]
  | argument owner a =>
      obtain rfl := Option.some.inj h
      rw [parts, List.flatMap_singleton]
      rfl
  | directive d =>
      obtain rfl := Option.some.inj h
      rw [parts, harguments]
      rfl
  | value v =>
      cases v <;> cases h <;>
        simp only [parts, trees, Value.trees, trees_items, trees_fields, List.flatMap_nil]
  | objectField f =>
      obtain ⟨extent, name, v⟩ := f
      obtain rfl := Option.some.inj h
      show [ObjectField.tree _] = _
      rw [parts, List.flatMap_singleton, ObjectField.tree]
      rfl
  | variableDefinition d | fieldDefinition d | inputValueDefinition d | enumValueDefinition d =>
      obtain rfl := Option.some.inj h
      simp only [parts, List.flatMap_append, List.flatMap_cons, hdirectives, hinputs]
      rfl

/-- What a text leaves out has no tree and consists of nothing. -/
theorem trees_of_node?_eq_none {p : Phrase} (h : p.node? = none) : p.trees = [] := by
  cases p with
  | definition d => cases d <;> cases h
  | selectionSet s =>
      cases s with
      | absent => rfl
      | braces _ _ => cases h
  | selection s => cases s <;> cases h
  | value v =>
      cases v with
      | missing => rfl
      | _ => cases h
  | objectField f => cases f; cases h
  | _ => cases h

end Phrase

end GraphLint
