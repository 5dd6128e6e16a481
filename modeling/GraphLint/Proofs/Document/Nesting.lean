import GraphLint.Proofs.Run.Joint

/-!
# What stands inside of what

A tree can be any arrangement of nodes.  The tree of a document cannot:
`Construct.Holds` lists which constructs a walk meets directly inside of which,
and `Document.fits` proves that the tree of every document keeps to the list,
whatever pieces its text leaves out.

Facts about the views of a walk are proved along the list.  If entering a node
turns what holds around it into what holds inside of it, then it holds at every
hearing (`Tree.forall_hearings`); and if leaving takes back entering under what
holds, then it does so everywhere (`Tree.restores_of_fits`).
-/

set_option autoImplicit false

namespace GraphLint

/-- Which constructs stand directly inside of which. -/
inductive Construct.Holds : Construct → Construct → Prop
  | operation (kind : OperationKind) : Holds .document (.operationDefinition kind)
  | fragment (condition : Option String) : Holds .document (.fragmentDefinition condition)
  | schema (isExtension : Bool) : Holds .document (.schema isExtension)
  | type (kind : TypeKind) (isExtension : Bool) : Holds .document (.type kind isExtension)
  | directiveDefinition : Holds .document .directiveDefinition
  | operationVariable (kind : OperationKind) (type : Option TypeRef) :
    Holds (.operationDefinition kind) (.variableDefinition type)
  | operationDirective (kind : OperationKind) : Holds (.operationDefinition kind) .directive
  | operationSelections (kind : OperationKind) : Holds (.operationDefinition kind) .selectionSet
  | fragmentDirective (condition : Option String) :
    Holds (.fragmentDefinition condition) .directive
  | fragmentSelections (condition : Option String) :
    Holds (.fragmentDefinition condition) .selectionSet
  | variableDefault (type : Option TypeRef) (kind : ValueKind) :
    Holds (.variableDefinition type) (.value kind)
  | variableDirective (type : Option TypeRef) : Holds (.variableDefinition type) .directive
  | selectedField : Holds .selectionSet .field
  | selectedSpread : Holds .selectionSet .fragmentSpread
  | selectedInline (condition : Option String) : Holds .selectionSet (.inlineFragment condition)
  | fieldArgument : Holds .field (.argument .field)
  | fieldDirective : Holds .field .directive
  | fieldSelections : Holds .field .selectionSet
  | spreadDirective : Holds .fragmentSpread .directive
  | inlineDirective (condition : Option String) : Holds (.inlineFragment condition) .directive
  | inlineSelections (condition : Option String) : Holds (.inlineFragment condition) .selectionSet
  | directiveArgument : Holds .directive (.argument .directive)
  | argumentValue (owner : ArgumentOwner) (kind : ValueKind) :
    Holds (.argument owner) (.value kind)
  | listItem (kind : ValueKind) : Holds (.value .list) (.value kind)
  | objectField : Holds (.value .object) .objectField
  | objectFieldValue (kind : ValueKind) : Holds .objectField (.value kind)
  | schemaDirective (isExtension : Bool) : Holds (.schema isExtension) .directive
  | typeDirective (kind : TypeKind) (isExtension : Bool) : Holds (.type kind isExtension) .directive
  | typeField (kind : TypeKind) (isExtension : Bool) :
    Holds (.type kind isExtension) .fieldDefinition
  | typeInputField (kind : TypeKind) (isExtension : Bool) :
    Holds (.type kind isExtension) .inputValueDefinition
  | typeEnumValue (kind : TypeKind) (isExtension : Bool) :
    Holds (.type kind isExtension) .enumValueDefinition
  | directiveParameter : Holds .directiveDefinition .inputValueDefinition
  | fieldParameter : Holds .fieldDefinition .inputValueDefinition
  | fieldDefinitionDirective : Holds .fieldDefinition .directive
  | inputDefault (kind : ValueKind) : Holds .inputValueDefinition (.value kind)
  | inputDirective : Holds .inputValueDefinition .directive
  | enumValueDirective : Holds .enumValueDefinition .directive

mutual

/-- A tree may stand inside of a construct, and within it everything stands
where it may. -/
def Tree.Fits (outer : Construct) : Tree → Prop
  | .node root children => outer.Holds root.construct ∧ Tree.FitAll root.construct children

/-- Several trees may stand inside of a construct. -/
def Tree.FitAll (outer : Construct) : List Tree → Prop
  | [] => True
  | t :: ts => t.Fits outer ∧ Tree.FitAll outer ts

end

namespace Tree

theorem fitAll_iff {outer : Construct} {ts : List Tree} :
    FitAll outer ts ↔ ∀ t ∈ ts, t.Fits outer := by
  induction ts with
  | nil =>
      rw [FitAll]
      exact ⟨fun _ t ht => absurd ht List.not_mem_nil, fun _ => trivial⟩
  | cons t ts ih => rw [FitAll, ih, List.forall_mem_cons]

theorem fitAll_append {outer : Construct} {ts us : List Tree} (hts : FitAll outer ts)
    (hus : FitAll outer us) : FitAll outer (ts ++ us) := by
  rw [fitAll_iff] at hts hus ⊢
  exact List.forall_mem_append.mpr ⟨hts, hus⟩

theorem fitAll_map {α : Type} {outer : Construct} {f : α → Tree} {xs : List α}
    (h : ∀ x, (f x).Fits outer) : FitAll outer (xs.map f) := by
  rw [fitAll_iff, List.forall_mem_map]
  exact fun x _ => h x

theorem fitAll_nil (outer : Construct) : FitAll outer [] := by
  rw [FitAll]
  trivial

theorem fitAll_singleton {outer : Construct} {t : Tree} (h : t.Fits outer) : FitAll outer [t] := by
  rw [FitAll]
  exact ⟨h, fitAll_nil outer⟩

/-- A tree fits if its root does and what is inside of it fits the root. -/
theorem fits_node {outer : Construct} {root : Node} {children : List Tree}
    (hroot : outer.Holds root.construct) (hchildren : FitAll root.construct children) :
    (Tree.node root children).Fits outer := by
  rw [Fits]
  exact ⟨hroot, hchildren⟩

/-- A leaf fits if its node does. -/
theorem fits_leaf {outer : Construct} {root : Node} (hroot : outer.Holds root.construct) :
    (Tree.node root []).Fits outer :=
  fits_node hroot (fitAll_nil _)

end Tree

/-! ## Documents keep to the list -/

open GraphLint.Tree

mutual

theorem Value.fitAll_trees {outer : Construct} (h : ∀ kind, outer.Holds (.value kind)) :
    ∀ v : Value, FitAll outer v.trees
  | .missing => fitAll_nil outer
  | .var _ _ => fitAll_singleton (fits_leaf (h .var))
  | .int _ _ => fitAll_singleton (fits_leaf (h .int))
  | .float _ _ => fitAll_singleton (fits_leaf (h .float))
  | .string _ _ => fitAll_singleton (fits_leaf (h .string))
  | .boolean _ _ => fitAll_singleton (fits_leaf (h .boolean))
  | .null _ => fitAll_singleton (fits_leaf (h .null))
  | .enum _ _ => fitAll_singleton (fits_leaf (h .enum))
  | .list _ items => by
      rw [Value.trees]
      exact fitAll_singleton (fits_node (h .list) (Value.fitAll_itemTrees items))
  | .object _ fields => by
      rw [Value.trees]
      exact fitAll_singleton (fits_node (h .object) (ObjectField.fitAll_trees fields))

theorem Value.fitAll_itemTrees : ∀ vs : List Value, FitAll (.value .list) (Value.itemTrees vs)
  | [] => fitAll_nil _
  | v :: vs => by
      rw [Value.itemTrees]
      exact fitAll_append (Value.fitAll_trees .listItem v) (Value.fitAll_itemTrees vs)

theorem ObjectField.fits_tree : ∀ f : ObjectField, f.tree.Fits (.value .object)
  | .mk _ _ value => by
      rw [ObjectField.tree]
      exact fits_node .objectField (Value.fitAll_trees .objectFieldValue value)

theorem ObjectField.fitAll_trees :
    ∀ fs : List ObjectField, FitAll (.value .object) (ObjectField.trees fs)
  | [] => fitAll_nil _
  | f :: fs => by
      rw [ObjectField.trees, FitAll]
      exact ⟨ObjectField.fits_tree f, ObjectField.fitAll_trees fs⟩

end

theorem Argument.fits_tree {outer : Construct} {owner : ArgumentOwner}
    (h : outer.Holds (.argument owner)) (a : Argument) : (a.tree owner).Fits outer :=
  fits_node h (Value.fitAll_trees (.argumentValue owner) a.value)

theorem Directive.fits_tree {outer : Construct} (h : outer.Holds .directive) (d : Directive) :
    d.tree.Fits outer :=
  fits_node h (fitAll_map (Argument.fits_tree .directiveArgument))

mutual

theorem Selection.fits_tree : ∀ s : Selection, s.tree.Fits .selectionSet
  | .field f below => by
      rw [Selection.tree]
      refine fits_node .selectedField (fitAll_append (fitAll_append ?_ ?_) ?_)
      · exact fitAll_map (Argument.fits_tree .fieldArgument)
      · exact fitAll_map (Directive.fits_tree .fieldDirective)
      · exact SelectionSet.fitAll_trees .fieldSelections below
  | .spread s => by
      rw [Selection.tree]
      exact fits_node .selectedSpread (fitAll_map (Directive.fits_tree .spreadDirective))
  | .inline f below => by
      rw [Selection.tree]
      refine fits_node (.selectedInline _) (fitAll_append ?_ ?_)
      · exact fitAll_map (Directive.fits_tree (.inlineDirective _))
      · exact SelectionSet.fitAll_trees (.inlineSelections _) below

theorem SelectionSet.fitAll_trees {outer : Construct} (h : outer.Holds .selectionSet) :
    ∀ s : SelectionSet, FitAll outer s.trees
  | .absent => fitAll_nil outer
  | .braces _ selections => by
      rw [SelectionSet.trees]
      exact fitAll_singleton (fits_node h (Selection.fitAll_trees selections))

theorem Selection.fitAll_trees :
    ∀ ss : List Selection, FitAll .selectionSet (Selection.trees ss)
  | [] => fitAll_nil _
  | s :: ss => by
      rw [Selection.trees, FitAll]
      exact ⟨Selection.fits_tree s, Selection.fitAll_trees ss⟩

end

theorem VariableDefinition.fits_tree {kind : OperationKind} (d : VariableDefinition) :
    d.tree.Fits (.operationDefinition kind) :=
  fits_node (.operationVariable kind d.type)
    (fitAll_append (Value.fitAll_trees (.variableDefault d.type) d.default)
      (fitAll_map (Directive.fits_tree (.variableDirective d.type))))

theorem OperationDefinition.fits_tree (d : OperationDefinition) : d.tree.Fits .document := by
  refine fits_node (.operation d.kind) (fitAll_append (fitAll_append ?_ ?_) ?_)
  · exact fitAll_map VariableDefinition.fits_tree
  · exact fitAll_map (Directive.fits_tree (.operationDirective d.kind))
  · exact SelectionSet.fitAll_trees (.operationSelections d.kind) d.selections

theorem FragmentDefinition.fits_tree (d : FragmentDefinition) : d.tree.Fits .document := by
  refine fits_node (.fragment _) (fitAll_append ?_ ?_)
  · exact fitAll_map (Directive.fits_tree (.fragmentDirective _))
  · exact SelectionSet.fitAll_trees (.fragmentSelections _) d.selections

theorem InputValueDefinition.fits_tree {outer : Construct} (h : outer.Holds .inputValueDefinition)
    (d : InputValueDefinition) : d.tree.Fits outer :=
  fits_node h (fitAll_append (Value.fitAll_trees .inputDefault d.default)
    (fitAll_map (Directive.fits_tree .inputDirective)))

theorem FieldDefinition.fits_tree {outer : Construct} (h : outer.Holds .fieldDefinition)
    (d : FieldDefinition) : d.tree.Fits outer :=
  fits_node h (fitAll_append (fitAll_map (InputValueDefinition.fits_tree .fieldParameter))
    (fitAll_map (Directive.fits_tree .fieldDefinitionDirective)))

theorem EnumValueDefinition.fits_tree {outer : Construct} (h : outer.Holds .enumValueDefinition)
    (d : EnumValueDefinition) : d.tree.Fits outer :=
  fits_node h (fitAll_map (Directive.fits_tree .enumValueDirective))

theorem TypeBody.fitAll_trees {kind : TypeKind} {isExtension : Bool} :
    ∀ b : TypeBody, FitAll (.type kind isExtension) b.trees
  | .object _ _ => fitAll_map (FieldDefinition.fits_tree (.typeField kind isExtension))
  | .interface _ _ => fitAll_map (FieldDefinition.fits_tree (.typeField kind isExtension))
  | .union _ => fitAll_nil _
  | .enum _ => fitAll_map (EnumValueDefinition.fits_tree (.typeEnumValue kind isExtension))
  | .scalar => fitAll_nil _
  | .inputObject _ =>
    fitAll_map (InputValueDefinition.fits_tree (.typeInputField kind isExtension))

theorem Definition.fits_tree : ∀ d : Definition, d.tree.Fits .document
  | .operation d => d.fits_tree
  | .fragment d => d.fits_tree
  | .schema d =>
    fits_node (.schema d.isExtension)
      (fitAll_map (Directive.fits_tree (.schemaDirective d.isExtension)))
  | .type d =>
    fits_node (.type d.body.kind d.isExtension)
      (fitAll_append (fitAll_map (Directive.fits_tree (.typeDirective _ _))) d.body.fitAll_trees)
  | .directive _ =>
    fits_node .directiveDefinition (fitAll_map (InputValueDefinition.fits_tree .directiveParameter))

/-- Everything in a document stands where it may. -/
theorem Document.fits (d : Document) : FitAll .document (d.definitions.map (·.tree)) :=
  fitAll_map Definition.fits_tree

/-! ## What holds along a walk -/

namespace Tree

section

variable {V : Type} {tracker : Tracker V} {Inv : Construct → V → Prop}

mutual

/-- What entering a node hands on from around the node to its inside holds at every
hearing. -/
theorem forall_hearings
    (step : ∀ (c : Construct) (n : Node) (v : V), c.Holds n.construct → Inv c v →
      Inv n.construct (tracker.enter v n)) :
    ∀ (t : Tree) {c : Construct} {v : V}, t.Fits c → Inv c v →
      ∀ h ∈ t.hearings tracker v, Inv h.event.node.construct h.view
  | .node root children, c, v, ht, hv, h, hh => by
      rw [Fits] at ht
      obtain ⟨hroot, hchildren⟩ := ht
      have hinside : Inv root.construct (tracker.enter v root) := step c root v hroot hv
      rw [hearings, List.mem_cons, List.mem_append, List.mem_singleton] at hh
      rcases hh with rfl | hh | rfl
      · exact hinside
      · exact forall_hearingsAll step children hchildren hinside h hh
      · exact hinside

theorem forall_hearingsAll
    (step : ∀ (c : Construct) (n : Node) (v : V), c.Holds n.construct → Inv c v →
      Inv n.construct (tracker.enter v n)) :
    ∀ (ts : List Tree) {c : Construct} {v : V}, FitAll c ts → Inv c v →
      ∀ h ∈ hearingsAll tracker v ts, Inv h.event.node.construct h.view
  | [], _, _, _, _, h, hh => absurd hh List.not_mem_nil
  | t :: ts, c, v, hts, hv, h, hh => by
      rw [FitAll] at hts
      rw [hearingsAll, List.mem_append] at hh
      rcases hh with hh | hh
      · exact forall_hearings step t hts.1 hv h hh
      · exact forall_hearingsAll step ts hts.2 hv h hh

end

mutual

/-- If leaving a node takes back entering it wherever the node may stand, then it
does so in every tree that fits. -/
theorem restores_of_fits
    (step : ∀ (c : Construct) (n : Node) (v : V), c.Holds n.construct → Inv c v →
      Inv n.construct (tracker.enter v n))
    (back : ∀ (c : Construct) (n : Node) (v : V), c.Holds n.construct → Inv c v →
      tracker.leave (tracker.enter v n) n = v) :
    ∀ (t : Tree) {c : Construct} {v : V}, t.Fits c → Inv c v → tracker.Restores v t
  | .node root children, c, v, ht, hv => by
      rw [Fits] at ht
      obtain ⟨hroot, hchildren⟩ := ht
      rw [Tracker.Restores]
      exact ⟨back c root v hroot hv,
        restoresAll_of_fitAll step back children hchildren (step c root v hroot hv)⟩

theorem restoresAll_of_fitAll
    (step : ∀ (c : Construct) (n : Node) (v : V), c.Holds n.construct → Inv c v →
      Inv n.construct (tracker.enter v n))
    (back : ∀ (c : Construct) (n : Node) (v : V), c.Holds n.construct → Inv c v →
      tracker.leave (tracker.enter v n) n = v) :
    ∀ (ts : List Tree) {c : Construct} {v : V}, FitAll c ts → Inv c v → tracker.RestoresAll v ts
  | [], _, _, _, _ => by
      rw [Tracker.RestoresAll]
      trivial
  | t :: ts, c, v, hts, hv => by
      rw [FitAll] at hts
      rw [Tracker.RestoresAll]
      exact ⟨restores_of_fits step back t hts.1 hv,
        restoresAll_of_fitAll step back ts hts.2 hv⟩

end

end

end Tree

section

variable {V : Type} {tracker : Tracker V} {Inv : Construct → V → Prop}

/-- On a walk through a document, what holds inside of the document and is handed
on from around a node to its inside holds at every hearing. -/
theorem Document.forall_hearings
    (step : ∀ (c : Construct) (n : Node) (v : V), c.Holds n.construct → Inv c v →
      Inv n.construct (tracker.enter v n))
    (d : Document) {v : V} (hv : Inv .document (tracker.enter v ⟨.document, none, d.extent⟩)) :
    ∀ h ∈ d.tree.hearings tracker v, Inv h.event.node.construct h.view := by
  intro h hh
  rw [Document.tree, Tree.hearings, List.mem_cons, List.mem_append, List.mem_singleton] at hh
  rcases hh with rfl | hh | rfl
  · exact hv
  · exact Tree.forall_hearingsAll step _ d.fits hv h hh
  · exact hv

end

end GraphLint
