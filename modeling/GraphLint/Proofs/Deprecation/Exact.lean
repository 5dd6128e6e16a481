import GraphLint.Proofs.Deprecation.Hearings
import GraphLint.Proofs.Run.Recording

/-!
# Warnings are exact

The rule against deprecated elements reads what is used off a position, which is
pushed and popped and cleared along a walk.  The uses of a document are defined
without any of this, with types that are handed down.  Both are the same list
(`Document.used_tree`), and so the rule warns of the uses of deprecated elements,
of every one of them and of nothing else.

The proof goes through the document.  Of the position at each construct it keeps
what was handed down to there: the type that a value is expected to have
(`Position.Expects`), what an argument is given to (`Position.Gives`), the type
that is selected from (`Position.Selects`).  A position drops types that cannot
stand in a place as soon as it meets them; this makes no difference to what is
found later, for a type that is dropped has nothing that could be used.
-/

set_option autoImplicit false

namespace GraphLint

/-! ## What is used in a tree -/

namespace Tree

/-- What is used in a tree, read off the positions of a walk. -/
def used (p : Position) (t : Tree) : List Use :=
  (t.hearings .position p).filterMap Hearing.use?

/-- What is used in several trees. -/
def usedAll (p : Position) (ts : List Tree) : List Use :=
  (hearingsAll .position p ts).filterMap Hearing.use?

/-- What a node uses comes before what is used inside of it. -/
theorem used_node (p : Position) (root : Node) (children : List Tree) :
    (node root children).used p =
      (Hearing.use? ⟨.enter root, p.enter root⟩).toList ++ usedAll (p.enter root) children := by
  have hhearings : (node root children).hearings .position p =
      ⟨.enter root, p.enter root⟩ ::
        (hearingsAll .position (p.enter root) children ++ [⟨.leave root, p.enter root⟩]) := by
    rw [hearings]
    rfl
  have hleave : Hearing.use? ⟨.leave root, p.enter root⟩ = none := rfl
  rw [used, hhearings, List.filterMap_cons, List.filterMap_append,
    List.filterMap_cons_none hleave, List.filterMap_nil, List.append_nil]
  cases Hearing.use? ⟨.enter root, p.enter root⟩ <;> rfl

theorem used_node_of_isUse {p : Position} {root : Node} (h : root.construct.isUse = true)
    (children : List Tree) :
    (node root children).used p =
      ⟨root.culprit, (p.enter root).element root⟩ :: usedAll (p.enter root) children := by
  have huse : Hearing.use? ⟨.enter root, p.enter root⟩ =
      some ⟨root.culprit, (p.enter root).element root⟩ :=
    if_pos h
  rw [used_node, huse]
  rfl

theorem used_node_of_not_isUse {p : Position} {root : Node} (h : root.construct.isUse = false)
    (children : List Tree) :
    (node root children).used p = usedAll (p.enter root) children := by
  have huse : Hearing.use? ⟨.enter root, p.enter root⟩ = none :=
    if_neg (by simp [h])
  rw [used_node, huse]
  rfl

@[simp] theorem usedAll_nil (p : Position) : usedAll p [] = [] := rfl

@[simp] theorem usedAll_cons (p : Position) (t : Tree) (ts : List Tree) :
    usedAll p (t :: ts) = t.used p ++ usedAll p ts := by
  rw [usedAll, hearingsAll, List.filterMap_append]
  rfl

@[simp] theorem usedAll_append (p : Position) (ts us : List Tree) :
    usedAll p (ts ++ us) = usedAll p ts ++ usedAll p us := by
  induction ts with
  | nil => rfl
  | cons t ts ih => rw [List.cons_append, usedAll_cons, usedAll_cons, ih, List.append_assoc]

theorem usedAll_singleton (p : Position) (t : Tree) : usedAll p [t] = t.used p := by
  rw [usedAll_cons, usedAll_nil, List.append_nil]

/-- What is used in trees is what is used in what they are the trees of. -/
theorem usedAll_map {α : Type} {p : Position} {tree : α → Tree} {uses : α → List Use}
    (h : ∀ x, (tree x).used p = uses x) (xs : List α) :
    usedAll p (xs.map tree) = xs.flatMap uses := by
  induction xs with
  | nil => rfl
  | cons x xs ih => rw [List.map_cons, usedAll_cons, List.flatMap_cons, h, ih]

mutual

/-- The places of what is used in a tree are its nodes that use something, in the
order of a walk. -/
theorem map_culprit_used (p : Position) :
    ∀ t : Tree, (t.used p).map (·.culprit) =
      (t.nodes.filter (·.construct.isUse)).map Node.culprit
  | .node root children => by
      rw [nodes]
      cases h : root.construct.isUse with
      | true =>
          rw [used_node_of_isUse h, List.filter_cons_of_pos (by exact h), List.map_cons,
            List.map_cons, map_culprit_usedAll _ children]
      | false =>
          rw [used_node_of_not_isUse h, List.filter_cons_of_neg (by simp [h]),
            map_culprit_usedAll _ children]

theorem map_culprit_usedAll (p : Position) :
    ∀ ts : List Tree, (usedAll p ts).map (·.culprit) =
      ((nodesAll ts).filter (·.construct.isUse)).map Node.culprit
  | [] => rfl
  | t :: ts => by
      rw [usedAll_cons, nodesAll, List.map_append, List.filter_append, List.map_append,
        map_culprit_used p t, map_culprit_usedAll p ts]

end

end Tree

/-! ## Types that are dropped -/

namespace TypeSystem

variable {s : TypeSystem}

/-- Types that are dropped for what they are not are none of those that have more
asked of them. -/
theorem filter_baseType?_filter {k q : TypeDef → Bool} (hq : ∀ t, q t = true → k t = true)
    (ref : Option TypeRef) :
    ((ref.filter fun r => (s.baseType? r).any k).bind s.baseType?).filter q =
      (ref.bind s.baseType?).filter q := by
  cases ref with
  | none => rfl
  | some r =>
      cases ht : s.baseType? r with
      | none => simp [Option.filter_some, ht]
      | some t =>
          cases hk : k t with
          | true => simp [Option.filter_some, ht, hk]
          | false =>
              have hnot : q t = false := by
                by_contra h
                rw [hq t (by simpa using h)] at hk
                cases hk
              simp [Option.filter_some, ht, hk, hnot]

/-- What is made of types that are not dropped need not be dropped either. -/
theorem filter_map_filter {α : Type} {k : α → Bool} {g : α → α} (hg : ∀ r, k (g r) = k r)
    (o : Option α) : ((o.filter k).map g).filter k = (o.map g).filter k := by
  cases o with
  | none => rfl
  | some r =>
      cases hk : k r with
      | true => simp [Option.filter_some, hk]
      | false => simp [Option.filter_some, hk, hg]

theorem isInputType_literalItem (ref : TypeRef) :
    s.isInputType ref.literalItem = s.isInputType ref := by
  have hbase : ref.literalItem.baseName = ref.baseName := by
    unfold TypeRef.literalItem
    cases hitem : ref.item? with
    | none => exact TypeRef.baseName_nullable ref
    | some item => exact TypeRef.baseName_of_item? hitem
  rw [isInputType, isInputType, baseType?, baseType?, hbase]

/-- The type that an operation starts at is not dropped. -/
theorem filter_operationType (kind : OperationKind) :
    (s.operationType kind).filter s.isOutputType = s.operationType kind := by
  unfold operationType
  cases hroot : (s.rootType? kind).filter (·.kind = .object) with
  | none => rfl
  | some t =>
      obtain ⟨ht, hkind⟩ := Option.filter_eq_some_iff.mp hroot
      obtain ⟨name, _, htype⟩ := Option.bind_eq_some_iff.mp ht
      have hself : s.type? t.name = some t := by
        rw [name_of_type? htype]
        exact htype
      have hobject : t.kind = .object := by simpa using hkind
      have houtput : s.isOutputType (.named t.name) = true := by
        show (s.type? t.name).any TypeDef.isOutputType = true
        rw [hself]
        show t.kind.isOutput = true
        rw [hobject]
        rfl
      rw [Option.map_some, Option.filter_some, if_pos houtput]

end TypeSystem

/-! ## Values -/

namespace Position

variable {s : TypeSystem} {p : Position}

/-- A value of some type is expected at a position. -/
structure Expects (s : TypeSystem) (expected : Option TypeRef) (p : Position) : Prop where
  /-- The type system. -/
  schema : p.schema = s
  /-- The type, unless it cannot be sent. -/
  inputType : p.inputType = expected.filter s.isInputType

variable {expected : Option TypeRef}

theorem Expects.enum? (h : p.Expects s expected) :
    (p.typeOf p.inputType).filter (·.kind = .enum) = s.enum? expected := by
  have hsent : ∀ t : TypeDef, decide (t.kind = .enum) = true → t.isInputType = true := by
    intro t ht
    rw [TypeDef.isInputType, of_decide_eq_true ht]
    rfl
  rw [typeOf, h.schema, h.inputType]
  exact TypeSystem.filter_baseType?_filter hsent expected

theorem Expects.inputObject? (h : p.Expects s expected) :
    (p.typeOf p.inputType).filter (·.kind = .inputObject) = s.inputObject? expected := by
  have hsent : ∀ t : TypeDef, decide (t.kind = .inputObject) = true → t.isInputType = true := by
    intro t ht
    rw [TypeDef.isInputType, of_decide_eq_true ht]
    rfl
  rw [typeOf, h.schema, h.inputType]
  exact TypeSystem.filter_baseType?_filter hsent expected

theorem Expects.list (h : p.Expects s expected) (extent : Extent) :
    (p.enter ⟨.value .list, none, extent⟩).Expects s (expected.map (·.literalItem)) := by
  refine ⟨h.schema, ?_⟩
  show (p.inputType.map (·.literalItem)).filter p.schema.isInputType = _
  rw [h.schema, h.inputType]
  exact TypeSystem.filter_map_filter TypeSystem.isInputType_literalItem expected

theorem Expects.element_enum (h : p.Expects s expected) (extent : Extent) (name : Name) :
    (p.enter ⟨.value .enum, some name, extent⟩).element ⟨.value .enum, some name, extent⟩ =
      (s.enum? expected).bind fun t => (t.enumValue? name.text).map (.enumValue t) := by
  show ((p.typeOf p.inputType).bind fun t =>
    (((p.typeOf p.inputType).filter (·.kind = .enum)).bind (·.enumValue? name.text)).map
      (Element.enumValue t)) = _
  rw [← h.enum?]
  cases p.typeOf p.inputType with
  | none => rfl
  | some t => cases hkind : decide (t.kind = .enum) <;> simp [Option.filter_some, hkind]

theorem Expects.element_objectField (h : p.Expects s expected) (extent : Extent) (name : Name) :
    (p.enter ⟨.objectField, some name, extent⟩).element ⟨.objectField, some name, extent⟩ =
      (s.inputObject? expected).bind fun t => (t.inputField? name.text).map (.inputField t) := by
  rw [← h.inputObject?]
  rfl

theorem Expects.objectField (h : p.Expects s expected) (extent : Extent) (name : Name) :
    (p.enter ⟨.objectField, some name, extent⟩).Expects s
      ((s.inputObject? expected).bind fun t => (t.inputField? name.text).map (·.type)) := by
  refine ⟨h.schema, ?_⟩
  rw [← h.inputObject?, ← h.schema]
  rfl

end Position

open GraphLint.Tree

mutual

theorem Value.usedAll_trees {s : TypeSystem} :
    ∀ (v : Value) {p : Position} {expected : Option TypeRef}, p.Expects s expected →
      usedAll p v.trees = v.uses s expected
  | .missing, _, _, _ => rfl
  | .var _ _, _, _, _ => rfl
  | .int _ _, _, _, _ => rfl
  | .float _ _, _, _, _ => rfl
  | .string _ _, _, _, _ => rfl
  | .boolean _ _, _, _, _ => rfl
  | .null _, _, _, _ => rfl
  | .enum extent name, p, expected, h => by
      rw [Value.trees, Value.uses, usedAll_singleton, used_node_of_isUse rfl, h.element_enum]
      rfl
  | .list extent items, p, expected, h => by
      rw [Value.trees, Value.uses, usedAll_singleton, used_node_of_not_isUse rfl]
      exact Value.usedAll_itemTrees items (h.list extent)
  | .object extent fields, p, expected, h => by
      rw [Value.trees, Value.uses, usedAll_singleton, used_node_of_not_isUse rfl]
      exact ObjectField.usedAll_trees fields h

theorem Value.usedAll_itemTrees {s : TypeSystem} :
    ∀ (vs : List Value) {p : Position} {expected : Option TypeRef}, p.Expects s expected →
      usedAll p (Value.itemTrees vs) = Value.itemUses s expected vs
  | [], _, _, _ => rfl
  | v :: vs, p, expected, h => by
      rw [Value.itemTrees, Value.itemUses, usedAll_append, Value.usedAll_trees v h,
        Value.usedAll_itemTrees vs h]

theorem ObjectField.used_tree {s : TypeSystem} :
    ∀ (f : ObjectField) {p : Position} {expected : Option TypeRef}, p.Expects s expected →
      f.tree.used p = f.uses s (s.inputObject? expected)
  | .mk extent name value, p, expected, h => by
      rw [ObjectField.tree, ObjectField.uses, used_node_of_isUse rfl, h.element_objectField,
        Value.usedAll_trees value (h.objectField extent name)]
      rfl

theorem ObjectField.usedAll_trees {s : TypeSystem} :
    ∀ (fs : List ObjectField) {p : Position} {expected : Option TypeRef}, p.Expects s expected →
      usedAll p (ObjectField.trees fs) = ObjectField.allUses s (s.inputObject? expected) fs
  | [], _, _, _ => rfl
  | f :: fs, p, expected, h => by
      rw [ObjectField.trees, ObjectField.allUses, usedAll_cons, ObjectField.used_tree f h,
        ObjectField.usedAll_trees fs h]

end

/-! ## Arguments and directives -/

namespace Position

/-- At a position, arguments are given to some owner. -/
structure Gives (s : TypeSystem) (kind : ArgumentOwner) (owner : Option Owner) (p : Position) :
    Prop where
  /-- The type system. -/
  schema : p.schema = s
  /-- The arguments that are known are those of the owner. -/
  argument : ∀ name, p.givenArgument kind (some name) = owner.bind (·.argument? name)
  /-- The owner of an argument that is known is known to the position. -/
  owner_eq : ∀ o, owner = some o → p.owner = some o

variable {s : TypeSystem} {p : Position} {kind : ArgumentOwner} {owner : Option Owner}

theorem Gives.element_argument (h : p.Gives s kind owner) (extent : Extent) (name : Name) :
    (p.enter ⟨.argument kind, some name, extent⟩).element ⟨.argument kind, some name, extent⟩ =
      owner.bind fun o => (o.argument? name.text).map (.argument o) := by
  show (p.owner.bind fun o => (p.givenArgument kind (some name.text)).map (Element.argument o)) = _
  rw [h.argument]
  cases howner : owner with
  | none =>
      -- The position may still know some owner, but then not this argument.
      cases p.owner <;> rfl
  | some o =>
      rw [h.owner_eq o howner]
      rfl

theorem Gives.argumentValue (h : p.Gives s kind owner) (extent : Extent) (name : Name) :
    (p.enter ⟨.argument kind, some name, extent⟩).Expects s
      (owner.bind fun o => (o.argument? name.text).map (·.type)) := by
  refine ⟨h.schema, ?_⟩
  show ((p.givenArgument kind (some name.text)).map (·.type)).filter p.schema.isInputType = _
  rw [h.argument, h.schema, Option.map_bind]
  rfl

theorem gives_directive (h : p.schema = s) (extent : Extent) (name : Option Name) :
    (p.enter ⟨.directive, name, extent⟩).Gives s .directive
      ((name.bind fun n => s.directive? n.text).map Owner.directive) := by
  subst h
  have hdirective : (p.enter ⟨.directive, name, extent⟩).directive =
      name.bind fun n => p.schema.directive? n.text := by
    show (name.map (·.text)).bind p.schema.directive? = _
    cases name <;> rfl
  refine ⟨rfl, ?_, ?_⟩
  · intro argument
    show (p.enter ⟨.directive, name, extent⟩).directive.bind (·.argument? argument) = _
    rw [hdirective]
    cases name.bind fun n => p.schema.directive? n.text <;> rfl
  · intro o ho
    obtain ⟨d, hd, rfl⟩ := Option.map_eq_some_iff.mp ho
    unfold Position.owner
    rw [hdirective, hd]

end Position

theorem Argument.used_tree {s : TypeSystem} {p : Position} {kind : ArgumentOwner}
    {owner : Option Owner} (h : p.Gives s kind owner) (a : Argument) :
    (a.tree kind).used p = a.uses s owner := by
  rw [Argument.tree, Argument.uses, used_node_of_isUse rfl, h.element_argument,
    Value.usedAll_trees a.value (h.argumentValue a.extent a.name)]
  rfl

theorem Directive.used_tree {s : TypeSystem} {p : Position} (h : p.schema = s) (d : Directive) :
    d.tree.used p = d.uses s := by
  rw [Directive.tree, Directive.uses, used_node_of_not_isUse rfl]
  exact usedAll_map (Argument.used_tree (Position.gives_directive h d.extent d.name)) d.arguments

/-- Directives use the same wherever they stand. -/
theorem Directive.usedAll_trees {s : TypeSystem} {p : Position} (h : p.schema = s) (n : Node)
    (ds : List Directive) :
    usedAll (p.enter n) (ds.map (·.tree)) = ds.flatMap (·.uses s) :=
  usedAll_map (Directive.used_tree ((Position.schema_enter p n).trans h)) ds

/-! ## Selections -/

namespace Position

/-- A position stands at something that selections can be made from.  No directive
is at hand there. -/
structure Stands (s : TypeSystem) (around : Option TypeRef) (p : Position) : Prop where
  /-- The type system. -/
  schema : p.schema = s
  /-- No directive is at hand. -/
  directive : p.directive = none
  /-- The type that selections are made from, unless it cannot be received. -/
  outputType : p.outputType = around.filter s.isOutputType

/-- At a position, selections are made from some type. -/
structure Selects (s : TypeSystem) (around : Option TypeRef) (p : Position) : Prop
    extends p.Stands s around where
  /-- The type that has the fields. -/
  parentType : p.parentType = s.composite? around

variable {s : TypeSystem} {p : Position} {around : Option TypeRef}

theorem Stands.selectionSet (h : p.Stands s around) (extent : Extent) :
    (p.enter ⟨.selectionSet, none, extent⟩).Selects s around := by
  have hreceived : ∀ t : TypeDef, t.isComposite = true → t.isOutputType = true := by
    intro t ht
    rw [TypeDef.isComposite] at ht
    rw [TypeDef.isOutputType]
    cases hkind : t.kind <;> rw [hkind] at ht <;> first | rfl | cases ht
  refine ⟨⟨h.schema, h.directive, h.outputType⟩, ?_⟩
  show (p.typeOf p.outputType).filter TypeDef.isComposite = _
  rw [typeOf, h.schema, h.outputType]
  exact TypeSystem.filter_baseType?_filter hreceived around

/-- The field that is selected is found by the position. -/
theorem Selects.selectedField (h : p.Selects s around) (f : Field) :
    p.selectedField (f.name.map (·.text)) = (f.owner? s around).map (·.2) := by
  rw [Position.selectedField, Field.owner?, h.parentType, h.schema]
  cases s.composite? around with
  | none => rfl
  | some t =>
      cases f.name with
      | none => rfl
      | some name =>
          show s.field? t.name name.text = ((s.field? t.name name.text).map _).map _
          cases s.field? t.name name.text <;> rfl

/-- A field that is selected is found together with its type. -/
theorem Selects.bind_parentType (h : p.Selects s around) {α : Type} (f : Field)
    (g : TypeDef → FieldDef → α) :
    (p.parentType.bind fun t => (p.selectedField (f.name.map (·.text))).map (g t)) =
      (f.owner? s around).map fun x => g x.1 x.2 := by
  rw [h.selectedField, h.parentType, Field.owner?]
  cases s.composite? around with
  | none => rfl
  | some t =>
      cases f.name with
      | none => rfl
      | some name =>
          show (((s.field? t.name name.text).map _).map _).map (g t) =
            ((s.field? t.name name.text).map _).map _
          cases s.field? t.name name.text <;> rfl

theorem Selects.gives (h : p.Selects s around) (f : Field) :
    (p.enter ⟨.field, f.name, f.extent⟩).Gives s .field
      ((f.owner? s around).map fun x => .field x.1 x.2) := by
  refine ⟨h.schema, ?_, ?_⟩
  · intro name
    show (p.selectedField (f.name.map (·.text))).bind (·.argument? name) = _
    rw [h.selectedField]
    cases f.owner? s around <;> rfl
  · intro o ho
    have hnone : (p.enter ⟨.field, f.name, f.extent⟩).directive = none := h.directive
    unfold Position.owner
    rw [hnone]
    show (p.parentType.bind fun t =>
      (p.selectedField (f.name.map (·.text))).map (Owner.field t)) = _
    rw [h.bind_parentType, ho]

theorem Selects.stands_field (h : p.Selects s around) (f : Field) :
    (p.enter ⟨.field, f.name, f.extent⟩).Stands s ((f.owner? s around).map (·.2.type)) := by
  refine ⟨h.schema, h.directive, ?_⟩
  show ((p.selectedField (f.name.map (·.text))).map (·.type)).filter p.schema.isOutputType = _
  rw [h.selectedField, h.schema, Option.map_map]
  rfl

theorem Selects.stands_inline (h : p.Selects s around) (f : InlineFragment) :
    (p.enter ⟨.inlineFragment (f.condition.map (·.text)), none, f.extent⟩).Stands s
      (f.type around) := by
  refine ⟨h.schema, h.directive, ?_⟩
  show p.fragmentType (f.condition.map (·.text)) = _
  unfold fragmentType InlineFragment.type
  cases f.condition with
  | some name =>
      show (some _).filter p.schema.isOutputType = _
      rw [h.schema]
  | none =>
      show (p.outputType.map _).filter p.schema.isOutputType = _
      have hbase : ∀ ref : TypeRef, s.isOutputType (.named ref.baseName) = s.isOutputType ref :=
        fun _ => rfl
      rw [h.schema, h.outputType]
      exact TypeSystem.filter_map_filter hbase around

end Position

mutual

theorem Selection.used_tree {s : TypeSystem} :
    ∀ (x : Selection) {p : Position} {around : Option TypeRef}, p.Selects s around →
      x.tree.used p = x.uses s around
  | .field f below, p, around, h => by
      have helement : (p.enter ⟨.field, f.name, f.extent⟩).element ⟨.field, f.name, f.extent⟩ =
          (f.owner? s around).map fun x => .field x.1 x.2 :=
        h.bind_parentType f Element.field
      rw [Selection.tree, Selection.uses, used_node_of_isUse rfl, helement, usedAll_append,
        usedAll_append, usedAll_map (Argument.used_tree (h.gives f)) f.arguments,
        Directive.usedAll_trees h.schema,
        SelectionSet.usedAll_trees below (h.stands_field f)]
      rfl
  | .spread f, p, around, h => by
      rw [Selection.tree, Selection.uses, used_node_of_not_isUse rfl]
      exact Directive.usedAll_trees h.schema _ f.directives
  | .inline f below, p, around, h => by
      rw [Selection.tree, Selection.uses, used_node_of_not_isUse rfl, usedAll_append,
        Directive.usedAll_trees h.schema,
        SelectionSet.usedAll_trees below (h.stands_inline f)]

theorem SelectionSet.usedAll_trees {s : TypeSystem} :
    ∀ (x : SelectionSet) {p : Position} {around : Option TypeRef}, p.Stands s around →
      usedAll p x.trees = x.uses s around
  | .absent, _, _, _ => rfl
  | .braces extent selections, p, around, h => by
      rw [SelectionSet.trees, SelectionSet.uses, usedAll_singleton, used_node_of_not_isUse rfl]
      exact Selection.usedAll_trees selections (h.selectionSet extent)

theorem Selection.usedAll_trees {s : TypeSystem} :
    ∀ (xs : List Selection) {p : Position} {around : Option TypeRef}, p.Selects s around →
      usedAll p (Selection.trees xs) = Selection.allUses s around xs
  | [], _, _, _ => rfl
  | x :: xs, p, around, h => by
      rw [Selection.trees, Selection.allUses, usedAll_cons, Selection.used_tree x h,
        Selection.usedAll_trees xs h]

end

/-! ## Definitions -/

theorem Position.schema_start (s : TypeSystem) : (start s).schema = s := rfl

section

variable {s : TypeSystem}

theorem VariableDefinition.used_tree {p : Position} (h : p.schema = s) (d : VariableDefinition) :
    d.tree.used p = d.uses s := by
  have hexpects : (p.enter ⟨.variableDefinition d.type, none, d.extent⟩).Expects s d.type := by
    refine ⟨h, ?_⟩
    rw [← h]
    rfl
  rw [VariableDefinition.tree, VariableDefinition.uses, used_node_of_not_isUse rfl,
    usedAll_append, Value.usedAll_trees d.default hexpects,
    Directive.usedAll_trees h]

theorem VariableDefinition.usedAll_trees {p : Position} (h : p.schema = s) (n : Node)
    (ds : List VariableDefinition) :
    usedAll (p.enter n) (ds.map (·.tree)) = ds.flatMap (·.uses s) :=
  usedAll_map (VariableDefinition.used_tree ((Position.schema_enter p n).trans h)) ds

theorem OperationDefinition.used_tree (d : OperationDefinition) :
    d.tree.used (.start s) = d.uses s := by
  have hstands : (Position.enter (.start s) ⟨.operationDefinition d.kind, d.name, d.extent⟩).Stands
      s (s.operationType d.kind) :=
    ⟨rfl, rfl, (TypeSystem.filter_operationType d.kind).symm⟩
  rw [OperationDefinition.tree, OperationDefinition.uses, used_node_of_not_isUse rfl,
    usedAll_append, usedAll_append,
    VariableDefinition.usedAll_trees (Position.schema_start s),
    Directive.usedAll_trees (Position.schema_start s),
    SelectionSet.usedAll_trees d.selections hstands]

theorem FragmentDefinition.used_tree (d : FragmentDefinition) :
    d.tree.used (.start s) = d.uses s := by
  have hstands : (Position.enter (.start s)
      ⟨.fragmentDefinition (d.condition.map (·.text)), d.name, d.extent⟩).Stands
      s (d.condition.map fun name => .named name.text) := by
    refine ⟨rfl, rfl, ?_⟩
    show (Position.start s).fragmentType (d.condition.map (·.text)) = _
    cases d.condition <;> rfl
  rw [FragmentDefinition.tree, FragmentDefinition.uses, used_node_of_not_isUse rfl,
    usedAll_append, Directive.usedAll_trees (Position.schema_start s),
    SelectionSet.usedAll_trees d.selections hstands]

theorem InputValueDefinition.used_tree (d : InputValueDefinition) :
    d.tree.used (.start s) = d.uses s := by
  have hexpects : (Position.start s).Expects s none := ⟨rfl, rfl⟩
  rw [InputValueDefinition.tree, InputValueDefinition.uses, used_node_of_not_isUse rfl,
    usedAll_append, Directive.usedAll_trees (Position.schema_start s)]
  exact congrArg (· ++ _) (Value.usedAll_trees d.default hexpects)

theorem FieldDefinition.used_tree (d : FieldDefinition) : d.tree.used (.start s) = d.uses s := by
  rw [FieldDefinition.tree, FieldDefinition.uses, used_node_of_not_isUse rfl, usedAll_append,
    Directive.usedAll_trees (Position.schema_start s)]
  exact congrArg (· ++ _) (usedAll_map InputValueDefinition.used_tree d.arguments)

theorem EnumValueDefinition.used_tree (d : EnumValueDefinition) :
    d.tree.used (.start s) = d.directives.flatMap (·.uses s) := by
  rw [EnumValueDefinition.tree, used_node_of_not_isUse rfl]
  exact Directive.usedAll_trees (Position.schema_start s) _ d.directives

theorem TypeBody.usedAll_trees : ∀ b : TypeBody, usedAll (.start s) b.trees = b.uses s
  | .object _ fields => usedAll_map FieldDefinition.used_tree fields
  | .interface _ fields => usedAll_map FieldDefinition.used_tree fields
  | .union _ => rfl
  | .enum values => usedAll_map EnumValueDefinition.used_tree values
  | .scalar => rfl
  | .inputObject fields => usedAll_map InputValueDefinition.used_tree fields

theorem Definition.used_tree : ∀ d : Definition, d.tree.used (.start s) = d.uses s
  | .operation d => d.used_tree
  | .fragment d => d.used_tree
  | .schema d => by
      rw [Definition.tree, Definition.uses, SchemaDefinition.tree, used_node_of_not_isUse rfl]
      exact Directive.usedAll_trees (Position.schema_start s) _ d.directives
  | .type d => by
      rw [Definition.tree, Definition.uses, TypeDefinition.tree, used_node_of_not_isUse rfl,
        usedAll_append, Directive.usedAll_trees (Position.schema_start s)]
      exact congrArg (_ ++ ·) d.body.usedAll_trees
  | .directive d => by
      rw [Definition.tree, Definition.uses, DirectiveDefinition.tree, used_node_of_not_isUse rfl]
      exact usedAll_map InputValueDefinition.used_tree d.arguments

/-- What a walk through a document finds used is what is used in the document. -/
theorem Document.used_tree (s : TypeSystem) (d : Document) :
    d.tree.used (.start s) = d.uses s := by
  rw [Document.tree, Document.uses, used_node_of_not_isUse rfl]
  exact usedAll_map Definition.used_tree d.definitions

end

/-- The rule against deprecated elements warns of the uses of deprecated elements in
a document, each at its own node, in the order of the text, and of nothing else.
There is a use at every node that is a field, an argument, a field of an input
object or an enum value, and at no other. -/
theorem Document.noDeprecated_exact (schema : TypeSystem) (d : Document) :
    runDocumentRules schema [noDeprecated] d.tree =
        .ok ((d.uses schema).filterMap Use.warning?) ∧
      (d.uses schema).map (·.culprit) =
        (d.tree.nodes.filter (·.construct.isUse)).map Node.culprit := by
  constructor
  · show runRules .position (.start schema) [noDeprecated] d.tree = _
    rw [runRules_eq_hearAll (d.restores schema),
      hearAll_noDeprecated (d.coherent_of_mem_hearings schema), ← d.used_tree schema]
    show Except.ok (_ ++ []) = _
    rw [List.append_nil]
    rfl
  · rw [← d.used_tree schema]
    exact Tree.map_culprit_used (.start schema) d.tree

end GraphLint
