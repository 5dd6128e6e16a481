import GraphLint.Position
import GraphLint.Proofs.Document.Commas
import GraphLint.Proofs.TypeSystem.Reordering

/-!
# Root types

Names of root types are collected over all texts, and the last name for a kind of
operation holds (`Roots.get?_foldl_set`).  Where none is given there may be a default one;
that takes a look at all texts as well, since a schema definition anywhere rules the
default names out, and a type of the default name may come from anywhere.  `Rooted` says
what is recorded in the end.

A recorded name may be defined nowhere, or stand for something else than an object.
Operations and meta-fields do not ask for the same: an operation needs an object, a
meta-field only needs its parent to be defined and to have the recorded name.
`Rooted.operation` and the fields behind it say what each of them makes of a name.
-/

set_option autoImplicit false

namespace GraphLint

/-! ## Names that are given -/

/-- The names that definitions and extensions of the schema give to the root type for a
kind of operation, in the order of the text. -/
def rootNames (definitions : List Definition) (kind : OperationKind) : List String :=
  definitions.flatMap fun
    | .schema d => (d.roots.filter (·.1 = kind)).map (·.2.text)
    | _ => []

theorem rootNames_eq (definitions : List Definition) (kind : OperationKind) :
    rootNames definitions kind =
      ((definitions.flatMap Definition.roots).filter (·.1 = kind)).map (·.2) := by
  rw [List.filter_flatMap, List.map_flatMap]
  unfold rootNames
  refine List.flatMap_congr ?_
  intro d _
  cases d with
  | schema d => simp [Definition.roots, List.filter_map, Function.comp_def]
  | _ => rfl

namespace Roots

/-- The last name that is given for a kind of operation holds. -/
theorem get?_foldl_set (named : List (OperationKind × String)) (r : Roots)
    (kind : OperationKind) :
    (named.foldl (fun r root => r.set root.1 root.2) r).get? kind =
      ((named.filter (·.1 = kind)).map (·.2)).getLast?.or (r.get? kind) := by
  induction named generalizing r with
  | nil => rfl
  | cons root named ih =>
      rw [List.foldl_cons, ih, get?_set]
      by_cases hkind : root.1 = kind
      · rw [if_pos hkind.symm, List.filter_cons_of_pos (by simpa using hkind), List.map_cons,
          List.getLast?_cons]
        cases ((named.filter (·.1 = kind)).map (·.2)).getLast? <;> rfl
      · rw [if_neg (Ne.symm hkind), List.filter_cons_of_neg (by simpa using hkind)]

end Roots

/-! ## Default names -/

/-- A default name is recorded for its own kind of operation, if there is none and there
is a type of that name. -/
theorem get?_defaultRoot (types : List TypeDef) (r : Roots) (kind other : OperationKind) :
    (defaultRoot types r kind).get? other =
      if other = kind ∧ types.any (·.name = kind.defaultTypeName) then
        (r.get? other).or (some kind.defaultTypeName)
      else r.get? other := by
  unfold defaultRoot
  cases hdefined : types.any (·.name = kind.defaultTypeName) with
  | false => simp
  | true =>
      by_cases hkind : other = kind
      · subst hkind
        cases hnamed : r.get? other with
        | none => simp [Roots.get?_set]
        | some name => simp [hnamed]
      · have hset := r.get?_set kind other kind.defaultTypeName
        rw [if_neg hkind] at hset
        split <;> simp [hkind, hset]

theorem get?_foldl_defaultRoot (types : List TypeDef) (r : Roots) (kind : OperationKind) :
    (OperationKind.all.foldl (defaultRoot types) r).get? kind =
      (r.get? kind).or
        (if types.any (·.name = kind.defaultTypeName) then some kind.defaultTypeName
        else none) := by
  simp only [OperationKind.all, List.foldl_cons, List.foldl_nil, get?_defaultRoot]
  cases kind <;> simp only [reduceCtorEq, false_and, if_false, true_and] <;>
    split <;> simp

/-! ## What is recorded -/

/-- Whether the schema is defined among definitions.  Extending it does not count. -/
def DefinesSchema (definitions : List Definition) : Prop :=
  ∃ d, .schema d ∈ definitions ∧ d.isExtension = false

theorem any_definesSchema (definitions : List Definition) :
    definitions.any Definition.definesSchema = true ↔ DefinesSchema definitions := by
  rw [List.any_eq_true]
  constructor
  · rintro ⟨d, hd, hdefines⟩
    cases d with
    | schema d => exact ⟨d, hd, by simpa [Definition.definesSchema] using hdefines⟩
    | _ => cases hdefines
  · rintro ⟨d, hd, hextension⟩
    exact ⟨.schema d, hd, by simp [Definition.definesSchema, hextension]⟩

namespace TypeSystem

/-- There is a type of a name if some entry has it. -/
theorem any_name_iff (s : TypeSystem) (text : String) :
    s.types.any (·.name = text) = true ↔ ∃ t, s.type? text = some t := by
  rw [← Option.isSome_iff_exists, type?, List.find?_isSome, List.any_eq_true]

/-- The last name holds, and if there is none a default name may. -/
theorem get?_roots_ofContribution (definitions : List Definition) (kind : OperationKind) :
    (ofContribution (.ofDefinitions definitions)).roots.get? kind =
      (rootNames definitions kind).getLast?.or
        (if definitions.any Definition.definesSchema then none
        else if (ofContribution (.ofDefinitions definitions)).types.any
            (·.name = kind.defaultTypeName) then some kind.defaultTypeName
        else none) := by
  have hnamed : (SchemaBuilder.empty.add (.ofDefinitions definitions)).roots.get? kind =
      (rootNames definitions kind).getLast? := by
    rw [SchemaBuilder.add_eq, rootNames_eq]
    show Roots.get? (List.foldl _ Roots.none _) kind = _
    rw [Roots.get?_foldl_set]
    cases kind <;> exact Option.or_none
  have hdefines : (SchemaBuilder.empty.add (.ofDefinitions definitions)).definesSchema =
      definitions.any Definition.definesSchema := by
    rw [SchemaBuilder.add_eq]
    rfl
  unfold ofContribution
  rw [SchemaBuilder.roots_build, hdefines]
  cases definitions.any Definition.definesSchema with
  | true =>
      rw [if_pos rfl, if_pos rfl, hnamed, Option.or_none]
  | false =>
      rw [if_neg Bool.false_ne_true, if_neg Bool.false_ne_true, get?_foldl_defaultRoot, hnamed]

/-- What definitions have to do with the root types that are recorded for them. -/
structure Rooted (definitions : List Definition) (s : TypeSystem) : Prop where
  /-- The last name that is given for a kind of operation is recorded. -/
  named : ∀ kind name, (rootNames definitions kind).getLast? = some name →
    s.roots.get? kind = some name
  /-- Where none is given, the default name is recorded if the schema is not defined and
  there is a type of that name, and no other name ever is. -/
  unnamed : ∀ kind, rootNames definitions kind = [] → ∀ name, s.roots.get? kind = some name ↔
    name = kind.defaultTypeName ∧ ¬ DefinesSchema definitions ∧ ∃ t, s.type? name = some t

theorem rooted (definitions : List Definition) :
    Rooted definitions (ofContribution (.ofDefinitions definitions)) where
  named kind name hname := by
    rw [get?_roots_ofContribution, hname]
    rfl
  unnamed kind hnone name := by
    rw [get?_roots_ofContribution, hnone, List.getLast?_nil, Option.none_or,
      ← any_definesSchema]
    cases definitions.any Definition.definesSchema with
    | true => simp
    | false =>
        rw [if_neg Bool.false_ne_true]
        split
        · next hdefined =>
            rw [any_name_iff] at hdefined
            constructor
            · rintro ⟨⟩
              exact ⟨rfl, Bool.false_ne_true, hdefined⟩
            · rintro ⟨rfl, -, -⟩
              rfl
        · next hundefined =>
            rw [any_name_iff] at hundefined
            constructor
            · rintro ⟨⟩
            · rintro ⟨rfl, -, hdefined⟩
              exact absurd hdefined hundefined

end TypeSystem

/-! ## What is made of a recorded name -/

/-- What operations and meta-fields make of the root types that are recorded. -/
structure TypeSystem.HeedsRoots (s : TypeSystem) : Prop where
  /-- An operation selects from the type of the recorded name, if that is an object. -/
  object : ∀ (p : Position) (n : Node) (kind : OperationKind) (name : String) (t : TypeDef),
    p.schema = s → n.construct = .operationDefinition kind →
    s.roots.get? kind = some name → s.type? name = some t → t.kind = .object →
    (p.enter n).outputType = some (.named name)
  /-- If no name is recorded, or none of an object, it selects from nothing. -/
  noObject : ∀ (p : Position) (n : Node) (kind : OperationKind),
    p.schema = s → n.construct = .operationDefinition kind →
    (∀ name t, s.roots.get? kind = some name → s.type? name = some t → t.kind ≠ .object) →
    (p.enter n).outputType = none
  /-- A defined type of the name that is recorded for queries has the meta-fields, whatever
  it declares. -/
  root : ∀ (name : String) (t : TypeDef), s.type? name = some t →
    s.roots.get? .query = some name →
    s.field? name "__schema" = some MetaField.schema ∧
      s.field? name "__type" = some MetaField.type
  /-- Another name has the fields that its type declares, if it is defined. -/
  notRoot : ∀ name, s.roots.get? .query ≠ some name → ∀ field ∈ ["__schema", "__type"],
    s.field? name field = (s.type? name).bind (·.field? field)
  /-- What is not defined has no fields, be it recorded or not. -/
  undefined : ∀ name field, s.type? name = none → s.field? name field = none

theorem TypeSystem.heedsRoots (s : TypeSystem) : s.HeedsRoots where
  object p n kind name t hschema hn hroot htype hobject := by
    have hname : t.name = name := name_of_type? htype
    subst hschema
    unfold Position.enter
    rw [hn]
    simp [Position.outputType, Position.top, Position.rootType, rootType?, hroot, htype, hobject,
      hname]
  noObject p n kind hschema hn hnone := by
    subst hschema
    unfold Position.enter
    rw [hn]
    show (Option.map _ (Option.filter _ _)) = none
    rw [Option.map_eq_none_iff, Option.filter_eq_none_iff]
    intro t ht hobject
    obtain ⟨name, hroot, htype⟩ := Option.bind_eq_some_iff.mp ht
    exact hnone name t hroot htype (of_decide_eq_true hobject)
  root name t htype hroot := by
    have hquery : s.roots.query = some name := hroot
    constructor <;> simp [field?, htype, hquery]
  notRoot name hroot field hfield := by
    have hquery : s.roots.query ≠ some name := hroot
    simp only [List.mem_cons, List.not_mem_nil, or_false] at hfield
    rcases hfield with rfl | rfl <;> simp [field?, hquery]
  undefined name field htype := by
    rw [field?, htype]
    rfl

/-! ## The kind of an operation -/

/-- Whether an operation of some kind begins at a place: its keyword comes next or, for a
query in the shorthand form, the brace before its selections. -/
inductive Cursor.BeginsOperation (c : Cursor) : OperationKind → Prop
  | keyword {kind : OperationKind} (h : c.next = some (.name kind.keyword)) : BeginsOperation c kind
  | shorthand (h : c.next = some (.punctuator .braceOpen)) : BeginsOperation c .query

namespace Grammar

open Production

/-- Where an operation of some kind begins, such an operation is read. -/
theorem definition_of_beginsOperation {c : Cursor} {kind : OperationKind}
    (h : c.BeginsOperation kind) :
    ∃ o, (definition.run c).1 = some (.operation o) ∧ o.kind = kind := by
  obtain ⟨ahead, index, discarded, faults, isAbandoned⟩ := c
  cases h with
  | keyword h =>
      match ahead, h with
      | ⟨_, _⟩ :: rest, rfl =>
          have hgives : (operation kind).Gives fun d => ∃ o, d = .operation o ∧ o.kind = kind :=
            operation_gives kind fun o hkind => ⟨o, rfl, hkind⟩
          obtain ⟨o, ho, hkind⟩ := hgives
            ⟨⟨.name kind.keyword, ‹_›⟩ :: rest, index, discarded, faults, isAbandoned⟩
          refine ⟨o, ?_, hkind⟩
          rw [← ho]
          cases kind <;> rfl
  | shorthand h =>
      match ahead, h with
      | ⟨_, _⟩ :: rest, rfl => exact ⟨_, rfl, rfl⟩

end Grammar

/-! ## Texts -/

namespace TypeSystem

/-- Texts without faults decide together which root types are recorded. -/
theorem ofTexts_records {texts : List (String × String)}
    (h : ∀ t ∈ texts, (Source.read t.2).isWellFormed = true) :
    ∃ s, ofTexts texts = .ok s ∧ Rooted (writtenDefinitions texts) s :=
  ⟨_, ofTexts_eq_ofContribution h, rooted _⟩

/-- Texts without faults decide together which root types are recorded, and operations and
meta-fields follow the record, each in its own way.  They would follow any other record, too
(`heedsRoots`), and an operation is known by its beginning alone. -/
theorem ofTexts_rooted (texts : List (String × String))
    (h : ∀ t ∈ texts, (Source.read t.2).isWellFormed = true) :
    ∃ s, ofTexts texts = .ok s ∧ Rooted (writtenDefinitions texts) s ∧ s.HeedsRoots ∧
      ∀ (c : Cursor) (kind : OperationKind), c.BeginsOperation kind →
        ∃ o, (Grammar.definition.run c).1 = some (.operation o) ∧ o.kind = kind :=
  have ⟨s, hs, hrooted⟩ := ofTexts_records h
  ⟨s, hs, hrooted, s.heedsRoots, fun _ _ => Grammar.definition_of_beginsOperation⟩

/-- The text in the middle defines the schema, so there is no root for subscriptions.  The
type that the last name for queries stands for declares a field by the name of a
meta-field. -/
def tangledTexts : List (String × String) :=
  [("a", "type Subscription { x: Int } extend schema { query: B mutation: B }"),
   ("b", "schema { query: A } enum B { C }"),
   ("c", "extend schema { query: B query: A } type A { __schema: Int }")]

theorem ofTexts_rooted_tangled :
    (∀ t ∈ tangledTexts, (Source.read t.2).isWellFormed = true) ∧
    ∃ s, ofTexts tangledTexts = .ok s ∧ Rooted (writtenDefinitions tangledTexts) s ∧
      s.HeedsRoots ∧
      ∀ (c : Cursor) (kind : OperationKind), c.BeginsOperation kind →
        ∃ o, (Grammar.definition.run c).1 = some (.operation o) ∧ o.kind = kind :=
  ⟨by decide +kernel, ofTexts_rooted _ (by decide +kernel)⟩

/-- Mutations have a recorded name too, but not that of an object. -/
example :
    (ofTexts tangledTexts).map (·.roots) = .ok ⟨some "A", some "B", none⟩ ∧
      (ofTexts tangledTexts).map (fun s => (Position.start s).rootType .mutation) = .ok none ∧
      (ofTexts tangledTexts).map (·.field? "A" "__schema") = .ok (some MetaField.schema) := by
  decide +kernel

end TypeSystem

end GraphLint
