import GraphLint.Proofs.TypeSystem.First
import Mathlib.Data.List.Perm.Basic
import Mathlib.Data.List.Nodup

/-!
# The order of texts

A builder goes through texts one after another, and goes by three rules that look at
the order: the first definition of a name holds, the last name of a root type holds,
and members of extensions are put behind each other.  If no name is defined twice and
no root type is named twice, the first two rules have nothing to decide
(`find?_of_perm`, `foldl_set_of_perm`), and of the third only the order of members is
left.

`Unambiguous` says of definitions that there is nothing to decide.  What they make up
in any other order has the same types, with the same members in perhaps another order,
and the rest is equal (`rearranged`).  Definitions may be in any order there.  Where
whole texts change places and only one of them extends a type, its extensions stay
together, and the type does not change at all (`flatMap_of_perm`).
-/

set_option autoImplicit false

namespace GraphLint

/-! ## What does not depend on the order -/

/-- A name that only one element has is found wherever the element stands. -/
theorem find?_of_perm {α : Type} {name : α → String} {xs ys : List α} (hperm : xs.Perm ys)
    (hnames : (xs.map name).Nodup) (text : String) :
    ys.find? (name · = text) = xs.find? (name · = text) := by
  have hnames' : (ys.map name).Nodup := (hperm.map name).nodup_iff.mp hnames
  cases hfound : xs.find? (name · = text) with
  | none =>
      rw [List.find?_eq_none] at hfound ⊢
      intro y hy
      exact hfound y (hperm.mem_iff.mpr hy)
  | some x =>
      have hx : x ∈ ys := hperm.mem_iff.mp (List.mem_of_find?_eq_some hfound)
      have hname : name x = text := by simpa using List.find?_some hfound
      rw [← hname]
      exact find?_eq_some_of_nodup hnames' hx

/-- Where one member at most has anything to put in, the order of members does not matter. -/
theorem flatMap_of_perm {α β : Type} {xs ys : List α} (hperm : xs.Perm ys) {f : α → List β}
    (hfew : (xs.filter fun x => !(f x).isEmpty).length ≤ 1) : ys.flatMap f = xs.flatMap f := by
  have hfilter : ∀ zs : List α, (zs.filter fun x => !(f x).isEmpty).flatMap f = zs.flatMap f := by
    intro zs
    induction zs with
    | nil => rfl
    | cons z zs ih =>
        cases hz : f z with
        | nil => simp [hz, ih]
        | cons b bs => simp [hz, ih]
  have hsame := hperm.filter fun x => !(f x).isEmpty
  rw [← hfilter xs, ← hfilter ys]
  cases hxs : xs.filter fun x => !(f x).isEmpty with
  | nil =>
      rw [hxs] at hsame
      rw [hsame.symm.eq_nil]
  | cons x rest =>
      have hrest : rest = [] := by
        rw [hxs, List.length_cons] at hfew
        exact List.length_eq_zero_iff.mp (by omega)
      rw [hxs, hrest] at hsame
      rw [hsame.symm.eq_singleton, hrest]

namespace Roots

theorem set_comm (r : Roots) {kind kind' : OperationKind} (h : kind ≠ kind') (name name' : String) :
    (r.set kind name).set kind' name' = (r.set kind' name').set kind name := by
  cases kind <;> cases kind' <;> first | rfl | exact absurd rfl h

/-- Root types may be named in any order if none is named twice. -/
theorem foldl_set_of_perm {named named' : List (OperationKind × String)}
    (hperm : named.Perm named') (hkinds : (named.map (·.1)).Nodup) (r : Roots) :
    named.foldl (fun r root => r.set root.1 root.2) r =
      named'.foldl (fun r root => r.set root.1 root.2) r := by
  refine hperm.foldl_eq' ?_ r
  intro root hroot root' hroot' r
  by_cases hkind : root.1 = root'.1
  · have hsame : root = root' := List.inj_on_of_nodup_map hkinds hroot hroot' hkind
    rw [hsame]
  · exact r.set_comm hkind root.2 root'.2

end Roots

/-! ## Root types of what is built -/

theorem perm_definedTypes {definitions definitions' : List Definition}
    (hperm : definitions.Perm definitions') :
    (definedTypes definitions).Perm (definedTypes definitions') :=
  ((hperm.filterMap _).filter _).append_right _

theorem defaultRoot_congr {types types' : List TypeDef}
    (h : ∀ text, text ∈ types.map (·.name) ↔ text ∈ types'.map (·.name)) (roots : Roots)
    (kind : OperationKind) : defaultRoot types roots kind = defaultRoot types' roots kind := by
  have hany : types.any (·.name = kind.defaultTypeName) =
      types'.any (·.name = kind.defaultTypeName) := by
    rw [Bool.eq_iff_iff]
    simpa using h kind.defaultTypeName
  unfold defaultRoot
  rw [hany]

namespace SchemaBuilder

theorem roots_addDefaultRoots (b : SchemaBuilder) :
    b.addDefaultRoots.roots =
      if b.definesSchema then b.roots
      else OperationKind.all.foldl (defaultRoot b.types) b.roots := by
  unfold addDefaultRoots
  split <;> rfl

/-- Default root types are named last, by the types that there are in the end. -/
theorem roots_build (b : SchemaBuilder) :
    b.build.roots =
      if b.definesSchema then b.roots
      else OperationKind.all.foldl (defaultRoot b.build.types) b.roots := by
  have hdefines : b.addBuiltins.takeInExtensions.definesSchema = b.definesSchema := by
    simp only [takeInExtensions, addBuiltins]
  have hroots : b.addBuiltins.takeInExtensions.roots = b.roots := by
    simp only [takeInExtensions, addBuiltins]
  simp only [build, roots_addDefaultRoots, types_addDefaultRoots, hdefines, hroots]

/-- Of the types, only their names matter for the root types. -/
theorem roots_build_congr {b b' : SchemaBuilder} (hroots : b.roots = b'.roots)
    (hdefines : b.definesSchema = b'.definesSchema)
    (hnames : ∀ text, text ∈ b.build.types.map (·.name) ↔ text ∈ b'.build.types.map (·.name)) :
    b.build.roots = b'.build.roots := by
  have hdefault : defaultRoot b.build.types = defaultRoot b'.build.types := by
    funext roots kind
    exact defaultRoot_congr hnames roots kind
  rw [roots_build, roots_build, hroots, hdefines, hdefault]

end SchemaBuilder

theorem TypeSystem.roots_ofContribution_of_perm {definitions definitions' : List Definition}
    (hperm : definitions.Perm definitions')
    (hkinds : ((definitions.flatMap Definition.roots).map (·.1)).Nodup) :
    (ofContribution (.ofDefinitions definitions)).roots =
      (ofContribution (.ofDefinitions definitions')).roots := by
  apply SchemaBuilder.roots_build_congr
  · rw [SchemaBuilder.add_eq, SchemaBuilder.add_eq]
    exact Roots.foldl_set_of_perm (hperm.flatMap_right Definition.roots) hkinds .none
  · rw [SchemaBuilder.add_eq, SchemaBuilder.add_eq]
    have hany : definitions.any Definition.definesSchema =
        definitions'.any Definition.definesSchema := by
      rw [Bool.eq_iff_iff, List.any_eq_true, List.any_eq_true]
      simp only [hperm.mem_iff]
    exact congrArg (false || ·) hany
  · intro text
    have hdefined := perm_definedTypes hperm
    refine (mem_types_iff definitions text).trans ?_
    refine Iff.trans ?_ (mem_types_iff definitions' text).symm
    exact (hdefined.map _).mem_iff

/-! ## What becomes of definitions in another order -/

/-- The same members, each list in any order. -/
structure Members.Rearranged (a b : Members) : Prop where
  fields : a.fields.Perm b.fields
  inputFields : a.inputFields.Perm b.inputFields
  interfaces : a.interfaces.Perm b.interfaces
  unionMembers : a.unionMembers.Perm b.unionMembers
  enumValues : a.enumValues.Perm b.enumValues

/-- The same type, with its members in any order. -/
structure TypeDef.Rearranged (t t' : TypeDef) : Prop where
  name : t'.name = t.name
  kind : t'.kind = t.kind
  description : t'.description = t.description
  isExtension : t'.isExtension = t.isExtension
  members : t.members.Rearranged t'.members

/-- It does not matter much in which order a type takes in its extensions. -/
theorem TypeDef.rearranged_extendAll (t : TypeDef) {exts exts' : List TypeDef}
    (h : exts.Perm exts') : (t.extendAll exts).Rearranged (t.extendAll exts') where
  name := rfl
  kind := rfl
  description := rfl
  isExtension := rfl
  members := ⟨(h.flatMap_right _).append_left _, (h.flatMap_right _).append_left _,
    (h.flatMap_right _).append_left _, (h.flatMap_right _).append_left _,
    (h.flatMap_right _).append_left _⟩

/-- The same type system, but for the order of the members of types. -/
structure TypeSystem.Rearranged (s s' : TypeSystem) : Prop where
  /-- There are types of the same names. -/
  typeNames : (s.types.map (·.name)).Perm (s'.types.map (·.name))
  /-- Each is the same, with its members in any order. -/
  type : ∀ text t, s.type? text = some t → ∃ t', s'.type? text = some t' ∧ t.Rearranged t'
  /-- There are the same directives. -/
  directives : s.directives.Perm s'.directives
  /-- They are found under the same names. -/
  directive : ∀ text, s'.directive? text = s.directive? text
  /-- The same root types are recorded. -/
  roots : s'.roots = s.roots

/-- Definitions among which nothing is defined or named twice. -/
structure Unambiguous (definitions : List Definition) : Prop where
  /-- No type is defined twice; it may be extended any number of times. -/
  types : (((definitions.filterMap Definition.typeDef?).filter (!·.isExtension)).map
    (·.name)).Nodup
  /-- No directive is defined twice. -/
  directives : ((definitions.filterMap Definition.directiveDef?).map (·.name)).Nodup
  /-- No root type is named twice, be it in definitions or in extensions of the schema. -/
  roots : ((definitions.flatMap Definition.roots).map (·.1)).Nodup

section

variable {definitions definitions' : List Definition}

theorem find?_definedTypes_of_perm (hperm : definitions.Perm definitions')
    (hunique : Unambiguous definitions) (text : String) :
    (definedTypes definitions').find? (·.name = text) =
      (definedTypes definitions).find? (·.name = text) := by
  have hwritten := (hperm.filterMap Definition.typeDef?).filter (!·.isExtension)
  rw [definedTypes, definedTypes, List.find?_append, List.find?_append,
    find?_of_perm hwritten hunique.types]

theorem find?_definedDirectives_of_perm (hperm : definitions.Perm definitions')
    (hunique : Unambiguous definitions) (text : String) :
    (definedDirectives definitions').find? (·.name = text) =
      (definedDirectives definitions).find? (·.name = text) := by
  have hwritten := hperm.filterMap Definition.directiveDef?
  rw [definedDirectives, definedDirectives, List.find?_append, List.find?_append,
    find?_of_perm hwritten hunique.directives]

theorem perm_extensionsOf (hperm : definitions.Perm definitions') (text : String) :
    (extensionsOf definitions text).Perm (extensionsOf definitions' text) :=
  (hperm.filterMap _).filter _

theorem perm_names (hperm : definitions.Perm definitions') :
    ((TypeSystem.ofContribution (.ofDefinitions definitions)).types.map (·.name)).Perm
      ((TypeSystem.ofContribution (.ofDefinitions definitions')).types.map (·.name)) := by
  have hdefined := perm_definedTypes hperm
  rw [List.perm_ext_iff_of_nodup (TypeSystem.nodup_types definitions)
    (TypeSystem.nodup_types definitions')]
  intro text
  rw [TypeSystem.mem_types_iff, TypeSystem.mem_types_iff]
  exact (hdefined.map _).mem_iff

theorem perm_directives (hperm : definitions.Perm definitions')
    (hunique : Unambiguous definitions) :
    (TypeSystem.ofContribution (.ofDefinitions definitions)).directives.Perm
      (TypeSystem.ofContribution (.ofDefinitions definitions')).directives := by
  have hnames := TypeSystem.nodup_directives definitions
  have hnames' := TypeSystem.nodup_directives definitions'
  have hsame : ∀ text,
      (TypeSystem.ofContribution (.ofDefinitions definitions')).directive? text =
        (TypeSystem.ofContribution (.ofDefinitions definitions)).directive? text := by
    intro text
    rw [TypeSystem.directive?_ofContribution, TypeSystem.directive?_ofContribution]
    exact find?_definedDirectives_of_perm hperm hunique text
  -- A directive is there if it is found under its name.
  rw [List.perm_ext_iff_of_nodup (.of_map _ hnames) (.of_map _ hnames')]
  intro d
  constructor
  · intro hd
    have hfound := find?_eq_some_of_nodup hnames hd
    exact List.mem_of_find?_eq_some ((hsame d.name).trans hfound)
  · intro hd
    have hfound := find?_eq_some_of_nodup hnames' hd
    exact List.mem_of_find?_eq_some ((hsame d.name).symm.trans hfound)

/-- Definitions that leave nothing to decide make up the same in any order. -/
theorem rearranged (hperm : definitions.Perm definitions') (hunique : Unambiguous definitions) :
    (TypeSystem.ofContribution (.ofDefinitions definitions)).Rearranged
      (TypeSystem.ofContribution (.ofDefinitions definitions')) where
  typeNames := perm_names hperm
  type text t ht := by
    rw [TypeSystem.type?_ofContribution] at ht ⊢
    rw [find?_definedTypes_of_perm hperm hunique]
    obtain ⟨first, hfirst, rfl⟩ := Option.map_eq_some_iff.mp ht
    rw [hfirst]
    exact ⟨_, rfl, first.rearranged_extendAll (perm_extensionsOf hperm text)⟩
  directives := perm_directives hperm hunique
  directive text := by
    rw [TypeSystem.directive?_ofContribution, TypeSystem.directive?_ofContribution]
    exact find?_definedDirectives_of_perm hperm hunique text
  roots := (TypeSystem.roots_ofContribution_of_perm hperm hunique.roots).symm

end

/-! ## Texts in another order -/

/-- Whether a text, given with its path, extends the type of a name. -/
def extendsType (text : String) (t : String × String) : Bool :=
  !(extensionsOf (Source.read t.2).document.definitions text).isEmpty

theorem extensionsOf_writtenDefinitions (texts : List (String × String)) (text : String) :
    extensionsOf (writtenDefinitions texts) text =
      texts.flatMap fun t => extensionsOf (Source.read t.2).document.definitions text := by
  simp only [extensionsOf, writtenDefinitions, List.filterMap_flatMap, List.filter_flatMap]

/-- A type that one text at most extends does not depend on the order of the texts. -/
theorem extensionsOf_of_perm {texts texts' : List (String × String)} (hperm : texts.Perm texts')
    {text : String} (hfew : (texts.filter (extendsType text)).length ≤ 1) :
    extensionsOf (writtenDefinitions texts') text =
      extensionsOf (writtenDefinitions texts) text := by
  rw [extensionsOf_writtenDefinitions, extensionsOf_writtenDefinitions]
  exact flatMap_of_perm hperm hfew

namespace TypeSystem

/-- Texts without faults that leave nothing to decide make up the same in any order, but
for the order in which types have the members of extensions from different texts. -/
theorem ofTexts_reordered (texts texts' : List (String × String))
    (h : ∀ t ∈ texts, (Source.read t.2).isWellFormed = true) (hperm : texts.Perm texts')
    (hunique : Unambiguous (writtenDefinitions texts)) :
    ∃ s s', ofTexts texts = .ok s ∧ ofTexts texts' = .ok s' ∧ s.Rearranged s' ∧
      ∀ text, (texts.filter (extendsType text)).length ≤ 1 → s'.type? text = s.type? text := by
  have h' : ∀ t ∈ texts', (Source.read t.2).isWellFormed = true := by
    intro t ht
    exact h t (hperm.mem_iff.mpr ht)
  have hwritten : (writtenDefinitions texts).Perm (writtenDefinitions texts') :=
    hperm.flatMap_right _
  refine ⟨_, _, ofTexts_eq_ofContribution h, ofTexts_eq_ofContribution h',
    rearranged hwritten hunique, ?_⟩
  intro text hfew
  rw [type?_ofContribution, type?_ofContribution, find?_definedTypes_of_perm hwritten hunique,
    extensionsOf_of_perm hperm hfew]

/-- Texts of which two extend one type, one of them in front of its definition.  Both
also extend the schema, which is defined nowhere. -/
def scatteredTexts : List (String × String) :=
  [("a", "extend type A { x: Int } extend schema { query: A } directive @d on FIELD"),
   ("b", "type A { y: Int } extend enum E { F } enum E { G } extend type A { z: Int }"),
   ("c", "extend schema { mutation: A } scalar Int")]

/-- The last text comes first, and the first two change places. -/
theorem ofTexts_reordered_scattered :
    (∀ t ∈ scatteredTexts, (Source.read t.2).isWellFormed = true) ∧
    scatteredTexts.Perm scatteredTexts.reverse ∧
    Unambiguous (writtenDefinitions scatteredTexts) ∧
    ∃ s s', ofTexts scatteredTexts = .ok s ∧ ofTexts scatteredTexts.reverse = .ok s' ∧
      s.Rearranged s' ∧
      ∀ text, (scatteredTexts.filter (extendsType text)).length ≤ 1 →
        s'.type? text = s.type? text := by
  have hperm : scatteredTexts.Perm scatteredTexts.reverse := (List.reverse_perm _).symm
  -- The texts are read once for all that is said of them.
  have hread : (∀ t ∈ scatteredTexts, (Source.read t.2).isWellFormed = true) ∧
      ((((writtenDefinitions scatteredTexts).filterMap Definition.typeDef?).filter
        (!·.isExtension)).map (·.name)).Nodup ∧
      (((writtenDefinitions scatteredTexts).filterMap Definition.directiveDef?).map
        (·.name)).Nodup ∧
      (((writtenDefinitions scatteredTexts).flatMap Definition.roots).map (·.1)).Nodup := by
    decide +kernel
  obtain ⟨hfaultless, htypes, hdirectives, hroots⟩ := hread
  have hunique : Unambiguous (writtenDefinitions scatteredTexts) := ⟨htypes, hdirectives, hroots⟩
  exact ⟨hfaultless, hperm, hunique, ofTexts_reordered _ _ hfaultless hperm hunique⟩

end TypeSystem

end GraphLint
