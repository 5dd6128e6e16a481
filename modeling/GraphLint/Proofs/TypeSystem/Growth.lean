import GraphLint.TypeSystem.Basic

/-!
# Type systems that grow

A type system grows when types and directives are added to it and members are put
behind those that its types have.  Nothing that was found by name before is lost, and
nothing new gets in front of it: members are looked up from the first one on.

The larger system may well find what the smaller one did not.  `Kept` therefore goes
in one direction only: it says of two look-ups that what the first one finds the second
one finds as well, as something that is related to it.
-/

set_option autoImplicit false

namespace GraphLint

/-! ## What stays found -/

/-- What is found on the left is found on the right, as something related. -/
def Kept {α β : Type} (R : α → β → Prop) (found : Option α) (found' : Option β) : Prop :=
  ∀ a, found = some a → ∃ a', found' = some a' ∧ R a a'

namespace Kept

variable {α β γ δ : Type} {R : α → β → Prop} {Q : γ → δ → Prop}
variable {o : Option α} {o' : Option β}

theorem refl (o : Option α) : Kept Eq o o := fun a h => ⟨a, h, rfl⟩

theorem bind (h : Kept R o o') {f : α → Option γ} {f' : β → Option δ}
    (hf : ∀ a a', R a a' → Kept Q (f a) (f' a')) : Kept Q (o.bind f) (o'.bind f') := by
  intro c hc
  obtain ⟨a, ha, hfa⟩ := Option.bind_eq_some_iff.mp hc
  obtain ⟨a', rfl, hR⟩ := h a ha
  exact hf a a' hR c hfa

theorem map (h : Kept R o o') {f : α → γ} {f' : β → δ} (hf : ∀ a a', R a a' → Q (f a) (f' a')) :
    Kept Q (o.map f) (o'.map f') := by
  intro c hc
  obtain ⟨a, ha, rfl⟩ := Option.map_eq_some_iff.mp hc
  obtain ⟨a', rfl, hR⟩ := h a ha
  exact ⟨f' a', rfl, hf a a' hR⟩

theorem filter (h : Kept R o o') {k : α → Bool} {k' : β → Bool}
    (hk : ∀ a a', R a a' → k a = true → k' a' = true) : Kept R (o.filter k) (o'.filter k') := by
  intro a ha
  obtain ⟨hfound, hka⟩ := Option.filter_eq_some_iff.mp ha
  obtain ⟨a', rfl, hR⟩ := h a hfound
  exact ⟨a', Option.filter_eq_some_iff.mpr ⟨rfl, hk a a' hR hka⟩, hR⟩

theorem eq_some {o o' : Option α} (h : Kept Eq o o') {a : α} (ha : o = some a) :
    o' = some a := by
  obtain ⟨_, h', rfl⟩ := h a ha
  exact h'

/-- What is found in a list is found in a longer one. -/
theorem find? {xs ys : List α} (h : xs <+: ys) (p : α → Bool) : Kept Eq (xs.find? p) (ys.find? p) :=
  fun a ha => ⟨a, h.find?_eq_some ha, rfl⟩

end Kept

/-! ## Members, types, type systems -/

/-- Members that stand in front of others, list by list. -/
structure Members.IsPrefix (a b : Members) : Prop where
  fields : a.fields <+: b.fields
  inputFields : a.inputFields <+: b.inputFields
  interfaces : a.interfaces <+: b.interfaces
  unionMembers : a.unionMembers <+: b.unionMembers
  enumValues : a.enumValues <+: b.enumValues

theorem Members.isPrefix_append (a b : Members) : a.IsPrefix (a.append b) :=
  ⟨List.prefix_append _ _, List.prefix_append _ _, List.prefix_append _ _,
    List.prefix_append _ _, List.prefix_append _ _⟩

/-- A type of the same name and kind, with members behind those there are. -/
structure TypeDef.GrowsInto (t t' : TypeDef) : Prop where
  name : t'.name = t.name
  kind : t'.kind = t.kind
  members : t.members.IsPrefix t'.members

/-- Taking in an extension is growing. -/
theorem TypeDef.growsInto_extend (t ext : TypeDef) : t.GrowsInto (t.extend ext) :=
  ⟨rfl, rfl, t.members.isPrefix_append ext.members⟩

namespace TypeDef.GrowsInto

variable {t t' : TypeDef}

theorem field? (h : t.GrowsInto t') (name : String) : Kept Eq (t.field? name) (t'.field? name) :=
  .find? h.members.fields _

theorem inputField? (h : t.GrowsInto t') (name : String) :
    Kept Eq (t.inputField? name) (t'.inputField? name) :=
  .find? h.members.inputFields _

theorem enumValue? (h : t.GrowsInto t') (name : String) :
    Kept Eq (t.enumValue? name) (t'.enumValue? name) :=
  .find? h.members.enumValues _

theorem isComposite (h : t.GrowsInto t') : t'.isComposite = t.isComposite :=
  congrArg TypeKind.isComposite h.kind

end TypeDef.GrowsInto

/-- A type system with more types, directives and members.  Queries start where they
did; mutations and subscriptions do if they started anywhere. -/
structure TypeSystem.GrowsInto (s s' : TypeSystem) : Prop where
  type : ∀ name, Kept TypeDef.GrowsInto (s.type? name) (s'.type? name)
  directive : ∀ name, Kept Eq (s.directive? name) (s'.directive? name)
  query : s'.roots.query = s.roots.query
  mutation : Kept Eq s.roots.mutation s'.roots.mutation
  subscription : Kept Eq s.roots.subscription s'.roots.subscription

namespace TypeSystem.GrowsInto

variable {s s' : TypeSystem} {ref ref' : Option TypeRef}

theorem root (h : s.GrowsInto s') (kind : OperationKind) :
    Kept Eq (s.roots.get? kind) (s'.roots.get? kind) := by
  cases kind with
  | query =>
      show Kept Eq s.roots.query s'.roots.query
      rw [h.query]
      exact .refl _
  | mutation => exact h.mutation
  | subscription => exact h.subscription

theorem baseType? (h : s.GrowsInto s') (href : Kept Eq ref ref') :
    Kept TypeDef.GrowsInto (ref.bind s.baseType?) (ref'.bind s'.baseType?) := by
  refine href.bind ?_
  rintro r _ rfl
  exact h.type r.baseName

/-- A field stays what it is.  The fields that are not declared come before those that
are, but on the same types as before. -/
theorem field? (h : s.GrowsInto s') (parent field : String) :
    Kept Eq (s.field? parent field) (s'.field? parent field) := by
  refine (h.type parent).bind ?_
  intro t t' ht
  rw [h.query, ht.isComposite]
  split
  · exact .refl _
  split
  · exact .refl _
  split
  · exact .refl _
  · exact ht.field? field

theorem rootType? (h : s.GrowsInto s') (kind : OperationKind) :
    Kept TypeDef.GrowsInto (s.rootType? kind) (s'.rootType? kind) := by
  refine (h.root kind).bind ?_
  rintro name _ rfl
  exact h.type name

end TypeSystem.GrowsInto

end GraphLint
