import GraphLint.TypeSystem.Build
import GraphLint.Proofs.Data.Lists

/-!
# What a builder makes of definitions

A builder goes through documents, through what is built in, and through the
extensions that it has set aside.  In the end there is under each name the first
definition of the name among all that are written and then those built in, its members
followed by those of all extensions of the name (`TypeSystem.type?_ofContribution`).

The builder is not interested in where documents begin and end (`add_add`), so one
document with all definitions stands for any number of them.  The rest is about the
two tables, one insertion (`find?_insertNew`) and one extension (`find?_takeIn`) at a
time.
-/

set_option autoImplicit false

namespace GraphLint

/-! ## Tables that keep the first of each name -/

section

variable {α : Type} {name : α → String}

theorem find?_insertNew (known : List α) (x : α) (text : String) :
    (insertNew name known x).find? (name · = text) = (known ++ [x]).find? (name · = text) := by
  unfold insertNew
  split
  case isFalse => rfl
  case isTrue htaken =>
    rw [List.find?_append]
    obtain ⟨y, hy, hname⟩ := List.any_eq_true.mp htaken
    cases hfirst : known.find? (name · = text) with
    | some first => rfl
    | none =>
        -- What has the name of `x` is known, so this is not the name that is looked up.
        have hyt : name y ≠ text := by simpa using List.find?_eq_none.mp hfirst y hy
        have hxt : name x ≠ text := of_decide_eq_true hname ▸ hyt
        simp [hxt]

/-- A name that is looked up after insertions is found where it stands first. -/
theorem find?_foldl_insertNew (xs known : List α) (text : String) :
    (xs.foldl (insertNew name) known).find? (name · = text) =
      (known ++ xs).find? (name · = text) := by
  induction xs generalizing known with
  | nil => rw [List.foldl_nil, List.append_nil]
  | cons x xs ih =>
      rw [List.foldl_cons, ih, List.find?_append, find?_insertNew, ← List.find?_append,
        List.append_assoc, List.singleton_append]

theorem nodup_insertNew {known : List α} (h : (known.map name).Nodup) (x : α) :
    ((insertNew name known x).map name).Nodup := by
  unfold insertNew
  split
  case isTrue => exact h
  case isFalse hnew =>
    rw [List.map_append, List.map_singleton, List.nodup_append]
    refine ⟨h, List.pairwise_singleton _ _, ?_⟩
    intro a ha b hb hab
    obtain ⟨y, hy, rfl⟩ := List.mem_map.mp ha
    obtain rfl := List.mem_singleton.mp hb
    exact hnew (List.any_eq_true.mpr ⟨y, hy, decide_eq_true hab⟩)

/-- Insertions give no name twice. -/
theorem nodup_foldl_insertNew {known : List α} (h : (known.map name).Nodup) (xs : List α) :
    ((xs.foldl (insertNew name) known).map name).Nodup := by
  induction xs generalizing known with
  | nil => exact h
  | cons x xs ih => exact ih (nodup_insertNew h x)

end

/-! ## Taking in extensions -/

namespace TypeDef

/-- A type with the members of several extensions behind its own. -/
def extendAll (t : TypeDef) (exts : List TypeDef) : TypeDef :=
  { t with
    members :=
      { fields := t.members.fields ++ exts.flatMap (·.members.fields)
        inputFields := t.members.inputFields ++ exts.flatMap (·.members.inputFields)
        interfaces := t.members.interfaces ++ exts.flatMap (·.members.interfaces)
        unionMembers := t.members.unionMembers ++ exts.flatMap (·.members.unionMembers)
        enumValues := t.members.enumValues ++ exts.flatMap (·.members.enumValues) } }

theorem extendAll_nil (t : TypeDef) : t.extendAll [] = t := by
  simp [extendAll]

theorem extendAll_cons (t ext : TypeDef) (exts : List TypeDef) :
    t.extendAll (ext :: exts) = (t.extend ext).extendAll exts := by
  simp [extendAll, extend, Members.append, List.append_assoc]

end TypeDef

/-- An extension reaches the type of its name, and no other. -/
theorem find?_takeIn (types : List TypeDef) (ext : TypeDef) (text : String) :
    (takeIn types ext).find? (·.name = text) =
      (types.find? (·.name = text)).map fun t => if ext.name = text then t.extend ext else t := by
  have hname : (fun t : TypeDef => decide (t.name = text)) ∘
      (fun t => if t.name = ext.name then t.extend ext else t) =
        fun t => decide (t.name = text) := by
    funext t
    simp only [Function.comp_apply]
    split <;> rfl
  unfold takeIn
  rw [List.find?_map, hname]
  refine Option.map_congr ?_
  intro t ht
  have htext : t.name = text := by simpa using List.find?_some ht
  rw [htext]
  simp only [eq_comm]

/-- A type has the members of all extensions of its name in the end. -/
theorem find?_foldl_takeIn (exts types : List TypeDef) (text : String) :
    (exts.foldl takeIn types).find? (·.name = text) =
      (types.find? (·.name = text)).map (·.extendAll (exts.filter (·.name = text))) := by
  induction exts generalizing types with
  | nil => simp [TypeDef.extendAll_nil]
  | cons ext exts ih =>
      rw [List.foldl_cons, ih, find?_takeIn, Option.map_map]
      by_cases hext : ext.name = text
      · simp [Function.comp_def, hext, TypeDef.extendAll_cons]
      · simp [Function.comp_def, hext]

theorem map_name_foldl_takeIn (exts types : List TypeDef) :
    (exts.foldl takeIn types).map (·.name) = types.map (·.name) := by
  induction exts generalizing types with
  | nil => rfl
  | cons ext exts ih =>
      rw [List.foldl_cons, ih, takeIn, List.map_map]
      refine List.map_congr_left ?_
      intro t _
      simp only [Function.comp_apply]
      split <;> rfl

/-- An extension of a type that there is not has no effect. -/
theorem takeIn_of_not_mem {types : List TypeDef} {ext : TypeDef}
    (h : ext.name ∉ types.map (·.name)) : takeIn types ext = types := by
  have hsame : ∀ t ∈ types, (if t.name = ext.name then t.extend ext else t) = t := by
    intro t ht
    have hne : t.name ≠ ext.name := by
      intro heq
      exact h (List.mem_map.mpr ⟨t, ht, heq⟩)
    exact if_neg hne
  exact (List.map_congr_left hsame).trans (List.map_id' types)

/-- Extensions of types that there are not may be left out. -/
theorem foldl_takeIn_filter {exts types : List TypeDef} {keep : TypeDef → Bool}
    (h : ∀ ext ∈ exts, keep ext = false → ext.name ∉ types.map (·.name)) :
    (exts.filter keep).foldl takeIn types = exts.foldl takeIn types := by
  induction exts generalizing types with
  | nil => rfl
  | cons ext exts ih =>
      rw [List.forall_mem_cons] at h
      have hrest : ∀ ext' ∈ exts, keep ext' = false →
          ext'.name ∉ (takeIn types ext).map (·.name) := by
        have hnames := map_name_foldl_takeIn [ext] types
        intro ext' hext' hkeep
        rw [show (takeIn types ext).map (·.name) = types.map (·.name) from hnames]
        exact h.2 ext' hext' hkeep
      cases hkeep : keep ext with
      | true => rw [List.filter_cons_of_pos hkeep, List.foldl_cons, List.foldl_cons, ih hrest]
      | false =>
          rw [List.filter_cons_of_neg (by simp [hkeep]), List.foldl_cons,
            takeIn_of_not_mem (h.1 hkeep), ih h.2]

/-! ## What a builder has seen -/

namespace SchemaBuilder

theorem foldl_addRoot (b : SchemaBuilder) (roots : List (OperationKind × String)) :
    roots.foldl addRoot b =
      { b with roots := roots.foldl (fun named root => named.set root.1 root.2) b.roots } := by
  induction roots generalizing b with
  | nil => rfl
  | cons root roots ih => exact ih (b.addRoot root)

theorem foldl_addDirective (b : SchemaBuilder) (directives : List DirectiveDef) :
    directives.foldl addDirective b =
      { b with directives := directives.foldl (insertNew DirectiveDef.name) b.directives } := by
  induction directives generalizing b with
  | nil => rfl
  | cons d directives ih => exact ih (b.addDirective d)

/-- Types are added and extensions set aside, each kind in order. -/
theorem foldl_addType (b : SchemaBuilder) (types : List TypeDef) :
    types.foldl addType b =
      { b with
        types := (types.filter (!·.isExtension)).foldl (insertNew TypeDef.name) b.types
        extensions := b.extensions ++ types.filter (·.isExtension) } := by
  induction types generalizing b with
  | nil => simp
  | cons t types ih =>
      rw [List.foldl_cons, ih]
      cases ht : t.isExtension <;> simp [addType, ht]

theorem add_eq (b : SchemaBuilder) (c : Contribution) :
    b.add c =
      { types := (c.types.filter (!·.isExtension)).foldl (insertNew TypeDef.name) b.types
        directives := c.directives.foldl (insertNew DirectiveDef.name) b.directives
        extensions := b.extensions ++ c.types.filter (·.isExtension)
        roots := c.roots.foldl (fun named root => named.set root.1 root.2) b.roots
        definesSchema := b.definesSchema || c.definesSchema } := by
  unfold add
  simp only [foldl_addRoot, foldl_addType, foldl_addDirective]

/-- It makes no difference where one document ends and the next one begins. -/
theorem add_add (b : SchemaBuilder) (before behind : List Definition) :
    (b.add (.ofDefinitions before)).add (.ofDefinitions behind) =
      b.add (.ofDefinitions (before ++ behind)) := by
  simp [add_eq, Contribution.ofDefinitions, Bool.or_assoc]

theorem foldl_add (documents : List Document) (b : SchemaBuilder) :
    documents.foldl (fun b d => b.add (.ofDefinitions d.definitions)) b =
      b.add (.ofDefinitions (documents.flatMap (·.definitions))) := by
  induction documents generalizing b with
  | nil => simp [add_eq, Contribution.ofDefinitions]
  | cons d documents ih => rw [List.foldl_cons, ih, add_add, List.flatMap_cons]

@[simp] theorem types_addDefaultRoots (b : SchemaBuilder) : b.addDefaultRoots.types = b.types := by
  unfold addDefaultRoots
  split <;> rfl

@[simp] theorem directives_addDefaultRoots (b : SchemaBuilder) :
    b.addDefaultRoots.directives = b.directives := by
  unfold addDefaultRoots
  split <;> rfl

theorem types_build (b : SchemaBuilder) :
    b.build.types = b.extensions.foldl takeIn b.addBuiltins.types := by
  simp only [build, types_addDefaultRoots, takeInExtensions, addBuiltins]

theorem directives_build (b : SchemaBuilder) :
    b.build.directives =
      Builtin.directives.foldl (insertNew DirectiveDef.name) b.directives := by
  simp only [build, directives_addDefaultRoots, takeInExtensions, addBuiltins]

/-- A builder may forget extensions of types that it does not have. -/
theorem build_forget (b : SchemaBuilder) {keep : TypeDef → Bool}
    (h : ∀ ext ∈ b.extensions, keep ext = false → ext.name ∉ b.addBuiltins.types.map (·.name)) :
    ({ b with extensions := b.extensions.filter keep } : SchemaBuilder).build = b.build := by
  have hpass : ({ b with extensions := b.extensions.filter keep } :
      SchemaBuilder).addBuiltins.takeInExtensions = b.addBuiltins.takeInExtensions := by
    have htypes := foldl_takeIn_filter h
    simp only [takeInExtensions, addBuiltins] at htypes ⊢
    rw [htypes]
  rw [build, build, hpass]

end SchemaBuilder

/-! ## What definitions make up -/

/-- The types that are defined, those built in behind all that are written. -/
def definedTypes (definitions : List Definition) : List TypeDef :=
  (definitions.filterMap Definition.typeDef?).filter (!·.isExtension) ++ Builtin.types

/-- The directives that are defined, those built in behind all that are written. -/
def definedDirectives (definitions : List Definition) : List DirectiveDef :=
  definitions.filterMap Definition.directiveDef? ++ Builtin.directives

/-- The extensions of a type. -/
def extensionsOf (definitions : List Definition) (text : String) : List TypeDef :=
  (definitions.filterMap Definition.typeDef?).filter fun t => t.isExtension && t.name = text

namespace TypeSystem

/-- The type system that a contribution makes up. -/
def ofContribution (c : Contribution) : TypeSystem := (SchemaBuilder.empty.add c).build

theorem ofDocuments_eq (documents : List Document) :
    ofDocuments documents =
      ofContribution (.ofDefinitions (documents.flatMap (·.definitions))) :=
  congrArg SchemaBuilder.build (SchemaBuilder.foldl_add documents .empty)

section

variable (definitions : List Definition)

/-- The types that a builder has when all has been written, without their extensions. -/
theorem types_addBuiltins :
    (SchemaBuilder.empty.add (.ofDefinitions definitions)).addBuiltins.types =
      (definedTypes definitions).foldl (insertNew TypeDef.name) [] := by
  have hbuiltin : (definedTypes definitions).foldl (insertNew TypeDef.name) [] =
      Builtin.types.foldl (insertNew TypeDef.name) (_ : List TypeDef) := List.foldl_append
  rw [hbuiltin, SchemaBuilder.add_eq]
  simp only [SchemaBuilder.addBuiltins]
  rfl

theorem types_ofContribution :
    (ofContribution (.ofDefinitions definitions)).types =
      ((definitions.filterMap Definition.typeDef?).filter (·.isExtension)).foldl takeIn
        ((definedTypes definitions).foldl (insertNew TypeDef.name) []) := by
  rw [ofContribution, SchemaBuilder.types_build, types_addBuiltins]
  rw [SchemaBuilder.add_eq]
  rfl

theorem directives_ofContribution :
    (ofContribution (.ofDefinitions definitions)).directives =
      (definedDirectives definitions).foldl (insertNew DirectiveDef.name) [] := by
  have hbuiltin : (definedDirectives definitions).foldl (insertNew DirectiveDef.name) [] =
      Builtin.directives.foldl (insertNew DirectiveDef.name) (_ : List DirectiveDef) :=
    List.foldl_append
  rw [hbuiltin, ofContribution, SchemaBuilder.add_eq, SchemaBuilder.directives_build]
  rfl

theorem type?_ofContribution (text : String) :
    (ofContribution (.ofDefinitions definitions)).type? text =
      ((definedTypes definitions).find? (·.name = text)).map
        (·.extendAll (extensionsOf definitions text)) := by
  rw [type?, types_ofContribution, find?_foldl_takeIn, find?_foldl_insertNew, List.filter_filter,
    List.nil_append]
  simp only [extensionsOf, Bool.and_comm]

/-- Types that are defined are no extensions. -/
theorem isExtension_of_mem_definedTypes {t : TypeDef} (ht : t ∈ definedTypes definitions) :
    t.isExtension = false := by
  rcases List.mem_append.mp ht with ht | ht
  · simpa using (List.mem_filter.mp ht).2
  · have hbuiltin : ∀ t ∈ Builtin.types, t.isExtension = false := by
      simp [Builtin.types, Builtin.scalar, Builtin.object, Builtin.enum]
    exact hbuiltin t ht

/-- The table of what is defined has the names that are defined. -/
theorem mem_map_name_insertNew {α : Type} {name : α → String} (xs : List α) (text : String) :
    text ∈ (xs.foldl (insertNew name) []).map name ↔ text ∈ xs.map name := by
  have hfind : (xs.foldl (insertNew name) []).find? (name · = text) = _ :=
    find?_foldl_insertNew xs [] text
  have hsome := congrArg Option.isSome hfind
  rw [List.nil_append, Bool.eq_iff_iff, List.find?_isSome, List.find?_isSome] at hsome
  simpa using hsome

/-! ### The names that there are -/

/-- No two types have one name. -/
theorem nodup_types : ((ofContribution (.ofDefinitions definitions)).types.map (·.name)).Nodup := by
  rw [types_ofContribution, map_name_foldl_takeIn]
  refine nodup_foldl_insertNew ?_ _
  exact List.nodup_nil

/-- There is a type of each name that is defined, and of no other. -/
theorem mem_types_iff (text : String) :
    text ∈ (ofContribution (.ofDefinitions definitions)).types.map (·.name) ↔
      text ∈ (definedTypes definitions).map (·.name) := by
  rw [types_ofContribution, map_name_foldl_takeIn]
  exact mem_map_name_insertNew _ text

/-- No two directives have one name. -/
theorem nodup_directives :
    ((ofContribution (.ofDefinitions definitions)).directives.map (·.name)).Nodup := by
  rw [directives_ofContribution]
  refine nodup_foldl_insertNew ?_ _
  exact List.nodup_nil

/-- A directive is its first definition. -/
theorem directive?_ofContribution (text : String) :
    (ofContribution (.ofDefinitions definitions)).directive? text =
      (definedDirectives definitions).find? (·.name = text) := by
  rw [directive?, directives_ofContribution, find?_foldl_insertNew, List.nil_append]

end

end TypeSystem

/-! ## Texts -/

/-- The definitions that texts write, one text after another. -/
def writtenDefinitions (texts : List (String × String)) : List Definition :=
  texts.flatMap fun t => (Source.read t.2).document.definitions

namespace TypeSystem

theorem readSchema_eq_ok {path text : String} (h : (Source.read text).isWellFormed = true) :
    readSchema path text = .ok (Source.read text).document :=
  if_pos h

/-- Texts without faults make up what their documents make up. -/
theorem ofTexts_eq_ok {texts : List (String × String)}
    (h : ∀ t ∈ texts, (Source.read t.2).isWellFormed = true) :
    ofTexts texts = .ok (ofDocuments (texts.map fun t => (Source.read t.2).document)) := by
  have hread : texts.mapM (fun t : String × String => readSchema t.1 t.2) =
      .ok (texts.map fun t => (Source.read t.2).document) := by
    induction texts with
    | nil => rfl
    | cons t texts ih =>
        rw [List.forall_mem_cons] at h
        rw [List.mapM_cons, readSchema_eq_ok h.1, ih h.2]
        rfl
  show (texts.mapM _ >>= _) = _
  rw [hread]
  rfl

theorem ofTexts_eq_ofContribution {texts : List (String × String)}
    (h : ∀ t ∈ texts, (Source.read t.2).isWellFormed = true) :
    ofTexts texts = .ok (ofContribution (.ofDefinitions (writtenDefinitions texts))) := by
  rw [ofTexts_eq_ok h, ofDocuments_eq, List.flatMap_map]
  rfl

end TypeSystem

end GraphLint
