import GraphLint.Proofs.Data.Lists
import GraphLint.TypeSystem.Definition

/-!
# What definitions state

A definition of a type states the kind and the description of the type, and its members one
by one.  The relations of this module say so of the syntax alone, with one constructor for
each kind of body.  They hold of definitions that leave nothing out.

Lowering makes of a definition what it states (`TypeDefinition.States.ofSyntax?_eq`), so no
definition states two things.  Whether there is anything that it states depends on its names
and on its types, which have to be there.
-/

set_option autoImplicit false

namespace GraphLint

/-! ## Types -/

/-- What a written type refers to: its name, with the brackets and bangs around it. -/
inductive TypeSyntax.Refers : TypeSyntax → TypeRef → Prop
  | named (name : String) : Refers (.named (some name)) (.named name)
  | list {item : TypeSyntax} {ref : TypeRef} (inside : Refers item ref) :
    Refers (.list item) (.list ref)
  | nonNullNamed (name : String) : Refers (.nonNull (.named (some name))) (.nonNull (.named name))
  | nonNullList {item : TypeSyntax} {ref : TypeRef} (inside : Refers item ref) :
    Refers (.nonNull (.list item)) (.nonNull (.list ref))

theorem TypeSyntax.Refers.map_expression? {t : TypeSyntax} {ref : TypeRef} (h : t.Refers ref) :
    t.expression?.map (·.ref) = some ref := by
  induction h with
  | named name => rfl
  | list _ ih =>
      obtain ⟨e, he, rfl⟩ := Option.map_eq_some_iff.mp ih
      rw [expression?, he]
      rfl
  | nonNullNamed name => rfl
  | nonNullList _ ih =>
      obtain ⟨e, he, rfl⟩ := Option.map_eq_some_iff.mp ih
      rw [expression?, he]
      rfl

/-! ## Deprecations -/

/-- An argument gives a reason: it is named so, and its value is a string. -/
def Argument.GivesReason (a : Argument) (text : String) : Prop :=
  a.name.text = "reason" ∧ ∃ extent, a.value = .string extent text

/-- The reason that arguments give: the first one given, or the default one. -/
inductive Argument.Reason : List Argument → String → Prop
  | given {before behind : List Argument} {a : Argument} {text : String}
    (first : ∀ b ∈ before, ∀ other, ¬b.GivesReason other) (gives : a.GivesReason text) :
    Reason (before ++ a :: behind) text
  | default {arguments : List Argument} (nowhere : ∀ a ∈ arguments, ∀ text, ¬a.GivesReason text) :
    Reason arguments defaultDeprecationReason

/-- A directive that deprecates what it is used on. -/
def Directive.IsDeprecated (d : Directive) : Prop := ∃ n, d.name = some n ∧ n.text = "deprecated"

/-- Why directives deprecate what they are used on, if they do.  The first use decides. -/
inductive Directive.Deprecate : List Directive → Option String → Prop
  | nowhere {uses : List Directive} (none : ∀ d ∈ uses, ¬d.IsDeprecated) : Deprecate uses .none
  | used {before behind : List Directive} {d : Directive} {reason : String}
    (first : ∀ e ∈ before, ¬e.IsDeprecated) (use : d.IsDeprecated)
    (given : Argument.Reason d.arguments reason) : Deprecate (before ++ d :: behind) (some reason)

theorem Argument.deprecationReason?_eq_some_iff {a : Argument} {text : String} :
    a.deprecationReason? = some text ↔ a.GivesReason text := by
  rw [deprecationReason?, GivesReason]
  cases a.value <;> simp

theorem Argument.deprecationReason?_eq_none_iff {a : Argument} :
    a.deprecationReason? = none ↔ ∀ text, ¬a.GivesReason text := by
  simp only [← deprecationReason?_eq_some_iff, Option.eq_none_iff_forall_ne_some, ne_eq]

theorem Argument.Reason.eq {arguments : List Argument} {reason : String}
    (h : Reason arguments reason) :
    (arguments.findSome? deprecationReason?).getD defaultDeprecationReason = reason := by
  cases h with
  | given first gives =>
      have hbefore := List.findSome?_eq_none_iff.mpr fun b hb =>
        deprecationReason?_eq_none_iff.mpr (first b hb)
      rw [List.findSome?_append, hbefore,
        List.findSome?_cons_of_isSome (by simp [deprecationReason?_eq_some_iff.mpr gives]),
        deprecationReason?_eq_some_iff.mpr gives]
      rfl
  | default nowhere =>
      have hnone := List.findSome?_eq_none_iff.mpr fun a ha =>
        deprecationReason?_eq_none_iff.mpr (nowhere a ha)
      rw [hnone]
      rfl

theorem Argument.reason_findSome? (arguments : List Argument) :
    Reason arguments
      ((arguments.findSome? deprecationReason?).getD defaultDeprecationReason) := by
  cases hfirst : arguments.findSome? deprecationReason? with
  | none =>
      have hnone := List.findSome?_eq_none_iff.mp hfirst
      exact .default fun a ha => deprecationReason?_eq_none_iff.mp (hnone a ha)
  | some text =>
      obtain ⟨before, a, behind, rfl, ha, hbefore⟩ := List.findSome?_eq_some_iff.mp hfirst
      exact .given (fun b hb => deprecationReason?_eq_none_iff.mp (hbefore b hb))
        (deprecationReason?_eq_some_iff.mp ha)

theorem Directive.isDeprecated_iff {d : Directive} :
    d.name.any (·.text = "deprecated") = true ↔ d.IsDeprecated := by
  rw [IsDeprecated]
  cases d.name <;> simp

theorem Directive.Deprecate.eq {uses : List Directive} {reason : Option String}
    (h : Deprecate uses reason) : deprecation? uses = reason := by
  rw [deprecation?]
  cases h with
  | nowhere none =>
      have hnone : uses.find? (fun d => d.name.any (·.text = "deprecated")) = Option.none :=
        List.find?_eq_none.mpr fun d hd => fun h => none d hd (isDeprecated_iff.mp h)
      rw [hnone]
      rfl
  | @used before behind d reason first use given =>
      have hbefore : before.find? (fun d => d.name.any (·.text = "deprecated")) = none :=
        List.find?_eq_none.mpr fun e he => fun h => first e he (isDeprecated_iff.mp h)
      have hhere : (d :: behind).find? (fun d => d.name.any (·.text = "deprecated")) = some d :=
        List.find?_cons_of_pos (isDeprecated_iff.mpr use)
      rw [List.find?_append, hbefore, hhere]
      exact congrArg some given.eq

theorem Directive.deprecate_deprecation? (uses : List Directive) :
    Deprecate uses (deprecation? uses) := by
  rw [deprecation?]
  cases hfirst : uses.find? fun d => d.name.any (·.text = "deprecated") with
  | none =>
      have hnone := List.find?_eq_none.mp hfirst
      exact .nowhere fun d hd h => hnone d hd (isDeprecated_iff.mpr h)
  | some d =>
      obtain ⟨hd, before, behind, rfl, hbefore⟩ := List.find?_eq_some_iff_append.mp hfirst
      refine .used (fun e he h => ?_) (isDeprecated_iff.mp hd) (Argument.reason_findSome? _)
      have hnot := hbefore e he
      rw [isDeprecated_iff.mpr h] at hnot
      cases hnot

/-! ## Default values -/

/-- The default value that a definition gives: what is written, as it is printed. -/
inductive Value.Default : Value → Option String → Prop
  | missing : Default .missing none
  | given {v : Value} (h : v ≠ .missing) : Default v (some (v.render 0))

theorem Value.default_iff {v : Value} {text : Option String} :
    v.Default text ↔ v.printed? = text := by
  constructor
  · rintro (_ | h)
    · rfl
    · cases v with
      | missing => exact absurd rfl h
      | _ => rfl
  · rintro rfl
    cases v with
    | missing => exact .missing
    | _ => exact .given nofun

/-! ## Members -/

/-- What the definition of an argument or of an input field states. -/
structure InputValueDefinition.States (d : InputValueDefinition) (i : InputDef) : Prop where
  name : d.name.map (·.text) = some i.name
  type : d.typeSyntax.Refers i.type
  default : d.default.Default i.default
  description : i.description = d.description
  deprecation : Directive.Deprecate d.directives i.deprecation

/-- What the definition of a field states, argument by argument. -/
structure FieldDefinition.States (d : FieldDefinition) (f : FieldDef) : Prop where
  name : d.name.map (·.text) = some f.name
  type : d.typeSyntax.Refers f.type
  arguments : List.Forall₂ InputValueDefinition.States d.arguments f.arguments
  description : f.description = d.description
  deprecation : Directive.Deprecate d.directives f.deprecation

/-- What the definition of an enum value states. -/
structure EnumValueDefinition.States (d : EnumValueDefinition) (v : EnumValueDef) : Prop where
  name : d.name.map (·.text) = some v.name
  description : v.description = d.description
  deprecation : Directive.Deprecate d.directives v.deprecation

/-- The kind that a body belongs to, and the members that it adds to the type.  Lists that the
kind does not have are empty. -/
inductive TypeBody.States : TypeBody → TypeKind → Members → Prop
  | object {interfaces : List Name} {written : List FieldDefinition} {fields : List FieldDef}
    (stated : List.Forall₂ FieldDefinition.States written fields) :
    States (.object interfaces written) .object ⟨fields, [], interfaces.map (·.text), [], []⟩
  | interface {interfaces : List Name} {written : List FieldDefinition} {fields : List FieldDef}
    (stated : List.Forall₂ FieldDefinition.States written fields) :
    States (.interface interfaces written) .interface ⟨fields, [], interfaces.map (·.text), [], []⟩
  | union (members : List Name) :
    States (.union members) .union ⟨[], [], [], members.map (·.text), []⟩
  | enum {written : List EnumValueDefinition} {values : List EnumValueDef}
    (stated : List.Forall₂ EnumValueDefinition.States written values) :
    States (.enum written) .enum ⟨[], [], [], [], values⟩
  | scalar : States .scalar .scalar ⟨[], [], [], [], []⟩
  | inputObject {written : List InputValueDefinition} {fields : List InputDef}
    (stated : List.Forall₂ InputValueDefinition.States written fields) :
    States (.inputObject written) .inputObject ⟨[], fields, [], [], []⟩

/-! ## Definitions -/

/-- What a type definition or extension states. -/
structure TypeDefinition.States (d : TypeDefinition) (t : TypeDef) : Prop where
  name : d.name.map (·.text) = some t.name
  description : t.description = d.description
  body : d.body.States t.kind t.members
  isExtension : t.isExtension = d.isExtension

/-- What a directive definition states, argument by argument. -/
structure DirectiveDefinition.States (d : DirectiveDefinition) (r : DirectiveDef) : Prop where
  name : d.name.map (·.text) = some r.name
  description : r.description = d.description
  arguments : List.Forall₂ InputValueDefinition.States d.arguments r.arguments
  isRepeatable : r.isRepeatable = d.isRepeatable
  locations : r.locations = d.locations

/-! ## Lowering gives what is stated -/

theorem InputValueDefinition.States.ofSyntax?_eq {d : InputValueDefinition} {i : InputDef}
    (h : d.States i) : InputDef.ofSyntax? d = some i := by
  obtain ⟨n, hn, hname⟩ := Option.map_eq_some_iff.mp h.name
  have htype : d.type = some i.type := h.type.map_expression?
  rw [InputDef.ofSyntax?, hn, htype, Value.default_iff.mp h.default, h.deprecation.eq,
    ← h.description]
  exact congrArg (fun name => some { i with name }) hname

theorem FieldDefinition.States.ofSyntax?_eq {d : FieldDefinition} {f : FieldDef}
    (h : d.States f) : FieldDef.ofSyntax? d = some f := by
  obtain ⟨n, hn, hname⟩ := Option.map_eq_some_iff.mp h.name
  have htype : d.type = some f.type := h.type.map_expression?
  have harguments := filterMap_eq_of_forall₂ h.arguments fun _ _ => (·.ofSyntax?_eq)
  rw [FieldDef.ofSyntax?, hn, htype, harguments, h.deprecation.eq, ← h.description]
  exact congrArg (fun name => some { f with name }) hname

theorem EnumValueDefinition.States.ofSyntax?_eq {d : EnumValueDefinition} {v : EnumValueDef}
    (h : d.States v) : EnumValueDef.ofSyntax? d = some v := by
  obtain ⟨n, hn, hname⟩ := Option.map_eq_some_iff.mp h.name
  rw [EnumValueDef.ofSyntax?, hn, h.deprecation.eq, ← h.description, Option.map_some, hname]

theorem TypeBody.States.kind_eq {b : TypeBody} {kind : TypeKind} {own : Members}
    (h : b.States kind own) : b.kind = kind := by
  cases h <;> rfl

theorem TypeBody.States.ofSyntax_eq {b : TypeBody} {kind : TypeKind} {own : Members}
    (h : b.States kind own) : Members.ofSyntax b = own := by
  cases h with
  | object stated | interface stated =>
      rw [Members.ofSyntax, filterMap_eq_of_forall₂ stated fun _ _ => (·.ofSyntax?_eq)]
      rfl
  | enum stated | inputObject stated =>
      rw [Members.ofSyntax, filterMap_eq_of_forall₂ stated fun _ _ => (·.ofSyntax?_eq)]
      rfl
  | union members => rfl
  | scalar => rfl

theorem TypeDefinition.States.ofSyntax?_eq {d : TypeDefinition} {t : TypeDef}
    (h : d.States t) : TypeDef.ofSyntax? d = some t := by
  obtain ⟨n, hn, hname⟩ := Option.map_eq_some_iff.mp h.name
  rw [TypeDef.ofSyntax?, hn, h.body.kind_eq, h.body.ofSyntax_eq, ← h.description, ← h.isExtension,
    Option.map_some, hname]

theorem DirectiveDefinition.States.ofSyntax?_eq {d : DirectiveDefinition} {r : DirectiveDef}
    (h : d.States r) : DirectiveDef.ofSyntax? d = some r := by
  obtain ⟨n, hn, hname⟩ := Option.map_eq_some_iff.mp h.name
  have harguments := filterMap_eq_of_forall₂ h.arguments fun _ _ => (·.ofSyntax?_eq)
  rw [DirectiveDef.ofSyntax?, hn, harguments, ← h.description, ← h.isRepeatable, ← h.locations,
    Option.map_some, hname]

/-! ## What states something -/

theorem InputValueDefinition.exists_states {d : InputValueDefinition} {n : Name} {ref : TypeRef}
    (hname : d.name = some n) (htype : d.typeSyntax.Refers ref) : ∃ i, d.States i :=
  ⟨⟨n.text, ref, d.default.printed?, d.description, deprecation? d.directives⟩,
    { name := congrArg _ hname
      type := htype
      default := Value.default_iff.mpr rfl
      description := rfl
      deprecation := Directive.deprecate_deprecation? _ }⟩

theorem FieldDefinition.exists_states {d : FieldDefinition} {n : Name} {ref : TypeRef}
    (hname : d.name = some n) (htype : d.typeSyntax.Refers ref)
    (harguments : ∀ a ∈ d.arguments, ∃ i, a.States i) : ∃ f, d.States f := by
  obtain ⟨arguments, hstated⟩ := exists_forall₂ harguments
  exact ⟨⟨n.text, ref, arguments, d.description, deprecation? d.directives⟩,
    { name := congrArg _ hname
      type := htype
      arguments := hstated
      description := rfl
      deprecation := Directive.deprecate_deprecation? _ }⟩

theorem EnumValueDefinition.exists_states {d : EnumValueDefinition} {n : Name}
    (hname : d.name = some n) : ∃ v, d.States v :=
  ⟨⟨n.text, d.description, deprecation? d.directives⟩,
    { name := congrArg _ hname
      description := rfl
      deprecation := Directive.deprecate_deprecation? _ }⟩

theorem TypeDefinition.exists_states {d : TypeDefinition} {n : Name} {kind : TypeKind}
    {own : Members} (hname : d.name = some n) (hbody : d.body.States kind own) :
    ∃ t, d.States t :=
  ⟨⟨n.text, kind, d.description, own, d.isExtension⟩,
    { name := congrArg _ hname
      description := rfl
      body := hbody
      isExtension := rfl }⟩

theorem DirectiveDefinition.exists_states {d : DirectiveDefinition} {n : Name}
    (hname : d.name = some n) (harguments : ∀ a ∈ d.arguments, ∃ i, a.States i) :
    ∃ r, d.States r := by
  obtain ⟨arguments, hstated⟩ := exists_forall₂ harguments
  exact ⟨⟨n.text, d.description, arguments, d.isRepeatable, d.locations⟩,
    { name := congrArg _ hname
      description := rfl
      arguments := hstated
      isRepeatable := rfl
      locations := rfl }⟩

/-- A definition leaves nothing out of what it is there to state.  Definitions of other things
than types and directives state nothing that a type system keeps. -/
def Definition.IsStated : Definition → Prop
  | .type d => ∃ t, d.States t
  | .directive d => ∃ r, d.States r
  | _ => True

end GraphLint
