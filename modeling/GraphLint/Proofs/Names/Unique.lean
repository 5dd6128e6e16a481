import GraphLint.Proofs.Names.Exact
import GraphLint.Proofs.Names.Places

/-!
# Names are declared once

The rules about names together report exactly the complaints that the declarations of a
document deserve, whichever of them is asked first.

Of one name these are the following.  If the schema has it, each declaration is
complained of.  If not, each declaration but the first is, and all of these
complaints blame the first together with the one that is complained of.
-/

set_option autoImplicit false

namespace GraphLint

/-! ## What the wording tells -/

/-- Strings differ if their beginnings do. -/
theorem append_ne_append_of_take {a b : String} (n : Nat) (ha : n ≤ a.toList.length)
    (hb : n ≤ b.toList.length) (h : a.toList.take n ≠ b.toList.take n) (x y : String) :
    a ++ x ≠ b ++ y := by
  intro heq
  have htake := congrArg (fun m : String => m.toList.take n) heq
  simp only [String.toList_append, List.take_append_of_le_length ha,
    List.take_append_of_le_length hb] at htake
  exact h htake

namespace Subject

theorem ruleName_injective : Function.Injective ruleName := by
  intro s s' h
  cases s <;> cases s' <;> first | rfl | exact absurd h (by decide)

theorem alreadyExists_injective (s : Subject) :
    Function.Injective fun text => s.alreadyExists text := by
  intro text text' h
  cases s <;> exact (String.append_right_inj _).mp ((String.append_left_inj _).mp h)

theorem onlyOne_injective (s : Subject) : Function.Injective fun text => s.onlyOne text := by
  intro text text' h
  cases s <;> exact (String.append_right_inj _).mp ((String.append_left_inj _).mp h)

theorem alreadyExists_ne_onlyOne (s : Subject) (text text' : String) :
    s.alreadyExists text ≠ s.onlyOne text' := by
  cases s with
  | directive =>
      show "Directive \"@" ++ text ++ _ ≠ "There can be only one directive named \"@" ++ text' ++ _
      rw [String.append_assoc, String.append_assoc]
      exact append_ne_append_of_take 2 (by decide) (by decide) (by decide) _ _
  | type =>
      show "Type \"" ++ text ++ _ ≠ "There can be only one type named \"" ++ text' ++ _
      rw [String.append_assoc, String.append_assoc]
      exact append_ne_append_of_take 2 (by decide) (by decide) (by decide) _ _

/-- Whether a diagnostic says of a name that it is taken, or that it is declared again. -/
def isSaidOf (s : Subject) (text : String) (e : Diagnostic Extent) : Bool :=
  e.rule = s.ruleName ∧ (e.message = s.alreadyExists text ∨ e.message = s.onlyOne text)

end Subject

/-! ## Complaints about one name -/

namespace Declaration

theorem isSaidOf_taken (s : Subject) (text : String) (x : Declaration) :
    s.isSaidOf text x.taken = x.declares s text := by
  obtain ⟨s', name⟩ := x
  have hnever := s.alreadyExists_ne_onlyOne name.text text
  have hrule := Subject.ruleName_injective.eq_iff (a := s') (b := s)
  have htext := s.alreadyExists_injective.eq_iff (a := name.text) (b := text)
  simp only [Subject.isSaidOf, taken, declares, hrule, decide_eq_decide]
  constructor
  · rintro ⟨rfl, h | h⟩
    · exact ⟨rfl, htext.mp h⟩
    · exact absurd h hnever
  · rintro ⟨rfl, rfl⟩
    exact ⟨rfl, .inl rfl⟩

theorem isSaidOf_again (s : Subject) (text : String) (first x : Declaration) :
    s.isSaidOf text (again first x) = x.declares s text := by
  obtain ⟨s', name⟩ := x
  have hnever := s.alreadyExists_ne_onlyOne text name.text
  have hrule := Subject.ruleName_injective.eq_iff (a := s') (b := s)
  have htext := s.onlyOne_injective.eq_iff (a := name.text) (b := text)
  simp only [Subject.isSaidOf, again, declares, hrule, decide_eq_decide]
  constructor
  · rintro ⟨rfl, h | h⟩
    · exact absurd h.symm hnever
    · exact ⟨rfl, htext.mp h⟩
  · rintro ⟨rfl, rfl⟩
    exact ⟨rfl, .inr rfl⟩

variable {schema : Option TypeSystem} {s : Subject} {text : String}

/-- What is said of a name is said of its declarations. -/
theorem filter_complaint? (before : List Declaration) (x : Declaration) :
    (x.complaint? schema before).toList.filter (s.isSaidOf text) =
      if x.declares s text then (x.complaint? schema before).toList else [] := by
  unfold complaint?
  split
  · simp [List.filter_cons, isSaidOf_taken]
  · cases before.find? (declares x.subject x.name.text) with
    | none => simp
    | some first => simp [List.filter_cons, isSaidOf_again]

/-- Each declaration of a name that the schema has is complained of. -/
theorem filter_complaints_of_isIn (h : schema.any (s.isIn · text) = true) :
    ∀ before xs : List Declaration, (complaints schema before xs).filter (s.isSaidOf text) =
      (xs.filter (declares s text)).map taken
  | _, [] => rfl
  | before, x :: xs => by
      rw [complaints, List.filter_append, filter_complaint?,
        filter_complaints_of_isIn h (before ++ [x]) xs]
      by_cases hx : x.declares s text = true
      · have hcomplaint : x.complaint? schema before = some x.taken := by
          obtain ⟨rfl, rfl⟩ := of_decide_eq_true hx
          exact if_pos h
        rw [if_pos hx, List.filter_cons_of_pos hx, hcomplaint]
        rfl
      · rw [if_neg hx, List.filter_cons_of_neg hx]
        rfl

/-- Behind a declaration of a name that the schema lacks, each further one is complained
of together with the first. -/
theorem filter_complaints_behind (h : schema.any (s.isIn · text) = false) {first : Declaration} :
    ∀ before xs : List Declaration, before.find? (declares s text) = some first →
      (complaints schema before xs).filter (s.isSaidOf text) =
        (xs.filter (declares s text)).map (again first)
  | _, [], _ => rfl
  | before, x :: xs, hfirst => by
      have hnext : (before ++ [x]).find? (declares s text) = some first := by
        rw [List.find?_append, hfirst]
        rfl
      rw [complaints, List.filter_append, filter_complaint?,
        filter_complaints_behind h (before ++ [x]) xs hnext]
      by_cases hx : x.declares s text = true
      · have hcomplaint : x.complaint? schema before = some (again first x) := by
          obtain ⟨rfl, rfl⟩ := of_decide_eq_true hx
          unfold complaint?
          rw [h, hfirst]
          rfl
        rw [if_pos hx, List.filter_cons_of_pos hx, hcomplaint]
        rfl
      · rw [if_neg hx, List.filter_cons_of_neg hx]
        rfl

/-- Each declaration but the first of a name that the schema lacks is complained of. -/
theorem filter_complaints_of_not_isIn (h : schema.any (s.isIn · text) = false) :
    ∀ before xs : List Declaration, before.find? (declares s text) = none →
      (complaints schema before xs).filter (s.isSaidOf text) =
        match xs.filter (declares s text) with
        | [] => []
        | first :: others => others.map (again first)
  | _, [], _ => rfl
  | before, x :: xs, hnone => by
      rw [complaints, List.filter_append, filter_complaint?]
      by_cases hx : x.declares s text = true
      · -- This one is let pass, and is the first one for all that follow.
        have hcomplaint : x.complaint? schema before = none := by
          obtain ⟨rfl, rfl⟩ := of_decide_eq_true hx
          unfold complaint?
          rw [h, hnone]
          rfl
        have hfirst : (before ++ [x]).find? (declares s text) = some x := by
          rw [List.find?_append, hnone, List.find?_cons_of_pos hx]
          rfl
        rw [filter_complaints_behind h (before ++ [x]) xs hfirst, if_pos hx, hcomplaint,
          List.filter_cons_of_pos hx]
        rfl
      · have hnext : (before ++ [x]).find? (declares s text) = none := by
          rw [List.find?_append, hnone, List.find?_cons_of_neg hx]
          rfl
        rw [filter_complaints_of_not_isIn h (before ++ [x]) xs hnext, if_neg hx,
          List.filter_cons_of_neg hx]
        rfl

/-! ## What is complained of -/

/-- A complaint is one about a declaration, behind those that come before it. -/
theorem complaint?_of_mem_complaints {e : Diagnostic Extent} :
    ∀ before xs : List Declaration, e ∈ complaints schema before xs →
      ∃ earlier x later, before ++ xs = earlier ++ x :: later ∧
        x.complaint? schema earlier = some e
  | _, [], he => absurd he List.not_mem_nil
  | before, x :: xs, he => by
      rw [complaints, List.mem_append] at he
      rcases he with he | he
      · exact ⟨before, x, xs, rfl, Option.mem_toList.mp he⟩
      · obtain ⟨earlier, y, later, hsplit, hy⟩ :=
          complaint?_of_mem_complaints (before ++ [x]) xs he
        exact ⟨earlier, y, later, by rw [← hsplit, List.append_assoc]; rfl, hy⟩

/-- It is said that the name is taken, or that an earlier declaration has it. -/
theorem cases_of_complaint? {before : List Declaration} {x : Declaration} {e : Diagnostic Extent}
    (h : x.complaint? schema before = some e) :
    e = x.taken ∨ ∃ first ∈ before, first.declares x.subject x.name.text ∧ e = again first x := by
  unfold complaint? at h
  split at h
  · exact .inl (Option.some.inj h).symm
  · obtain ⟨first, hfirst, rfl⟩ := Option.map_eq_some_iff.mp h
    exact .inr ⟨first, List.mem_of_find?_eq_some hfirst, List.find?_some hfirst, rfl⟩

/-! ## What complaints end in -/

/-- A complaint ends in the name that is complained of. -/
theorem last_complaint? {before : List Declaration} {x : Declaration} {e : Diagnostic Extent}
    (h : x.complaint? schema before = some e) : e.culprits.getLast? = some x.name.culprit := by
  rcases cases_of_complaint? h with rfl | ⟨first, _, _, rfl⟩
  · rfl
  · rfl

/-- Complaints end in names that are declared, one after another. -/
theorem last_complaints :
    ∀ before xs : List Declaration,
      ((complaints schema before xs).map (·.culprits.getLast?)).Sublist
        (xs.map (some ·.name.culprit))
  | _, [] => .slnil
  | before, x :: xs => by
      have hrest := last_complaints (before ++ [x]) xs
      rw [complaints, List.map_append, List.map_cons]
      cases hx : x.complaint? schema before with
      | none => exact hrest.cons _
      | some e =>
          show ((e.culprits.getLast? :: _ : List (Option (Culprit Extent)))).Sublist _
          rw [last_complaint? hx]
          exact hrest.cons_cons _

end Declaration

/-! ## The rules together -/

/-- What the rules about names report of a document, given as a list. -/
structure NamesReported (schema : Option TypeSystem) (d : Document)
    (ds : List (Diagnostic Extent)) : Prop where
  /-- Together they report the list. -/
  reported : runSchemaRules schema Registry.schemaRules d.tree = .ok ds
  /-- It does not matter which of them is asked first. -/
  reordered : runSchemaRules schema Registry.schemaRules.reverse d.tree = .ok ds
  /-- All declarations of a name that the schema has are complained of. -/
  known : ∀ (s : Subject) (text : String), schema.any (s.isIn · text) = true →
    ds.filter (s.isSaidOf text) =
      (d.declarations.filter (Declaration.declares s text)).map Declaration.taken
  /-- All declarations but the first of another name are complained of, together with the
  first. -/
  unknown : ∀ (s : Subject) (text : String), schema.any (s.isIn · text) = false →
    ds.filter (s.isSaidOf text) =
      match d.declarations.filter (Declaration.declares s text) with
      | [] => []
      | first :: others => others.map (Declaration.again first)

theorem orders_directive_type : Orders [.directive, .type] := ⟨by rintro ⟨⟩ <;> rfl⟩

theorem orders_type_directive : Orders [.type, .directive] := ⟨by rintro ⟨⟩ <;> rfl⟩

theorem namesReported (schema : Option TypeSystem) (d : Document) :
    NamesReported schema d (Declaration.complaints schema [] d.declarations) where
  reported := d.runSchemaRules_subjects orders_directive_type
  reordered := d.runSchemaRules_subjects orders_type_directive
  known _ _ h := Declaration.filter_complaints_of_isIn h [] _
  unknown _ _ h := Declaration.filter_complaints_of_not_isIn h [] _ rfl

/-- Of a text that has been read, no two complaints end in the same name. -/
theorem last_complaints_nodup (schema : Option TypeSystem) (text : String) :
    ((Declaration.complaints schema [] (Source.read text).document.declarations).map
      (·.culprits.getLast?)).Nodup := by
  refine (Declaration.last_complaints [] _).nodup ?_
  refine List.pairwise_map.mpr ((Source.declarations_ordered text).imp ?_)
  intro x y hxy heq
  have hculprit : x.name.culprit = y.name.culprit := Option.some.inj heq
  have htoken : x.name.token = y.name.token := congrArg (·.place.first) hculprit
  omega

/-- The rules about names report of each document what its declarations deserve, and of
no text that has been read two complaints that end in the same name. -/
theorem uniqueNames_exact (schema : Option TypeSystem) :
    (∀ d : Document,
      NamesReported schema d (Declaration.complaints schema [] d.declarations)) ∧
    ∀ text : String,
      ((Declaration.complaints schema [] (Source.read text).document.declarations).map
        (·.culprits.getLast?)).Nodup :=
  ⟨namesReported schema, last_complaints_nodup schema⟩

end GraphLint
