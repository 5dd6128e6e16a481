import GraphLint.Source.Lexer
import GraphLint.TypeSyntax

/-!
# Types in writing

What stands last in the written form of a reference, a bang, a bracket or a part of a name,
tells its outermost wrapper.  So a reference is known by its written form
(`TypeRef.render_injective`).

Both ways to lower a written type lead to the same reference, or both to none
(`TypeSyntax.map_ref_expression?`).  Expressions are the types of the grammar.  What they
refer to has no wrapper in vain, and its written form is the tokens of the expression
without anything between them (`TypeExpression.render_ref`).
-/

set_option autoImplicit false

namespace GraphLint

/-! ## Names -/

namespace Lexer

/-- The text is a name of the language. -/
def IsName (text : String) : Prop :=
  ∃ c more, text.toList = c :: more ∧ isNameStart c = true ∧ ∀ d ∈ more, isNameContinue d = true

theorem isNameContinue_of_isNameStart {c : Char} (h : isNameStart c = true) :
    isNameContinue c = true := by
  unfold isNameStart at h
  unfold isNameContinue Char.isAlphanum
  rcases Bool.or_eq_true_iff.mp h with h | h <;> simp [h]

theorem IsName.isNameContinue {text : String} (h : IsName text) :
    ∀ c ∈ text.toList, isNameContinue c = true := by
  obtain ⟨c, more, htext, hc, hmore⟩ := h
  rw [htext]
  exact List.forall_mem_cons.mpr ⟨isNameContinue_of_isNameStart hc, hmore⟩

end Lexer

/-! ## Written forms -/

namespace TypeRef

theorem toList_render_list (item : TypeRef) :
    (list item).render.toList = '[' :: (item.render.toList ++ [']']) := by
  simp [render]

theorem toList_render_nonNull (inner : TypeRef) :
    (nonNull inner).render.toList = inner.render.toList ++ ['!'] := by
  simp [render]

theorem name_ne_list {name : String} (h : Lexer.IsName name) (item : TypeRef) :
    name ≠ (list item).render := by
  rintro rfl
  have hbracket : '[' ∈ (list item).render.toList := by
    rw [toList_render_list]
    exact List.mem_cons_self
  exact absurd (h.isNameContinue '[' hbracket) (by decide)

theorem name_ne_nonNull {name : String} (h : Lexer.IsName name) (inner : TypeRef) :
    name ≠ (nonNull inner).render := by
  rintro rfl
  have hbang : '!' ∈ (nonNull inner).render.toList := by
    rw [toList_render_nonNull]
    exact List.mem_concat_self
  exact absurd (h.isNameContinue '!' hbang) (by decide)

theorem list_ne_nonNull (item inner : TypeRef) : (list item).render ≠ (nonNull inner).render := by
  intro h
  have hlast : (list item).render.toList.getLast? = (nonNull inner).render.toList.getLast? := by
    rw [h]
  rw [toList_render_list, toList_render_nonNull, ← List.cons_append, List.getLast?_concat,
    List.getLast?_concat] at hlast
  exact absurd hlast (by decide)

/-- References with names of the language are told apart by how they are written. -/
theorem render_injective {a b : TypeRef} (ha : Lexer.IsName a.baseName)
    (hb : Lexer.IsName b.baseName) (h : a.render = b.render) : a = b := by
  induction a generalizing b with
  | named name =>
      cases b with
      | named other => exact congrArg named h
      | list item => exact absurd h (name_ne_list ha item)
      | nonNull inner => exact absurd h (name_ne_nonNull ha inner)
  | list item ih =>
      cases b with
      | named other => exact absurd h.symm (name_ne_list hb item)
      | list item' =>
          rw [render, render, String.append_left_inj, String.append_right_inj] at h
          rw [ih (b := item') ha hb h]
      | nonNull inner => exact absurd h (list_ne_nonNull item inner)
  | nonNull inner ih =>
      cases b with
      | named other => exact absurd h.symm (name_ne_nonNull hb inner)
      | list item => exact absurd h.symm (list_ne_nonNull item inner)
      | nonNull inner' =>
          rw [render, render, String.append_left_inj] at h
          rw [ih (b := inner') ha hb h]

/-- No non-null wrapper stands directly inside another. -/
def IsPlain : TypeRef → Prop
  | named _ => True
  | list item => item.IsPlain
  | nonNull inner => inner.isNonNull = false ∧ inner.IsPlain

end TypeRef

/-! ## Expressions -/

namespace TypeExpression

/-- The tokens that write an expression. -/
def tokens : TypeExpression → List Token
  | named name => [.name name]
  | nonNullNamed name => [.name name, .punctuator .bang]
  | list item => .punctuator .bracketOpen :: (item.tokens ++ [.punctuator .bracketClose])
  | nonNullList item =>
    .punctuator .bracketOpen :: (item.tokens ++ [.punctuator .bracketClose, .punctuator .bang])

/-- How many brackets stand around the name. -/
def depth : TypeExpression → Nat
  | named _ | nonNullNamed _ => 0
  | list item | nonNullList item => item.depth + 1

/-- The expression as it stands in a text. -/
def written : TypeExpression → TypeSyntax
  | named name => .named (some name)
  | nonNullNamed name => .nonNull (.named (some name))
  | list item => .list item.written
  | nonNullList item => .nonNull (.list item.written)

theorem isPlain_ref (e : TypeExpression) : e.ref.IsPlain := by
  induction e with
  | named name => trivial
  | nonNullNamed name => exact ⟨rfl, trivial⟩
  | list item ih => exact ih
  | nonNullList item ih => exact ⟨rfl, ih⟩

theorem render_ref (e : TypeExpression) :
    e.ref.render = String.join (e.tokens.map Token.text) := by
  induction e with
  | named name => simp [ref, TypeRef.render, tokens, Token.text]
  | nonNullNamed name =>
      simp [ref, TypeRef.render, tokens, Token.text, Punctuator.text]
  | list item ih =>
      simp [ref, TypeRef.render, tokens, Token.text, Punctuator.text, ih, String.append_assoc]
  | nonNullList item ih =>
      simp [ref, TypeRef.render, tokens, Token.text, Punctuator.text, ih, String.append_assoc]

theorem expression?_written (e : TypeExpression) : e.written.expression? = some e := by
  induction e with
  | named name => rfl
  | nonNullNamed name => rfl
  | list item ih => rw [written, TypeSyntax.expression?, ih, Option.map_some]
  | nonNullList item ih => rw [written, TypeSyntax.expression?, ih, Option.map_some]

end TypeExpression

/-- Whatever stands in a text, with gaps or without, both ways to lower it agree. -/
theorem TypeSyntax.map_ref_expression? (s : TypeSyntax) : s.expression?.map (·.ref) = s.ref? := by
  induction s using TypeSyntax.ref?.induct with
  | case1 => rfl
  | case2 name => cases name <;> rfl
  | case3 item ih =>
      rw [ref?, expression?, ← ih, Option.map_map, Option.map_map]
      rfl
  | case4 name => cases name <;> rfl
  | case5 item ih =>
      rw [ref?, expression?, ← ih, Option.map_map, Option.map_map]
      rfl
  | case6 inner hnamed hlist =>
      cases inner with
      | named name => exact absurd rfl (hnamed name)
      | list item => exact absurd rfl (hlist item)
      | _ => rfl

theorem TypeExpression.ref?_written (e : TypeExpression) : e.written.ref? = some e.ref := by
  rw [← e.written.map_ref_expression?, e.expression?_written, Option.map_some]

end GraphLint
