import GraphLint.Proofs.Source.Places
import GraphLint.Proofs.Types.Rendering

/-!
# Reading types

The production for types takes the tokens of an expression wherever they stand, as long as no
bang goes on behind them, and reads the expression (`Grammar.run_typeSyntax`).  If there are
more brackets than levels left, there is a gap in what it reads (`Grammar.ref?_of_deep`).

The written form of a reference is cut into the tokens of its expression
(`TypeExpression.cuts`), so it is read as the expression is.
-/

set_option autoImplicit false

namespace GraphLint

/-! ## Taking tokens -/

namespace Cursor

/-- The tokens ahead. -/
def tokens (c : Cursor) : List Token := c.ahead.map (·.token)

/-- The place behind the next few tokens. -/
def past (c : Cursor) (count : Nat) : Cursor :=
  { c with ahead := c.ahead.drop count, index := c.index + count }

theorem tokens_past (c : Cursor) (count : Nat) : (c.past count).tokens = c.tokens.drop count :=
  List.map_drop

theorem past_past (c : Cursor) (m n : Nat) : (c.past m).past n = c.past (m + n) := by
  simp only [past, List.drop_drop, Nat.add_assoc]

/-- What stands behind a token is ahead when it has been taken. -/
theorem tokens_past_one {c : Cursor} {token : Token} {behind : List Token}
    (h : c.tokens = token :: behind) : (c.past 1).tokens = behind := by
  rw [tokens_past, h, List.drop_one, List.tail_cons]

end Cursor

namespace Production

variable {c : Cursor} {mark : Punctuator} {token : Token} {behind : List Token}

theorem run_peek (c : Cursor) : peek.run c = (c.tokens.head?, c) := by
  obtain ⟨ahead, index, discarded, faults, isAbandoned⟩ := c
  cases ahead <;> rfl

theorem run_bump (h : c.tokens = token :: behind) : bump.run c = ((), c.past 1) := by
  obtain ⟨ahead, index, discarded, faults, isAbandoned⟩ := c
  cases ahead with
  | nil => cases h
  | cons u ahead => rfl

theorem run_sees (mark : Punctuator) (c : Cursor) :
    (sees mark).run c = (c.tokens.head? == some (.punctuator mark), c) := by
  show ((peek.run c).1 == some (.punctuator mark), (peek.run c).2) = _
  rw [run_peek]

theorem run_eat_self (h : c.tokens = .punctuator mark :: behind) :
    (eat mark).run c = (true, c.past 1) := by
  unfold eat
  rw [run_bind, run_sees, h, List.head?_cons, beq_self_eq_true, if_pos rfl, run_bind, run_bump h]
  rfl

theorem run_eat_of_ne (h : c.tokens.head? ≠ some (.punctuator mark)) :
    (eat mark).run c = (false, c) := by
  unfold eat
  rw [run_bind, run_sees, beq_eq_false_iff_ne.mpr h]
  rfl

theorem run_expect (h : c.tokens = .punctuator mark :: behind) :
    (expect mark).run c = ((), c.past 1) := by
  unfold expect
  rw [run_bind, run_eat_self h]
  rfl

end Production

/-! ## Reading expressions -/

/-- What can be made of an expression in a document.  Where the brackets nest too deep, the
expression is not read. -/
def TypeExpression.readRef? (e : TypeExpression) : Option TypeRef :=
  if e.depth ≤ Grammar.nestingLimit then some e.ref else none

namespace Grammar

open Production

variable {c : Cursor} {item : Production TypeSyntax} {core : TypeSyntax} {behind : List Token}

/-- A bang goes on with a type. -/
theorem run_bang (h : c.tokens = .punctuator .bang :: behind) :
    (do return if ← eat .bang then .nonNull core else core : Production TypeSyntax).run c =
      (.nonNull core, c.past 1) := by
  rw [run_bind, run_eat_self h]
  rfl

/-- Without a bang a type ends. -/
theorem run_no_bang (h : c.tokens.head? ≠ some (.punctuator .bang)) :
    (do return if ← eat .bang then .nonNull core else core : Production TypeSyntax).run c =
      (core, c) := by
  rw [run_bind, run_eat_of_ne h]
  rfl

theorem run_typeSyntaxWith_name {name : String} (h : c.tokens = .name name :: behind) :
    (typeSyntaxWith item).run c =
      (do return if ← eat .bang then .nonNull (.named (some name)) else .named (some name) :
        Production TypeSyntax).run (c.past 1) := by
  unfold typeSyntaxWith
  rw [run_bind, run_peek, h]
  show (bump >>= _).run c = _
  rw [run_bind, run_bump h]

theorem run_typeSyntaxWith_bracket (h : c.tokens = .punctuator .bracketOpen :: behind) :
    (typeSyntaxWith item).run c =
      (do
        expect .bracketClose
        return if ← eat .bang then .nonNull (.list (item.run (c.past 1)).1) else
          .list (item.run (c.past 1)).1 : Production TypeSyntax).run (item.run (c.past 1)).2 := by
  unfold typeSyntaxWith
  rw [run_bind, run_peek, h]
  show (bump >>= _).run c = _
  rw [run_bind, run_bump h]
  rfl

/-- A list is read up to its closing bracket if the items are. -/
theorem run_typeSyntaxWith_list {inside : List Token}
    (h : c.tokens = .punctuator .bracketOpen :: (inside ++ .punctuator .bracketClose :: behind))
    (hitem : item.run (c.past 1) = (core, (c.past 1).past inside.length)) :
    (typeSyntaxWith item).run c =
      (do return if ← eat .bang then .nonNull (.list core) else .list core :
        Production TypeSyntax).run (c.past (inside.length + 2)) := by
  have hclose : (c.past (1 + inside.length)).tokens = .punctuator .bracketClose :: behind := by
    rw [Cursor.tokens_past, h, Nat.add_comm, List.drop_succ_cons, List.drop_left]
  rw [run_typeSyntaxWith_bracket h, hitem, Cursor.past_past, run_bind, run_expect hclose,
    Cursor.past_past, show 1 + inside.length + 1 = inside.length + 2 by omega]

theorem tokens_past_list {inside : List Token}
    (h : c.tokens = .punctuator .bracketOpen :: (inside ++ .punctuator .bracketClose :: behind)) :
    (c.past (inside.length + 2)).tokens = behind := by
  rw [Cursor.tokens_past, h, List.drop_succ_cons, List.drop_length_add_append]
  rfl

/-- Types are read in one way, however many levels are left. -/
theorem exists_typeSyntaxWith (room : Nat) : ∃ item, typeSyntax room = typeSyntaxWith item := by
  cases room with
  | zero => exact ⟨_, rfl⟩
  | succ room => exact ⟨_, rfl⟩

/-- The tokens of an expression are read as the expression, wherever they stand. -/
theorem run_typeSyntax {e : TypeExpression} {room : Nat} (hroom : e.depth ≤ room)
    (h : c.tokens = e.tokens ++ behind) (hbehind : behind.head? ≠ some (.punctuator .bang)) :
    (typeSyntax room).run c = (e.written, c.past e.tokens.length) := by
  induction e generalizing room c behind with
  | named name =>
      obtain ⟨item, hitem⟩ := exists_typeSyntaxWith room
      have hpast := Cursor.tokens_past_one h
      rw [hitem, run_typeSyntaxWith_name h, run_no_bang (by rwa [hpast])]
      rfl
  | nonNullNamed name =>
      obtain ⟨item, hitem⟩ := exists_typeSyntaxWith room
      have hpast := Cursor.tokens_past_one h
      rw [hitem, run_typeSyntaxWith_name h, run_bang hpast, Cursor.past_past]
      rfl
  | list inner ih =>
      obtain ⟨room, rfl⟩ := Nat.exists_eq_succ_of_ne_zero (Nat.ne_zero_of_lt hroom)
      replace h : c.tokens = .punctuator .bracketOpen ::
          (inner.tokens ++ .punctuator .bracketClose :: behind) := by
        rw [h, TypeExpression.tokens, List.cons_append, List.append_assoc, List.singleton_append]
      have hinner := ih (Nat.le_of_succ_le_succ hroom) (Cursor.tokens_past_one h) (by simp)
      have hpast := tokens_past_list h
      rw [typeSyntax, run_typeSyntaxWith_list h hinner, run_no_bang (by rwa [hpast]),
        TypeExpression.tokens, List.length_cons, List.length_append]
      rfl
  | nonNullList inner ih =>
      obtain ⟨room, rfl⟩ := Nat.exists_eq_succ_of_ne_zero (Nat.ne_zero_of_lt hroom)
      replace h : c.tokens = .punctuator .bracketOpen ::
          (inner.tokens ++ .punctuator .bracketClose :: .punctuator .bang :: behind) := by
        rw [h, TypeExpression.tokens, List.cons_append, List.append_assoc]
        rfl
      have hinner := ih (Nat.le_of_succ_le_succ hroom) (Cursor.tokens_past_one h) (by simp)
      rw [typeSyntax, run_typeSyntaxWith_list h hinner, run_bang (tokens_past_list h),
        Cursor.past_past, TypeExpression.tokens, List.length_cons, List.length_append]
      rfl

/-- A gap in the items is a gap in their list. -/
theorem ref?_of_bracket (h : c.tokens = .punctuator .bracketOpen :: behind)
    (hitem : (item.run (c.past 1)).1.ref? = none) :
    ((typeSyntaxWith item).run c).1.ref? = none := by
  rw [run_typeSyntaxWith_bracket h, run_bind, run_bind]
  show TypeSyntax.ref? (if _ then _ else _) = none
  split <;> rw [TypeSyntax.ref?, hitem, Option.map_none]

/-- What has more brackets than there are levels left is not read in full. -/
theorem ref?_of_deep {e : TypeExpression} {room : Nat} (hroom : room < e.depth)
    (h : c.tokens = e.tokens ++ behind) : ((typeSyntax room).run c).1.ref? = none := by
  induction e generalizing room c behind with
  | named name => exact absurd hroom (Nat.not_lt_zero room)
  | nonNullNamed name => exact absurd hroom (Nat.not_lt_zero room)
  | list inner ih | nonNullList inner ih =>
      rw [TypeExpression.tokens, List.cons_append, List.append_assoc] at h
      cases room with
      | zero => exact ref?_of_bracket h rfl
      | succ room =>
          have hdeep := Nat.lt_of_succ_lt_succ hroom
          exact ref?_of_bracket h (ih hdeep (Cursor.tokens_past_one h))

/-- The type behind a colon is the one that is written there. -/
theorem run_typed {α : Type} {rest : Production α} {nothing : α} {e : TypeExpression}
    (h : c.tokens = .punctuator .colon :: (e.tokens ++ behind)) :
    ((typed rest nothing).run c).1.1 = ((typeSyntax nestingLimit).run (c.past 1)).1 := by
  unfold typed
  rw [run_bind, run_eat_self h, if_pos rfl, run_bind, run_peek, Cursor.tokens_past_one h]
  cases e <;> rfl

/-- What is referred to behind a colon. -/
theorem ref?_typed {α : Type} {rest : Production α} {nothing : α} {e : TypeExpression}
    (h : c.tokens = .punctuator .colon :: (e.tokens ++ behind))
    (hbehind : behind.head? ≠ some (.punctuator .bang)) :
    ((typed rest nothing).run c).1.1.ref? = e.readRef? := by
  rw [run_typed h, TypeExpression.readRef?]
  split
  · next hroom => rw [run_typeSyntax hroom (Cursor.tokens_past_one h) hbehind, e.ref?_written]
  · next hroom => rw [ref?_of_deep (Nat.lt_of_not_le hroom) (Cursor.tokens_past_one h)]

/-- What stands before the type in the definition of a variable. -/
def beforeVariableType : Production Unit := do
  expect .dollar
  let _ ← name
  return ()

/-- What stands before the type in the definition of an argument or an input object's field. -/
def beforeInputType : Production Unit := do
  let _ ← description
  let _ ← name
  return ()

/-- What stands before the type in the definition of a field. -/
def beforeFieldType : Production Unit := do
  let _ ← description
  let _ ← name
  let _ ← argumentDefinitions
  return ()

theorem typeSyntax_variableDefinition (c : Cursor) :
    (variableDefinition.run c).1.typeSyntax =
      ((typed defaultAndDirectives (.missing, [])).run (beforeVariableType.run c).2).1.1 := by
  rfl

theorem typeSyntax_inputValueDefinition (c : Cursor) :
    (inputValueDefinition.run c).1.typeSyntax =
      ((typed defaultAndDirectives (.missing, [])).run (beforeInputType.run c).2).1.1 := by
  rfl

theorem typeSyntax_fieldDefinition (c : Cursor) :
    (fieldDefinition.run c).1.typeSyntax =
      ((typed constantDirectives []).run (beforeFieldType.run c).2).1.1 := by
  rfl

end Grammar

/-! ## Cutting written forms -/

namespace Lexer

/-- A name that is read is one of the language. -/
theorem isName_of_mem_piecesFrom (offset : Nat) (cs : List Char) :
    ∀ p ∈ piecesFrom offset cs, ∀ text, p.reading = .token (.name text) → IsName text := by
  induction offset, cs using piecesFrom.induct with
  | case1 offset =>
      rw [piecesFrom]
      exact fun p hp => absurd hp List.not_mem_nil
  | case2 offset c rest reading length hread stop ih =>
      rw [piecesFrom, hread]
      refine List.forall_mem_cons.mpr ⟨?_, ih⟩
      rintro text rfl
      rcases cases_of_read hread with ⟨hstart, htoken, _⟩ | ⟨mark, htoken, _⟩ | hliteral
      · cases htoken
        exact ⟨c, _, String.toList_ofList, hstart, List.all_eq_true.mp List.all_takeWhile⟩
      · cases htoken
      · cases hliteral

theorem read_of_isNameStart {c : Char} (h : isNameStart c = true) (rest : List Char) :
    read c rest = (.token (.name (String.ofList (c :: rest.takeWhile isNameContinue))),
      (rest.takeWhile isNameContinue).length + 1) := by
  have hblank : isBlank c ≠ true := by
    intro hblank
    simp only [isBlank, Bool.or_eq_true, decide_eq_true_eq] at hblank
    rcases hblank with (((rfl | rfl) | rfl) | rfl) | rfl <;> exact absurd h (by decide)
  have hcomma : c ≠ ',' := by
    rintro rfl
    exact absurd h (by decide)
  have hcomment : c ≠ '#' := by
    rintro rfl
    exact absurd h (by decide)
  unfold read
  rw [if_neg hblank, if_neg hcomma, if_neg hcomment, if_pos h]

/-- Where every piece is a token there is no fault. -/
theorem of_map_reading {ps : List Piece} {tokens : List Token}
    (h : ps.map (·.reading) = tokens.map .token) :
    faults ps = [] ∧ (lexemes ps).map (·.token) = tokens := by
  induction ps generalizing tokens with
  | nil =>
      rw [List.map_eq_nil_iff.mp h.symm]
      exact ⟨rfl, rfl⟩
  | cons p ps ih =>
      cases tokens with
      | nil => cases h
      | cons token tokens =>
          obtain ⟨reading, span⟩ := p
          obtain ⟨rfl, hrest⟩ := List.cons.inj h
          exact ⟨(ih hrest).1, congrArg (token :: ·) (ih hrest).2⟩

/-- A text begins with some tokens and goes on behind them. -/
def Cuts (cs : List Char) (tokens : List Token) (behind : List Char) : Prop :=
  ∀ offset, ∃ stop, (piecesFrom offset cs).map (·.reading) =
    tokens.map .token ++ (piecesFrom stop behind).map (·.reading)

namespace Cuts

variable {cs middle behind rest : List Char} {tokens more : List Token} {token : Token}

theorem append (h : Cuts cs tokens middle) (h' : Cuts middle more behind) :
    Cuts cs (tokens ++ more) behind := by
  intro offset
  obtain ⟨between, hbetween⟩ := h offset
  obtain ⟨stop, hstop⟩ := h' between
  exact ⟨stop, by rw [hbetween, hstop, List.map_append, List.append_assoc]⟩

theorem of_read {c : Char} {length : Nat} (h : read c rest = (.token token, length)) :
    Cuts (c :: rest) [token] (rest.drop (length - 1)) := by
  intro offset
  rw [piecesFrom, h]
  exact ⟨_, rfl⟩

/-- A name is a token if it does not go on behind its end. -/
theorem name {text : String} (h : IsName text)
    (hbehind : ∀ d ∈ behind.head?, isNameContinue d = false) :
    Cuts (text.toList ++ behind) [.name text] behind := by
  obtain ⟨c, more, htext, hc, hmore⟩ := h
  have hend : behind.takeWhile isNameContinue = [] := by
    cases behind with
    | nil => rfl
    | cons d behind => exact List.takeWhile_cons_of_neg (by simp [hbehind d rfl])
  have hcuts := of_read (read_of_isNameStart hc (more ++ behind))
  rw [List.takeWhile_append_of_pos hmore, hend, List.append_nil, Nat.add_sub_cancel,
    List.drop_left, ← htext, String.ofList_toList] at hcuts
  rwa [htext]

theorem of_punctuator {c : Char} {mark : Punctuator}
    (h : read c behind = (.token (.punctuator mark), 1)) :
    Cuts (c :: behind) [.punctuator mark] behind :=
  of_read h

theorem bang : Cuts ('!' :: behind) [.punctuator .bang] behind := of_punctuator rfl

/-- Brackets around what is cut into tokens are tokens themselves. -/
theorem brackets (h : Cuts (cs ++ ']' :: behind) tokens (']' :: behind)) :
    Cuts ('[' :: (cs ++ ']' :: behind))
      (.punctuator .bracketOpen :: (tokens ++ [.punctuator .bracketClose])) behind := by
  have hopen : Cuts ('[' :: (cs ++ ']' :: behind)) [.punctuator .bracketOpen]
    (cs ++ ']' :: behind) := of_punctuator rfl
  have hclose : Cuts (']' :: behind) [.punctuator .bracketClose] behind := of_punctuator rfl
  exact hopen.append (h.append hclose)

/-- A text that is cut into tokens and nothing else has these tokens and no fault. -/
theorem faultless {text : String} (h : Cuts text.toList tokens []) :
    faults (pieces text) = [] ∧ Source.tokens text = tokens := by
  obtain ⟨stop, hstop⟩ := h 0
  rw [piecesFrom, List.map_nil, List.append_nil] at hstop
  exact of_map_reading hstop

end Cuts

end Lexer

namespace TypeExpression

/-- A written form is cut into the tokens of its expression. -/
theorem cuts {e : TypeExpression} (h : Lexer.IsName e.ref.baseName) {behind : List Char}
    (hbehind : ∀ d ∈ behind.head?, Lexer.isNameContinue d = false) :
    Lexer.Cuts (e.ref.render.toList ++ behind) e.tokens behind := by
  induction e generalizing behind with
  | named name => exact .name h hbehind
  | nonNullNamed name =>
      rw [ref, TypeRef.toList_render_nonNull, List.append_assoc]
      exact .append (.name h (by rintro d ⟨⟩; rfl)) .bang
  | list item ih =>
      rw [ref, TypeRef.toList_render_list, List.cons_append, List.append_assoc]
      exact .brackets (ih h (by rintro d ⟨⟩; rfl))
  | nonNullList item ih =>
      have hbang : Lexer.Cuts ('!' :: behind) [.punctuator .bang] behind := .bang
      have hlist := (Lexer.Cuts.brackets (ih h (by rintro d ⟨⟩; rfl))).append hbang
      rw [List.cons_append, List.append_assoc] at hlist
      rw [ref, TypeRef.toList_render_nonNull, TypeRef.toList_render_list, List.append_assoc,
        List.cons_append, List.append_assoc]
      exact hlist

theorem baseName_mem_tokens (e : TypeExpression) : .name e.ref.baseName ∈ e.tokens := by
  induction e with
  | named name | nonNullNamed name => exact List.mem_cons_self
  | list item ih | nonNullList item ih =>
      exact List.mem_cons_of_mem _ (List.mem_append_left _ ih)

theorem isLiteral_of_mem_tokens {e : TypeExpression} :
    ∀ token ∈ e.tokens, token.isLiteral = false := by
  induction e with
  | named name | nonNullNamed name => simp [tokens, Token.isLiteral]
  | list item ih | nonNullList item ih =>
      intro token htoken
      rcases List.mem_cons.mp htoken with rfl | htoken
      · rfl
      rcases List.mem_append.mp htoken with hinside | hbehind
      · exact ih token hinside
      · simp only [List.mem_cons, List.not_mem_nil, or_false] at hbehind
        rcases hbehind with rfl | rfl <;> rfl

/-! ## Types in texts -/

/-- A text writes an expression: it has the tokens of the expression, and what stands between
them is ignored. -/
structure IsWritten (e : TypeExpression) (text : String) : Prop where
  /-- All of it can be read. -/
  faultless : Lexer.faults (Lexer.pieces text) = []
  /-- It has the tokens of the expression. -/
  tokens : Source.tokens text = e.tokens

end TypeExpression

open Grammar

/-- When some piece has been read, a colon and these tokens are ahead, and no bang goes on
behind them. -/
def Cursor.Meets (c : Cursor) (before : Production Unit) (tokens : List Token) : Prop :=
  ∃ behind, (before.run c).2.tokens = .punctuator .colon :: (tokens ++ behind) ∧
    behind.head? ≠ some (.punctuator .bang)

/-- What a type in a text refers to, wherever its tokens stand as the type of a variable, of
an argument or an input object's field, or of a field. -/
structure Refers (text : String) (ref? : Option TypeRef) : Prop where
  asVariable : ∀ c : Cursor, c.Meets beforeVariableType (Source.tokens text) →
    (variableDefinition.run c).1.type = ref?
  asInput : ∀ c : Cursor, c.Meets beforeInputType (Source.tokens text) →
    (inputValueDefinition.run c).1.type = ref?
  asField : ∀ c : Cursor, c.Meets beforeFieldType (Source.tokens text) →
    (fieldDefinition.run c).1.type = ref?

namespace TypeExpression

variable {e : TypeExpression} {text : String}

/-- How a text that writes an expression is read, and how it is printed. -/
structure Faithful (e : TypeExpression) (text : String) : Prop where
  /-- It refers to the same in all places. -/
  refers : Refers text e.readRef?
  /-- Non-null is never said twice. -/
  plain : e.ref.IsPlain
  /-- In print there is nothing but the tokens of the text. -/
  printed : bytesOf e.ref.render =
    (Lexer.lexemes (Lexer.pieces text)).flatMap fun x => x.span.slice (bytesOf text)
  /-- What is printed writes the same expression. -/
  reprinted : e.IsWritten e.ref.render
  /-- What is printed refers to the same. -/
  again : Refers e.ref.render e.readRef?

theorem IsWritten.refers (h : e.IsWritten text) : Refers text e.readRef? := by
  constructor <;> rintro c ⟨behind, hc, hbehind⟩ <;> rw [h.tokens] at hc
  · rw [VariableDefinition.type, typeSyntax_variableDefinition]
    exact ref?_typed hc hbehind
  · rw [InputValueDefinition.type, TypeSyntax.map_ref_expression?, typeSyntax_inputValueDefinition]
    exact ref?_typed hc hbehind
  · rw [FieldDefinition.type, TypeSyntax.map_ref_expression?, typeSyntax_fieldDefinition]
    exact ref?_typed hc hbehind

theorem IsWritten.isName (h : e.IsWritten text) : Lexer.IsName e.ref.baseName := by
  have hname := e.baseName_mem_tokens
  rw [← h.tokens] at hname
  obtain ⟨x, hx, hxname⟩ := List.mem_map.mp hname
  exact Lexer.isName_of_mem_piecesFrom 0 text.toList _ (Lexer.mem_lexemes.mp hx) _
    (congrArg Reading.token hxname)

theorem IsWritten.printed (h : e.IsWritten text) : bytesOf e.ref.render =
    (Lexer.lexemes (Lexer.pieces text)).flatMap fun x => x.span.slice (bytesOf text) := by
  have hslice : ∀ x ∈ Lexer.lexemes (Lexer.pieces text),
      bytesOf x.token.text = x.span.slice (bytesOf text) := by
    intro x hx
    have hmem : x.token ∈ e.tokens := h.tokens ▸ List.mem_map_of_mem hx
    exact (Source.slice_lexeme hx (isLiteral_of_mem_tokens _ hmem)).symm
  rw [render_ref, bytesOf_join, ← h.tokens, Source.tokens, List.map_map, List.flatMap_map]
  exact congrArg List.flatten (List.map_congr_left hslice)

theorem IsWritten.reprinted (h : e.IsWritten text) : e.IsWritten e.ref.render := by
  have hcuts : Lexer.Cuts (e.ref.render.toList ++ []) e.tokens [] := cuts h.isName nofun
  rw [List.append_nil] at hcuts
  obtain ⟨hfaults, htokens⟩ := hcuts.faultless
  exact ⟨hfaults, htokens⟩

theorem IsWritten.faithful (h : e.IsWritten text) : e.Faithful text where
  refers := h.refers
  plain := e.isPlain_ref
  printed := h.printed
  reprinted := h.reprinted
  again := h.reprinted.refers

end TypeExpression

/-- References are told apart by their written forms, whatever is written.  The two ways to
lower a type agree, and a text that writes an expression is read as it is printed. -/
theorem types_faithful {e : TypeExpression} {text : String} (h : e.IsWritten text) :
    (∀ a b : TypeRef, Lexer.IsName a.baseName → Lexer.IsName b.baseName →
      a.render = b.render → a = b) ∧
    (∀ s : TypeSyntax, s.expression?.map (·.ref) = s.ref?) ∧
    e.Faithful text :=
  ⟨fun _ _ => TypeRef.render_injective, TypeSyntax.map_ref_expression?, h.faithful⟩

/-- Lists of lists, written over several lines. -/
def roomy : String := "[ [ID !]\n, # no more\n]!"

/-- The expression that it writes. -/
def roomyExpression : TypeExpression := .nonNullList (.list (.nonNullNamed "ID"))

theorem types_faithful_roomy : roomyExpression.IsWritten roomy ∧ roomyExpression.Faithful roomy ∧
    (variableDefinition.run (.start (Lexer.upcoming (Lexer.pieces ("$of: " ++ roomy))))).1.type =
      some (.nonNull (.list (.list (.nonNull (.named "ID"))))) :=
  have h : roomyExpression.IsWritten roomy := ⟨by decide +kernel, by decide +kernel⟩
  have faithful := (types_faithful h).2.2
  ⟨h, faithful, faithful.refers.asVariable _ ⟨[], by decide +kernel, nofun⟩⟩

end GraphLint
