import GraphLint.Proofs.Source.Tokens
import GraphLint.Proofs.Text.Bytes

/-!
# Tokens and bytes

Each piece of a text is a run of its characters, and the place of the piece is where their
bytes are.  A name has the bytes of its characters there.  Tokens stand in order, so runs of
tokens that are in order are so in bytes as well.
-/

set_option autoImplicit false

namespace GraphLint

/-- The bytes of a text in a span. -/
def Span.slice (bytes : List UInt8) (s : Span) : List UInt8 := (bytes.drop s.start).take s.size

/-- What stands between two other pieces of a text has its own bytes. -/
theorem Span.slice_append (before chars behind : List Char) :
    Span.slice (utf8Bytes (before ++ chars ++ behind))
      ⟨utf8Width before, utf8Width before + utf8Width chars⟩ = utf8Bytes chars := by
  rw [slice, size, Nat.add_sub_cancel_left, List.append_assoc, utf8Bytes_append, utf8Bytes_append,
    List.drop_left' (length_utf8Bytes before), List.take_left' (length_utf8Bytes chars)]

/-- Numbers and strings. -/
def Token.isLiteral : Token → Bool
  | int _ | float _ | string _ | blockString _ => true
  | punctuator _ | name _ => false

namespace Lexer

/-! ## Characters of pieces -/

/-- A piece is made of a run of characters of a text that begins at some byte; names and
punctuators are made of their own characters. -/
def Piece.IsOf (offset : Nat) (cs : List Char) (p : Piece) : Prop :=
  ∃ before chars behind, cs = before ++ chars ++ behind ∧
    p.span.start = offset + utf8Width before ∧ p.span.stop = p.span.start + utf8Width chars ∧
    ∀ token, p.reading = .token token → token.isLiteral = false → chars = token.text.toList

/-- What stands in a later part of a text stands in the text. -/
theorem Piece.IsOf.behind {offset : Nat} {front rest : List Char} {p : Piece}
    (h : p.IsOf (offset + utf8Width front) rest) : p.IsOf offset (front ++ rest) := by
  obtain ⟨before, chars, behind, rfl, hstart, hstop, hchars⟩ := h
  refine ⟨front ++ before, chars, behind, ?_, ?_, hstop, hchars⟩
  · simp only [List.append_assoc]
  · rw [hstart, utf8Width_append, Nat.add_assoc]

theorem isLiteral_of_readNumber {cs : List Char} {token : Token} {length : Nat}
    (h : readNumber cs = (.token token, length)) : token.isLiteral = true := by
  unfold readNumber at h
  extract_lets at h
  split at h
  · obtain ⟨htoken, _⟩ := Prod.mk.inj h
    cases htoken
    split <;> rfl
  · cases h

theorem isLiteral_of_readQuoted {rest : List Char} {token : Token} {length : Nat}
    (h : readQuoted rest = (.token token, length)) : token.isLiteral = true := by
  unfold readQuoted at h
  split at h
  · cases h
  · dsimp only at h
    split at h
    · cases h
    · split at h <;> cases h
      rfl

theorem isLiteral_of_readBlock {rest : List Char} {token : Token} {length : Nat}
    (h : readBlock rest = (.token token, length)) : token.isLiteral = true := by
  unfold readBlock at h
  split at h <;> cases h
  rfl

theorem toList_text_of_ofChar? {c : Char} {mark : Punctuator} (h : Punctuator.ofChar? c = some mark) :
    mark.text.toList = [c] := by
  unfold Punctuator.ofChar? at h
  split at h <;> cases h <;> rfl

/-- The tokens that can be read: a name goes on as far as it can from a character that begins
one, a punctuator takes its own characters, and everything else is a literal. -/
theorem cases_of_read {c : Char} {rest : List Char} {token : Token} {length : Nat}
    (h : read c rest = (.token token, length)) :
    (isNameStart c = true ∧ token = .name (String.ofList (c :: rest.takeWhile isNameContinue)) ∧
      length = (rest.takeWhile isNameContinue).length + 1) ∨
    (∃ mark, token = .punctuator mark ∧ c :: rest.take (length - 1) = mark.text.toList) ∨
    token.isLiteral = true := by
  unfold read at h
  by_cases hblank : isBlank c
  · rw [if_pos hblank] at h
    cases h
  by_cases hcomma : c = ','
  · rw [if_neg hblank, if_pos hcomma] at h
    cases h
  by_cases hcomment : c = '#'
  · rw [if_neg hblank, if_neg hcomma, if_pos hcomment] at h
    cases h
  rw [if_neg hblank, if_neg hcomma, if_neg hcomment] at h
  by_cases hname : isNameStart c
  · rw [if_pos hname] at h
    cases h
    exact .inl ⟨hname, rfl, rfl⟩
  rw [if_neg hname] at h
  right
  split at h
  · exact .inr (isLiteral_of_readNumber h)
  split at h
  · split at h
    · exact .inr (isLiteral_of_readBlock h)
    · exact .inr (isLiteral_of_readQuoted h)
  split at h
  · next hpoint =>
      subst hpoint
      split at h <;> cases h
      exact .inl ⟨.spread, rfl, rfl⟩
  · split at h
    · next mark hmark =>
        cases h
        exact .inl ⟨mark, rfl, (toList_text_of_ofChar? hmark).symm⟩
    · cases h

/-- Where a name or a punctuator is read, it is what is taken. -/
theorem toList_text_of_read {c : Char} {rest : List Char} {token : Token} {length : Nat}
    (h : read c rest = (.token token, length)) (hliteral : token.isLiteral = false) :
    c :: rest.take (length - 1) = token.text.toList := by
  rcases cases_of_read h with ⟨_, rfl, rfl⟩ | ⟨mark, rfl, hchars⟩ | hliteral'
  · have hmore := List.prefix_iff_eq_take.mp (List.takeWhile_prefix isNameContinue (l := rest))
    rw [Token.text, String.toList_ofList, Nat.add_sub_cancel, ← hmore]
  · exact hchars
  · rw [hliteral] at hliteral'
    cases hliteral'

/-- Each piece is a run of characters of the text. -/
theorem isOf_of_mem_piecesFrom (offset : Nat) (cs : List Char) :
    ∀ p ∈ piecesFrom offset cs, p.IsOf offset cs := by
  induction offset, cs using piecesFrom.induct with
  | case1 offset =>
      rw [piecesFrom]
      exact fun p hp => absurd hp List.not_mem_nil
  | case2 offset c rest reading length hread stop ih =>
      have hsplit : c :: rest = (c :: rest.take (length - 1)) ++ rest.drop (length - 1) := by
        rw [List.cons_append, List.take_append_drop]
      rw [piecesFrom, hread]
      refine List.forall_mem_cons.mpr ⟨?_, fun p hp => ?_⟩
      · refine ⟨[], c :: rest.take (length - 1), rest.drop (length - 1), hsplit, rfl, rfl, ?_⟩
        rintro token rfl
        exact toList_text_of_read hread
      · rw [hsplit]
        exact .behind (ih p hp)

/-! ## Order of tokens -/

theorem Tile.ordered {start stop : Nat} {ps : List Piece} (h : Tile start stop ps) :
    ps.Pairwise (·.span.stop ≤ ·.span.start) := by
  induction ps generalizing start with
  | nil => exact .nil
  | cons p ps ih =>
      obtain ⟨-, -, hrest⟩ := h
      exact .cons (fun q hq => (hrest.bounds q hq).1) (ih hrest)

theorem Tile.stop_le {start stop : Nat} {ps : List Piece} (h : Tile start stop ps) :
    start ≤ stop ∧ ∀ p ∈ ps, p.span.stop ≤ stop := by
  induction ps generalizing start with
  | nil => exact ⟨Nat.le_of_eq h, fun p hp => absurd hp List.not_mem_nil⟩
  | cons p ps ih =>
      obtain ⟨-, hlt, hrest⟩ := h
      obtain ⟨hle, hall⟩ := ih hrest
      exact ⟨Nat.le_trans (Nat.le_of_lt hlt) hle, List.forall_mem_cons.mpr ⟨hle, hall⟩⟩

/-- Tokens stand one behind another. -/
theorem lexemes_ordered (text : String) :
    (lexemes (pieces text)).Pairwise (·.span.stop ≤ ·.span.start) := by
  refine List.Pairwise.filterMap _ ?_ (tile_pieces text).ordered
  rintro ⟨reading, span⟩ ⟨reading', span'⟩ hle x hx y hy
  cases reading with
  | token token =>
      cases reading' with
      | token token' =>
          cases hx
          cases hy
          exact hle
      | _ => cases hy
  | _ => cases hx

variable {text : String}

theorem lexeme_lt {i j : Nat} {x y : Lexeme} (hij : i < j)
    (hx : (lexemes (pieces text))[i]? = some x) (hy : (lexemes (pieces text))[j]? = some y) :
    x.span.stop ≤ y.span.start := by
  obtain ⟨hi, rfl⟩ := List.getElem?_eq_some_iff.mp hx
  obtain ⟨hj, rfl⟩ := List.getElem?_eq_some_iff.mp hy
  exact List.pairwise_iff_getElem.mp (lexemes_ordered text) i j hi hj hij

theorem lexeme_bounds {i : Nat} {x : Lexeme} (hx : (lexemes (pieces text))[i]? = some x) :
    x.span.start < x.span.stop ∧ x.span.stop ≤ (bytesOf text).length := by
  have hmem := mem_lexemes.mp (List.mem_of_getElem? hx)
  rw [bytesOf_eq, length_utf8Bytes]
  exact ⟨((tile_pieces text).bounds _ hmem).2, (tile_pieces text).stop_le.2 _ hmem⟩

end Lexer

/-! ## Runs of tokens -/

namespace Source

variable {text : String} {e e' : Extent}

/-- A run of tokens goes from the first byte of the first one to the last byte of the last. -/
theorem span_eq (hplain : Plain text) (he : e.Within (tokens text).length) :
    ∃ x y, (Lexer.lexemes (Lexer.pieces text))[e.first]? = some x ∧
      (Lexer.lexemes (Lexer.pieces text))[e.stop - 1]? = some y ∧
      (read text).span e = ⟨x.span.start, y.span.stop⟩ := by
  obtain ⟨hnonempty, hstop⟩ := he
  rw [tokens, List.length_map] at hstop
  have hfirst : e.first < (Lexer.lexemes (Lexer.pieces text)).length := by omega
  have hlast : e.stop - 1 < (Lexer.lexemes (Lexer.pieces text)).length := by omega
  refine ⟨_, _, List.getElem?_eq_getElem hfirst, List.getElem?_eq_getElem hlast, ?_⟩
  rw [span, Extent.span, if_pos hnonempty, hplain.lexemes]
  simp [Array.getD, hfirst, hlast]

section

variable (hplain : Plain text) (he : e.Within (tokens text).length)
  (he' : e'.Within (tokens text).length)

include hplain he

theorem span_bounds : ((read text).span e).start < ((read text).span e).stop ∧
    ((read text).span e).stop ≤ (bytesOf text).length := by
  obtain ⟨x, y, hx, hy, hspan⟩ := span_eq hplain he
  obtain ⟨hxlt, -⟩ := Lexer.lexeme_bounds hx
  obtain ⟨hylt, hyle⟩ := Lexer.lexeme_bounds hy
  rw [hspan]
  refine ⟨?_, hyle⟩
  show x.span.start < y.span.stop
  rcases Nat.lt_or_ge e.first (e.stop - 1) with hlt | hge
  · have hle := Lexer.lexeme_lt hlt hx hy
    omega
  · have heq : e.stop - 1 = e.first := by have := he.nonempty; omega
    rw [heq, hx] at hy
    cases hy
    exact hxlt

include he'

theorem span_start_le (h : e.first ≤ e'.first) :
    ((read text).span e).start ≤ ((read text).span e').start := by
  obtain ⟨x, _, hx, _, hspan⟩ := span_eq hplain he
  obtain ⟨x', _, hx', _, hspan'⟩ := span_eq hplain he'
  rw [hspan, hspan']
  show x.span.start ≤ x'.span.start
  rcases Nat.lt_or_eq_of_le h with hlt | heq
  · have hle := Lexer.lexeme_lt hlt hx hx'
    have hlt := (Lexer.lexeme_bounds hx).1
    omega
  · rw [heq, hx'] at hx
    cases hx
    exact Nat.le_refl _

theorem span_stop_le (h : e.stop ≤ e'.stop) :
    ((read text).span e).stop ≤ ((read text).span e').stop := by
  obtain ⟨_, y, _, hy, hspan⟩ := span_eq hplain he
  obtain ⟨_, y', _, hy', hspan'⟩ := span_eq hplain he'
  rw [hspan, hspan']
  show y.span.stop ≤ y'.span.stop
  rcases Nat.lt_or_eq_of_le h with hlt | heq
  · have hle := Lexer.lexeme_lt (by have := he.nonempty; omega) hy hy'
    have hlt := (Lexer.lexeme_bounds hy').1
    omega
  · rw [heq, hy'] at hy
    cases hy
    exact Nat.le_refl _

theorem span_stop_le_start (h : e.stop ≤ e'.first) :
    ((read text).span e).stop ≤ ((read text).span e').start := by
  obtain ⟨_, y, _, hy, hspan⟩ := span_eq hplain he
  obtain ⟨x', _, hx', _, hspan'⟩ := span_eq hplain he'
  rw [hspan, hspan']
  exact Lexer.lexeme_lt (by have := he.nonempty; omega) hy hx'

/-- A token between two runs keeps them apart. -/
theorem span_stop_lt_start (h : e.stop < e'.first) :
    ((read text).span e).stop < ((read text).span e').start := by
  have hbetween : (⟨e.stop, e.stop + 1⟩ : Extent).Within (tokens text).length := by
    have hfirst := he'.nonempty
    have hstop := he'.stop_le
    exact ⟨Nat.lt_succ_self _, by show e.stop + 1 ≤ _; omega⟩
  have hbefore := span_stop_le_start hplain he hbetween (Nat.le_refl _)
  have hbehind := span_stop_le_start hplain hbetween he' h
  have hlt := (span_bounds hplain hbetween).1
  omega

end

/-! ## Names -/

/-- Where a name or a punctuator stands, its characters do. -/
theorem slice_lexeme {x : Lexeme} (hx : x ∈ Lexer.lexemes (Lexer.pieces text))
    (hliteral : x.token.isLiteral = false) : x.span.slice (bytesOf text) = bytesOf x.token.text := by
  obtain ⟨token, start, stop⟩ := x
  obtain ⟨before, chars, behind, hsplit, hstart, hstop, hchars⟩ :=
    Lexer.isOf_of_mem_piecesFrom 0 text.toList _ (Lexer.mem_lexemes.mp hx)
  rw [Nat.zero_add] at hstart
  change start = _ at hstart
  change stop = start + _ at hstop
  rw [hstop, hstart, bytesOf_eq, bytesOf_eq, hsplit, Span.slice_append, hchars token rfl hliteral]

/-- Where a name stands, its characters do. -/
theorem slice_name (hplain : Plain text) {n : Name} (hn : n.IsAmong (tokens text)) :
    ((read text).span n.extent).slice (bytesOf text) = bytesOf n.text := by
  obtain ⟨x, y, hx, hy, hspan⟩ := span_eq hplain hn.within
  have hname : x.token = .name n.text := by
    have hamong : (tokens text)[n.token]? = some (.name n.text) := hn
    rw [tokens, List.getElem?_map,
      show (Lexer.lexemes (Lexer.pieces text))[n.token]? = some x from hx] at hamong
    exact Option.some.inj hamong
  obtain rfl : x = y := Option.some.inj (hx.symm.trans hy)
  have hslice := slice_lexeme (List.mem_of_getElem? hx) (by rw [hname]; rfl)
  rw [hspan, hslice, hname]
  rfl

end Source

end GraphLint
