import GraphLint.Proofs.Document.Layout
import GraphLint.Proofs.Names.Places

/-!
# The tokens of a text decide what it says

The pieces of a text stand side by side from its first byte to its last, so the places
of two pieces share no edge.

Of a text without faults nothing is thrown out: its table of lexemes holds all of its
tokens.  What stands between the tokens reaches the document only through commas, and
those make no difference there (`Grammar.document_reads`).  So the document is that of the
tokens alone, and its nodes span tokens of the text.
-/

set_option autoImplicit false

namespace GraphLint

/-! ## Pieces side by side -/

namespace Lexer

/-- Pieces that stand side by side from one byte to another, none of them empty. -/
def Tile (start stop : Nat) : List Piece → Prop
  | [] => start = stop
  | p :: ps => p.span.start = start ∧ start < p.span.stop ∧ Tile p.span.stop stop ps

theorem tile_piecesFrom (offset : Nat) (cs : List Char) :
    Tile offset (offset + utf8Width cs) (piecesFrom offset cs) := by
  induction offset, cs using piecesFrom.induct with
  | case1 offset => rw [piecesFrom, Tile, utf8Width_nil, Nat.add_zero]
  | case2 offset c rest reading length hread stop ih =>
      have hwidth : offset + utf8Width (c :: rest) = stop + utf8Width (rest.drop (length - 1)) := by
        have hsplit := utf8Width_append (rest.take (length - 1)) (rest.drop (length - 1))
        rw [List.take_append_drop] at hsplit
        simp only [stop, utf8Width_cons]
        omega
      have hstop : offset < stop := by
        have hpos := c.utf8Size_pos
        simp only [stop, utf8Width_cons]
        omega
      rw [piecesFrom, hread, Tile, hwidth]
      exact ⟨rfl, hstop, ih⟩

/-- The pieces of a text stand side by side from its first byte to its last. -/
theorem tile_pieces (text : String) : Tile 0 (utf8Width text.toList) (pieces text) := by
  have htile := tile_piecesFrom 0 text.toList
  rwa [Nat.zero_add] at htile

theorem Tile.bounds {start stop : Nat} {ps : List Piece} (h : Tile start stop ps) :
    ∀ p ∈ ps, start ≤ p.span.start ∧ p.span.start < p.span.stop := by
  induction ps generalizing start with
  | nil => exact fun p hp => absurd hp List.not_mem_nil
  | cons q ps ih =>
      obtain ⟨hstart, hlt, hrest⟩ := h
      refine List.forall_mem_cons.mpr ⟨⟨Nat.le_of_eq hstart.symm, hstart ▸ hlt⟩, ?_⟩
      intro p hp
      have hbounds := ih hrest p hp
      omega

/-- Pieces that share an edge are the same. -/
theorem Tile.eq_of_edge {start stop : Nat} {ps : List Piece} (h : Tile start stop ps) {p q : Piece}
    (hp : p ∈ ps) (hq : q ∈ ps)
    (hedge : p.span.start = q.span.start ∨ p.span.stop = q.span.stop) : p = q := by
  induction ps generalizing start with
  | nil => cases hp
  | cons r ps ih =>
      obtain ⟨hstart, hlt, hrest⟩ := h
      rcases List.mem_cons.mp hp with rfl | hp' <;> rcases List.mem_cons.mp hq with rfl | hq'
      · rfl
      · have hbounds := hrest.bounds q hq'
        omega
      · have hbounds := hrest.bounds p hp'
        omega
      · exact ih hrest hp' hq'

/-! ## Tokens among pieces -/

/-- The grammar comes upon the tokens of a text, whatever stands between them. -/
theorem map_token_upcomingFrom (afterComma : Bool) (ps : List Piece) :
    (upcomingFrom afterComma ps).map (·.token) = (lexemes ps).map (·.token) := by
  induction ps generalizing afterComma with
  | nil => rfl
  | cons p ps ih =>
      obtain ⟨reading, span⟩ := p
      cases reading with
      | token token => exact congrArg (token :: ·) (ih false)
      | comma => exact ih true
      | ignored => exact ih afterComma
      | fault f => exact ih afterComma

/-- A lexeme is a piece that is a token. -/
theorem mem_lexemes {ps : List Piece} {x : Lexeme} :
    x ∈ lexemes ps ↔ ⟨.token x.token, x.span⟩ ∈ ps := by
  unfold lexemes
  rw [List.mem_filterMap]
  constructor
  · rintro ⟨⟨reading, span⟩, hp, hx⟩
    cases reading with
    | token token =>
        cases hx
        exact hp
    | _ => cases hx
  · intro hx
    exact ⟨_, hx, rfl⟩

end Lexer

namespace Source

/-- Where nothing is thrown out, the table of lexemes holds all tokens. -/
theorem settle_eq_lexemes {ps : List Lexer.Piece} (hfaults : Lexer.faults ps = []) (number : Nat) :
    settle [] number 0 ps = Lexer.lexemes ps := by
  induction ps generalizing number with
  | nil => rfl
  | cons p ps ih =>
      obtain ⟨reading, span⟩ := p
      cases reading with
      | token token => exact congrArg (⟨token, span⟩ :: ·) (ih hfaults (number + 1))
      | comma => exact ih hfaults number
      | ignored => exact ih hfaults number
      | fault f => cases hfaults

/-! ## Texts without faults -/

/-- The significant tokens of a text. -/
def tokens (text : String) : List Token := (Lexer.lexemes (Lexer.pieces text)).map (·.token)

/-- The document that tokens write if nothing stands between them. -/
def documentOf (tokens : List Token) : Document :=
  (Document.ofTokens (tokens.map fun token => ⟨token, false⟩)).1

/-- How a text without faults is read. -/
structure Plain (text : String) : Prop where
  /-- Its tokens alone decide what it says. -/
  document : (read text).document = documentOf (tokens text)
  /-- All of its tokens are kept, each where it stands. -/
  lexemes : (read text).lexemes = (Lexer.lexemes (Lexer.pieces text)).toArray
  /-- What its document consists of stands in them, one behind another. -/
  row : Row (tokens text) 0 [.document (read text).document] (tokens text).length
  /-- The nodes of its tree span some of them. -/
  placed : (read text).document.tree.Placed (tokens text).length
  /-- The names that it declares are among them. -/
  declared : ∀ x ∈ (read text).document.declarations, x.name.token < (tokens text).length

theorem plain {text : String} (h : (read text).isWellFormed = true) : Plain text := by
  have hfaults := List.append_eq_nil_iff.mp (List.isEmpty_iff.mp h)
  have hlexical : Lexer.faults (Lexer.pieces text) = [] := List.map_eq_nil_iff.mp hfaults.1
  have hsyntax := List.reverse_eq_nil_iff.mp (List.map_eq_nil_iff.mp hfaults.2)
  have horderly : (Cursor.start (Lexer.upcoming (Lexer.pieces text))).Orderly (tokens text) :=
    ⟨rfl, rfl, Lexer.map_token_upcomingFrom false _, Nat.zero_le _⟩
  have halike := Grammar.document_reads.alike horderly hsyntax
  have hrow : Row (tokens text) 0 [.document (read text).document] (tokens text).length :=
    halike.good.widen (Nat.le_refl _) halike.orderly.index_le
  have hstart : (Cursor.start (Lexer.upcoming (Lexer.pieces text))).withoutCommas =
      Cursor.start ((tokens text).map fun token => ⟨token, false⟩) := by
    unfold Cursor.withoutCommas tokens
    rw [← Lexer.map_token_upcomingFrom false, List.map_map]
    rfl
  refine ⟨?_, ?_, hrow, fun n hn => hrow.placed n ?_, ?_⟩
  · have hrun := congrArg Prod.fst halike.withoutCommas
    rw [hstart] at hrun
    exact hrun.symm
  · have hkept : (Document.ofTokens (Lexer.upcoming (Lexer.pieces text))).2.discarded = [] :=
      halike.orderly.discarded
    show (settle (Document.ofTokens (Lexer.upcoming (Lexer.pieces text))).2.discarded 0 0
      (Lexer.pieces text)).toArray = _
    rw [hkept, settle_eq_lexemes hlexical]
  · exact List.mem_append_left _ hn
  · intro x hx
    have hrange := (Grammar.document_writes (.start (Lexer.upcoming (Lexer.pieces text)))).range
    exact Nat.lt_of_lt_of_le (hrange _ (List.mem_map_of_mem hx)).2 halike.orderly.index_le

end Source

end GraphLint
