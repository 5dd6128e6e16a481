import GraphLint.Files.Braces
import GraphLint.Files.Pattern
import GraphLint.Proofs.Data.Lists
import GraphLint.Proofs.Files.Paths
import Mathlib.Data.List.TakeWhile

/-!
# What patterns are read as

A pattern with braces stands for as many patterns as it has alternatives, and a pattern
without a group for itself.  Without brackets and without two stars in a row, signs are read one by one
(`Sign.read_eq_map`).  A component that is read as a name is that name
(`Segment.eq_of_read_literal`), so a component of a pattern that is looked up has no slash in
it.
-/

set_option autoImplicit false

namespace GraphLint

/-! ## Alternatives -/

namespace Braces

/-- A pattern with a group, cut at its braces. -/
structure IsGroup (pattern before inside after : List Char) : Prop where
  eq : pattern = before ++ '\x7b' :: (inside ++ '\x7d' :: after)
  not_open : '\x7b' ∉ before
  not_close : '\x7d' ∉ before
  not_close_inside : '\x7d' ∉ inside

/-- Some opening brace comes before the first closing one. -/
def HasGroup (pattern : List Char) : Prop :=
  ∃ before inside after, IsGroup pattern before inside after

/-- The patterns that a group writes. -/
def alternatives (before inside after : List Char) : List (List Char) :=
  (Path.splitOn ',' inside).map fun alternative => before ++ trimBlanks alternative ++ after

theorem takeWhile_ne_append {c : Char} {cs rest : List Char} (h : c ∉ cs) :
    (cs ++ c :: rest).takeWhile (· ≠ c) = cs := by
  rw [List.takeWhile_append_of_pos, List.takeWhile_cons_of_neg (by simp), List.append_nil]
  intro d hd
  exact decide_eq_true fun heq => h (heq ▸ hd)

theorem drop_length_append_cons {c : Char} {cs rest : List Char} :
    ((cs ++ c :: rest).drop cs.length).drop 1 = rest := by
  rw [List.drop_left, List.drop_one, List.tail_cons]

theorem expandChars_of_isGroup {pattern before inside after : List Char}
    (h : IsGroup pattern before inside after) :
    expandChars pattern = alternatives before inside after := by
  have hafter : (inside ++ '\x7d' :: after).drop (inside.length + 1) = after := by
    rw [← List.drop_drop, drop_length_append_cons]
  rw [expandChars, h.eq]
  simp only [takeWhile_ne_append h.not_open, drop_length_append_cons,
    takeWhile_ne_append h.not_close_inside, hafter]
  rw [if_neg (by simp [h.not_close])]
  rfl

theorem expandChars_of_not_hasGroup {pattern : List Char} (h : ¬HasGroup pattern) :
    expandChars pattern = [pattern] := by
  rw [expandChars]
  by_cases hopen : '\x7b' ∈ pattern
  · obtain ⟨before, rest, rfl, hbefore⟩ := List.eq_append_cons_of_mem hopen
    have hclose : '\x7d' ∈ before ∨ '\x7d' ∉ rest := by
      by_contra hcut
      obtain ⟨hnot, hmem⟩ := not_or.mp hcut
      obtain ⟨inside, after, rfl, hinside⟩ := List.eq_append_cons_of_mem (not_not.mp hmem)
      exact h ⟨before, inside, after, rfl, hbefore, hnot, hinside⟩
    simp only [takeWhile_ne_append hbefore, drop_length_append_cons]
    rw [if_pos (by simpa using hclose)]
  · have hall : pattern.takeWhile (· ≠ '\x7b') = pattern :=
      List.takeWhile_eq_self_iff.mpr fun c hc => decide_eq_true fun heq => hopen (heq ▸ hc)
    simp only [hall, List.drop_length]
    rw [if_pos (by simp)]

theorem not_hasGroup_of_not_mem {pattern : List Char} (h : '\x7b' ∉ pattern) :
    ¬HasGroup pattern := by
  rintro ⟨before, inside, after, hgroup⟩
  exact h (hgroup.eq ▸ List.mem_append_right before List.mem_cons_self)

theorem expand_of_isGroup {pattern : String} {before inside after : List Char}
    (h : IsGroup pattern.toList before inside after) :
    expand pattern = (alternatives before inside after).map String.ofList := by
  rw [expand, expandChars_of_isGroup h]

theorem expand_of_not_hasGroup {pattern : String} (h : ¬HasGroup pattern.toList) :
    expand pattern = [pattern] := by
  rw [expand, expandChars_of_not_hasGroup h, List.map_singleton, String.ofList_toList]

theorem mem_of_mem_trimBlanks {c : Char} {cs : List Char} (h : c ∈ trimBlanks cs) : c ∈ cs := by
  rw [trimBlanks, List.mem_reverse] at h
  have h := (List.dropWhile_sublist isBlank).subset h
  exact (List.dropWhile_sublist isBlank).subset (List.mem_reverse.mp h)

/-- If there is one opening brace only, there is one group only. -/
theorem not_hasGroup_of_mem_alternatives {before inside after text : List Char}
    (hbefore : '\x7b' ∉ before) (hinside : '\x7b' ∉ inside) (hafter : '\x7b' ∉ after)
    (h : text ∈ alternatives before inside after) : ¬HasGroup text := by
  obtain ⟨alternative, halternative, rfl⟩ := List.mem_map.mp h
  refine not_hasGroup_of_not_mem ?_
  rw [List.mem_append, List.mem_append, not_or, not_or]
  refine ⟨⟨hbefore, fun hmem => hinside ?_⟩, hafter⟩
  exact (Path.infix_of_mem_splitOn halternative).subset (mem_of_mem_trimBlanks hmem)

/-- Alternatives without groups stand for themselves. -/
theorem flatMap_expand_alternatives {before inside after : List Char}
    (h : ∀ text ∈ alternatives before inside after, ¬HasGroup text) :
    ((alternatives before inside after).map String.ofList).flatMap expand =
      (alternatives before inside after).map String.ofList := by
  have hself : ∀ text ∈ (alternatives before inside after).map String.ofList,
      expand text = [text] := by
    intro text htext
    obtain ⟨cs, hcs, rfl⟩ := List.mem_map.mp htext
    exact expand_of_not_hasGroup (by rw [String.toList_ofList]; exact h cs hcs)
  rw [List.flatMap_congr hself, List.flatMap_singleton']

end Braces

/-! ## Signs -/

namespace Sign

/-- What a character is read as that neither opens brackets nor stands beside its like. -/
def ofChar (c : Char) : Sign := if c = '?' then any else if c = '*' then sequence else char c

theorem literal?_eq_some_iff {signs : List Sign} {name : List Char} :
    literal? signs = some name ↔ signs = name.map char := by
  induction signs generalizing name with
  | nil => cases name <;> simp [literal?]
  | cons sign signs ih =>
      cases sign with
      | char c => cases name <;> simp [literal?, ih, and_comm]
      | _ => cases name <;> simp [literal?]

/-- Without brackets, and without two stars in a row, signs are read one by one. -/
theorem read_eq_map {cs : List Char} (hbracket : '[' ∉ cs) (hstars : ¬['*', '*'] <:+: cs)
    (before : Option Char) (position : Nat) : read before position cs = .ok (cs.map ofChar) := by
  induction cs generalizing before position with
  | nil =>
      rw [read]
      rfl
  | cons c cs ih =>
      rw [List.mem_cons, not_or] at hbracket
      have hrest : ¬['*', '*'] <:+: cs := fun h => hstars (h.trans (List.suffix_cons c cs).isInfix)
      have ih := ih hbracket.2 hrest
      rw [read.eq_def, List.map_cons, ofChar]
      dsimp only
      by_cases hany : c = '?'
      · rw [if_pos hany, if_pos hany, ih]
        rfl
      · rw [if_neg hany, if_neg hany]
        by_cases hstar : c = '*'
        · subst hstar
          rw [if_pos rfl, if_pos rfl]
          split
          · exact absurd ⟨[], _, rfl⟩ hstars
          · exact absurd ⟨[], _, rfl⟩ hstars
          · rw [ih]
            rfl
        · rw [if_neg hstar, if_neg hstar, if_neg (Ne.symm hbracket.1), ih]
          rfl

theorem answers_cons (c : Char) (cs : List Char) (signs : List Sign) :
    ∃ here, answers (c :: cs) signs = here :: answers cs signs := by
  induction signs with
  | nil => exact ⟨false, rfl⟩
  | cons sign signs ih =>
      obtain ⟨here, h⟩ := ih
      exact ⟨_, by rw [answers, h, prepend, answers]⟩

theorem covers_cons {sign : Sign} {signs : List Sign} {c : Char} {cs : List Char}
    (hone : sign.isRepeated = false) (hsign : sign.allows c = true)
    (h : covers signs cs = true) : covers (sign :: signs) (c :: cs) = true := by
  obtain ⟨here, hhere⟩ := answers_cons c cs signs
  rw [covers, answers, hhere, prepend, hone]
  show (sign.allows c && covers signs cs) = true
  rw [hsign, h, Bool.and_self]

/-- A star stands for no characters, too. -/
theorem covers_sequence {signs : List Sign} {cs : List Char} (h : covers signs cs = true) :
    covers (sequence :: signs) cs = true := by
  cases cs with
  | nil => simpa [covers, answers, prepend, isRepeated] using h
  | cons c cs =>
      obtain ⟨here, hhere⟩ := answers_cons c cs signs
      rw [covers, hhere] at h
      obtain rfl : here = true := h
      simp [covers, answers, hhere, prepend, isRepeated]

theorem covers_sequence_cons {signs : List Sign} {cs : List Char} (h : covers signs cs = true)
    (c : Char) : covers (sequence :: signs) (c :: cs) = true := by
  obtain ⟨here, hhere⟩ := answers_cons c cs signs
  rw [covers, answers, hhere, prepend]
  show (here || covers (sequence :: signs) cs) = true
  rw [covers_sequence h, Bool.or_true]

/-- Read so, a text stands for itself. -/
theorem covers_map_ofChar (cs : List Char) : covers (cs.map ofChar) cs = true := by
  induction cs with
  | nil => rfl
  | cons c cs ih =>
      rw [List.map_cons, ofChar]
      by_cases hany : c = '?'
      · rw [if_pos hany]
        exact covers_cons rfl rfl ih
      · rw [if_neg hany]
        by_cases hstar : c = '*'
        · rw [if_pos hstar]
          exact covers_sequence_cons ih c
        · rw [if_neg hstar]
          exact covers_cons rfl (decide_eq_true rfl) ih

/-- Whether a sign is a wildcard. -/
def isWild : Sign → Bool
  | char _ => false
  | _ => true

theorem isWild_of_bracket? {cs : List Char} {sign : Sign} {used : Nat}
    (h : bracket? cs = some (sign, used)) : sign.isWild = true := by
  rw [bracket?.eq_def] at h
  split at h
  · rw [bracket?.closed] at h
    split at h
    · cases h
      rfl
    · cases h
  · cases h
  · rw [bracket?.closed] at h
    split at h
    · cases h
      rfl
    · cases h
  · cases h

/-- The first sign is a wildcard. -/
def StartsWild (signs : List Sign) : Prop :=
  ∃ sign others, signs = sign :: others ∧ sign.isWild = true

theorem startsWild_of_map {x : Except PatternError (List Sign)} {sign : Sign}
    {signs : List Sign} (hsign : sign.isWild = true) (h : x.map (sign :: ·) = .ok signs) :
    StartsWild signs := by
  obtain ⟨others, -, rfl⟩ := map_eq_ok_iff.mp h
  exact ⟨sign, others, rfl, hsign⟩

/-- What reading comes to at the first character: there is none, it stands for itself, or it
is a wildcard. -/
theorem cases_of_read {before : Option Char} {position : Nat} {cs : List Char}
    {signs : List Sign} (h : read before position cs = .ok signs) :
    (cs = [] ∧ signs = []) ∨
      (∃ c rest others, cs = c :: rest ∧ signs = char c :: others ∧
        read (some c) (position + 1) rest = .ok others) ∨
      StartsWild signs := by
  cases cs with
  | nil =>
      rw [read] at h
      exact .inl ⟨rfl, (Except.ok.inj h).symm⟩
  | cons c rest =>
      rw [read.eq_def] at h
      dsimp only at h
      split at h
      · exact .inr (.inr (startsWild_of_map rfl h))
      · split at h
        -- a star
        · split at h
          · cases h
          · split at h
            · cases h
            · split at h
              · exact .inr (.inr ⟨recursion, [], (Except.ok.inj h).symm, rfl⟩)
              · split at h
                · exact .inr (.inr (startsWild_of_map rfl h))
                · cases h
          · exact .inr (.inr (startsWild_of_map rfl h))
        · split at h
          · split at h
            · next hbracket => exact .inr (.inr (startsWild_of_map (isWild_of_bracket? hbracket) h))
            · cases h
          · obtain ⟨others, hothers, rfl⟩ := map_eq_ok_iff.mp h
            exact .inr (.inl ⟨c, rest, others, rfl, rfl, hothers⟩)

/-- Only a text without wildcards is read as characters. -/
theorem eq_of_read {before : Option Char} {position : Nat} {cs name : List Char}
    (h : read before position cs = .ok (name.map char)) : name = cs := by
  induction name generalizing before position cs with
  | nil =>
      rcases cases_of_read h with ⟨rfl, -⟩ | ⟨_, _, _, _, heq, _⟩ | ⟨_, _, heq, _⟩
      · rfl
      · cases heq
      · cases heq
  | cons c name ih =>
      rcases cases_of_read h with ⟨-, heq⟩ | ⟨d, rest, others, rfl, heq, hrest⟩ | ⟨_, _, heq, hwild⟩
      · cases heq
      · obtain ⟨hcd, rfl⟩ := List.cons.inj heq
        rw [ih hrest, Sign.char.inj hcd]
      · obtain rfl := List.head_eq_of_cons_eq heq
        cases hwild

end Sign

/-! ## Components -/

namespace Segment

/-- A component that is read as a name is that name. -/
theorem eq_of_read_literal {text : List Char} {name : String}
    (h : read text = .ok (literal name)) : name.toList = text := by
  obtain ⟨signs, hsigns, hname⟩ := map_eq_ok_iff.mp h
  rw [ofSigns] at hname
  split at hname
  · cases hname
  · split at hname
    · next chars hchars =>
        obtain rfl := Segment.literal.inj hname
        obtain rfl := Sign.literal?_eq_some_iff.mp hchars
        rw [String.toList_ofList, Sign.eq_of_read hsigns]
    · cases hname

/-- A component stands for a name of an entry. -/
def Admits (s : Segment) (name : String) : Prop := s ≠ recursion ∧ s.covers name = true

/-- What a text without brackets and without two stars in a row is read as. -/
def ofText (text : List Char) : Segment := ofSigns (text.map Sign.ofChar)

theorem read_eq_ofText {text : List Char} (hbracket : '[' ∉ text)
    (hstars : ¬['*', '*'] <:+: text) : read text = .ok (ofText text) := by
  rw [read, Sign.read_eq_map hbracket hstars]
  rfl

theorem map_ofChar_ne (text : List Char) : text.map Sign.ofChar ≠ [.recursion] := by
  intro h
  have hmem : Sign.recursion ∈ text.map Sign.ofChar := h ▸ List.mem_singleton.mpr rfl
  obtain ⟨c, -, hc⟩ := List.mem_map.mp hmem
  rw [Sign.ofChar] at hc
  split_ifs at hc

/-- Without wildcards, it is read as a name. -/
theorem ofText_of_plain {text : List Char} (hany : '?' ∉ text) (hstar : '*' ∉ text) :
    ofText text = literal (String.ofList text) := by
  have hmap : text.map Sign.ofChar = text.map Sign.char := List.map_congr_left fun c hc => by
    have hc' : c ≠ '?' ∧ c ≠ '*' := ⟨fun h => hany (h ▸ hc), fun h => hstar (h ▸ hc)⟩
    rw [Sign.ofChar, if_neg hc'.1, if_neg hc'.2]
  rw [ofText, ofSigns, if_neg (map_ofChar_ne text), Sign.literal?_eq_some_iff.mpr hmap]

/-- With wildcards or without, it stands for itself. -/
theorem admits_ofText {text : List Char} (hbracket : '[' ∉ text)
    (hstars : ¬['*', '*'] <:+: text) : (ofText text).Admits (String.ofList text) := by
  have hread := read_eq_ofText hbracket hstars
  rw [ofText, ofSigns, if_neg (map_ofChar_ne text)] at hread ⊢
  split at hread
  · next name hname =>
      have htext : String.ofList name = String.ofList text := by
        rw [← String.toList_inj, eq_of_read_literal hread, String.toList_ofList]
      exact ⟨nofun, decide_eq_true htext.symm⟩
  · refine ⟨nofun, ?_⟩
    rw [covers, String.toList_ofList, Sign.covers_map_ofChar]

end Segment

/-! ## Patterns -/

namespace Pattern

theorem texts_subset {cs text : List Char} (h : text ∈ texts cs) :
    text ∈ Path.splitOn '/' cs := by
  rw [texts] at h
  split at h
  · next last before hcut =>
      have hmem : text ∈ (Path.splitOn '/' cs).reverse :=
        hcut ▸ List.mem_cons_of_mem [] (List.mem_reverse.mp h)
      exact List.mem_reverse.mp hmem
  · rwa [List.reverse_reverse] at h

/-- If no piece is empty, the components of a pattern are its pieces. -/
theorem texts_eq {cs : List Char} (h : [] ∉ Path.splitOn '/' cs) :
    texts cs = Path.splitOn '/' cs := by
  rw [texts]
  split
  · next last before hcut =>
      refine absurd (List.mem_reverse.mp ?_) h
      exact hcut ▸ List.mem_cons_self
  · exact List.reverse_reverse _

/-- A path of names is read name by name, if it has no brackets and no two stars in a row. -/
theorem read_eq_map {text : String} (hnames : ∀ name ∈ Path.names text, Path.tells name = true)
    (hbracket : '[' ∉ text.toList) (hstars : ¬['*', '*'] <:+: text.toList) :
    read text = .ok
      ⟨Path.isAbsolute text, (Path.names text).map (Segment.ofText ·.toList), false⟩ := by
  have hempty : "" ∉ Path.names text := fun h => (Path.tells_iff.mp (hnames "" h)).1 rfl
  have htexts : texts (if Path.isAbsolute text then text.toList.drop 1 else text.toList) =
      (Path.names text).map String.toList := by
    rw [texts_eq fun h => hempty (List.mem_map_of_mem h), Path.names, List.map_map]
    simp [Function.comp_def]
  have hslash : decide (text.toList.getLast? = some '/') = false := by
    refine decide_eq_false fun h => hempty ?_
    obtain ⟨front, hfront⟩ := List.getLast?_eq_some_iff.mp h
    have hlast : (Path.pieces text).getLast? = some "" := by
      rw [Path.pieces, hfront, Path.splitOn_append, List.map_append]
      exact List.getLast?_concat
    rw [Path.pieces_eq, List.getLast?_append_of_ne_nil _ (Path.names_ne_nil text)] at hlast
    exact List.mem_of_getLast? hlast
  have hsegments : ((Path.names text).map String.toList).mapM Segment.read =
      .ok (((Path.names text).map String.toList).map Segment.ofText) := by
    refine mapM_eq_ok fun piece hpiece => ?_
    obtain ⟨name, hname, rfl⟩ := List.mem_map.mp hpiece
    have hwithin := Path.infix_of_mem_pieces (Path.mem_pieces_of_mem_names hname)
    exact Segment.read_eq_ofText (fun h => hbracket (hwithin.subset h))
      fun h => hstars (h.trans hwithin)
  rw [read]
  simp only [hslash, Sign.read_eq_map hbracket hstars, htexts, hsegments, List.map_map]
  rfl

/-- A component of a pattern that is looked up has no slash in it. -/
theorem not_mem_of_read {text : String} {p : Pattern} (h : read text = .ok p) {name : String}
    (hname : .literal name ∈ p.segments) : '/' ∉ name.toList := by
  obtain ⟨_, _, h⟩ := exists_of_bind_eq_ok h
  obtain ⟨segments, hsegments, h⟩ := exists_of_bind_eq_ok h
  obtain rfl := Except.ok.inj h
  obtain ⟨piece, hpiece, hread⟩ := exists_left_of_mem (mapM_eq_ok_iff.mp hsegments) hname
  rw [Segment.eq_of_read_literal hread]
  exact Path.not_mem_of_mem_splitOn (texts_subset hpiece)

end Pattern

end GraphLint
