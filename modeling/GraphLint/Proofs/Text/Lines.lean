import GraphLint.Proofs.Text.Bytes
import GraphLint.Text.LineIndex

/-!
# What a line index answers

The line of a byte offset is told by the newline bytes before it and the column by the
bytes since the last of them.  Nothing else in the text matters: not where its characters
begin, and not where it ends, since an offset past the end is one in its last line.

The proofs go through `pastNewlines`, the starts of lines as the bytes alone give them.
What `location` passes over is then `pastNewlines` of the bytes before the offset, and each
fact about a location is one about that list.
-/

set_option autoImplicit false

namespace GraphLint

/-! ## Newlines among bytes -/

/-- The offsets just past each newline byte, where the bytes begin at `offset`. -/
def pastNewlines : Nat → List UInt8 → List Nat
  | _, [] => []
  | offset, b :: bs =>
    if b = newline then (offset + 1) :: pastNewlines (offset + 1) bs
    else pastNewlines (offset + 1) bs

theorem pastNewlines_append (offset : Nat) (as bs : List UInt8) :
    pastNewlines offset (as ++ bs) =
      pastNewlines offset as ++ pastNewlines (offset + as.length) bs := by
  induction as generalizing offset with
  | nil => rfl
  | cons a as ih =>
      have hshift : offset + 1 + as.length = offset + (a :: as).length := by
        rw [List.length_cons]
        omega
      simp only [List.cons_append, pastNewlines, ih, hshift]
      split <;> rfl

theorem pastNewlines_eq_nil {bs : List UInt8} (h : newline ∉ bs) (offset : Nat) :
    pastNewlines offset bs = [] := by
  induction bs generalizing offset with
  | nil => rfl
  | cons b bs ih =>
      obtain ⟨hb, hbs⟩ := List.ne_and_not_mem_of_not_mem_cons h
      rw [pastNewlines, if_neg hb.symm, ih hbs]

theorem length_pastNewlines (offset : Nat) (bs : List UInt8) :
    (pastNewlines offset bs).length = bs.count newline := by
  induction bs generalizing offset with
  | nil => rfl
  | cons b bs ih =>
      by_cases hb : b = newline
      · rw [pastNewlines, if_pos hb, List.length_cons, ih, hb, List.count_cons_self]
      · rw [pastNewlines, if_neg hb, ih, List.count_cons_of_ne hb]

/-- What is listed lies one past a newline byte. -/
theorem mem_pastNewlines {offset x : Nat} {bs : List UInt8} :
    x ∈ pastNewlines offset bs ↔ ∃ i, bs[i]? = some newline ∧ x = offset + i + 1 := by
  induction bs generalizing offset with
  | nil => simp [pastNewlines]
  | cons b bs ih =>
      have hcons : (∃ i, (b :: bs)[i]? = some newline ∧ x = offset + i + 1) ↔
          (b = newline ∧ x = offset + 1) ∨ ∃ i, bs[i]? = some newline ∧ x = offset + 1 + i + 1 := by
        constructor
        · rintro ⟨_ | i, hi, hx⟩
          · exact .inl ⟨Option.some.inj hi, hx⟩
          · exact .inr ⟨i, hi, by omega⟩
        · rintro (⟨hb, hx⟩ | ⟨i, hi, hx⟩)
          · exact ⟨0, congrArg some hb, hx⟩
          · exact ⟨i + 1, hi, by omega⟩
      rw [hcons, ← ih, pastNewlines]
      by_cases hb : b = newline
      · simp [hb]
      · simp [hb]

theorem lt_of_mem_pastNewlines {offset x : Nat} {bs : List UInt8}
    (h : x ∈ pastNewlines offset bs) : offset < x := by
  obtain ⟨i, -, rfl⟩ := mem_pastNewlines.mp h
  omega

theorem pastNewlines_ascending (offset : Nat) (bs : List UInt8) :
    (pastNewlines offset bs).Pairwise (· < ·) := by
  induction bs generalizing offset with
  | nil => exact .nil
  | cons b bs ih =>
      rw [pastNewlines]
      split
      · exact .cons (fun _ hx => lt_of_mem_pastNewlines hx) (ih _)
      · exact ih _

/-- The starts of lines up to an offset are those that the bytes before it give. -/
theorem mem_pastNewlines_take {bytes : List UInt8} {offset x : Nat} :
    x ∈ pastNewlines 0 (bytes.take offset) ↔
      ∃ i, i < offset ∧ bytes[i]? = some newline ∧ x = i + 1 := by
  simp [mem_pastNewlines, List.getElem?_take, and_assoc]

theorem lt_of_mem_pastNewlines_drop {bytes : List UInt8} {offset x : Nat}
    (h : x ∈ pastNewlines (bytes.take offset).length (bytes.drop offset)) : offset < x := by
  obtain ⟨i, hi, rfl⟩ := mem_pastNewlines.mp h
  have hlength := (List.getElem?_eq_some_iff.mp hi).1
  rw [List.length_drop] at hlength
  rw [List.length_take, Nat.min_eq_left (by omega)]
  omega

theorem pastNewlines_split (bytes : List UInt8) (offset : Nat) :
    pastNewlines 0 bytes = pastNewlines 0 (bytes.take offset) ++
      pastNewlines (bytes.take offset).length (bytes.drop offset) := by
  have hsplit := pastNewlines_append 0 (bytes.take offset) (bytes.drop offset)
  rwa [List.take_append_drop, Nat.zero_add] at hsplit

theorem takeWhile_pastNewlines (bytes : List UInt8) (offset : Nat) :
    (pastNewlines 0 bytes).takeWhile (· ≤ offset) = pastNewlines 0 (bytes.take offset) := by
  rw [pastNewlines_split bytes offset, List.takeWhile_append_of_pos]
  · refine List.append_right_eq_self.mpr (List.eq_nil_iff_forall_not_mem.mpr fun x hx => ?_)
    have hle := of_decide_eq_true (List.all_eq_true.mp List.all_takeWhile x hx)
    have hlt := lt_of_mem_pastNewlines_drop ((List.takeWhile_sublist _).subset hx)
    omega
  · intro x hx
    obtain ⟨i, hi, -, rfl⟩ := mem_pastNewlines_take.mp hx
    exact decide_eq_true hi

/-! ## Lines -/

/-- The line that an offset is in begins at `start`: there begins the text or ends a newline,
and no newline stands between there and the offset. -/
structure BeginsLine (bytes : List UInt8) (offset start : Nat) : Prop where
  le : start ≤ offset
  opens : start = 0 ∨ ∃ i, bytes[i]? = some newline ∧ start = i + 1
  unbroken : ∀ i, start ≤ i → i < offset → bytes[i]? ≠ some newline

theorem BeginsLine.of_pastNewlines (bytes : List UInt8) (offset : Nat) :
    BeginsLine bytes offset ((pastNewlines 0 (bytes.take offset)).getLastD 0) := by
  have hmem := @mem_pastNewlines_take bytes offset
  have hascending := pastNewlines_ascending 0 (bytes.take offset)
  rcases List.eq_nil_or_concat (pastNewlines 0 (bytes.take offset)) with hnil | ⟨front, last, heq⟩
  · rw [hnil] at hmem ⊢
    refine ⟨Nat.zero_le _, .inl rfl, fun i _ hi hnewline => ?_⟩
    exact List.not_mem_nil (hmem.mpr ⟨i, hi, hnewline, rfl⟩)
  · rw [List.concat_eq_append] at heq
    rw [heq] at hmem hascending ⊢
    rw [List.getLastD_concat]
    obtain ⟨i, hi, hnewline, rfl⟩ :=
      hmem.mp (List.mem_append_right front (List.mem_singleton_self last))
    refine ⟨hi, .inr ⟨i, hnewline, rfl⟩, fun j hj hjo hother => ?_⟩
    have hle : j + 1 ≤ i + 1 := by
      have hin := hmem.mpr ⟨j, hjo, hother, rfl⟩
      rcases List.mem_append.mp hin with hfront | hlast
      · exact Nat.le_of_lt ((List.pairwise_append.mp hascending).2.2 _ hfront _ (by simp))
      · exact Nat.le_of_eq (List.mem_singleton.mp hlast)
    omega

/-- The order in which places are read: by lines, and in a line by columns. -/
def Location.Before (l m : Location) : Prop :=
  l.line < m.line ∨ l.line = m.line ∧ l.column < m.column

theorem Location.Before.asymm {l m : Location} (h : l.Before m) : ¬ m.Before l := by
  rintro (h' | ⟨_, h'⟩) <;> rcases h with h | ⟨_, h⟩ <;> omega

theorem Location.Before.irrefl (l : Location) : ¬ l.Before l := fun h => h.asymm h

/-! ## The table of lines -/

namespace LineIndex

/-- The starts of all lines, the first one at the start of the text. -/
def starts (index : LineIndex) : List Nat := 0 :: index.laterStarts

theorem startsAfter_eq (offset : Nat) (cs : List Char) :
    startsAfter offset cs = pastNewlines offset (utf8Bytes cs) := by
  induction cs generalizing offset with
  | nil => rfl
  | cons c cs ih =>
      rw [utf8Bytes_cons, pastNewlines_append, String.length_utf8EncodeChar, startsAfter]
      by_cases hc : c = '\n'
      · rw [if_pos hc, ih, hc]
        rfl
      · rw [if_neg hc, ih, pastNewlines_eq_nil (mt newline_mem_utf8EncodeChar.mp hc),
          List.nil_append]

theorem laterStarts_ofText (text : String) :
    (ofText text).laterStarts = pastNewlines 0 (bytesOf text) := by
  rw [ofText, startsAfter_eq, bytesOf_eq]

/-- Where the line of an offset begins. -/
def lineStart (text : String) (offset : Nat) : Nat :=
  (pastNewlines 0 ((bytesOf text).take offset)).getLastD 0

theorem location_eq (text : String) (offset : Nat) :
    (ofText text).location offset =
      ⟨((bytesOf text).take offset).count newline + 1, offset - lineStart text offset + 1⟩ := by
  rw [location, laterStarts_ofText, takeWhile_pastNewlines, length_pastNewlines, lineStart]

theorem beginsLine_lineStart (text : String) (offset : Nat) :
    BeginsLine (bytesOf text) offset (lineStart text offset) := .of_pastNewlines _ _

theorem starts_ascending (text : String) : (ofText text).starts.Pairwise (· < ·) := by
  rw [starts, laterStarts_ofText]
  exact .cons (fun _ hx => lt_of_mem_pastNewlines hx) (pastNewlines_ascending 0 _)

/-- The table has a row for every location, and the offset lies in the line of that row. -/
theorem starts_row (text : String) (offset : Nat) :
    (ofText text).starts[((bytesOf text).take offset).count newline]? =
      some (lineStart text offset) := by
  rw [starts, laterStarts_ofText, pastNewlines_split _ offset, lineStart, ← length_pastNewlines 0]
  rcases List.eq_nil_or_concat (pastNewlines 0 ((bytesOf text).take offset)) with
    hnil | ⟨front, last, heq⟩
  · rw [hnil]
    rfl
  · rw [heq, List.concat_eq_append, List.getLastD_concat, List.length_append]
    simp

/-- Rows behind that of an offset are about lines that begin behind it. -/
theorem lt_of_row_lt {text : String} {offset row start : Nat}
    (hrow : ((bytesOf text).take offset).count newline < row)
    (h : (ofText text).starts[row]? = some start) : offset < start := by
  obtain ⟨k, rfl⟩ : ∃ k, row = k + 1 := ⟨row - 1, by omega⟩
  rw [starts, laterStarts_ofText, pastNewlines_split _ offset, List.getElem?_cons_succ,
    List.getElem?_append_right (by rw [length_pastNewlines]; omega)] at h
  exact lt_of_mem_pastNewlines_drop (List.mem_of_getElem? h)

theorem start_lt_of_row_lt {text : String} {i j x y : Nat} (hij : i < j)
    (hi : (ofText text).starts[i]? = some x) (hj : (ofText text).starts[j]? = some y) : x < y := by
  obtain ⟨hilength, rfl⟩ := List.getElem?_eq_some_iff.mp hi
  obtain ⟨hjlength, rfl⟩ := List.getElem?_eq_some_iff.mp hj
  exact List.pairwise_iff_getElem.mp (starts_ascending text) i j hilength hjlength hij

/-- The rows of an ascending table that a binary search for `x` may lead to: one that holds
`x` or, where none does, the one before the place at which `x` would be inserted. -/
inductive Searched (table : List Nat) (x : Nat) : Nat → Prop
  | found {i : Nat} (h : table[i]? = some x) : Searched table x i
  | absent {i : Nat} (hlength : i ≤ table.length)
      (hbefore : ∀ j y, j < i → table[j]? = some y → y < x)
      (hbehind : ∀ j y, i ≤ j → table[j]? = some y → x < y) : Searched table x (i - 1)

/-- A binary search leads to one row only, that of the line. -/
theorem searched_iff (text : String) (offset row : Nat) :
    Searched (ofText text).starts offset row ↔
      row = ((bytesOf text).take offset).count newline := by
  have hrow := starts_row text offset
  have hle := (beginsLine_lineStart text offset).le
  have hbeyond := @lt_of_row_lt text offset
  generalize ((bytesOf text).take offset).count newline = k at hrow hbeyond ⊢
  constructor
  · intro h
    cases h with
    | found h =>
        rcases Nat.lt_trichotomy row k with hlt | heq | hgt
        · have hstart := start_lt_of_row_lt hlt h hrow
          omega
        · exact heq
        · exact absurd (hbeyond hgt h) (Nat.lt_irrefl _)
    | @absent i hlength hbefore hbehind =>
        have hki : k < i := Nat.lt_of_not_le fun hik => by
          have hlt := hbehind k _ hik hrow
          omega
        refine Nat.le_antisymm (Nat.le_of_not_lt fun hgt => ?_) (Nat.le_sub_one_of_lt hki)
        have hnext : k + 1 < (ofText text).starts.length := by omega
        have hlow := hbefore (k + 1) _ (by omega) (List.getElem?_eq_getElem hnext)
        have hhigh := hbeyond (Nat.lt_succ_self k) (List.getElem?_eq_getElem hnext)
        omega
  · rintro rfl
    by_cases hstart : lineStart text offset = offset
    · exact .found (hstart ▸ hrow)
    · have hlength : row < (ofText text).starts.length := (List.getElem?_eq_some_iff.mp hrow).1
      refine .absent (i := row + 1) hlength (fun j y hj hy => ?_) fun j y hj hy => hbeyond hj hy
      rcases Nat.lt_or_eq_of_le (Nat.le_of_lt_succ hj) with hlt | rfl
      · have hbelow := start_lt_of_row_lt hlt hy hrow
        omega
      · have heq := Option.some.inj (hy.symm.trans hrow)
        omega

/-! ## Locations -/

theorem lineStart_eq_of_line_eq {text : String} {offset other : Nat}
    (h : ((ofText text).location offset).line = ((ofText text).location other).line) :
    lineStart text offset = lineStart text other := by
  rw [location_eq, location_eq] at h
  have hrow := starts_row text offset
  rw [Nat.succ.inj h, starts_row] at hrow
  exact (Option.some.inj hrow).symm

theorem before_of_lt {text : String} {offset other : Nat} (h : offset < other) :
    ((ofText text).location offset).Before ((ofText text).location other) := by
  by_cases hline : ((ofText text).location offset).line = ((ofText text).location other).line
  · have hstart := lineStart_eq_of_line_eq hline
    have hle := (beginsLine_lineStart text offset).le
    refine .inr ⟨hline, ?_⟩
    rw [location_eq, location_eq]
    show offset - _ + 1 < other - _ + 1
    omega
  · refine .inl (Nat.lt_of_le_of_ne ?_ hline)
    rw [location_eq, location_eq]
    refine Nat.succ_le_succ (List.Sublist.count_le _ ?_)
    exact (List.take_prefix_take_left (Nat.le_of_lt h)).sublist

/-- What a line index answers for the offsets of its text, and beyond. -/
structure Exact (text : String) : Prop where
  /-- Lines are counted by the newlines before an offset. -/
  line (offset : Nat) :
    ((ofText text).location offset).line = ((bytesOf text).take offset).count newline + 1
  /-- Columns are counted by the bytes since the line began. -/
  column (offset : Nat) : ∃ start, BeginsLine (bytesOf text) offset start ∧
    ((ofText text).location offset).column = offset - start + 1
  /-- A binary search in the table of starts leads to the line, the table has that row, and
  what it says does not lie behind the offset. -/
  searched (offset : Nat) : ∃ row start, (∀ r, Searched (ofText text).starts offset r ↔ r = row) ∧
    (ofText text).starts[row]? = some start ∧ start ≤ offset ∧
    (ofText text).location offset = ⟨row + 1, offset - start + 1⟩
  /-- From the location one comes back to the offset. -/
  restored (offset : Nat) : ∃ start,
    (ofText text).starts[((ofText text).location offset).line - 1]? = some start ∧
    start + (((ofText text).location offset).column - 1) = offset
  /-- Locations come in the order of their offsets. -/
  before_iff (offset other : Nat) :
    ((ofText text).location offset).Before ((ofText text).location other) ↔ offset < other
  /-- Different offsets have different locations. -/
  injective (offset other : Nat) :
    (ofText text).location offset = (ofText text).location other ↔ offset = other
  /-- Neither number exceeds what comes after the offset. -/
  bounded (offset : Nat) : ((ofText text).location offset).line ≤ offset + 1 ∧
    ((ofText text).location offset).column ≤ offset + 1

/-- A line index is exact for every text: at its newlines, right behind them, at its end and
past it, whatever bytes its characters take. -/
theorem ofText_exact (text : String) : Exact text where
  line offset := congrArg Location.line (location_eq text offset)
  column offset := ⟨_, beginsLine_lineStart text offset,
    congrArg Location.column (location_eq text offset)⟩
  searched offset := ⟨_, _, searched_iff text offset, starts_row text offset,
    (beginsLine_lineStart text offset).le, location_eq text offset⟩
  restored offset := by
    refine ⟨lineStart text offset, ?_, ?_⟩
    · rw [location_eq]
      exact starts_row text offset
    · rw [location_eq]
      exact Nat.add_sub_cancel' (beginsLine_lineStart text offset).le
  before_iff offset other := by
    refine ⟨fun h => Nat.lt_of_not_le fun hle => ?_, before_of_lt⟩
    rcases Nat.lt_or_eq_of_le hle with hlt | rfl
    · exact Location.Before.asymm (before_of_lt hlt) h
    · exact Location.Before.asymm h h
  injective offset other := by
    refine ⟨fun h => ?_, congrArg _⟩
    rcases Nat.lt_trichotomy offset other with hlt | heq | hgt
    · exact absurd (h ▸ before_of_lt hlt) (Location.Before.irrefl _)
    · exact heq
    · exact absurd (h ▸ before_of_lt hgt) (Location.Before.irrefl _)
  bounded offset := by
    rw [location_eq]
    refine ⟨Nat.succ_le_succ ?_, Nat.succ_le_succ (Nat.sub_le _ _)⟩
    exact Nat.le_trans List.count_le_length (List.length_take_le _ _)

/-- A newline is on the line that it ends, and what comes right after it begins the next. -/
example : [0, 2, 3, 4, 5, 6, 9].map (fun offset => ((ofText "é\n\n\ra").location offset).render) =
    ["1:1", "1:3", "2:1", "3:1", "3:2", "3:3", "3:6"] := by decide +kernel

end LineIndex

end GraphLint
