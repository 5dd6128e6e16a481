import GraphLint.Data.Json
import Mathlib.Data.List.Basic

/-!
# What is written as JSON is read again

The reader gets back the value that the writer was given, in either layout and
whatever goes on behind it.  That holds of values made of strings, truth values and
nothing (`Datum.IsTextual`).  Numbers are left out because a reader has to see where
a number ends, and no configuration has one.

The reader is bounded.  Twice the number of characters of a value is bound enough for
it (`Reads`): what brackets and commas add to that pays for the calls between them.
-/

set_option autoImplicit false

namespace GraphLint

/-- The value is made of strings, truth values and nothing, and its keys are strings. -/
inductive Datum.IsTextual : Datum → Prop
  | null : IsTextual .null
  | bool (value : Bool) : IsTextual (.bool value)
  | string (text : String) : IsTextual (.string text)
  | list {items : List Datum} (inside : ∀ d ∈ items, IsTextual d) : IsTextual (.list items)
  | object {entries : List (String × Datum)} (inside : ∀ entry ∈ entries, IsTextual entry.2) :
    IsTextual (.object entries)

/-- All keys in the value are strings. -/
inductive Datum.IsStringKeyed : Datum → Prop
  | null : IsStringKeyed .null
  | bool (value : Bool) : IsStringKeyed (.bool value)
  | number (text : String) : IsStringKeyed (.number text)
  | string (text : String) : IsStringKeyed (.string text)
  | list {items : List Datum} (inside : ∀ d ∈ items, IsStringKeyed d) : IsStringKeyed (.list items)
  | object {entries : List (String × Datum)} (inside : ∀ entry ∈ entries, IsStringKeyed entry.2) :
    IsStringKeyed (.object entries)

namespace Json

/-! ## Space -/

theorem skipSpace_of_not_isSpace {c : Char} (h : isSpace c = false) (cs : List Char) :
    skipSpace (c :: cs) = c :: cs :=
  List.dropWhile_cons_of_neg (by simp [h])

/-- What stands before an item is space. -/
theorem isSpace_of_mem_gap {layout : Layout} {level : Nat} {c : Char}
    (h : c ∈ (layout.gap level).toList) : isSpace c = true := by
  cases layout with
  | compact => cases h
  | lines =>
      rw [Layout.gap, newline, String.toList_ofList, List.mem_cons] at h
      rcases h with rfl | h
      · rfl
      · rw [List.eq_of_mem_replicate h]
        rfl

theorem skipSpace_gap (layout : Layout) (level : Nat) (cs : List Char) :
    skipSpace ((layout.gap level).toList ++ cs) = skipSpace cs :=
  List.dropWhile_append_of_pos fun _ => isSpace_of_mem_gap

/-- A value is read from behind the space in front of it. -/
theorem value?_gap (layout : Layout) (level bound : Nat) (cs : List Char) :
    value? bound ((layout.gap level).toList ++ cs) = value? bound cs := by
  cases bound with
  | zero => rfl
  | succ bound => rw [value?, value?, skipSpace_gap]

/-! ## Strings -/

/-- Characters below the space have two hexadecimal digits behind two zeros. -/
theorem unicodeEscape?_control {n : Nat} (h : n < 0x20) (cs : List Char) :
    Literal.unicodeEscape? ('0' :: '0' :: Nat.digitChar (n / 16) :: Nat.digitChar (n % 16) :: cs) =
      some (Char.ofNat n, 4) := by
  have hnumber : ∀ n < 0x20, Literal.hexNumber? ['0', '0', Nat.digitChar (n / 16),
      Nat.digitChar (n % 16)] = some n := by decide
  have hscalar : ∀ n < 0x20, Literal.scalar? n = some (Char.ofNat n) := by decide
  show (Literal.hexNumber? _).bind _ = _
  rw [hnumber n h, Option.bind_some, hscalar n h]

/-- A character is written by an escape for it, or stands for itself. -/
theorem escape_cases (c : Char) :
    (∃ tail, escape c = '\\' :: tail ∧
      ∀ rest, escape? (tail ++ rest) = some (c, tail.length)) ∨
    (escape c = [c] ∧ c ≠ '"' ∧ c ≠ '\\' ∧ ¬c.toNat < 0x20) := by
  unfold escape
  iterate 7
    split
    · next h =>
        subst h
        exact .inl ⟨_, rfl, fun _ => rfl⟩
  split
  · next hcontrol =>
      refine .inl ⟨_, rfl, fun rest => ?_⟩
      show (Literal.unicodeEscape? ('0' :: '0' :: _ :: _ :: rest)).map _ = _
      rw [unicodeEscape?_control hcontrol, Char.ofNat_toNat]
      rfl
  · next hquote hslash _ _ _ _ _ hcontrol => exact .inr ⟨rfl, hquote, hslash, hcontrol⟩

/-- An escaped character is read as the character. -/
theorem stringRest?_escape (c : Char) (cs : List Char) :
    stringRest? (escape c ++ cs) =
      (stringRest? cs).map fun (ds, after) => (c :: ds, after) := by
  rcases escape_cases c with ⟨tail, heq, hread⟩ | ⟨heq, hquote, hslash, hcontrol⟩
  · rw [heq, List.cons_append, stringRest?, if_neg (by decide), if_pos rfl, hread]
    show (stringRest? ((tail ++ cs).drop tail.length)).map _ = _
    rw [List.drop_left]
  · rw [heq, List.singleton_append, stringRest?, if_neg hquote, if_neg hslash, if_neg hcontrol]

theorem stringRest?_quoted (cs rest : List Char) :
    stringRest? (cs.flatMap escape ++ '"' :: rest) = some (cs, rest) := by
  induction cs with
  | nil => rw [List.flatMap_nil, List.nil_append, stringRest?, if_pos rfl]
  | cons c cs ih =>
      rw [List.flatMap_cons, List.append_assoc, stringRest?_escape, ih]
      rfl

theorem toList_quote (text : String) :
    (quote text).toList = '"' :: (text.toList.flatMap escape ++ ['"']) := by
  rw [quote, String.toList_ofList]
  rfl

/-! ## Values -/

/-- A value as it is written is read again, whatever goes on behind it. -/
def Reads (layout : Layout) (level : Nat) (d : Datum) : Prop :=
  ∀ (bound : Nat) (rest : List Char), 2 * (renderAt layout level d).toList.length ≤ bound →
    value? (bound + 1) ((renderAt layout level d).toList ++ rest) = some (d, rest)

theorem reads_null (layout : Layout) (level : Nat) : Reads layout level .null := by
  intro bound rest _
  rw [renderAt]
  rfl

theorem reads_bool (layout : Layout) (level : Nat) (value : Bool) :
    Reads layout level (.bool value) := by
  intro bound rest _
  rw [renderAt]
  cases value <;> rfl

theorem reads_string (layout : Layout) (level : Nat) (text : String) :
    Reads layout level (.string text) := by
  intro bound rest _
  rw [renderAt, toList_quote, value?, List.cons_append, skipSpace_of_not_isSpace (by decide)]
  show (stringRest? _).map _ = _
  rw [List.append_assoc, List.singleton_append, stringRest?_quoted]
  show some (Datum.string (String.ofList text.toList), rest) = _
  rw [String.ofList_toList]

/-! ## Lists -/

theorem toList_renderAt_list (layout : Layout) (level : Nat) (item : Datum) (items : List Datum) :
    (renderAt layout level (.list (item :: items))).toList =
      '[' :: ((renderItems layout (level + 1) (item :: items)).toList ++
        ((layout.gap level).toList ++ [']'])) := by
  simp only [renderAt, String.toList_append, List.append_assoc]
  rfl

theorem toList_renderItems_cons (layout : Layout) (level : Nat) (item next : Datum)
    (items : List Datum) :
    (renderItems layout level (item :: next :: items)).toList =
      (layout.gap level).toList ++ ((renderAt layout level item).toList ++
        ',' :: (renderItems layout level (next :: items)).toList) := by
  simp only [renderItems, String.toList_append, List.append_assoc]
  rfl

/-- The items of a list are read up to the bracket behind them. -/
theorem items?_renderItems {layout : Layout} {level : Nat} (outer : Nat) {items : List Datum}
    (hne : items ≠ []) (hreads : ∀ d ∈ items, Reads layout level d) (bound : Nat)
    (rest : List Char) (hbound : 2 * (renderItems layout level items).toList.length + 2 ≤ bound) :
    items? bound ((renderItems layout level items).toList ++
      ((layout.gap outer).toList ++ ']' :: rest)) = some (items, rest) := by
  induction items generalizing bound with
  | nil => exact absurd rfl hne
  | cons item items ih =>
      obtain ⟨bound, rfl⟩ := Nat.exists_eq_add_of_le' (Nat.le_of_add_left_le hbound)
      have hitem := hreads item List.mem_cons_self
      cases items with
      | nil =>
          rw [renderItems, String.toList_append] at hbound ⊢
          rw [List.length_append] at hbound
          rw [items?, List.append_assoc, value?_gap, hitem bound _ (by omega)]
          simp only [bind, Option.bind, skipSpace_gap, skipSpace_of_not_isSpace (c := ']') rfl]
      | cons next items =>
          rw [toList_renderItems_cons] at hbound ⊢
          rw [List.length_append, List.length_append, List.length_cons] at hbound
          rw [items?, List.append_assoc, value?_gap, List.append_assoc, hitem bound _ (by omega)]
          have hrest := ih nofun (fun d hd => hreads d (List.mem_cons_of_mem _ hd)) (bound + 1)
            (by omega)
          simp only [bind, Option.bind, List.cons_append,
            skipSpace_of_not_isSpace (c := ',') rfl, hrest, Option.map_some]

/-- What items can be read from is not the end of the list. -/
theorem value?_list {bound : Nat} {cs after : List Char} {items : List Datum}
    (h : items? bound cs = some (items, after)) :
    value? (bound + 1) ('[' :: cs) = some (.list items, after) := by
  simp only [value?, skipSpace_of_not_isSpace (c := '[') rfl]
  split
  · next heq =>
      have hnone : ∀ b, value? b cs = none := by
        rintro (_ | b)
        · rfl
        · rw [value?, heq]
          rfl
      cases bound with
      | zero => cases h
      | succ bound =>
          rw [items?, hnone] at h
          cases h
  · rw [h]
    rfl

theorem reads_list {layout : Layout} {level : Nat} {items : List Datum}
    (hreads : ∀ d ∈ items, Reads layout (level + 1) d) : Reads layout level (.list items) := by
  intro bound rest hbound
  cases items with
  | nil =>
      rw [renderAt]
      rfl
  | cons item items =>
      rw [toList_renderAt_list] at hbound ⊢
      rw [List.length_cons, List.length_append, List.length_append, List.length_singleton] at hbound
      have hitems := items?_renderItems level (List.cons_ne_nil item items) hreads bound rest
        (by omega)
      rw [List.cons_append, List.append_assoc, List.append_assoc]
      exact value?_list hitems

/-! ## Objects -/

/-- The entries of an object, with their keys as values. -/
def keyed (entries : List (String × Datum)) : List (Datum × Datum) :=
  entries.map fun (key, value) => (.string key, value)

theorem keyed_cons (entry : String × Datum) (entries : List (String × Datum)) :
    keyed (entry :: entries) = (.string entry.1, entry.2) :: keyed entries := rfl

theorem toList_renderAt_object (layout : Layout) (level : Nat) (entry : String × Datum)
    (entries : List (String × Datum)) :
    (renderAt layout level (.object (entry :: entries))).toList =
      '\x7b' :: ((renderEntries layout (level + 1) (keyed (entry :: entries))).toList ++
        ((layout.gap level).toList ++ ['\x7d'])) := by
  simp only [Datum.object, List.map_cons, renderAt, String.toList_append, List.append_assoc,
    keyed_cons]
  rfl

theorem toList_renderEntry (layout : Layout) (level : Nat) (key : String) (value : Datum) :
    (renderEntry layout level (.string key, value)).toList =
      (layout.gap level).toList ++ '"' :: (key.toList.flatMap escape ++
        '"' :: (layout.colon.toList ++ (renderAt layout level value).toList)) := by
  simp only [renderEntry, renderAt, String.toList_append, toList_quote, List.append_assoc,
    List.cons_append, List.nil_append]

theorem toList_renderEntries_cons (layout : Layout) (level : Nat) (entry next : Datum × Datum)
    (entries : List (Datum × Datum)) :
    (renderEntries layout level (entry :: next :: entries)).toList =
      (renderEntry layout level entry).toList ++
        ',' :: (renderEntries layout level (next :: entries)).toList := by
  simp only [renderEntries, String.toList_append, List.append_assoc]
  rfl

/-- Behind a colon a value is read as if it stood alone. -/
theorem skipSpace_colon (layout : Layout) (cs : List Char) :
    ∃ gap : List Char, skipSpace (layout.colon.toList ++ cs) = ':' :: (gap ++ cs) ∧
      ∀ bound, value? bound (gap ++ cs) = value? bound cs := by
  cases layout with
  | compact => exact ⟨[], rfl, fun _ => rfl⟩
  | lines =>
      refine ⟨[' '], rfl, ?_⟩
      rintro (_ | bound)
      · rfl
      · rw [value?, value?]
        rfl

/-- What entries are read where one has been read and some text stands behind it. -/
def entriesBehind? (bound : Nat) (entry : Datum × Datum) (cs : List Char) :
    Option (List (Datum × Datum) × List Char) :=
  match skipSpace cs with
  | ',' :: rest => (entries? bound rest).map fun (more, after) => (entry :: more, after)
  | '\x7d' :: after => some ([entry], after)
  | _ => none

/-- An entry is read up to what stands behind it. -/
theorem entries?_renderEntry {layout : Layout} {level : Nat} {key : String} {value : Datum}
    (hreads : Reads layout level value) {bound : Nat} (rest : List Char)
    (hbound : 2 * (renderEntry layout level (.string key, value)).toList.length ≤ bound) :
    entries? (bound + 2) ((renderEntry layout level (.string key, value)).toList ++ rest) =
      entriesBehind? (bound + 1) (.string key, value) rest := by
  rw [toList_renderEntry] at hbound ⊢
  obtain ⟨gap, hcolon, hgap⟩ :=
    skipSpace_colon layout ((renderAt layout level value).toList ++ rest)
  simp only [List.length_append, List.length_cons] at hbound
  have hvalue := hreads bound rest (by omega)
  rw [entries?]
  simp only [List.append_assoc, List.cons_append, skipSpace_gap,
    skipSpace_of_not_isSpace (c := '"') rfl, stringRest?_quoted, bind, Option.bind, hcolon, hgap,
    hvalue, String.ofList_toList]
  rfl

/-- The entries of an object are read up to the brace behind them. -/
theorem entries?_renderEntries {layout : Layout} {level : Nat} (outer : Nat)
    {entries : List (String × Datum)} (hne : entries ≠ [])
    (hreads : ∀ entry ∈ entries, Reads layout level entry.2) (bound : Nat) (rest : List Char)
    (hbound : 2 * (renderEntries layout level (keyed entries)).toList.length ≤ bound) :
    entries? (bound + 2) ((renderEntries layout level (keyed entries)).toList ++
      ((layout.gap outer).toList ++ '\x7d' :: rest)) = some (keyed entries, rest) := by
  induction entries generalizing bound with
  | nil => exact absurd rfl hne
  | cons entry entries ih =>
      have hentry := hreads entry List.mem_cons_self
      cases entries with
      | nil =>
          rw [keyed_cons] at hbound ⊢
          show entries? _ ((renderEntry layout level _).toList ++ _) = _
          rw [entries?_renderEntry hentry _ hbound, entriesBehind?, skipSpace_gap,
            skipSpace_of_not_isSpace rfl]
          rfl
      | cons next entries =>
          rw [keyed_cons, keyed_cons, toList_renderEntries_cons, ← keyed_cons] at hbound ⊢
          rw [List.length_append, List.length_cons] at hbound
          obtain ⟨bound, rfl⟩ : ∃ b, bound = b + 1 := ⟨bound - 1, by omega⟩
          have hrest := ih (List.cons_ne_nil next entries)
            (fun e he => hreads e (List.mem_cons_of_mem _ he)) bound (by omega)
          rw [List.append_assoc, entries?_renderEntry hentry _ (by omega), entriesBehind?,
            List.cons_append, skipSpace_of_not_isSpace rfl]
          show (entries? (bound + 2) _).map _ = _
          rw [hrest]
          rfl

/-- What entries can be read from is not the end of the object. -/
theorem value?_object {bound : Nat} {cs after : List Char} {entries : List (Datum × Datum)}
    (h : entries? bound cs = some (entries, after)) :
    value? (bound + 1) ('\x7b' :: cs) = some (.map entries, after) := by
  simp only [value?, skipSpace_of_not_isSpace (c := '\x7b') rfl]
  split
  · next heq =>
      cases bound with
      | zero => cases h
      | succ bound =>
          rw [entries?, heq] at h
          cases h
  · rw [h]
    rfl

theorem reads_object {layout : Layout} {level : Nat} {entries : List (String × Datum)}
    (hreads : ∀ entry ∈ entries, Reads layout (level + 1) entry.2) :
    Reads layout level (.object entries) := by
  intro bound rest hbound
  cases entries with
  | nil =>
      show value? _ ((renderAt layout level (.map [])).toList ++ _) = _
      rw [renderAt]
      rfl
  | cons entry entries =>
      rw [toList_renderAt_object] at hbound ⊢
      rw [List.length_cons, List.length_append, List.length_append, List.length_singleton] at hbound
      obtain ⟨bound, rfl⟩ : ∃ b, bound = b + 2 := ⟨bound - 2, by omega⟩
      have hentries := entries?_renderEntries level (List.cons_ne_nil entry entries) hreads bound
        rest (by omega)
      rw [List.cons_append, List.append_assoc, List.append_assoc]
      exact value?_object hentries

/-! ## Texts -/

theorem reads_of_isTextual {d : Datum} (h : d.IsTextual) (layout : Layout) (level : Nat) :
    Reads layout level d := by
  induction h generalizing level with
  | null => exact reads_null layout level
  | bool value => exact reads_bool layout level value
  | string text => exact reads_string layout level text
  | list _ ih => exact reads_list fun d hd => ih d hd (level + 1)
  | object _ ih => exact reads_object fun entry he => ih entry he (level + 1)

/-- The text of a value writes that value. -/
theorem parse?_render {d : Datum} (h : d.IsTextual) (layout : Layout) :
    parse? (render layout d) = some d := by
  have hread := reads_of_isTextual h layout 0 (2 * (renderAt layout 0 d).toList.length + 1) []
    (Nat.le_succ _)
  rw [List.append_nil] at hread
  show (value? (2 * (renderAt layout 0 d).toList.length + 2) (renderAt layout 0 d).toList).bind _ = _
  rw [hread]
  rfl

/-! ## Keys -/

/-- What is read within a bound has strings for keys. -/
structure KeyedWithin (bound : Nat) : Prop where
  value {cs rest : List Char} {d : Datum} (h : value? bound cs = some (d, rest)) : d.IsStringKeyed
  items {cs rest : List Char} {items : List Datum} (h : items? bound cs = some (items, rest)) :
    ∀ d ∈ items, d.IsStringKeyed
  entries {cs rest : List Char} {entries : List (Datum × Datum)}
    (h : entries? bound cs = some (entries, rest)) :
    ∃ named, entries = keyed named ∧ ∀ entry ∈ named, entry.2.IsStringKeyed

namespace KeyedWithin

variable {bound : Nat} {cs rest : List Char} (hbound : KeyedWithin bound)

include hbound

theorem value_succ {d : Datum} (h : value? (bound + 1) cs = some (d, rest)) : d.IsStringKeyed := by
  rw [value?] at h
  split at h
  · cases h
    exact .null
  · cases h
    exact .bool true
  · cases h
    exact .bool false
  · obtain ⟨_, _, heq⟩ := Option.map_eq_some_iff.mp h
    cases heq
    exact .string _
  · split at h
    · cases h
      exact .list fun d hd => absurd hd List.not_mem_nil
    · obtain ⟨_, hread, heq⟩ := Option.map_eq_some_iff.mp h
      cases heq
      exact .list (hbound.items hread)
  · split at h
    · cases h
      exact @Datum.IsStringKeyed.object [] fun entry he => absurd he List.not_mem_nil
    · obtain ⟨_, hread, heq⟩ := Option.map_eq_some_iff.mp h
      cases heq
      obtain ⟨named, hnamed, hinside⟩ := hbound.entries hread
      rw [hnamed]
      exact .object hinside
  · obtain ⟨_, _, heq⟩ := Option.map_eq_some_iff.mp h
    cases heq
    exact .number _

theorem items_succ {items : List Datum} (h : items? (bound + 1) cs = some (items, rest)) :
    ∀ d ∈ items, d.IsStringKeyed := by
  rw [items?] at h
  obtain ⟨⟨first, behind⟩, hfirst, h⟩ := Option.bind_eq_some_iff.mp h
  dsimp only at h
  split at h
  · obtain ⟨_, hread, heq⟩ := Option.map_eq_some_iff.mp h
    cases heq
    exact List.forall_mem_cons.mpr ⟨hbound.value hfirst, hbound.items hread⟩
  · cases h
    exact List.forall_mem_singleton.mpr (hbound.value hfirst)
  · cases h

theorem entries_succ {entries : List (Datum × Datum)}
    (h : entries? (bound + 1) cs = some (entries, rest)) :
    ∃ named, entries = keyed named ∧ ∀ entry ∈ named, entry.2.IsStringKeyed := by
  rw [entries?] at h
  split at h
  · obtain ⟨⟨key, behind⟩, _, h⟩ := Option.bind_eq_some_iff.mp h
    dsimp only at h
    split at h
    · obtain ⟨⟨value, behind⟩, hread, h⟩ := Option.bind_eq_some_iff.mp h
      dsimp only at h
      split at h
      · obtain ⟨_, hmore, heq⟩ := Option.map_eq_some_iff.mp h
        cases heq
        obtain ⟨named, hnamed, hinside⟩ := hbound.entries hmore
        refine ⟨(String.ofList key, value) :: named, by rw [keyed_cons, hnamed], ?_⟩
        exact List.forall_mem_cons.mpr ⟨hbound.value hread, hinside⟩
      · cases h
        exact ⟨[(String.ofList key, value)], rfl,
          List.forall_mem_singleton.mpr (hbound.value hread)⟩
      · cases h
    · cases h
  · cases h

end KeyedWithin

theorem keyedWithin (bound : Nat) : KeyedWithin bound := by
  induction bound with
  | zero => constructor <;> intros <;> contradiction
  | succ bound ih => exact ⟨ih.value_succ, ih.items_succ, ih.entries_succ⟩

/-- The keys of a value that a text writes are strings. -/
theorem isStringKeyed_of_parse? {text : String} {d : Datum} (h : parse? text = some d) :
    d.IsStringKeyed := by
  obtain ⟨⟨value, rest⟩, hread, h⟩ := Option.bind_eq_some_iff.mp h
  dsimp only at h
  split at h
  · cases h
    exact (keyedWithin _).value hread
  · cases h

end Json

end GraphLint
