import GraphLint.Text.Span

/-!
# The bytes of a text

Positions count bytes, while the definitions go through a text by its characters.  This
module says which bytes a text consists of, so that what is claimed about positions can be
stated in bytes alone.
-/

set_option autoImplicit false

namespace GraphLint

/-- The bytes that write characters in UTF-8. -/
def utf8Bytes (cs : List Char) : List UInt8 := cs.flatMap String.utf8EncodeChar

@[simp] theorem utf8Bytes_cons (c : Char) (cs : List Char) :
    utf8Bytes (c :: cs) = String.utf8EncodeChar c ++ utf8Bytes cs := rfl

@[simp] theorem utf8Bytes_append (as bs : List Char) :
    utf8Bytes (as ++ bs) = utf8Bytes as ++ utf8Bytes bs := List.flatMap_append

@[simp] theorem length_utf8Bytes (cs : List Char) : (utf8Bytes cs).length = utf8Width cs := by
  induction cs with
  | nil => rfl
  | cons c cs ih => simp [ih, String.length_utf8EncodeChar]

/-- The bytes of a text. -/
def bytesOf (text : String) : List UInt8 := text.toByteArray.data.toList

theorem bytesOf_eq (text : String) : bytesOf text = utf8Bytes text.toList := by
  rw [bytesOf, ← String.utf8Encode_toList, List.utf8Encode, utf8Bytes]
  simp

theorem bytesOf_join (texts : List String) : bytesOf (String.join texts) = texts.flatMap bytesOf := by
  show _ = texts.flatMap fun text => bytesOf text
  simp only [bytesOf_eq, utf8Bytes, String.toList_join, List.flatMap_assoc]

/-- The byte that ends a line. -/
def newline : UInt8 := 10

theorem newline_eq_ofNat {n : Nat} (h : n < 256) : newline = UInt8.ofNat n ↔ n = 10 := by
  rw [← UInt8.toNat_inj, UInt8.toNat_ofNat', Nat.mod_eq_of_lt h]
  exact eq_comm

/-- Only the newline has the byte of the newline in its encoding: where a character takes
several bytes, each of them is 128 or more. -/
theorem newline_mem_utf8EncodeChar {c : Char} : newline ∈ String.utf8EncodeChar c ↔ c = '\n' := by
  have hten : c = '\n' ↔ c.val.toNat = 10 := by
    rw [← Char.val_inj, ← UInt32.toNat_inj]
    rfl
  rw [hten]
  simp only [String.utf8EncodeChar]
  generalize c.val.toNat = v
  split
  · rw [List.mem_singleton, newline_eq_ofNat (by omega)]
  repeat' split
  all_goals
    simp (disch := omega) only [List.mem_cons, List.not_mem_nil, or_false, newline_eq_ofNat]
    omega

end GraphLint
