/-!
# Byte spans

A span is a half-open range of bytes `[start, stop)` of one UTF-8 text.  All
positions that leave this library are spans: offsets count bytes, so a
character outside ASCII is as wide as its encoding.
-/

set_option autoImplicit false

namespace GraphLint

/-- A half-open range of bytes of a text. -/
structure Span where
  start : Nat
  /-- Offset just past the last byte. -/
  stop : Nat
  deriving DecidableEq, Repr, Inhabited

/-- The number of bytes that the characters take in UTF-8. -/
def utf8Width : List Char → Nat
  | [] => 0
  | c :: cs => c.utf8Size + utf8Width cs

@[simp] theorem utf8Width_nil : utf8Width [] = 0 := rfl

@[simp] theorem utf8Width_cons (c : Char) (cs : List Char) :
    utf8Width (c :: cs) = c.utf8Size + utf8Width cs := rfl

@[simp] theorem utf8Width_append (as bs : List Char) :
    utf8Width (as ++ bs) = utf8Width as + utf8Width bs := by
  induction as with
  | nil => simp
  | cons a as ih => simp [ih, Nat.add_assoc]

namespace Span

def size (s : Span) : Nat := s.stop - s.start

/-- The span of the same bytes in a text that lacks `n` bytes before them. -/
def back (n : Nat) (s : Span) : Span := ⟨s.start - n, s.stop - n⟩

/-- The written form of a span, `start..stop`. -/
def render (s : Span) : String :=
  toString s.start ++ ".." ++ toString s.stop

end Span

end GraphLint
