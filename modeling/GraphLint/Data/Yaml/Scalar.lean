import GraphLint.Data.Base64
import GraphLint.Data.Datum
import GraphLint.Data.Yaml.Node
import GraphLint.Source.Literal

/-!
# The values of scalars

What a scalar stands for.  With marks of its own it is a string; a plain one may
write nothing, a truth value or a number.  The words for truth values are those of
YAML 1.1: `off` and `no` are false, `on` and `yes` are true.

Numbers that are not finite stand for the strings that name them.
-/

set_option autoImplicit false

namespace GraphLint.Yaml

/-! ## Words -/

/-- A word in lower case, in upper case, or with a capital. -/
def cases (word : String) : List String :=
  [word, word.map Char.toUpper, word.capitalize]

def falseWords : List String := ["off", "no", "n", "false"].flatMap cases

def trueWords : List String := ["on", "yes", "y", "true"].flatMap cases

/-- Whether a text writes nothing. -/
def isNullWord (text : String) : Bool :=
  text = "" || text = "~" || text.map Char.toLower = "null"

/-! ## Whole numbers -/

/-- What is left without the sign a number may begin with, and whether that says
that it is negative. -/
def unsigned (cs : List Char) : Bool × List Char :=
  match cs with
  | '-' :: rest => (true, rest)
  | '+' :: rest => (false, rest)
  | _ => (false, cs)

/-- The base that the first characters of a number announce, and its digits. -/
def based (cs : List Char) : Nat × List Char :=
  match cs with
  | '0' :: letter :: rest =>
    if letter = 'x' || letter = 'X' then (16, rest)
    else if letter = 'o' || letter = 'O' then (8, rest)
    else if letter = 'b' || letter = 'B' then (2, rest)
    else (10, cs)
  | _ => (10, cs)

/-- The number that digits write in a base. -/
def digits? (base : Nat) (cs : List Char) : Option Nat :=
  if cs.isEmpty then none
  else cs.foldlM (fun n c => (Literal.hexDigit? c).bind fun d =>
    if d < base then some (n * base + d) else none) 0

/-- Digits write a whole number only below this one, and with a minus sign up to
half of it. -/
def wholeLimit : Nat := Nat.pow 2 128

/-- The whole number that characters write, and whether it has a minus sign.  Its
digits may be grouped by underscores. -/
def whole? (cs : List Char) : Option (Bool × Nat) := do
  let (isNegative, rest) := unsigned cs
  let (base, written) := based rest
  let n ← digits? base (written.filter (· ≠ '_'))
  if if isNegative then n ≤ wholeLimit / 2 else n < wholeLimit then
    return (isNegative, n)
  else
    none

/-! ## Decimal numbers -/

/-- A decimal number without its sign: digits and the exponent of the power of ten
that they are multiplied by. -/
structure Decimal where
  digits : Nat
  exponent : Int
  deriving DecidableEq, Repr, Inhabited

namespace Decimal

/-- The exponent that stands behind its letter. -/
def exponent? (cs : List Char) : Option Int := do
  let (isNegative, rest) := unsigned cs
  let n ← digits? 10 rest
  return if isNegative then -(n : Int) else n

/-- The decimal number that characters write: digits with at most one point, and
perhaps an exponent. -/
def ofChars? (cs : List Char) : Option Decimal := do
  let mantissa := cs.takeWhile fun c => c ≠ 'e' && c ≠ 'E'
  let whole := mantissa.takeWhile (· ≠ '.')
  let fraction := mantissa.drop (whole.length + 1)
  let digits ← digits? 10 (whole ++ fraction)
  let exponent ← match cs.drop mantissa.length with
    | [] => some 0
    | _ :: rest => exponent? rest
  return ⟨digits, exponent - fraction.length⟩

/-- The least number that no double comes close to: half a step beyond the largest
double. -/
def overflowLimit : Nat := Nat.pow 2 1024 - Nat.pow 2 970

/-- The number of decimal digits of the largest double. -/
def largestWidth : Int := 309

/-- Whether a number has a double close to it.  By the number of digits before the
point it is clear for all but those as wide as the largest double. -/
def isFinite (d : Decimal) : Bool :=
  let width : Int := (Nat.toDigits 10 d.digits).length + d.exponent
  if d.digits = 0 || width < largestWidth then true
  else if largestWidth < width then false
  else
    d.digits * Nat.pow 10 d.exponent.toNat <
      overflowLimit * Nat.pow 10 (-d.exponent).toNat

end Decimal

/-- The strings that stand for infinity and its negative. -/
def infinity (isNegative : Bool) : Datum := .string (if isNegative then "-.inf" else ".inf")

/-- The value of characters that write a number with a point, an exponent or more
digits than a whole number has, or the name of such a number. -/
def decimal? (cs : List Char) : Option Datum :=
  let (isNegative, rest) := unsigned cs
  let name := (String.ofList rest).map Char.toLower
  if name = ".nan" || name = "nan" then some (.string ".nan")
  else if name = ".inf" || name = "inf" || name = "infinity" then some (infinity isNegative)
  else (Decimal.ofChars? rest).map fun d =>
    if d.isFinite then .number (String.ofList cs) else infinity isNegative

/-! ## Scalars -/

/-- The value of a plain scalar. -/
def plainValue (text : String) : Datum :=
  if isNullWord text then .null
  else if falseWords.contains text then .bool false
  else if trueWords.contains text then .bool true
  else
    match whole? text.toList with
    | some (isNegative, n) => .number ((if isNegative then "-" else "") ++ toString n)
    | none => (decimal? text.toList).getD (.string text)

/-- The string whose bytes a text writes. -/
def binary? (text : String) : Option String := do
  let letters := text.toList.filter fun c => !(c = ' ' || c = '\t' || c = '\n' || c = '\r')
  let bytes ← Base64.decode? letters
  String.fromUTF8? ⟨bytes.toArray⟩

/-- The core tags of what only a plain scalar without a tag can write, and of
collections. -/
def foreignTags : List String :=
  ["int", "float", "bool", "seq", "map", "set", "omap", "pairs", "timestamp"].map
    (Node.coreTags ++ ·)

def scalarValue? (isPlain : Bool) (tag : Option String) (text : String) : Option Datum :=
  let untagged := if isPlain then plainValue text else .string text
  match tag with
  | none => some untagged
  | some tag =>
    if tag = "!" || tag = Node.coreTags ++ "str" then some (.string text)
    else if tag = Node.coreTags ++ "null" then some .null
    else if tag = Node.coreTags ++ "binary" then (binary? text).map .string
    else if foreignTags.contains tag then none
    else some untagged

end GraphLint.Yaml
