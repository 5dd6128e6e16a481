/-!
# Base64

Texts that write bytes, four letters for three bytes.  The last group may have
fewer bytes; it is filled up with equals signs, and the bits of its last letter
that belong to no byte are zero.
-/

set_option autoImplicit false

namespace GraphLint.Base64

/-- The six bits that a letter stands for. -/
def sextet? (c : Char) : Option Nat :=
  if c.isUpper then some (c.toNat - 'A'.toNat)
  else if c.isLower then some (c.toNat - 'a'.toNat + 26)
  else if c.isDigit then some (c.toNat - '0'.toNat + 52)
  else if c = '+' then some 62
  else if c = '/' then some 63
  else none

/-- The number that sextets write. -/
def number? (cs : List Char) : Option Nat :=
  cs.foldlM (fun n c => (sextet? c).map (n * 64 + ·)) 0

/-- The first bytes of a number of three bytes. -/
def bytes (count n : Nat) : List UInt8 :=
  ([n / 65536, n / 256, n].take count).map UInt8.ofNat

/-- The bytes of the last group of letters, which has padding. -/
def lastBytes? : Char → Char → Char → Char → Option (List UInt8)
  | a, b, '=', '=' => do
    let n ← number? [a, b]
    if n % 16 = 0 then some (bytes 1 (n * 4096)) else none
  | a, b, c, '=' => do
    let n ← number? [a, b, c]
    if n % 4 = 0 then some (bytes 2 (n * 64)) else none
  | _, _, _, _ => none

/-- The bytes that a text writes. -/
def decode? : List Char → Option (List UInt8)
  | [] => some []
  | [a, b, c, d] =>
    match number? [a, b, c, d] with
    | some n => some (bytes 3 n)
    | none => lastBytes? a b c d
  | a :: b :: c :: d :: rest => do
    return bytes 3 (← number? [a, b, c, d]) ++ (← decode? rest)
  | _ => none

end GraphLint.Base64
