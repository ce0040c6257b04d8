/-!
# Hexadecimal digits

Numbers are written with sixteen digits in listings, escapes and traces.  The
digits after nine are letters, in capitals or in lower case, and are read in
either.
-/

namespace PCode.Text

/-- A hexadecimal digit; those after nine are letters from a given one on. -/
def hexDigit (letter : Char) (n : Nat) : Char :=
  if n < 10 then Char.ofNat (48 + n) else Char.ofNat (letter.toNat + (n - 10))

/-- The last `width` hexadecimal digits of a number. -/
def hexDigits (letter : Char) : Nat → Nat → List Char
  | 0, _ => []
  | width + 1, n => hexDigits letter width (n / 16) ++ [hexDigit letter (n % 16)]

/-- The two hexadecimal digits of a byte. -/
def hexByte (letter : Char) (b : UInt8) : String :=
  String.ofList (hexDigits letter 2 b.toNat)

/-- The value of a hexadecimal digit. -/
def hexValue? (c : Char) : Option Nat :=
  if c.isDigit then some (c.toNat - 48)
  else if 'a' ≤ c ∧ c ≤ 'f' then some (c.toNat - 87)
  else if 'A' ≤ c ∧ c ≤ 'F' then some (c.toNat - 55)
  else none

end PCode.Text
