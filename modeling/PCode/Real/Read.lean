/-!
# Reading reals

The real that a decimal text stands for: the nearest one, with the sign of zero
kept.

Main definitions: `Real.decimalInt`, `Real.ofText`.
-/

namespace PCode.Real

/-- The number that decimal digits stand for. -/
def digitsValue (digits : List Char) : Nat :=
  digits.foldl (fun n c => 10 * n + (c.toNat - 48)) 0

/-- A sign, if there is one, and what follows it: whether the number is negative, and the rest. -/
def splitSign : List Char → Bool × List Char
  | '-' :: rest => (true, rest)
  | '+' :: rest => (false, rest)
  | rest => (false, rest)

/-- The integer that a decimal text with or without a sign stands for. -/
def decimalInt (s : String) : Int :=
  let (negative, digits) := splitSign s.toList
  if negative then -(digitsValue digits : Int) else digitsValue digits

/-- The real that a text stands for: decimal, with an exponent or without, or the name of a real
that is not finite. -/
def ofText (s : String) : Float :=
  match s with
  | "NaN" => 0.0 / 0.0
  | "Inf" | "+Inf" => 1.0 / 0.0
  | "-Inf" => -1.0 / 0.0
  | s =>
    let (negative, cs) := splitSign s.toList
    let isMark (c : Char) : Bool := c == 'e' || c == 'E'
    let significand := cs.takeWhile (!isMark ·)
    let exponent := decimalInt (String.ofList ((cs.dropWhile (!isMark ·)).drop 1))
    let whole := significand.takeWhile (· != '.')
    let fraction := (significand.dropWhile (· != '.')).drop 1
    let power := exponent - fraction.length
    let magnitude := Float.ofScientific (digitsValue (whole ++ fraction)) (power < 0) power.natAbs
    if negative then -magnitude else magnitude

end PCode.Real
