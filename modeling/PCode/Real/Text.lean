import PCode.Real.Shortest

/-!
# Reals as text

A real is written with the fewest digits that read back.  Numbers whose first
digit stands at `10 ^ -4` to `10 ^ 5` are written out, all others with an
exponent that has a sign and at least two digits.  The sign of zero is kept.
-/

namespace PCode.Real

/-- Decisions on how reals are written. -/
structure Layout where
  /-- least power of ten of the first digit that is written out -/
  leastPositional : Int
  /-- greatest power of ten of the first digit that is written out -/
  greatestPositional : Int
  /-- least number of digits of an exponent -/
  exponentWidth : Nat
  nan : String
  positiveInfinity : String
  negativeInfinity : String

/-- The layout of program output, listings and dumps. -/
def outputLayout : Layout where
  leastPositional := -4
  greatestPositional := 5
  exponentWidth := 2
  nan := "NaN"
  positiveInfinity := "+Inf"
  negativeInfinity := "-Inf"

/-- Zeros, `n` of them. -/
def zeros (n : Nat) : String := String.ofList (List.replicate n '0')

/-- A natural number in decimal with at least `width` digits. -/
def padDigits (width n : Nat) : String :=
  let text := toString n
  zeros (width - text.length) ++ text

/-- Digits written out, the first of them standing at `10 ^ power`. -/
def positional (digits : List Char) (power : Int) : String :=
  if power < 0 then "0." ++ zeros (-power - 1).toNat ++ String.ofList digits
  else
    let whole := power.toNat + 1
    let front := String.ofList (digits.take whole) ++ zeros (whole - digits.length)
    match digits.drop whole with
    | [] => front
    | fraction => front ++ "." ++ String.ofList fraction

/-- Digits with an exponent, the first of them standing at `10 ^ power`. -/
def scientific (n : Layout) (digits : List Char) (power : Int) : String :=
  let significand :=
    match digits with
    | d :: e :: rest => String.ofList (d :: '.' :: e :: rest)
    | few => String.ofList few
  let sign := if power < 0 then "-" else "+"
  significand ++ "e" ++ sign ++ padDigits n.exponentWidth power.natAbs

/-- A decimal in a layout. -/
def Decimal.text (n : Layout) (d : Decimal) : String :=
  let digits := (toString d.digits).toList
  let power := d.exponent + digits.length - 1
  if n.leastPositional ≤ power ∧ power ≤ n.greatestPositional then positional digits power
  else scientific n digits power

/-- A real in a layout. -/
def textIn (n : Layout) (x : Float) : String :=
  match dyadic? x with
  | some d =>
    let magnitude := if d.mantissa = 0 then "0" else d.shortest.text n
    if d.negative then "-" ++ magnitude else magnitude
  | none =>
    if x.isNaN then n.nan
    else if signBit x then n.negativeInfinity
    else n.positiveInfinity

/-- A real as programs print it. -/
def text (x : Float) : String := textIn outputLayout x

end PCode.Real
