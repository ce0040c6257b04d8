/-!
# Reals as dyadic numbers

A real word is an IEEE double.  A finite double is exactly `± mantissa * 2 ^ exponent`,
read here from its bits, so that truncation and rounding to integers are done
in exact integer arithmetic.
-/

namespace PCode.Real

/-! ## Exact parts -/

/-- The finite number `mantissa * 2 ^ exponent`, or its negative. -/
structure Dyadic where
  negative : Bool
  mantissa : Nat
  exponent : Int
  deriving DecidableEq, Inhabited, Repr

/-- Whether the sign bit is set. -/
def signBit (x : Float) : Bool := x.toBits.toNat / Nat.pow 2 63 == 1

/-- The exponent field of a double. -/
def exponentField (x : Float) : Nat := x.toBits.toNat / Nat.pow 2 52 % Nat.pow 2 11

/-- The fraction field of a double. -/
def fractionField (x : Float) : Nat := x.toBits.toNat % Nat.pow 2 52

/-- The exact value of a finite double; infinities and NaN have none. -/
def dyadic? (x : Float) : Option Dyadic :=
  if exponentField x = 2047 then none
  else if exponentField x = 0 then some ⟨signBit x, fractionField x, -1074⟩
  else some ⟨signBit x, Nat.pow 2 52 + fractionField x, (exponentField x : Int) - 1075⟩

namespace Dyadic

/-- The magnitude with its fraction cut off. -/
def floorAbs (d : Dyadic) : Nat :=
  if 0 ≤ d.exponent then d.mantissa * Nat.pow 2 d.exponent.toNat
  else d.mantissa / Nat.pow 2 (-d.exponent).toNat

/-- The magnitude rounded to the nearest integer, a half going up. -/
def roundAbs (d : Dyadic) : Nat :=
  if 0 ≤ d.exponent then d.mantissa * Nat.pow 2 d.exponent.toNat
  else (2 * d.mantissa + Nat.pow 2 (-d.exponent).toNat) / Nat.pow 2 ((-d.exponent).toNat + 1)

/-- A magnitude with the sign of the number. -/
def withSign (d : Dyadic) (n : Nat) : Int := if d.negative then -(n : Int) else n

/-- The number without its fraction. -/
def truncate (d : Dyadic) : Int := d.withSign d.floorAbs

/-- The nearest integer, a half going away from zero. -/
def round (d : Dyadic) : Int := d.withSign d.roundAbs

end Dyadic

/-! ## Conversions -/

/-- The least word integer, which stands for every real that has no word integer. -/
def noInteger : Int64 := Int64.minValue

/-- An integer as a word, or the least word integer when it is out of range. -/
def wordInteger (n : Int) : Int64 :=
  if -9223372036854775808 ≤ n ∧ n < 9223372036854775808 then Int64.ofInt n else noInteger

/-- A real as a word integer, its fraction cut off. -/
def truncate (x : Float) : Int64 :=
  match dyadic? x with
  | some d => wordInteger d.truncate
  | none => noInteger

/-- A real rounded to an integral real, a half going away from zero and the sign kept. -/
def round (x : Float) : Float :=
  match dyadic? x with
  | some d =>
    let magnitude := Float.ofNat d.roundAbs
    if d.negative then -magnitude else magnitude
  | none => x

/-- A word integer as the nearest real. -/
def ofInt64 (i : Int64) : Float := Float.ofInt i.toInt

end PCode.Real
