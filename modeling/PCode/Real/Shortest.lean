import PCode.Real.Basic

/-!
# The fewest decimal digits that read back

A positive double `mantissa * 2 ^ exponent` is the rounding of every real in an
interval around it.  Among the decimals in that interval this module selects
one with the fewest digits, and of those the nearest to the number.

The search tries one digit, then two, and so on.  On the grid of a digit count
only the two neighbours of the number can be the nearest grid point inside the
interval, so two exact comparisons settle each count, and seventeen digits
always suffice.
-/

namespace PCode.Real

/-- The decimal `digits * 10 ^ exponent`. -/
structure Decimal where
  digits : Nat
  exponent : Int
  deriving DecidableEq, Inhabited, Repr

/-- A positive fraction together with the ends of its rounding interval, all over one
denominator. -/
structure RoundingInterval where
  value : Nat
  low : Nat
  high : Nat
  denominator : Nat
  /-- whether the two ends belong to the interval -/
  closed : Bool
  deriving Inhabited, Repr

/-- The reals that round to a positive dyadic number.  The gap below a power of two is half as
wide as the gap above it, except at the bottom of the exponent range. -/
def Dyadic.roundingInterval (d : Dyadic) : RoundingInterval :=
  let scale := if 2 ≤ d.exponent then Nat.pow 2 (d.exponent - 2).toNat else 1
  let denominator := if 2 ≤ d.exponent then 1 else Nat.pow 2 (2 - d.exponent).toNat
  let below := if d.mantissa = Nat.pow 2 52 ∧ -1074 < d.exponent then 1 else 2
  { value := 4 * d.mantissa * scale
    low := (4 * d.mantissa - below) * scale
    high := (4 * d.mantissa + 2) * scale
    denominator := denominator
    closed := d.mantissa % 2 == 0 }

namespace RoundingInterval

/-- Whether the fraction `n / m` lies in the interval. -/
def contains (r : RoundingInterval) (n m : Nat) : Bool :=
  let a := n * r.denominator
  if r.closed then r.low * m ≤ a && a ≤ r.high * m
  else r.low * m < a && a < r.high * m

/-- Whether the value is at least `10 ^ e`. -/
def atLeastPowerOfTen (r : RoundingInterval) (e : Int) : Bool :=
  if 0 ≤ e then Nat.pow 10 e.toNat * r.denominator ≤ r.value
  else r.denominator ≤ r.value * Nat.pow 10 (-e).toNat

/-- The power of ten of the value's first digit: a guess from the binary logarithms, at most one
off, then corrected. -/
def leadingPower (r : RoundingInterval) : Int :=
  let guess := Int.fdiv (((r.value.log2 : Int) - r.denominator.log2) * 1233) 4096
  if r.atLeastPowerOfTen (guess + 1) then guess + 1
  else if r.atLeastPowerOfTen guess then guess
  else guess - 1

/-- The grid point of `10 ^ e` that lies in the interval and is nearest to the value, if one of the
value's two neighbours does; the even one of two that are equally near. -/
def nearestOnGrid? (r : RoundingInterval) (e : Int) : Option Nat :=
  -- over this denominator a grid step is `up` and the value is `r.value * down`
  let up := if 0 ≤ e then Nat.pow 10 e.toNat * r.denominator else r.denominator
  let down := if 0 ≤ e then 1 else Nat.pow 10 (-e).toNat
  let below := r.value * down / up
  let rest := r.value * down % up
  let inside (n : Nat) : Bool :=
    if 0 ≤ e then r.contains (n * Nat.pow 10 e.toNat) 1 else r.contains n (Nat.pow 10 (-e).toNat)
  match inside below && below != 0, inside (below + 1) with
  | true, true =>
    if 2 * rest < up then some below
    else if up < 2 * rest then some (below + 1)
    else if below % 2 = 0 then some below else some (below + 1)
  | true, false => some below
  | false, true => some (below + 1)
  | false, false => none

/-- Try grids of growing fineness, `steps` of them, starting at `10 ^ e`. -/
def firstOnGrids (r : RoundingInterval) : Nat → Int → Option Decimal
  | 0, _ => none
  | steps + 1, e =>
    match r.nearestOnGrid? e with
    | some n => some ⟨n, e⟩
    | none => r.firstOnGrids steps (e - 1)

end RoundingInterval

/-- Divide out factors of ten, at most `fuel` of them. -/
def Decimal.stripZeros : Nat → Decimal → Decimal
  | 0, d => d
  | fuel + 1, d =>
    if d.digits % 10 = 0 ∧ d.digits ≠ 0 then stripZeros fuel ⟨d.digits / 10, d.exponent + 1⟩ else d

/-- The shortest decimal that reads back as a positive dyadic number. -/
def Dyadic.shortest (d : Dyadic) : Decimal :=
  let r := d.roundingInterval
  match r.firstOnGrids 18 r.leadingPower with
  | some found => found.stripZeros 18
  | none => ⟨d.mantissa, 0⟩

end PCode.Real
