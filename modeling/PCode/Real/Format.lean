import PCode.Real.Basic

/-!
# Narrow binary formats

Binary floating-point formats narrower than a double, given by the widths of
their fields.  A double is narrowed only if the format holds it exactly, and every
number of a narrow format is a double, so widening gives back what was narrowed.
-/

namespace PCode.Real

/-- The widths of the fields of a binary format, in bits. -/
structure Format where
  exponentBits : Nat
  fractionBits : Nat
  deriving DecidableEq, Inhabited, Repr

/-- Half precision. -/
def half : Format := ⟨5, 10⟩

/-- Single precision. -/
def single : Format := ⟨8, 23⟩

namespace Format

/-- The largest exponent field, which is that of infinities and NaN. -/
def topField (f : Format) : Nat := Nat.pow 2 f.exponentBits - 1

/-- The largest exponent of a finite number. -/
def maxExponent (f : Format) : Int := Nat.pow 2 (f.exponentBits - 1) - 1

/-- The exponent of the last bit of the smallest numbers. -/
def leastExponent (f : Format) : Int := 1 - f.maxExponent - f.fractionBits

/-- The sign bit. -/
def signPattern (f : Format) (negative : Bool) : Nat :=
  if negative then Nat.pow 2 (f.exponentBits + f.fractionBits) else 0

/-- The bits of a finite number without its sign, if the format holds it exactly. -/
def magnitude? (f : Format) (mantissa : Nat) (exponent : Int) : Option Nat :=
  if mantissa = 0 then some 0
  else
    let top := exponent + Nat.log2 mantissa
    let last := max f.leastExponent (top - f.fractionBits)
    let shift := last - exponent
    let exact := shift ≤ 0 || mantissa % Nat.pow 2 shift.toNat == 0
    if f.maxExponent < top || !exact then none
    else
      let m :=
        if shift ≤ 0 then mantissa * Nat.pow 2 (-shift).toNat else mantissa / Nat.pow 2 shift.toNat
      if m < Nat.pow 2 f.fractionBits then some m
      else
        some ((last - f.leastExponent + 1).toNat * Nat.pow 2 f.fractionBits +
          (m - Nat.pow 2 f.fractionBits))

end Format

/-- The bits of a double in a narrower format, if that holds it exactly.  NaN has none. -/
def narrow? (f : Format) (x : Float) : Option Nat :=
  match dyadic? x with
  | some d =>
    (f.magnitude? d.mantissa d.exponent).map (f.signPattern d.negative + ·)
  | none =>
    if fractionField x = 0 then
      some (f.signPattern (signBit x) + f.topField * Nat.pow 2 f.fractionBits)
    else none

/-- A double from its sign, exponent field and fraction field. -/
def ofFields (negative : Bool) (exponent fraction : Nat) : Float :=
  Float.ofBits (UInt64.ofNat
    ((if negative then Nat.pow 2 63 else 0) + exponent * Nat.pow 2 52 + fraction))

/-- A double from a mantissa of at most 53 bits and an exponent, for numbers that are not smaller
than the least normal one. -/
def ofDyadic (d : Dyadic) : Float :=
  if d.mantissa = 0 then ofFields d.negative 0 0
  else
    let width := Nat.log2 d.mantissa
    ofFields d.negative (d.exponent + width + 1023).toNat
      (d.mantissa * Nat.pow 2 (52 - width) - Nat.pow 2 52)

/-- The double with given bits in a narrower format. -/
def widen (f : Format) (bits : Nat) : Float :=
  let fraction := bits % Nat.pow 2 f.fractionBits
  let field := bits / Nat.pow 2 f.fractionBits % Nat.pow 2 f.exponentBits
  let negative := bits / Nat.pow 2 (f.exponentBits + f.fractionBits) % 2 == 1
  if field = f.topField then
    ofFields negative 2047 (fraction * Nat.pow 2 (52 - f.fractionBits))
  else if field = 0 then ofDyadic ⟨negative, fraction, f.leastExponent⟩
  else ofDyadic ⟨negative, Nat.pow 2 f.fractionBits + fraction, f.leastExponent + field - 1⟩

end PCode.Real
