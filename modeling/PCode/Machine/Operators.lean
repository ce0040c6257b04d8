import PCode.Machine.Fault

/-!
# Operators

What the arithmetic, logical, comparison and conversion instructions compute
from their operands.  Integers are 64 bits wide and wrap; division goes toward
zero, and a remainder has the sign of the dividend.
-/

namespace PCode.Operator

/-! ## Comparison -/

/-- `=` -/
def equal (a b : Value) : Value := .ofBool (a.equal b)

/-- `<>` -/
def notEqual (a b : Value) : Value := .ofBool (!a.equal b)

/-- `>` -/
def greater (a b : Value) : Value := .ofBool (a.compare b == .gt)

/-- `>=` -/
def greaterEqual (a b : Value) : Value := .ofBool (a.compare b != .lt)

/-- `<` -/
def less (a b : Value) : Value := .ofBool (a.compare b == .lt)

/-- `<=` -/
def lessEqual (a b : Value) : Value := .ofBool (a.compare b != .gt)

/-! ## Integer arithmetic -/

/-- `+` for integers -/
def addInt (a b : Value) : Value := .ofInt (a.toInt + b.toInt)

/-- `-` for integers -/
def subInt (a b : Value) : Value := .ofInt (a.toInt - b.toInt)

/-- `*` for integers -/
def mulInt (a b : Value) : Value := .ofInt (a.toInt * b.toInt)

/-- The quotient without its fraction; a zero divisor is a fault. -/
def divInt (a b : Value) : Except Fault Value :=
  if b.toInt = 0 then .error (.integerDivision a.toInt)
  else .ok (.ofInt (a.toInt / b.toInt))

/-- The remainder of the quotient without its fraction; a zero divisor is a fault. -/
def modInt (a b : Value) : Except Fault Value :=
  if b.toInt = 0 then .error (.modulo a.toInt)
  else .ok (.ofInt (a.toInt % b.toInt))

/-- The sign inversion of integers. -/
def negInt (a : Value) : Value := .ofInt (-a.toInt)

/-- The absolute value; that of the least integer is itself. -/
def absInt (a : Value) : Value := .ofInt (if a.toInt < 0 then -a.toInt else a.toInt)

/-- The square of an integer. -/
def sqrInt (a : Value) : Value := .ofInt (a.toInt * a.toInt)

/-- Add a step to a word of any kind.  The kind is kept, except that an undefined word becomes an
integer. -/
def stepBy (delta : Int64) (a : Value) : Value :=
  match a.kind with
  | .real => .ofReal (a.real + Real.ofInt64 delta)
  | .undefined => { a with kind := .int, int := a.int + delta }
  | _ => { a with int := a.int + delta }

/-! ## Real arithmetic -/

/-- `+` for reals -/
def addReal (a b : Value) : Value := .ofReal (a.toReal + b.toReal)

/-- `-` for reals -/
def subReal (a b : Value) : Value := .ofReal (a.toReal - b.toReal)

/-- `*` for reals -/
def mulReal (a b : Value) : Value := .ofReal (a.toReal * b.toReal)

/-- The quotient; a zero divisor is a fault. -/
def divReal (a b : Value) : Except Fault Value :=
  if b.toReal == 0 then .error (.realDivision a)
  else .ok (.ofReal (a.toReal / b.toReal))

/-- The sign inversion of reals. -/
def negReal (a : Value) : Value := .ofReal (-a.toReal)

/-- The absolute value of a real. -/
def absReal (a : Value) : Value := .ofReal a.toReal.abs

/-- The square of a real. -/
def sqrReal (a : Value) : Value := .ofReal (a.toReal * a.toReal)

/-! ## Logic -/

/-- `or`, of which both operands are evaluated -/
def or (a b : Value) : Value := .ofBool (a.truthy || b.truthy)

/-- `and`, of which both operands are evaluated -/
def and (a b : Value) : Value := .ofBool (a.truthy && b.truthy)

/-- `xor` -/
def xor (a b : Value) : Value := .ofBool (a.truthy != b.truthy)

/-- `not` -/
def not (a : Value) : Value := .ofBool (!a.truthy)

/-! ## Conversion -/

/-- The number without its fraction. -/
def truncate (a : Value) : Value := .ofInt (Real.truncate a.toReal)

/-- The nearest integer, a half going away from zero. -/
def round (a : Value) : Value := .ofInt (Real.truncate (Real.round a.toReal))

/-- A code of 32 bits, with the sign that its top bit gives. -/
def codeOf (i : Int64) : Int64 := i.toInt32.toInt64

/-- The character with a code. -/
def character (a : Value) : Value := .ofCharCode (codeOf a.toInt)

/-- The integer that a word holds. -/
def ordinal (a : Value) : Value := .ofInt a.toInt

end PCode.Operator
