import PCode.Real.Basic
import PCode.Tree.Symbol

/-!
# Expressions

Expressions of a resolved program.  The tree comes from a front end that has
checked the types, and it need not be well formed: any part may be missing, and
operators may be applied to anything.

Main definition: `Expr.type?`, the type of an expression.
-/

namespace PCode

/-! ## Operators -/

/-- A binary operator, or the number of none. -/
inductive BinaryOp where
  | add | sub | mul | div | intDiv | mod
  | eq | ne | lt | gt | le | ge
  | and | or | xor
  | unknown (number : UInt8)
  deriving DecidableEq, Inhabited, Repr

namespace BinaryOp

/-- Every binary operator, at the index that is its number. -/
def all : Array BinaryOp :=
  #[add, sub, mul, div, intDiv, mod, eq, ne, lt, gt, le, ge, and, or, xor]

/-- The operator with a given number. -/
def ofNumber (n : UInt8) : BinaryOp := all.getD n.toNat (unknown n)

/-- An operator as text. -/
def text : BinaryOp → String
  | add => "+" | sub => "-" | mul => "*" | div => "/" | intDiv => "div" | mod => "mod"
  | eq => "=" | ne => "<>" | lt => "<" | gt => ">" | le => "<=" | ge => ">="
  | and => "and" | or => "or" | xor => "xor"
  | unknown n => s!"BinaryOp({n.toNat})"

/-- The operator with a given text. -/
def ofText? (s : String) : Option BinaryOp := all.find? (·.text == s)

/-- Whether an operator compares its operands. -/
def isComparison : BinaryOp → Bool
  | eq | ne | lt | gt | le | ge => true
  | _ => false

end BinaryOp

/-- A unary operator, or the number of none. -/
inductive UnaryOp where
  | not
  | neg
  | unknown (number : UInt8)
  deriving DecidableEq, Inhabited, Repr

namespace UnaryOp

/-- The operator with a given number. -/
def ofNumber (n : UInt8) : UnaryOp :=
  match n.toNat with
  | 0 => not
  | 1 => neg
  | _ => unknown n

/-- An operator as text; an unknown one is written like a sign. -/
def text : UnaryOp → String
  | not => "not"
  | neg | unknown _ => "-"

end UnaryOp

/-! ## The tree -/

mutual

/-- An expression. -/
inductive Expr where
  | missing
  | number (pos : Pos) (value : Float)
  | string (pos : Pos) (value : String)
  | char (pos : Pos) (code : Int64)
  | bool (pos : Pos) (value : Bool)
  | nil (pos : Pos)
  | ident (pos : Pos) (id : Ident)
  | index (pos : Pos) (base : Expr) (indices : List Expr)
  | field (pos : Pos) (base : Expr) (field : Ty.Field)
  | deref (pos : Pos) (base : Expr)
  | addressOf (pos : Pos) (base : Expr)
  | unary (pos : Pos) (op : UnaryOp) (operand : Expr)
  /-- with the type that the operation was given -/
  | binary (pos : Pos) (op : BinaryOp) (left right : Expr) (type : Ty)
  | cast (pos : Pos) (operand : Expr) (target : Ty)
  | call (pos : Pos) (callee : Ident) (args : List Arg)

/-- An argument of a call. -/
inductive Arg where
  | mk (value : Expr) (byRef : Bool)

end

instance : Inhabited Expr := ⟨.missing⟩

instance : Inhabited Arg := ⟨.mk .missing false⟩

/-- The integer that a number literal stands for, unless it is a real: it has no fraction and fits
in a word. -/
def integerLiteral? (x : Float) : Option Int64 :=
  match Real.dyadic? x with
  | none => none
  | some d =>
    let n := d.truncate
    let whole := 0 ≤ d.exponent || d.mantissa % Nat.pow 2 (-d.exponent).toNat == 0
    if whole ∧ -9223372036854775808 ≤ n ∧ n < 9223372036854775808 then some (Int64.ofInt n)
    else none

/-- The type of what a call returns. -/
def Symbol.resultType (s : Symbol) : Ty :=
  match s.type with
  | .subprogram _ .missing => .void
  | .subprogram _ result => result
  | _ => .void

namespace Expr

/-- The position of an expression. -/
def pos : Expr → Pos
  | missing => {}
  | number p _ | string p _ | char p _ | bool p _ | nil p | ident p _ | index p .. | field p ..
  | deref p _ | addressOf p _ | unary p .. | binary p .. | cast p .. | call p .. => p

/-- What remains of an array type after some of its dimensions are indexed; the element type when
all are. -/
def indexedType (t : Ty) (count : Nat) : Ty :=
  match t with
  | .array ranges elem =>
    if ranges.length ≤ count then elem else .array (ranges.drop count) elem
  | _ => .missing

/-- What a pointer type points to. -/
def targetType : Ty → Ty
  | .simple _ _ target => target
  | _ => .missing

/-- The type of an expression.  There is none for a missing expression, nor for one whose type
depends on it. -/
def type? : Expr → Option Ty
  | missing => none
  | number _ value => some (if (integerLiteral? value).isSome then .integer else .real)
  | string .. => some .string
  | char .. => some .char
  | bool .. => some .boolean
  | nil _ => some .pointer
  | ident _ id => some id.symbol.type
  | index _ base indices => base.type?.map (indexedType · indices.length)
  | field _ _ f => some f.type
  | deref _ base => base.type?.map targetType
  | addressOf _ base => base.type?.bind Ty.pointerTo?
  | unary _ .not _ => some .boolean
  | unary _ _ operand => operand.type?
  | binary _ _ _ _ type => some type
  | cast _ _ target => some target
  | call _ callee _ => some callee.symbol.resultType

/-- The name of the kind of an expression. -/
def kindName : Expr → String
  | missing => "<nil>"
  | number .. => "*ast.Number"
  | string .. => "*ast.StringLit"
  | char .. => "*ast.CharLit"
  | bool .. => "*ast.BoolLit"
  | nil _ => "*ast.NilLit"
  | ident .. => "*ast.Ident"
  | index .. => "*ast.Index"
  | field .. => "*ast.FieldSel"
  | deref .. => "*ast.Deref"
  | addressOf .. => "*ast.AddressOf"
  | unary .. => "*ast.Unary"
  | binary .. => "*ast.Binary"
  | cast .. => "*ast.Cast"
  | call .. => "*ast.Call"

/-- A designator as listing comments name it. -/
def describe : Expr → String
  | ident _ id => id.symbol.name
  | index _ base _ => base.describe ++ "[...]"
  | field _ base f => base.describe ++ "." ++ f.name
  | deref _ base => base.describe ++ "^"
  | e => e.kindName

end Expr

end PCode
