import PCode.Real.Text

/-!
# Values

A value is what one word of the data store holds: a kind and three payloads, an
integer, a real and a text.  The kind says which payload counts; the others are
carried along, since instructions may change a word's kind and leave its
payloads alone.  Addresses are integers, and nil is the integer zero.

Main definitions:

- `Value.text`, `Value.quoted`: how a value is written.
- `Value.compare`, `Value.equal`: the order and equality that programs see.
- `Value.same`: the identity under which constants are shared.
-/

namespace PCode

/-! ## Kinds -/

/-- What a value is.  A byte has room for more kinds than the machine uses; the rest are
reserved. -/
inductive Kind where
  | undefined
  | int
  | real
  | bool
  | char
  | string
  | reserved (n : Fin 250)
  deriving DecidableEq, Inhabited, Repr

namespace Kind

/-- The number of a kind. -/
def byte : Kind → UInt8
  | undefined => 0
  | int => 1
  | real => 2
  | bool => 3
  | char => 4
  | string => 5
  | reserved n => UInt8.ofNat (n.val + 6)

/-- The kind with a given number. -/
def ofByte (b : UInt8) : Kind :=
  if h : 6 ≤ b.toNat then reserved ⟨b.toNat - 6, by have := b.toNat_lt; omega⟩
  else match b.toNat with
    | 0 => undefined
    | 1 => int
    | 2 => real
    | 3 => bool
    | 4 => char
    | _ => string

/-- The name of a kind. -/
def name : Kind → String
  | undefined => "undefined"
  | int => "int"
  | real => "real"
  | bool => "bool"
  | char => "char"
  | string => "string"
  | reserved n => s!"Kind({n.val + 6})"

/-- The kind with a given name; any other text gives the undefined kind. -/
def ofName (name : String) : Kind :=
  ([int, real, bool, char, string].find? (·.name == name)).getD undefined

/-- The number of a kind determines it. -/
@[simp] theorem ofByte_byte (k : Kind) : ofByte k.byte = k := by
  cases k with
  | reserved n =>
    have hn : (n.val + 6) % 256 = n.val + 6 := by omega
    simp [ofByte, byte, hn]
  | _ => rfl

end Kind

/-! ## Words -/

/-- One word of the data store. -/
structure Value where
  kind : Kind
  int : Int64 := 0
  real : Float := 0
  string : String := ""
  deriving DecidableEq, Inhabited

namespace Value

/-- The word of a cell that holds nothing. -/
def undefined : Value := { kind := .undefined }

/-- An integer word. -/
def ofInt (i : Int64) : Value := { kind := .int, int := i }

/-- A real word. -/
def ofReal (x : Float) : Value := { kind := .real, real := x }

/-- A string word. -/
def ofString (s : String) : Value := { kind := .string, string := s }

/-- A character word with a given code. -/
def ofCharCode (code : Int64) : Value := { kind := .char, int := code }

/-- A boolean word. -/
def ofBool (b : Bool) : Value := { kind := .bool, int := if b then 1 else 0 }

/-- An address word. -/
def ofAddress (a : Int64) : Value := ofInt a

/-- The nil pointer. -/
def nil : Value := ofInt 0

/-! ## Readings -/

/-- The value as an integer; a real loses its fraction. -/
def toInt (v : Value) : Int64 :=
  match v.kind with
  | .real => Real.truncate v.real
  | _ => v.int

/-- The value as a real. -/
def toReal (v : Value) : Float :=
  match v.kind with
  | .real => v.real
  | _ => Real.ofInt64 v.int

/-- Whether the value is a real. -/
def isReal (v : Value) : Bool := v.kind == .real

/-- Whether the value counts as true. -/
def truthy (v : Value) : Bool :=
  match v.kind with
  | .real => v.real != 0
  | .string => v.string != ""
  | _ => v.int != 0

/-- The character with a code, of which the low 32 bits count as a signed number; a code of no
character gives the replacement character. -/
def charOfCode (code : Int64) : Char :=
  let n := code.toInt32.toInt
  if 0 ≤ n ∧ n.toNat.isValidChar then Char.ofNat n.toNat else '�'

/-- The text that a value has next to a string: the character of a character, and the text payload
of anything else. -/
def comparisonText (v : Value) : String :=
  match v.kind with
  | .char => String.singleton (charOfCode v.int)
  | _ => v.string

/-! ## Text -/

/-- The value as programs print it. -/
def text (v : Value) : String :=
  match v.kind with
  | .int => toString v.int.toInt
  | .real => Real.text v.real
  | .bool => if v.int != 0 then "TRUE" else "FALSE"
  | .char => String.singleton (charOfCode v.int)
  | .string => v.string
  | .undefined | .reserved _ => "undefined"

/-- The value as listings show it: strings and characters stand between quotes. -/
def quoted (v : Value) : String :=
  match v.kind with
  | .string | .char => "'" ++ v.text ++ "'"
  | _ => v.text

/-! ## Order and equality -/

/-- The bytes that encode a text. -/
def encoding (s : String) : List UInt8 := s.toUTF8.data.toList

/-- Compare texts by the bytes that encode them, as words are ordered in a dictionary. -/
def compareText (s t : String) : Ordering :=
  if encoding s < encoding t then .lt else if encoding t < encoding s then .gt else .eq

/-- Compare reals; a NaN is equal to everything. -/
def compareReal (x y : Float) : Ordering :=
  if x < y then .lt else if y < x then .gt else .eq

/-- Compare integers. -/
def compareInt (i j : Int64) : Ordering :=
  if i < j then .lt else if j < i then .gt else .eq

/-- The order of two values: as texts when one is a string, else as reals when one is a real, else
as integers. -/
def compare (v w : Value) : Ordering :=
  if v.kind = .string ∨ w.kind = .string then compareText v.comparisonText w.comparisonText
  else if v.kind = .real ∨ w.kind = .real then compareReal v.toReal w.toReal
  else compareInt v.int w.int

/-- Whether two values can be equal at all: a string equals only strings and characters. -/
def comparable (v w : Value) : Bool :=
  if v.kind = .string then w.kind == .string || w.kind == .char
  else if w.kind = .string then v.kind == .char
  else true

/-- Equality as programs see it. -/
def equal (v w : Value) : Bool := v.compare w == .eq && v.comparable w

/-- Identity of constants: the same kind and the same payload. -/
def same (v w : Value) : Bool :=
  v.kind == w.kind &&
    (if v.kind = .real then v.real == w.real || (v.real.isNaN && w.real.isNaN)
     else v.int == w.int && v.string == w.string)

end Value

end PCode
