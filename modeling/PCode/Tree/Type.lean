import PCode.Opcode
import PCode.Text.Case

/-!
# Types

The types of a resolved program, with their layout in words.  A simple type
takes one word.  An array stores its elements in row-major order, a record its
fields in the order of declaration.  A signature is the type of a subprogram and
takes no words, since subprograms are not stored.  An expression may have no
type at all; nothing can be laid out for it.

Sizes are 64-bit numbers and wrap.

Main definitions:

- `Ty.size`, `Ty.strides`, `Ty.fieldsOf`: the layout.
- `Ty.codes?`: the type code of each word.
- `Ty.text?`: how a type is written.
-/

namespace PCode

/-- Indices from `low` to `high`, both included. -/
structure IndexRange where
  low : Int64
  high : Int64
  deriving DecidableEq, Inhabited, Repr

/-- The number of indices in a range. -/
def IndexRange.length (r : IndexRange) : Int64 := r.high - r.low + 1

/-- Something with a name, such as a field. -/
structure Named (α : Type) where
  name : String
  type : α
  deriving DecidableEq, Inhabited, Repr

/-- A declared parameter. -/
structure Parameter (α : Type) where
  name : String
  type : α
  byRef : Bool
  deriving DecidableEq, Inhabited, Repr

/-- A type. -/
inductive Ty where
  /-- no type -/
  | missing
  /-- a type of one word, with the type it points to, if any -/
  | simple (code : UInt8) (name : String) (target : Ty)
  | array (ranges : List IndexRange) (elem : Ty)
  | record (fields : List (Named Ty))
  /-- a signature; the result of a procedure is void or missing -/
  | subprogram (params : List (Parameter Ty)) (result : Ty)
  deriving Inhabited, Repr

namespace Ty

/-! ## Predefined types -/

/-- A predefined simple type. -/
def predefined (code : TypeCode) (name : String) : Ty := simple code.byte name missing

def integer : Ty := predefined .integer "Integer"
def real : Ty := predefined .real "Real"
def char : Ty := predefined .char "Char"
def boolean : Ty := predefined .boolean "Boolean"
def string : Ty := predefined .string "String"
def pointer : Ty := predefined .pointer "Pointer"
def void : Ty := predefined .void "Void"

/-- The simple type with a given type code byte. -/
def ofCode (code : UInt8) : Ty :=
  match TypeCode.ofByte? code with
  | some .pointer => pointer
  | some .boolean => boolean
  | some .char => char
  | some .integer => integer
  | some .real => real
  | some .string => string
  | some .void => void
  | _ => simple code (TypeCode.nameOfByte code) missing

/-- The predefined types by lower-case name. -/
def byName : List (String × Ty) :=
  [ ("string", string), ("integer", integer), ("shortint", integer), ("longint", integer)
  , ("char", char), ("boolean", boolean), ("real", real), ("double", real), ("pointer", pointer) ]

/-- The predefined type with a given name. -/
def ofName? (name : String) : Option Ty := byName.lookup (Text.lower name)

/-! ## Classification -/

/-- The type code byte of a simple type. -/
def code? : Ty → Option UInt8
  | simple code .. => some code
  | _ => none

/-- Whether a type is simple with a given type code. -/
def isSimple (t : Ty) (code : TypeCode) : Bool := t.code? == some code.byte

/-- Whether a type is missing or void. -/
def isVoid : Ty → Bool
  | missing => true
  | t => t.isSimple .void

/-! ## Layout -/

mutual

/-- The number of words of a type; a missing type has none. -/
def size : Ty → Int64
  | missing => 0
  | simple .. => 1
  | array ranges elem => ranges.foldl (fun n r => n * r.length) elem.size
  | record fields => fieldWords fields
  | subprogram .. => 0

/-- The number of words of all fields. -/
def fieldWords : List (Named Ty) → Int64
  | [] => 0
  | ⟨_, t⟩ :: rest => t.size + fieldWords rest

end

/-- Whether a type has a layout: it is not missing, and not an array of something missing. -/
def hasLayout : Ty → Bool
  | missing => false
  | array _ elem => elem.hasLayout
  | _ => true

/-- The distance in words between neighbours in each dimension, outermost first, for elements of a
given size. -/
def stridesOf (elemSize : Int64) : List IndexRange → List Int64
  | [] => []
  | _ :: rest => rest.foldl (fun n r => n * r.length) elemSize :: stridesOf elemSize rest

/-- The strides of an array. -/
def strides : Ty → List Int64
  | array ranges elem => stridesOf elem.size ranges
  | _ => []

/-- A field of a record with its distance in words from the base. -/
structure Field where
  name : String
  type : Ty
  offset : Int64
  deriving Inhabited, Repr

/-- Fields with their distances, the first at a given one. -/
def layFields : Int64 → List (Named Ty) → List Field
  | _, [] => []
  | offset, ⟨name, type⟩ :: rest => ⟨name, type, offset⟩ :: layFields (offset + type.size) rest

/-- The fields of a record. -/
def fieldsOf : Ty → List Field
  | record fields => layFields 0 fields
  | _ => []

/-- The field with a given name, in which case does not count. -/
def field? (t : Ty) (name : String) : Option Field :=
  t.fieldsOf.find? (Text.sameFolded ·.name name)

/-- A record of fields, all of which must have a layout. -/
def record? (fields : List (Named Ty)) : Option Ty :=
  if fields.all (·.type.hasLayout) then some (record fields) else none

/-- Words of a parameter: one if it is passed by reference. -/
def paramWordsOf (type : Ty) (byRef : Bool) : Int64 := if byRef then 1 else type.size

/-- Whether the words of a parameter can be counted. -/
def paramHasLayout (type : Ty) (byRef : Bool) : Bool := byRef || type.hasLayout

/-- The words of all parameters of a signature. -/
def paramWords : Ty → Int64
  | subprogram params _ => params.foldl (fun n p => n + paramWordsOf p.type p.byRef) 0
  | _ => 0

/-- Whether the words of all parameters of a signature can be counted. -/
def paramsHaveLayout : Ty → Bool
  | subprogram params _ => params.all fun p => paramHasLayout p.type p.byRef
  | _ => true

/-- A list several times over. -/
def repeated {α : Type} (n : Nat) : List α → List α
  | [] => []
  | xs => (List.replicate n xs).flatten

/-- The most words of an array whose type codes can be listed. -/
def maxWords : Int64 := 281474976710656

mutual

/-- The type code of each word of a type.  There is none for an array without layout, or with a size
that is negative or above the limit. -/
def codes? : Ty → Option (List UInt8)
  | simple code .. => some [code]
  | array ranges elem =>
    let total := ranges.foldl (fun n r => n * r.length) elem.size
    if !elem.hasLayout || total < 0 || maxWords < total then none
    else elem.codes?.map (repeated (total / max elem.size 1).toNatClampNeg)
  | record fields => fieldCodes? fields
  | missing | subprogram .. => some []

/-- The type code of each word of all fields. -/
def fieldCodes? : List (Named Ty) → Option (List UInt8)
  | [] => some []
  | ⟨_, t⟩ :: rest =>
    match t.codes?, fieldCodes? rest with
    | some codes, some more => some (codes ++ more)
    | _, _ => none

end

/-! ## Text -/

/-- What stands for a part that cannot be written, where one is asked for in a given form. -/
def unwritten (form : String) : String :=
  s!"%!{form}(PANIC=String method: runtime error: " ++
    "invalid memory address or nil pointer dereference)"

mutual

/-- A type as text.  A missing type has none, nor has a record or signature with a missing part. -/
def text? : Ty → Option String
  | missing => none
  | simple _ name _ => some name
  | array ranges elem =>
    let bounds := ranges.map fun r => s!"{r.low.toInt}..{r.high.toInt}"
    let of :=
      match elem with
      | missing => "%!s(<nil>)"
      | elem => elem.text?.getD (unwritten "s")
    some ("array[" ++ String.intercalate "," bounds ++ "] of " ++ of)
  | record fields =>
    (fieldTexts? fields).map fun parts => "record " ++ String.intercalate "; " parts ++ " end"
  | subprogram params result =>
    match paramTexts? params with
    | none => none
    | some parts =>
      let list := "(" ++ String.intercalate "; " parts ++ ")"
      if result.isVoid then some ("procedure" ++ list)
      else result.text?.map fun r => "function" ++ list ++ ": " ++ r

/-- The fields of a record as text. -/
def fieldTexts? : List (Named Ty) → Option (List String)
  | [] => some []
  | ⟨name, t⟩ :: rest =>
    match t.text?, fieldTexts? rest with
    | some s, some more => some ((name ++ ": " ++ s) :: more)
    | _, _ => none

/-- The parameters of a signature as text. -/
def paramTexts? : List (Parameter Ty) → Option (List String)
  | [] => some []
  | ⟨name, t, byRef⟩ :: rest =>
    match t.text?, paramTexts? rest with
    | some s, some more => some (((if byRef then "var " else "") ++ name ++ ": " ++ s) :: more)
    | _, _ => none

end

/-- A type as messages show it. -/
def shown : Ty → String
  | missing => "<nil>"
  | t => t.text?.getD (unwritten "v")

/-- The type of pointers to a type, which must have a text. -/
def pointerTo? (target : Ty) : Option Ty :=
  target.text?.map fun s => simple TypeCode.pointer.byte ("^" ++ s) target

end Ty

end PCode
