import PCode.Native.Registry
import PCode.Text.Column

/-!
# Images

An image is a program for the machine: its instructions, a pool of shared
constants, the initial words of typed constants, comments for the listing, the
address at which it starts and the native procedures it calls.  An image is
built by appending, with the second operand of an instruction the only thing
that can be changed afterwards; once frozen it is fixed.

The building operations are state transformers that either succeed or report
an error and leave the image as it is.
-/

namespace PCode

/-- A program for the machine. -/
structure Image where
  code : Array Word := #[]
  constants : Array Value := #[]
  typedConstants : Array Value := #[]
  start : Int64 := 0
  comments : Std.HashMap Int64 String := ∅
  natives : Registry := .empty
  frozen : Bool := false
  deriving Inhabited

/-- Why an image cannot be changed as asked. -/
inductive ImageError where
  | frozen
  | noSuchInstruction (address : Int64) (size : Nat)
  | encoding (error : EncodingError)
  deriving Inhabited

namespace ImageError

/-- The wording of an image error. -/
def message : ImageError → String
  | frozen => "bytecode image is frozen"
  | noSuchInstruction a size => s!"patch address {a.toInt} out of range [0, {size})"
  | encoding e => e.message

end ImageError

namespace Image

/-- An image without instructions over a registry. -/
def empty (natives : Registry) : Image := { natives }

/-- The instruction at an address. -/
def fetch? (im : Image) (address : Int64) : Option Word :=
  if address < 0 then none else im.code[address.toNatClampNeg]?

/-! ## Building -/

/-- A step in the building of an image. -/
abbrev Build := EStateM ImageError Image

/-- Join a comment to those that an address already has. -/
def noteAt (im : Image) (address : Int64) (comment : String) : Image :=
  let joined :=
    match im.comments[address]? with
    | some earlier => earlier ++ "; " ++ comment
    | none => comment
  { im with comments := im.comments.insert address joined }

/-- Append an instruction; the result is its address.  A comment that is not empty is attached to
it. -/
def emit (opcode : UInt8) (operand1 operand2 : Int64) (comment : String) : Build Nat := fun im =>
  if im.frozen then .error .frozen im
  else match Word.encode opcode operand1 operand2 with
    | .error e => .error (.encoding e) im
    | .ok w =>
      let address := im.code.size
      let im := { im with code := im.code.push w }
      .ok address (if comment = "" then im else im.noteAt (Int64.ofNat address) comment)

/-- Replace the second operand of an instruction. -/
def patch (address operand2 : Int64) : Build Unit := fun im =>
  if im.frozen then .error .frozen im
  else match im.fetch? address with
    | none => .error (.noSuchInstruction address im.code.size) im
    | some old =>
      match old.withOperand2 operand2 with
      | .error e => .error (.encoding e) im
      | .ok w => .ok () { im with code := im.code.setIfInBounds address.toNatClampNeg w }

/-- The index of a constant in the pool, which is shared with an identical constant that is
already there. -/
def addConstant (v : Value) : Build Nat := fun im =>
  match im.constants.findIdx? (·.same v) with
  | some index => .ok index im
  | none =>
    if im.frozen then .error .frozen im
    else .ok im.constants.size { im with constants := im.constants.push v }

/-- Append initial words of a typed constant; the result is the store address of the first. -/
def addTypedConstants (words : Array Value) : Build Nat := fun im =>
  if im.frozen then .error .frozen im
  else .ok im.typedConstants.size { im with typedConstants := im.typedConstants ++ words }

/-- Set the address at which execution begins. -/
def setStart (address : Int64) : Build Unit := fun im =>
  if im.frozen then .error .frozen im else .ok () { im with start := address }

/-- Attach a comment to an address. -/
def addComment (address : Int64) (comment : String) : Build Unit := fun im =>
  if im.frozen then .error .frozen im else .ok () (im.noteAt address comment)

/-- Make the image final. -/
def freeze (im : Image) : Image := { im with frozen := true }

/-! ## Reading -/

/-- The constant at an index. -/
def constant? (im : Image) (index : Int64) : Option Value :=
  if index < 0 then none else im.constants[index.toNatClampNeg]?

/-- The comment at an address, empty if there is none. -/
def comment (im : Image) (address : Int64) : String := im.comments[address]?.getD ""

/-! ## Listing -/

/-- What the listing adds to an instruction: the constant it loads, or the native procedure it
calls. -/
def annotation (im : Image) (w : Word) : String :=
  if w.opcode = Opcode.ldc.byte then
    match im.constants[w.operand2]? with
    | some v => "(" ++ v.quoted ++ ")"
    | none => ""
  else if w.opcode = Opcode.csp.byte then
    match im.natives.at? w.operand2 with
    | some n => "(" ++ n.name ++ ")"
    | none => ""
  else ""

/-- The line of the listing for one instruction. -/
def codeLine (im : Image) (address : Nat) (w : Word) : String :=
  let plain := Text.padZeros 4 address ++ "  " ++ Text.padRight 14 w.text
  let extra := im.annotation w
  let annotated := if extra = "" then plain else plain ++ " " ++ extra
  let full :=
    match im.comments[Int64.ofNat address]? with
    | some c => Text.padRight 40 annotated ++ " ; " ++ c
    | none => annotated
  Text.trimRight full

/-- The listing of the instructions. -/
def codeLines (im : Image) : List String :=
  s!"== code ({im.code.size} instructions, start {im.start.toInt}) ==" ::
    im.code.toList.mapIdx im.codeLine

/-- The listing of the constant pool. -/
def constantLines (im : Image) : List String :=
  if im.constants.isEmpty then []
  else
    s!"== constants ({im.constants.size}) ==" ::
      im.constants.toList.mapIdx fun index v =>
        Text.padLeft 4 (toString index) ++ "  " ++ Text.padRight 8 v.kind.name ++ " " ++ v.quoted

/-- The listing of the typed constants. -/
def typedConstantLines (im : Image) : List String :=
  if im.typedConstants.isEmpty then []
  else
    s!"== typed constants ({im.typedConstants.size} words) ==" ::
      im.typedConstants.toList.mapIdx fun address v =>
        Text.padLeft 4 (toString address) ++ "  " ++ v.quoted

/-- The whole listing, every line ended by a line feed. -/
def listing (im : Image) : String :=
  String.join ((im.codeLines ++ im.constantLines ++ im.typedConstantLines).map (· ++ "\n"))

end Image

end PCode
