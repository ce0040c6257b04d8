import PCode.Native.Routine
import PCode.Text.Case
import PCode.Text.Quoted
import PCode.Word
import Std.Data.HashMap

/-!
# The registry of native procedures

A program calls a native procedure by its index in a registry, and refers to it
by a name in which case does not count.  Procedures are only ever added, so an
index keeps its meaning.
-/

namespace PCode

/-- A declared parameter of a native procedure. -/
structure NativeParam where
  /-- the type code byte -/
  code : UInt8
  byRef : Bool
  deriving DecidableEq, Inhabited, Repr

/-- How a native procedure is called. -/
structure NativeHeader where
  name : String
  /-- the type code byte of the result; that of no type for a procedure -/
  returns : UInt8 := TypeCode.void.byte
  params : Array NativeParam := #[]
  /-- whether any number of arguments of any type is accepted -/
  variadic : Bool := false
  deriving DecidableEq, Inhabited, Repr

/-- A native procedure. -/
structure Native extends NativeHeader where
  body : Array Value → Routine
  deriving Inhabited

/-- Whether a call leaves a result on the stack. -/
def NativeHeader.isFunction (n : NativeHeader) : Bool := n.returns != TypeCode.void.byte

/-- Why a native procedure cannot be registered. -/
inductive RegistryError where
  | noImplementation (name : String)
  | duplicate (name : String)
  | full (size : Nat)
  deriving DecidableEq, Inhabited, Repr

namespace RegistryError

/-- The wording of a registry error. -/
def message : RegistryError → String
  | noImplementation name => s!"native {Text.quote name} has no implementation"
  | duplicate name => s!"native {Text.quote name} already registered"
  | full size => s!"native registry full ({size} entries)"

end RegistryError

/-- The table of native procedures, with the index of each lower-case name. -/
structure Registry where
  natives : Array Native := #[]
  byName : Std.HashMap String Nat := ∅
  deriving Inhabited

namespace Registry

/-- The registry without procedures. -/
def empty : Registry := {}

/-- The number of procedures. -/
def size (r : Registry) : Nat := r.natives.size

/-- The procedure with a given index. -/
def at? (r : Registry) (index : Nat) : Option Native := r.natives[index]?

/-- The index of the procedure with a given name. -/
def lookup? (r : Registry) (name : String) : Option Nat := r.byName[Text.lower name]?

/-- Add a procedure at the next index.  A procedure needs an implementation, its name must be new,
and its index must fit in an operand. -/
def register (header : NativeHeader) (body : Option (Array Value → Routine)) :
    EStateM RegistryError Registry Nat := fun r =>
  match body with
  | none => .error (.noImplementation header.name) r
  | some body =>
    let key := Text.lower header.name
    let index := r.natives.size
    if r.byName.contains key then .error (.duplicate header.name) r
    else if maxOperand2 < index then .error (.full index) r
    else
      .ok index
        { natives := r.natives.push { header with body }, byName := r.byName.insert key index }

/-- Add procedures one after another, up to the first that is refused. -/
def registerAll : List Native → EStateM RegistryError Registry Unit
  | [] => pure ()
  | n :: rest => do
    let _ ← register n.toNativeHeader (some n.body)
    registerAll rest

end Registry

end PCode
