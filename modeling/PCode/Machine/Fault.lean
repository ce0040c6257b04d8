import PCode.Opcode
import PCode.Snapshot

/-!
# Faults

A fault is the reason for which an instruction cannot be carried out.  Each
fault has a kind and a wording.  Together with a snapshot of the machine it is
the error that stops a run.
-/

namespace PCode

/-! ## Kinds -/

/-- Classes of faults. -/
inductive FaultKind where
  | divideByZero
  | invalidAddress
  | stackOverflow
  | outOfMemory
  | unknownInstruction
  | encoding
  | native
  deriving DecidableEq, Inhabited, Repr

namespace FaultKind

/-- The name of a kind. -/
def name : FaultKind → String
  | divideByZero => "divide by zero"
  | invalidAddress => "invalid address"
  | stackOverflow => "stack overflow"
  | outOfMemory => "out of memory"
  | unknownInstruction => "unknown instruction"
  | encoding => "encoding"
  | native => "native procedure"

/-- Every kind, in the order of their numbers, which start at one. -/
def all : Array FaultKind :=
  #[divideByZero, invalidAddress, stackOverflow, outOfMemory, unknownInstruction, encoding, native]

/-- The name shown for the number of a kind. -/
def nameOfNumber (n : UInt8) : String :=
  match n.toNat with
  | 0 => "ErrorKind(0)"
  | k + 1 =>
    match all[k]? with
    | some kind => kind.name
    | none => s!"ErrorKind({k + 1})"

end FaultKind

/-! ## Causes -/

/-- Why an instruction, or a request of a native procedure, cannot be carried out. -/
inductive Fault where
  | integerDivision (dividend : Int64)
  | modulo (dividend : Int64)
  | realDivision (dividend : Value)
  | addressOutsideStore (address : Int64) (size : Nat)
  | addressInGap (sp address np : Int64)
  | stackFull (sp np : Int64)
  | stackEmpty (sp : Int64)
  | noInstruction (pc : Int64) (size : Nat)
  | setOperation (op : Opcode)
  | unknownOpcode (byte : UInt8)
  | noConstant (index size : Nat)
  | constantType (code : UInt8)
  | frameBelowStack (base : Int64)
  | frameTooLarge (top np : Int64)
  | unknownRegister (number : Nat)
  | noNative (index : Nat)
  | negativeAllocation (size : Int64)
  | outOfMemory (size sp np : Int64)
  | freeOutsideHeap (address np : Int64) (size : Nat)
  | corruptBlock (address : Int64) (size : Value)
  | native (procedure reason : String)
  deriving Inhabited

namespace Fault

/-- The class of a fault. -/
def kind : Fault → FaultKind
  | integerDivision _ | modulo _ | realDivision _ => .divideByZero
  | addressOutsideStore .. | addressInGap .. | stackEmpty _ | noInstruction .. | noConstant ..
  | frameBelowStack _ | negativeAllocation _ | freeOutsideHeap .. | corruptBlock .. =>
    .invalidAddress
  | stackFull .. | frameTooLarge .. => .stackOverflow
  | outOfMemory .. => .outOfMemory
  | setOperation _ | unknownOpcode _ | constantType _ | unknownRegister _ | noNative _ =>
    .unknownInstruction
  | native .. => .native

/-- The wording of a fault. -/
def message : Fault → String
  | integerDivision a => s!"integer division of {a.toInt} by zero"
  | modulo a => s!"{a.toInt} modulo zero"
  | realDivision a => s!"division of {a.text} by zero"
  | addressOutsideStore a size => s!"data address {a.toInt} outside store of {size} words"
  | addressInGap sp a np => s!"invalid data address ({sp.toInt} <= {a.toInt} < {np.toInt})"
  | stackFull sp np => s!"stack overflow (sp {sp.toInt} reached heap at {np.toInt})"
  | stackEmpty sp => s!"stack underflow at {sp.toInt}"
  | noInstruction pc size => s!"instruction address {pc.toInt} outside program of {size}"
  | setOperation op => s!"{op.mnemonic}: set operations are not supported"
  | unknownOpcode b => "unknown opcode 0x" ++ Text.hexByte 'a' b
  | noConstant index size => s!"constant {index} not in pool of {size}"
  | constantType code => s!"cannot load a constant of type {TypeCode.nameOfByte code}"
  | frameBelowStack base => s!"call frame at {base.toInt} below the stack base"
  | frameTooLarge top np => s!"stack overflow (frame needs {top.toInt}, heap at {np.toInt})"
  | unknownRegister n => s!"ENT cannot set register {n}"
  | noNative index => s!"no native procedure {index}"
  | negativeAllocation size => s!"cannot allocate {size.toInt} words"
  | outOfMemory size sp np =>
    s!"out of memory allocating {size.toInt} words (sp {sp.toInt}, np {np.toInt})"
  | freeOutsideHeap a np size => s!"free of {a.toInt} outside heap [{np.toInt}, {size})"
  | corruptBlock a size => s!"free of {a.toInt}: corrupt block size {size.text}"
  | native procedure reason => s!"{procedure}: {reason}"

end Fault

/-! ## Errors -/

/-- A fault with the state of the machine at the instruction that raised it. -/
structure MachineError where
  fault : Fault
  snapshot : Snapshot
  deriving Inhabited

namespace MachineError

/-- The wording of a machine error. -/
def message (e : MachineError) : String :=
  s!"{e.fault.kind.name} at pc {e.snapshot.pc.toInt}: {e.fault.message}"

end MachineError

end PCode
