import PCode.Image
import PCode.Tree.Program

/-!
# Generation of code

Code is generated in one walk over the tree that appends to an image.  Whatever
cannot be lowered is recorded as an error, and the walk goes on, so that all
errors are found.  Only where the type of a missing expression is needed does
the walk break off.

Jumps forward are emitted with target zero and patched when the target is known.
Calls of subprograms that have no code yet wait in a list, and so do the jumps
of exit statements, in one list for each subprogram being generated.
-/

namespace PCode

/-! ## Errors -/

/-- Why something cannot be lowered. -/
inductive CompileFault where
  | noProgram
  /-- the image refuses an instruction -/
  | image (error : ImageError)
  | noBody (name : String)
  | resultType (name : String) (type : Ty)
  | constantWords (name : String) (given needed : Nat)
  | functionAsStatement (name : String)
  | assignedType (type : Ty)
  | counterType (name : String)
  | notCallable (name : String)
  | cannotCall (kind : SymbolKind) (name : String)
  | missingExpression
  | missingDesignator
  | loadedType (type : Ty)
  | usedAsValue (kind : SymbolKind) (name : String)
  | noLoad (type : Ty)
  | unaryOperator (op : UnaryOp)
  | arithmeticType (verb : String) (type : Ty)
  | binaryOperator (op : BinaryOp)
  | logicalType (op : BinaryOp) (type : Ty)
  | castTypes (source target : Ty)
  | notDesignator (kind : String)
  | indexedType (type : Ty)
  | indexCount (dimensions indices : Nat)
  deriving Inhabited

/-- The wording of a fault. -/
def CompileFault.message : CompileFault → String
  | noProgram => "no program to compile"
  | image e => e.message
  | noBody name => s!"call to {name}, which has no body"
  | resultType name t => s!"function {name} must return a simple type, not {t.shown}"
  | constantWords name given needed =>
    s!"typed constant {name} has {given} words of data, its type needs {needed}"
  | functionAsStatement name => s!"function {name} called as a statement"
  | assignedType t => s!"cannot assign a value of type {t.shown}"
  | counterType name => s!"for loop variable {name} must be ordinal"
  | notCallable name => s!"{name} is not a procedure or function"
  | cannotCall kind name => s!"cannot call {kind.name} {name}"
  | missingExpression => "missing expression"
  | missingDesignator => "missing designator"
  | loadedType t => s!"cannot load a value of type {t.shown}"
  | usedAsValue kind name => s!"{kind.name} {name} used as a value"
  | noLoad t => s!"can't make code to get {t.shown}"
  | unaryOperator op => s!"unknown unary operator {op.text}"
  | arithmeticType verb t => s!"can't {verb} operands of type {t.shown}"
  | binaryOperator op => s!"unknown binary operator {op.text}"
  | logicalType op t => s!"can't do {op.text} on operands of type {t.shown}"
  | castTypes source target =>
    s!"don't know how to compile a cast from {source.shown} to {target.shown}"
  | notDesignator kind => s!"unknown LHS node {kind}"
  | indexedType t => s!"cannot index a value of type {t.shown}"
  | indexCount dimensions indices =>
    s!"array of {dimensions} dimensions indexed with {indices} indices"

/-- A fault at a position. -/
structure CompileError where
  pos : Pos := {}
  fault : CompileFault
  deriving Inhabited

/-- The wording of an error, with its position if that is known. -/
def CompileError.message (e : CompileError) : String :=
  if e.pos.line = 0 then "compile error: " ++ e.fault.message
  else s!"compile error at {e.pos.text}: {e.fault.message}"

/-! ## The walk -/

/-- Calls that wait for the code of a subprogram. -/
structure PendingCalls where
  symbol : Symbol
  /-- the addresses of the call instructions, the latest first -/
  addresses : List Nat
  /-- the position of the first call -/
  calledAt : Pos
  deriving Inhabited

/-- What has been generated so far. -/
structure Generation where
  image : Image
  errors : Array CompileError := #[]
  /-- the addresses of exit jumps, a list for each subprogram being generated, innermost first -/
  exits : List (List Nat) := []
  /-- entry addresses by the numbers of the symbols, the latest first -/
  entries : List (Nat × Nat) := []
  pending : List PendingCalls := []
  deriving Inhabited

/-- The type of an expression is needed that has none. -/
structure Untyped where
  deriving DecidableEq, Inhabited, Repr

/-- A part of the walk. -/
abbrev Gen := EStateM Untyped Generation

namespace Gen

/-- Record an error. -/
def report (pos : Pos) (fault : CompileFault) : Gen Unit :=
  modify fun g => { g with errors := g.errors.push ⟨pos, fault⟩ }

/-- Do something to the image; what it refuses is recorded. -/
def onImage {α : Type} (pos : Pos) (x : Image.Build α) : Gen (Option α) := fun g =>
  match g with
  | ⟨image, errors, exits, entries, pending⟩ =>
    match x image with
    | .ok a image => .ok (some a) ⟨image, errors, exits, entries, pending⟩
    | .error e image => .ok none ⟨image, errors.push ⟨pos, .image e⟩, exits, entries, pending⟩

/-- Append an instruction; the result is its address, unless it was refused. -/
def emit (pos : Pos) (op : Opcode) (operand1 operand2 : Int64) (comment : String) :
    Gen (Option Nat) :=
  onImage pos (Image.emit op.byte operand1 operand2 comment)

/-- Append an instruction whose address is not needed. -/
def put (pos : Pos) (op : Opcode) (operand1 operand2 : Int64) (comment : String) : Gen Unit := do
  let _ ← emit pos op operand1 operand2 comment

/-- The address of the next instruction. -/
def nextAddress : Gen Nat := fun g => .ok g.image.code.size g

/-- Point an instruction to a target, if the instruction was emitted. -/
def patch (pos : Pos) (address : Option Nat) (target : Nat) : Gen Unit := do
  match address with
  | none => pure ()
  | some a =>
    let _ ← onImage pos (Image.patch (Int64.ofNat a) (Int64.ofNat target))

/-- The index of a constant. -/
def constant (pos : Pos) (v : Value) : Gen Int64 := do
  let index ← onImage pos (Image.addConstant v)
  return Int64.ofNat (index.getD 0)

/-- Load a constant from the pool. -/
def putConstant (pos : Pos) (code : TypeCode) (v : Value) (comment : String) : Gen Unit := do
  let index ← constant pos v
  put pos .ldc code.byte.toUInt64.toInt64 index comment

/-- The type of an expression, without which the walk breaks off. -/
def typeOf (e : Expr) : Gen Ty :=
  match e.type? with
  | some t => pure t
  | none => throw ⟨⟩

end Gen

/-- A type code byte as an operand. -/
def operandOfCode (code : UInt8) : Int64 := Int64.ofNat code.toNat

end PCode
