import PCode.Machine.Control
import PCode.Machine.Operators

/-!
# Execution

The meaning of every instruction, and of one step of the machine.

A call takes place in three instructions: one pushes a mark of five words, then
the arguments are evaluated above it, and the call makes the mark the base of
the new frame.  The entry instruction of the subprogram reserves its variables,
and the return instruction cuts the stack back to the mark, or to one word above
it when a function leaves its result there.

Main definitions:

- `Machine.perform`: the effect of an opcode with its operands.
- `Machine.stepOnce`: fetch and execute one instruction.
-/

namespace PCode.Machine

/-! ## Operand patterns -/

/-- Replace the top word. -/
def unary (f : Value → Value) : Instr Unit := do
  let a ← pop
  push (f a)

/-- Replace the top two words by one, which may fail. -/
def binaryE (f : Value → Value → Except Fault Value) : Instr Unit := do
  let b ← pop
  let a ← pop
  match f a b with
  | .ok r => push r
  | .error cause => raise cause

/-- Replace the top two words by one. -/
def binary (f : Value → Value → Value) : Instr Unit := do
  let b ← pop
  let a ← pop
  push (f a b)

/-! ## Linkage -/

/-- Push words one after another. -/
def pushAll : List Value → Instr Unit
  | [] => pure ()
  | v :: rest => do
    push v
    pushAll rest

/-- Push a mark whose static link is the frame a number of levels out. -/
def markStack (level : Nat) : Instr Unit := do
  let link ← frame level
  let m ← get
  pushAll [.ofInt 0, .ofInt link, .ofInt m.mp, .ofInt m.ep, .ofInt 0]

/-- Call the subprogram at an address with the argument words on top of the stack. -/
def callUser (argumentWords target : Nat) : Instr Unit := fun m =>
  let base := m.sp - Int64.ofNat argumentWords - Int64.ofNat markSize
  if base < m.stackBase then .error (.fault (.frameBelowStack base)) m
  else
    let returnSlot := base + Int64.ofNat markReturnAddress
    let m := { m with mp := base }
    if m.inStore returnSlot then
      let m := m.setWord returnSlot (.ofInt m.pc)
      let entry := Int64.ofNat target
      .ok () { m with pc := entry, profile := m.profile.map fun p => (p.recordCall entry).2 }
    else .error (.crash ⟨returnSlot⟩) m

/-- Set the stack pointer, or the extreme pointer, a distance above the base of the frame.  New
words of the stack are zero. -/
def enter (register amount : Nat) : Instr Unit := fun m =>
  let top := m.mp + Int64.ofNat amount
  match register with
  | 0 =>
    if m.np < top then .error (.fault (.frameTooLarge top m.np)) m
    else
      match fill (.ofInt 0) (span m.sp top) m.sp m with
      | .ok _ m => .ok () { m with sp := top }
      | .error e m => .error e m
  | 1 => .ok () { m with ep := top }
  | n => .error (.fault (.unknownRegister n)) m

/-- Return to the caller.  A function leaves its result, the first word of the mark, on the
stack. -/
def leave (code : UInt8) : Instr Unit := do
  let old := (← get).mp
  let dynamicLink ← load (old + Int64.ofNat markDynamicLink)
  let extreme ← load (old + Int64.ofNat markExtremePointer)
  let returnAddress ← load (old + Int64.ofNat markReturnAddress)
  modify fun m =>
    { m with mp := dynamicLink.toInt, ep := extreme.toInt, pc := returnAddress.toInt }
  let top := if code = TypeCode.void.byte then old else old + 1
  let sp := (← get).sp
  fill .undefined (span top sp) top
  modify fun m => { m with sp := top }

/-- Pop a number of words; the last popped comes first. -/
def popArguments : Nat → List Value → Instr (List Value)
  | 0, popped => pure popped
  | count + 1, popped => do
    let v ← pop
    popArguments count (v :: popped)

/-- A request inside an instruction. -/
def ofHost {α : Type} (request : Host α) : Instr α := fun m =>
  match request m with
  | .ok a m => .ok a m
  | .error c m => .error (.crash c) m

/-- Call a native procedure with the argument words on top of the stack.  The result of a function
is pushed, unless the call suspended or stopped the machine. -/
def callNative (argumentCount index : Nat) : Instr Unit := do
  match (← get).image.natives.at? index with
  | none => raise (.noNative index)
  | some native =>
    let arguments ← popArguments argumentCount []
    modify fun m => { m with suspendedInCall := false, inCall := true }
    let result ← ofHost (carryOut (native.body arguments.toArray))
    modify fun m => { m with inCall := false }
    ofHost pollInput
    match result with
    | .error (.machine e) => throw (.error e)
    | .error why => raise (.native native.name why.message)
    | .ok v =>
      let m ← get
      if native.isFunction ∧ m.state = .running ∧ !m.suspendedInCall then push v

/-! ## Data -/

/-- Push a constant.  Booleans and characters stand in the operand itself, other constants in the
pool. -/
def loadConstant (code : UInt8) (operand : Nat) : Instr Unit := do
  match TypeCode.ofByte? code with
  | some .boolean => push (.ofBool (operand != 0))
  | some .char => push (.ofCharCode (Int64.ofNat operand))
  | some .integer | some .real | some .string | some .pointer =>
    let constants := (← get).image.constants
    match constants[operand]? with
    | some v => push v
    | none => raise (.noConstant operand constants.size)
  | _ => raise (.constantType code)

/-- Push the address a distance above the base of a frame. -/
def loadAddress (level offset : Nat) : Instr Unit := do
  let base ← frame level
  push (.ofAddress (base + Int64.ofNat offset))

/-- Push the word a distance above the base of a frame. -/
def loadValue (level offset : Nat) : Instr Unit := do
  let base ← frame level
  let v ← load (base + Int64.ofNat offset)
  push v

/-- Replace an address by the word there. -/
def loadIndirect : Instr Unit := do
  let a ← pop
  let v ← load a.toInt
  push v

/-- Store the top word at the address below it. -/
def storeIndirect : Instr Unit := do
  let v ← pop
  let a ← pop
  storeAt a.toInt v

/-- Add an index, scaled by a stride, to the address below it. -/
def indexAddress (stride : Nat) : Instr Unit := do
  let index ← pop
  let a ← pop
  push (.ofAddress (a.toInt + index.toInt * Int64.ofNat stride))

/-! ## Jumps -/

/-- Go on at an address. -/
def jump (target : Int64) : Instr Unit := modify fun m => { m with pc := target }

/-- Go on at an address if the popped word has the given truth value. -/
def jumpIf (truth : Bool) (target : Nat) : Instr Unit := do
  let condition ← pop
  if condition.truthy = truth then jump (Int64.ofNat target)

/-! ## Instructions -/

/-- The effect of an opcode with its operands. -/
def perform (op : Opcode) (operand1 operand2 : Nat) : Instr Unit :=
  match op with
  | .cup => callUser operand1 operand2
  | .csp => callNative operand1 operand2
  | .ent => enter operand1 operand2
  | .mst => markStack operand1
  | .rtn => leave (UInt8.ofNat operand1)
  | .equ => binary Operator.equal
  | .neq => binary Operator.notEqual
  | .grt => binary Operator.greater
  | .geq => binary Operator.greaterEqual
  | .les => binary Operator.less
  | .leq => binary Operator.lessEqual
  | .adi => binary Operator.addInt
  | .sbi => binary Operator.subInt
  | .ngi => unary Operator.negInt
  | .mpi => binary Operator.mulInt
  | .dvi => binaryE Operator.divInt
  | .mod => binaryE Operator.modInt
  | .abi => unary Operator.absInt
  | .sqi => unary Operator.sqrInt
  | .inc => unary (Operator.stepBy 1)
  | .dec => unary (Operator.stepBy (-1))
  | .adr => binary Operator.addReal
  | .sbr => binary Operator.subReal
  | .ngr => unary Operator.negReal
  | .mpr => binary Operator.mulReal
  | .dvr => binaryE Operator.divReal
  | .abr => unary Operator.absReal
  | .sqr => unary Operator.sqrReal
  | .ior => binary Operator.or
  | .and => binary Operator.and
  | .xor => binary Operator.xor
  | .not => unary Operator.not
  | .inn | .uni | .int | .dif | .cmp | .sgs | .lvs => raise (.setOperation op)
  | .ujp => jump (Int64.ofNat operand2)
  | .xjp => do
    let target ← pop
    jump target.toInt
  | .fjp => jumpIf false operand2
  | .tjp => jumpIf true operand2
  | .flt | .flo => pure ()
  | .trc => unary Operator.truncate
  | .rnd => unary Operator.round
  | .chr => unary Operator.character
  | .ord => unary Operator.ordinal
  | .stp => modify stop
  | .lda => loadAddress operand1 operand2
  | .ldc => loadConstant (UInt8.ofNat operand1) operand2
  | .ldi => loadIndirect
  | .lva | .lvb | .lvc | .lvi | .lvr => loadValue operand1 operand2
  | .sti => storeIndirect
  | .ixa => indexAddress operand2

/-- The effect of an instruction word. -/
def execute (w : Word) : Instr Unit :=
  match Opcode.ofByte? w.opcode with
  | some op => perform op w.operand1 w.operand2
  | none => raise (.unknownOpcode w.opcode)

/-! ## Steps -/

/-- End the run with an error. -/
def failWith (m : Machine) (e : MachineError) : Machine := { m with error := some e }.stop

/-- Record a snapshot if the machine is watched. -/
def observe (m : Machine) : Machine :=
  if m.watched then { m with dumps := m.dumps.push m.snapshot } else m

/-- Fetch and execute one instruction, if the machine is running.  A fault ends the run. -/
def stepOnce : Host Unit := fun m =>
  if m.state ≠ .running then .ok () m
  else
    let m := { m with ipc := m.pc }
    match m.image.fetch? m.pc with
    | none => .ok () (m.failWith (m.errorOf (.noInstruction m.pc m.image.code.size)))
    | some w =>
      let m := { m with pc := m.pc + 1, profile := m.profile.map (·.recordInstruction w.opcode) }
      match execute w m with
      | .ok _ m => .ok () m.observe
      | .error (.fault cause) m => .ok () (m.failWith (m.errorOf cause))
      | .error (.error e) m => .ok () (m.failWith e)
      | .error (.crash c) m => .error c m

end PCode.Machine
