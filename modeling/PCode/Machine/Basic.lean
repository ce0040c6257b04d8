import PCode.Image
import PCode.Machine.Fault
import PCode.Profile
import PCode.Random

/-!
# The machine

A machine has one store of words.  The typed constants of the image lie at its
bottom, the stack grows up from them, and the heap grows down from its top.  The
registers are the program counter, the stack pointer one past the top of the
stack, the mark pointer at the base of the active frame, the new pointer at the
lowest heap word and the extreme pointer, which is only saved and restored.

A program can load its registers with any number.  So the access primitives
check addresses, and where the machine relies on its registers instead, a
register that points outside the store ends in a crash of the machine itself, a
third outcome next to success and fault.

Main definitions:

- `Machine`: the whole state, with what the host sees of a run.
- `Instr`: the effect of a part of an instruction.
- `Machine.push`, `Machine.pop`, `Machine.load`, `Machine.storeAt`: the access primitives.
-/

namespace PCode

/-! ## State -/

/-- Whether a machine executes instructions. -/
inductive RunState where
  | stopped
  | running
  | suspended
  deriving DecidableEq, Inhabited, Repr

/-- The name of a state. -/
def RunState.name : RunState → String
  | stopped => "stopped"
  | running => "running"
  | suspended => "suspended"

/-- The name shown for the number of a state. -/
def RunState.nameOfNumber (n : Int32) : String :=
  if n = 0 then stopped.name
  else if n = 1 then running.name
  else if n = 2 then suspended.name
  else s!"State({n.toInt})"

/-- When a console answers a request for a line. -/
inductive ConsoleMode where
  /-- while the request is made -/
  | prompt
  /-- while the machine waits -/
  | later
  /-- never by itself -/
  | manual
  deriving DecidableEq, Inhabited, Repr

/-- The host's side of line input. -/
structure Console where
  mode : ConsoleMode
  /-- lines not yet given out; after the last one, lines are empty -/
  lines : List String
  /-- whether a line was ever requested -/
  asked : Bool := false
  /-- lines that are given out when the machine waits -/
  late : List String := []
  deriving Inhabited

/-- Who gets the next line. -/
inductive Reader where
  /-- the host -/
  | host
  /-- a native procedure, which goes on with a routine -/
  | native (onLine : String → Routine)
  deriving Inhabited

/-- A machine and what its host has seen of it. -/
structure Machine where
  image : Image
  store : Array Value
  /-- address of the next instruction -/
  pc : Int64
  /-- address of the instruction being executed, or executed last -/
  ipc : Int64
  /-- one past the top of the stack -/
  sp : Int64
  /-- base of the active frame -/
  mp : Int64
  /-- lowest word of the heap -/
  np : Int64
  /-- extreme pointer -/
  ep : Int64
  state : RunState
  /-- whether a native procedure is being called -/
  inCall : Bool
  /-- whether the machine was suspended during the present native call -/
  suspendedInCall : Bool
  /-- a line that has arrived and was not yet handed on -/
  line : Option String
  reader : Option Reader
  /-- nanoseconds for which the machine is still to be held; zero when it is not held -/
  held : Nat
  /-- the error that ended the last run -/
  error : Option MachineError
  /-- the keys still to be read, if there is a keyboard -/
  keyboard : Option (List Int64)
  /-- the console, if there is one -/
  console : Option Console
  generator : Generator
  profile : Option Profile
  /-- whether a snapshot is recorded after every instruction -/
  watched : Bool
  /-- lines written -/
  output : Array String
  /-- snapshots recorded -/
  dumps : Array Snapshot
  /-- lines that the host has read -/
  received : Array String
  /-- how often a run has ended -/
  finishes : Nat
  deriving Inhabited

/-! ## Outcomes -/

/-- A word outside the store was touched without a check. -/
structure Crash where
  address : Int64
  deriving DecidableEq, Inhabited, Repr

/-- What ends an instruction early. -/
inductive Interrupt where
  /-- the instruction itself is at fault -/
  | fault (cause : Fault)
  /-- a native procedure passes on an error of the machine -/
  | error (error : MachineError)
  | crash (cause : Crash)
  deriving Inhabited

/-- The effect of a part of an instruction; what was done before an interrupt stays done. -/
abbrev Instr := EStateM Interrupt Machine

/-- The effect of a request of the host or of a native procedure. -/
abbrev Host := EStateM Crash Machine

namespace Machine

/-- The number of typed constant words, below which the stack never goes. -/
def stackBase (m : Machine) : Int64 := Int64.ofNat m.image.typedConstants.size

/-- Whether an address is that of a word of the store. -/
@[inline] def inStore (m : Machine) (a : Int64) : Prop :=
  0 ≤ a ∧ a.toNatClampNeg < m.store.size

instance (m : Machine) (a : Int64) : Decidable (m.inStore a) :=
  inferInstanceAs (Decidable (_ ∧ _))

/-- The word at an address, undefined outside the store. -/
@[inline] def word (m : Machine) (a : Int64) : Value :=
  m.store.getD a.toNatClampNeg Value.undefined

/-- Replace the word at an address of the store. -/
@[inline] def setWord (m : Machine) (a : Int64) (v : Value) : Machine :=
  { m with store := m.store.setIfInBounds a.toNatClampNeg v }

/-! ## Snapshots -/

/-- The words at the top of the stack, and whether there are more below. -/
def shownStack (m : Machine) : Option (Array Value) × Bool :=
  let base := m.stackBase
  let lowest := m.sp - Int64.ofNat Snapshot.shownWords
  let start := if base < lowest then lowest else base
  if start < m.sp ∧ m.sp ≤ Int64.ofNat m.store.size then
    (some (m.store.extract start.toNatClampNeg m.sp.toNatClampNeg), base < start)
  else (none, false)

/-- The words at the top of the store as far as they belong to the heap, and whether there are
more below. -/
def shownHeap (m : Machine) : Option (Array Value) × Bool :=
  let size := Int64.ofNat m.store.size - m.np
  if 0 < size ∧ 0 ≤ m.np then
    let shown := min Snapshot.shownWords size.toNatClampNeg
    (some (m.store.extract (m.store.size - shown) m.store.size), shown < size.toNatClampNeg)
  else (none, false)

/-- The visible state, with the instruction at a given address. -/
def snapshotAt (m : Machine) (pc : Int64) : Snapshot :=
  let (stack, stackClipped) := m.shownStack
  let (heap, heapClipped) := m.shownHeap
  { pc
    instruction := ((m.image.fetch? pc).map Word.text).getD Snapshot.noInstruction
    mp := m.mp, sp := m.sp, np := m.np, stack, stackClipped, heap, heapClipped }

/-- The visible state. -/
def snapshot (m : Machine) : Snapshot := m.snapshotAt m.pc

/-- A fault with the state at the instruction that raised it. -/
def errorOf (m : Machine) (cause : Fault) : MachineError := ⟨cause, m.snapshotAt m.ipc⟩

/-! ## Access primitives -/

/-- Raise a fault. -/
@[inline] def raise {α : Type} (cause : Fault) : Instr α := throw (.fault cause)

/-- Why an address cannot be accessed: it is outside the store, or in the gap between stack and
heap. -/
def addressFault? (m : Machine) (a : Int64) : Option Fault :=
  if a < 0 ∨ Int64.ofNat m.store.size ≤ a then some (.addressOutsideStore a m.store.size)
  else if m.sp ≤ a ∧ a < m.np then some (.addressInGap m.sp a m.np)
  else none

/-- Read a word. -/
def load (a : Int64) : Instr Value := fun m =>
  match m.addressFault? a with
  | some cause => .error (.fault cause) m
  | none => .ok (m.word a) m

/-- Write a word. -/
def storeAt (a : Int64) (v : Value) : Instr Unit := fun m =>
  match m.addressFault? a with
  | some cause => .error (.fault cause) m
  | none => .ok () (m.setWord a v)

/-- Push a word. -/
def push (v : Value) : Instr Unit := fun m =>
  if m.np ≤ m.sp then .error (.fault (.stackFull m.sp m.np)) m
  else if m.inStore m.sp then
    let m := m.setWord m.sp v
    .ok () { m with sp := m.sp + 1 }
  else .error (.crash ⟨m.sp⟩) m

/-- Pop a word and leave its cell undefined. -/
def pop : Instr Value := fun m =>
  if m.sp ≤ m.stackBase then .error (.fault (.stackEmpty m.sp)) m
  else
    let m := { m with sp := m.sp - 1 }
    if m.inStore m.sp then .ok (m.word m.sp) (m.setWord m.sp .undefined)
    else .error (.crash ⟨m.sp⟩) m

/-- Set `count` words from an address on, all of which must be in the store. -/
def fill (v : Value) : Nat → Int64 → Instr Unit
  | 0, _ => pure ()
  | count + 1, a => fun m =>
    if m.inStore a then fill v count (a + 1) (m.setWord a v)
    else .error (.crash ⟨a⟩) m

/-- The number of addresses from one up to another. -/
def span (first last : Int64) : Nat := (last.toInt - first.toInt).toNat

/-- Follow the static link a number of times, starting from a frame. -/
def outerFrame : Nat → Int64 → Instr Int64
  | 0, base => pure base
  | level + 1, base => do
    let link ← load (base + Int64.ofNat markStaticLink)
    outerFrame level link.toInt

/-- The frame that lies a number of levels out from the active one. -/
def frame (level : Nat) : Instr Int64 := fun m => outerFrame level m.mp m

end Machine

end PCode
