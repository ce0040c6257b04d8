import PCode.Machine.Execute

/-!
# The host's side of a machine

How a machine is made, started, stepped and driven.  Driving repeats steps in
batches until the run ends; it waits through holds and for lines, in a time of
its own that passes only while it waits.

Main definitions:

- `Machine.create?`: a stopped machine over a frozen image.
- `Machine.run`, `Machine.reset`: start a run, and go back to the start.
- `Machine.step`: execute up to a number of instructions.
- `Machine.drive`: execute until the run ends.
-/

namespace PCode

/-! ## Making -/

/-- Why no machine can be made. -/
inductive CreationError where
  | noImage
  | imageOpen
  | storeTooSmall (size : Int64) (constants : Nat)
  | storeTooLarge
  deriving Inhabited

/-- The wording of a creation error.  A store that no memory can hold has none. -/
def CreationError.message : CreationError → String
  | noImage => "vm: nil image"
  | imageOpen => "vm: image is still being compiled"
  | storeTooSmall size constants =>
    s!"vm: store of {size.toInt} words cannot hold {constants} typed constant words"
  | storeTooLarge => ""

/-- How a machine is equipped. -/
structure Equipment where
  /-- the number of words in the store; a default is taken unless it is positive -/
  storeSize : Int64 := 0
  keyboard : Option (List Int64) := none
  console : Option Console := none
  /-- the seed of random reals -/
  seed : UInt64 := 1
  profile : Option Profile := none
  /-- whether a snapshot is recorded after every instruction -/
  watched : Bool := false
  deriving Inhabited

namespace Machine

/-- The number of words in a store that is not sized otherwise. -/
def defaultStoreSize : Nat := 65536

/-- The number of instructions in a batch that is not sized otherwise. -/
def defaultBatchSize : Nat := 100000

/-- The most words of a store, of 40 bytes each, in an address space of 48 bits. -/
def maxStoreSize : Int64 := 7036874417766

/-- A store with initial words at its bottom. -/
def initialStore (size : Nat) (initial : Array Value) : Array Value :=
  initial ++ Array.replicate (size - initial.size) Value.undefined

/-- Go back to the start: the store holds only the typed constants, and the machine is stopped.
The end of a run is not counted. -/
def reset (m : Machine) : Machine :=
  let size := m.store.size
  { m with
    state := .stopped
    store := initialStore size m.image.typedConstants
    pc := m.image.start
    ipc := m.image.start
    sp := m.stackBase
    mp := 0
    np := Int64.ofNat size
    ep := 0
    error := none
    reader := none
    held := 0
    inCall := false
    suspendedInCall := false
    line := none }

/-- A stopped machine over an image, which must be frozen. -/
def create? (image : Option Image) (equipment : Equipment) : Except CreationError Machine :=
  match image with
  | none => .error .noImage
  | some image =>
    let size := if 0 < equipment.storeSize then equipment.storeSize
      else Int64.ofNat defaultStoreSize
    let constants := image.typedConstants.size
    if !image.frozen then .error .imageOpen
    else if size ≤ Int64.ofNat (constants + markSize) then .error (.storeTooSmall size constants)
    else if maxStoreSize < size then .error .storeTooLarge
    else
      .ok <| reset
        { image
          store := Array.replicate size.toNatClampNeg Value.undefined
          pc := 0, ipc := 0, sp := 0, mp := 0, np := 0, ep := 0
          state := .stopped
          inCall := false, suspendedInCall := false
          line := none, reader := none
          held := 0
          error := none
          keyboard := equipment.keyboard
          console := equipment.console
          generator := .ofSeed equipment.seed
          profile := equipment.profile
          watched := equipment.watched
          output := #[], dumps := #[], received := #[]
          finishes := 0 }

/-! ## Running -/

/-- Start a run, after ending one that is still going on. -/
def run (m : Machine) : Machine := { m.stop.reset with state := .running }

/-- Whether the next step would execute an instruction. -/
def ready (m : Machine) : Bool := m.state == .running && m.held == 0

/-- Execute up to a number of instructions, as long as the machine is running and not held; the
result is the number executed, added to those before. -/
def stepLoop : Nat → Nat → Host Nat
  | 0, before => pure before
  | n + 1, before => fun m =>
    if m.ready then
      match stepOnce m with
      | .ok _ m => stepLoop n (before + 1) m
      | .error c m => .error c m
    else .ok before m

/-- Hand on a line that has arrived, then execute up to a number of instructions; the result is
the number executed. -/
def step (n : Int64) : Host Nat := do
  pollInput
  stepLoop n.toNatClampNeg 0

/-- Execute a number of instructions one by one, held or not. -/
def stepSingly : Nat → Host Unit
  | 0 => pure ()
  | n + 1 => do
    stepOnce
    stepSingly n

/-! ## Driving -/

/-- How driving a machine ends. -/
inductive DriveEnd where
  /-- the run has ended, perhaps with an error -/
  | finished (error : Option MachineError)
  /-- the host had called it off -/
  | cancelled
  /-- the time was up -/
  | deadline
  /-- nothing can ever happen, or the allowance of rounds was used up -/
  | unfinished
  deriving Inhabited

/-- What to do after a look at a machine that is being driven. -/
inductive DriveStep where
  | done (result : DriveEnd)
  /-- look again, with the time that is left -/
  | again (limit : Option Nat)
  deriving Inhabited

/-- Wait for a line.  A line that is on its way arrives; without one, the time runs out. -/
def awaitLine (limit : Option Nat) (m : Machine) : DriveStep × Machine :=
  match m.console with
  | some c =>
    match c.late with
    | line :: rest =>
        (.again limit, { m with console := some { c with late := rest } }.deliver line)
    | [] => if limit.isSome then (.done .deadline, m.stop) else (.done .unfinished, m)
  | none => if limit.isSome then (.done .deadline, m.stop) else (.done .unfinished, m)

/-- Wait until the machine is no longer held, or until the time runs out. -/
def awaitRelease (limit : Option Nat) (m : Machine) : DriveStep × Machine :=
  match limit with
  | some left =>
    if left ≤ m.held then (.done .deadline, m.stop)
    else (.again (some (left - m.held)), { m with held := 0 })
  | none => (.again none, { m with held := 0 })

/-- One round of driving: hand on a line, then end, wait or execute a batch. -/
def driveRound (batch : Nat) (limit : Option Nat) : Host DriveStep := do
  pollInput
  let m ← get
  match m.state with
  | .stopped => pure (.done (.finished m.error))
  | .suspended => modifyGet (awaitLine limit)
  | .running =>
    if 0 < m.held then modifyGet (awaitRelease limit)
    else
      let _ ← step (Int64.ofNat batch)
      pure (.again limit)

/-- Repeat rounds, up to an allowance. -/
def driveLoop (batch : Nat) : Nat → Option Nat → Host DriveEnd
  | 0, _ => pure .unfinished
  | rounds + 1, limit => do
    match ← driveRound batch limit with
    | .done result => pure result
    | .again limit => driveLoop batch rounds limit

/-- Execute until the run ends, in batches of a size for which a default is taken unless it is
positive.  The limit is the time, in nanoseconds, that may pass in waiting. -/
def drive (rounds : Nat) (batch : Int64) (limit : Option Nat) (cancelled : Bool) : Host DriveEnd :=
  if cancelled then fun m => .ok .cancelled m.stop
  else driveLoop (if 0 < batch then batch.toNatClampNeg else defaultBatchSize) rounds limit

/-! ## Access for the host -/

/-- Call a native procedure outside any instruction. -/
def callDirectly (native : Native) (arguments : Array Value) : Host (Except Failure Value) :=
  carryOut (native.body arguments)

end Machine

end PCode
