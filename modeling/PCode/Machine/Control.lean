import PCode.Machine.Heap

/-!
# Control of a machine

What the host and native procedures can ask of a machine: to stop, suspend,
resume or hold it, to write and read lines, and to access its store and heap.
Here the requests of a routine get their meaning.

Main definitions:

- `Machine.stop`, `Machine.suspend`, `Machine.resume`, `Machine.hold`: changes of the run state.
- `Machine.carryOut`: the meaning of a routine.
- `Machine.pollInput`: hand an arrived line to the reader that waits for it.
-/

namespace PCode.Machine

/-! ## Run state -/

/-- End the run; a machine that is already stopped stays as it is. -/
def stop (m : Machine) : Machine :=
  if m.state = .stopped then m
  else { m with state := .stopped, finishes := m.finishes + 1 }

/-- Park a running machine. -/
def suspend (m : Machine) : Machine :=
  if m.state = .running then
    { m with state := .suspended, suspendedInCall := m.suspendedInCall || m.inCall }
  else m

/-- Let a parked machine go on. -/
def resume (m : Machine) : Machine :=
  if m.state = .suspended then { m with state := .running } else m

/-- Hold the machine for some milliseconds.  The time is counted in nanoseconds in one word, so
a time beyond its range wraps; one that is not positive holds the machine no longer. -/
def hold (m : Machine) (milliseconds : Int64) : Machine :=
  if milliseconds ≤ 0 then m
  else { m with held := (milliseconds * 1000000).toNatClampNeg }

/-! ## Lines -/

/-- A line arrives.  It is dropped if an earlier one was not yet handed on. -/
def deliver (m : Machine) (line : String) : Machine :=
  match m.line with
  | none => { m with line := some line }
  | some _ => m

/-- Ask the console for a line.  Without a console the line is empty and arrives at once. -/
def requestLine (m : Machine) : Machine :=
  match m.console with
  | none => m.deliver ""
  | some c =>
    let c := { c with asked := true }
    let next := c.lines.headD ""
    match c.mode with
    | .prompt => { m with console := some { c with lines := c.lines.tail } }.deliver next
    | .later =>
        { m with console := some { c with lines := c.lines.tail, late := c.late ++ [next] } }
    | .manual => { m with console := some c }

/-- Request a line for a reader.  The machine must be suspended. -/
def readLine (reader : Reader) (m : Machine) : Except Failure Unit × Machine :=
  if m.state = .suspended then (.ok (), { m with reader := some reader }.requestLine)
  else (.error .notSuspended, m)

/-- Write a line of output. -/
def writeLine (m : Machine) (line : String) : Machine := { m with output := m.output.push line }

/-! ## Keys and random reals -/

/-- Whether a key can be read. -/
def keyPressed (m : Machine) : Bool := m.keyboard.any (!·.isEmpty)

/-- Read a key; the key is zero when there is none. -/
def readKey (m : Machine) : Int64 × Machine :=
  match m.keyboard with
  | some (key :: rest) => (key, { m with keyboard := some rest })
  | _ => (0, m)

/-- Draw a random real. -/
def random (m : Machine) : Float × Machine :=
  let (x, generator) := m.generator.next
  (x, { m with generator })

/-! ## Requests -/

/-- Carry out an access, with a fault as an answer. -/
def attempt {α : Type} (access : Instr α) : Host (Except Failure α) := fun m =>
  match access m with
  | .ok a m => .ok (.ok a) m
  | .error (.fault cause) m => .ok (.error (.machine (m.errorOf cause))) m
  | .error (.error e) m => .ok (.error (.machine e)) m
  | .error (.crash c) m => .error c m

/-- Carry out a routine; the result is the value it returns or the reason why it fails. -/
def carryOut : Routine → Host (Except Failure Value)
  | .done result => pure (.ok result)
  | .fail why => pure (.error why)
  | .stop next => fun m => carryOut next m.stop
  | .suspend next => fun m => carryOut next m.suspend
  | .resume next => fun m => carryOut next m.resume
  | .delay milliseconds next => fun m => carryOut next (m.hold milliseconds)
  | .writeLine line next => fun m => carryOut next (m.writeLine line)
  | .readLine onLine next => fun m =>
    let (answer, m) := m.readLine (.native onLine)
    carryOut (next answer) m
  | .readMemory address next => do carryOut (next (← attempt (load address)))
  | .writeMemory address value next => do carryOut (next (← attempt (storeAt address value)))
  | .push value next => do carryOut (next (← attempt (push value)))
  | .malloc size next => do carryOut (next (← attempt (malloc size)))
  | .free address next => do carryOut (next (← attempt (free address)))
  | .keyPressed next => fun m => carryOut (next m.keyPressed) m
  | .readKey next => fun m =>
    let (key, m) := m.readKey
    carryOut (next key) m
  | .random next => fun m =>
    let (x, m) := m.random
    carryOut (next x) m
  | .randomize next => fun m => carryOut next { m with generator := m.generator.reseed }

/-- Hand a line to a reader. -/
def handOn (reader : Reader) (line : String) : Host Unit :=
  match reader with
  | .host => fun m => .ok () { m with received := m.received.push line }
  | .native onLine => do
    let _ ← carryOut (onLine line)

/-- Hand a line that has arrived to the reader that waits for one; without a reader the line is
lost. -/
def pollInput : Host Unit := fun m =>
  match m.line with
  | none => .ok () m
  | some line =>
    match m.reader with
    | none => .ok () { m with line := none }
    | some reader => handOn reader line { m with line := none, reader := none }

end PCode.Machine
