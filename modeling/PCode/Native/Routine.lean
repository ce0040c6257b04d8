import PCode.Machine.Fault

/-!
# Routines of native procedures

A native procedure acts on the machine only through a fixed set of requests.
A routine is the tree of the requests that one call makes: each node is a
request with the routine that follows its answer.  So the behaviour of a native
procedure is data, and what it means is said once, by the machine that carries
a routine out.
-/

namespace PCode

/-- Why a request of a native procedure, or the procedure itself, failed. -/
inductive Failure where
  /-- the machine refused a request -/
  | machine (error : MachineError)
  /-- input was requested while the machine was not suspended -/
  | notSuspended
  /-- the procedure gives a reason of its own -/
  | reason (text : String)
  deriving Inhabited

namespace Failure

/-- The wording of a failure. -/
def message : Failure → String
  | machine error => error.message
  | notSuspended => "machine must be suspended before reading input"
  | reason text => text

end Failure

/-- What a native procedure does. -/
inductive Routine where
  /-- return a value -/
  | done (result : Value)
  /-- give up -/
  | fail (why : Failure)
  /-- end the run -/
  | stop (next : Routine)
  /-- park the machine until it is resumed -/
  | suspend (next : Routine)
  /-- let a parked machine go on -/
  | resume (next : Routine)
  /-- hold the machine for some milliseconds -/
  | delay (milliseconds : Int64) (next : Routine)
  /-- write a line of output -/
  | writeLine (line : String) (next : Routine)
  /-- request a line of input, to be handed to a routine when it arrives -/
  | readLine (onLine : String → Routine) (next : Except Failure Unit → Routine)
  | readMemory (address : Int64) (next : Except Failure Value → Routine)
  | writeMemory (address : Int64) (value : Value) (next : Except Failure Unit → Routine)
  | push (value : Value) (next : Except Failure Unit → Routine)
  | malloc (size : Int64) (next : Except Failure Int64 → Routine)
  | free (address : Int64) (next : Except Failure Unit → Routine)
  | keyPressed (next : Bool → Routine)
  | readKey (next : Int64 → Routine)
  /-- draw a real from zero up to one -/
  | random (next : Float → Routine)
  /-- start a new sequence of random reals -/
  | randomize (next : Routine)
  deriving Inhabited

namespace Routine

/-- Go on after a request that succeeded, and give up with the reason of one that failed. -/
def orFail {α : Type} (next : α → Routine) : Except Failure α → Routine
  | .ok a => next a
  | .error why => fail why

/-- The routine that returns no value. -/
def nothing : Routine := done Value.undefined

end Routine

end PCode
