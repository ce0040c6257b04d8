import PCode.Machine.Operators
import PCode.Native.Registry

/-!
# The standard procedures

The native procedures that every program can call, in the order of their
indices: mathematics, memory and input and output, and the keyboard.  Parameters
passed by reference arrive as addresses.
-/

namespace PCode.Library

/-! ## Arguments -/

/-- The reason given when a procedure is called with a wrong number of arguments. -/
def countReason (name : String) (least greatest given : Nat) : String :=
  if least = greatest then s!"{name} takes {least} arguments, got {given}"
  else s!"{name} takes {least} to {greatest} arguments, got {given}"

/-- Go on only with an accepted number of arguments. -/
def withCount (name : String) (least greatest : Nat) (arguments : Array Value)
    (next : Routine) : Routine :=
  if least ≤ arguments.size ∧ arguments.size ≤ greatest then next
  else .fail (.reason (countReason name least greatest arguments.size))

/-- An argument; the callers check that it is there. -/
def argument (arguments : Array Value) (index : Nat) : Value :=
  arguments.getD index Value.undefined

/-- Parameters passed by value. -/
def byValue (codes : List TypeCode) : Array NativeParam :=
  (codes.map fun c => ⟨c.byte, false⟩).toArray

/-- Parameters of which the first is passed by reference. -/
def firstByRef : List TypeCode → Array NativeParam
  | [] => #[]
  | c :: rest => #[⟨c.byte, true⟩] ++ byValue rest

/-! ## Mathematics -/

/-- A function of one real. -/
def realFunction (name : String) (returns : TypeCode) (f : Float → Value) : Native where
  name := name
  returns := returns.byte
  params := byValue [.real]
  body arguments := withCount name 1 1 arguments (.done (f (argument arguments 0).toReal))

/-- The nearest integer, a half going away from zero. -/
def nearestInteger (x : Float) : Int64 := Real.truncate (Real.round x)

/-- A real from zero up to one, or with an argument `n` a whole number from zero to `n`. -/
def random : Native where
  name := "Random"
  returns := TypeCode.real.byte
  variadic := true
  body arguments := withCount "Random" 0 1 arguments <| .random fun x =>
    match arguments[0]? with
    | none => .done (.ofReal x)
    | some n => .done (.ofReal (Real.round (x * n.toReal)))

/-- Start a new sequence of random reals. -/
def randomize : Native where
  name := "Randomize"
  body arguments := withCount "Randomize" 0 0 arguments (.randomize .nothing)

/-- The mathematical functions. -/
def mathematics : List Native :=
  [ realFunction "Sin" .real fun x => .ofReal x.sin
  , realFunction "Cos" .real fun x => .ofReal x.cos
  , realFunction "Round" .integer fun x => .ofInt (nearestInteger x)
  , realFunction "Trunc" .integer fun x => .ofInt (Real.truncate x)
  , realFunction "Odd" .boolean fun x => .ofBool (nearestInteger x % 2 != 0)
  , realFunction "Abs" .real fun x => .ofReal x.abs
  , realFunction "Sqrt" .real fun x => .ofReal x.sqrt
  , realFunction "Ln" .real fun x => .ofReal x.log
  , realFunction "Sqr" .real fun x => .ofReal (x * x)
  , random
  , randomize ]

/-! ## Memory, input and output -/

/-- A word with a distance added to its number.  The kind is kept. -/
def adjusted (delta : Int64) (v : Value) : Value :=
  if v.isReal then .ofReal (v.real + Real.ofInt64 delta) else { v with int := v.int + delta }

/-- Add one, or the second argument, times a sign to the variable at the first. -/
def adjust (name : String) (sign : Int64) : Native where
  name := name
  params := firstByRef [.integer, .integer]
  body arguments := withCount name 1 2 arguments <|
    let delta :=
      match arguments[1]? with
      | some amount => sign * amount.toInt
      | none => sign
    let address := (argument arguments 0).toInt
    .readMemory address <| Routine.orFail fun v =>
    .writeMemory address (adjusted delta v) <| Routine.orFail fun _ => .nothing

/-- Write the arguments on one line, with spaces between them. -/
def writeLn : Native where
  name := "WriteLn"
  variadic := true
  body arguments :=
    .writeLine (String.intercalate " " (arguments.toList.map Value.text)) .nothing

/-- What happens when the line of a read arrives: it is pushed and the machine goes on, or stops
if there is no room. -/
def lineArrived (line : String) : Routine :=
  .push (.ofString line) fun
    | .ok _ => .resume .nothing
    | .error _ => .stop .nothing

/-- Read a line.  The machine is suspended until it arrives. -/
def readLn : Native where
  name := "ReadLn"
  returns := TypeCode.string.byte
  body arguments := withCount "ReadLn" 0 0 arguments <|
    .suspend <| .readLine lineArrived <| Routine.orFail fun _ => .nothing

/-- End the run. -/
def halt : Native where
  name := "Halt"
  body _ := .stop .nothing

/-- Hold the machine for some milliseconds. -/
def delay : Native where
  name := "Delay"
  params := byValue [.integer]
  body arguments := withCount "Delay" 1 1 arguments <|
    .delay (argument arguments 0).toInt .nothing

/-- Reserve words and store their address in the variable at the first argument. -/
def allocate (name : String) : Native where
  name := name
  params := firstByRef [.pointer, .integer]
  body arguments := withCount name 2 2 arguments <|
    .malloc (argument arguments 1).toInt <| Routine.orFail fun address =>
    .writeMemory (argument arguments 0).toInt (.ofAddress address) <| Routine.orFail fun _ =>
    .nothing

/-- Release the block to which the variable at the argument points, and make it nil. -/
def dispose : Native where
  name := "Dispose"
  params := firstByRef [.pointer]
  body arguments := withCount "Dispose" 1 1 arguments <|
    let variableAddress := (argument arguments 0).toInt
    .readMemory variableAddress <| Routine.orFail fun block =>
    .free block.toInt <| Routine.orFail fun _ =>
    .writeMemory variableAddress .nil <| Routine.orFail fun _ => .nothing

/-- The procedures for memory, input and output. -/
def system : List Native :=
  [ adjust "Inc" 1, adjust "Dec" (-1), writeLn, readLn, halt, delay
  , allocate "New", allocate "GetMem", dispose ]

/-! ## Keyboard -/

/-- The procedures for the keyboard. -/
def keyboard : List Native :=
  [ { name := "KeyPressed"
      returns := TypeCode.boolean.byte
      body := fun _ => .keyPressed fun pressed => .done (.ofBool pressed) }
  , { name := "ReadKey"
      returns := TypeCode.char.byte
      body := fun _ => .readKey fun key => .done (.ofCharCode (Operator.codeOf key)) } ]

/-! ## The registry -/

/-- Every standard procedure, in the order of the indices. -/
def natives : List Native := mathematics ++ system ++ keyboard

/-- Why the standard procedures cannot be added to a registry. -/
def registrationMessage (e : RegistryError) : String := "register builtins: " ++ e.message

/-- Add the standard procedures to a registry. -/
def register : EStateM RegistryError Registry Unit := Registry.registerAll natives

/-- The registry of the standard procedures. -/
def registry : Registry :=
  match register .empty with
  | .ok _ r => r
  | .error _ r => r

/-! ## Constants -/

/-- The number pi. -/
def pi : Float := 3.141592653589793

/-- The predefined constants by lower-case name. -/
def constants : List (String × Value) :=
  [ ("pi", .ofReal pi)
  , ("true", .ofBool true)
  , ("false", .ofBool false)
  , ("nil", .nil) ]

/-- The predefined constant with a given name. -/
def constant? (name : String) : Option Value := constants.lookup (Text.lower name)

end PCode.Library
