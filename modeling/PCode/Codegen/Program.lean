import PCode.Codegen.Expr

/-!
# Code for statements and programs

A subprogram is generated after the subprograms declared in it: an entry
instruction that reserves its frame, the initialisation of its typed constants,
its body and one return, to which its exit statements jump.  After the program
itself follow three instructions that call it and stop, where execution starts.

Main definition: `compile`.
-/

namespace PCode.Gen

/-! ## Statements -/

/-- Mark the top of a loop in the listing. -/
def noteTop (address : Nat) (comment : String) : Gen Unit := do
  let _ ← onImage {} (Image.addComment (Int64.ofNat address) comment)

/-- Remember the jump of an exit statement, if it was emitted. -/
def noteExit (address : Option Nat) : Gen Unit := modify fun g =>
  match address, g.exits with
  | some a, addresses :: outer => { g with exits := (a :: addresses) :: outer }
  | _, _ => g

mutual

/-- Code for a statement. -/
def lowerStmt : Stmt → Gen Unit
  | .missing => pure ()
  | .block _ body => lowerStmts body
  | .assign pos target value => do
    lower .address target
    lower .value value
    let t ← typeOf value
    match t.code? with
    | some code => put pos .sti (operandOfCode code) 0 ("store into " ++ target.describe)
    | none => report pos (.assignedType t)
  | .call pos callee args =>
    match callee.symbol.type with
    | .subprogram _ result =>
      if result.isVoid then lowerCall pos callee args
      else report pos (.functionAsStatement callee.symbol.name)
    | _ => lowerCall pos callee args
  | .cond pos test yes no => do
    let hasElse := !no.isMissing
    lower .value test
    let skipThen ← emit pos .fjp 0 0
      (if hasElse then "false, jump to else" else "false, jump past body")
    lowerStmt yes
    if hasElse then
      let skipElse ← emit pos .ujp 0 0 "jump past else"
      patch pos skipThen (← nextAddress)
      lowerStmt no
      patch pos skipElse (← nextAddress)
    else patch pos skipThen (← nextAddress)
  | .whileDo pos test body => do
    let top ← nextAddress
    lower .value test
    noteTop top "top of while loop"
    let leave ← emit pos .fjp 0 0 "if false, exit while loop"
    lowerStmt body
    put pos .ujp 0 (Int64.ofNat top) "jump to top of while loop"
    patch pos leave (← nextAddress)
  | .repeatUntil pos body test => do
    let top ← nextAddress
    lowerStmts body
    noteTop top "top of repeat loop"
    lower .value test
    put pos .fjp 0 (Int64.ofNat top) "jump to top of repeat"
  | .forTo pos counter first last down body => do
    let name := counter.symbol.name
    match counter.symbol.type.code? with
    | none => report pos (.counterType name)
    | some code =>
      let code := operandOfCode code
      identAddress {} counter
      lower .value first
      put pos .sti code 0 ("store into " ++ name)
      let top ← nextAddress
      identValue {} counter
      lower .value last
      put pos (if down then .les else .grt) code 0 "see if we're done with the loop"
      let done ← emit pos .tjp 0 0 "yes, jump to end"
      lowerStmt body
      identAddress {} counter
      identValue {} counter
      if down then put pos .dec code 0 "decrement loop variable"
      else put pos .inc code 0 "increment loop variable"
      put pos .sti code 0 ("store into " ++ name)
      put pos .ujp 0 (Int64.ofNat top) "jump to top of loop"
      patch pos done (← nextAddress)
  | .exit pos => do
    let address ← emit pos .ujp 0 0 "return from function/procedure"
    noteExit address

/-- Code for statements one after another. -/
def lowerStmts : List Stmt → Gen Unit
  | [] => pure ()
  | s :: rest => do
    lowerStmt s
    lowerStmts rest

end

/-! ## Subprograms -/

/-- Code that stores the words of a typed constant into its place, from a word on. -/
def initialiseWords (tc : TypedConst) (base : Nat) : Nat → List UInt8 → Gen Unit
  | _, [] => pure ()
  | i, code :: rest => do
    let name := tc.symbol.name
    put tc.pos .lda 0 (tc.symbol.address + Int64.ofNat i)
      s!"address of {name} on stack (element {i})"
    putConstant tc.pos .pointer (.ofAddress (Int64.ofNat (base + i)))
      s!"address of {name} in const area (element {i})"
    put tc.pos .ldi (operandOfCode code) 0 "value of element"
    put tc.pos .sti (operandOfCode code) 0 "write value"
    initialiseWords tc base (i + 1) rest

/-- Code that initialises a typed constant. -/
def initialise (tc : TypedConst) : Gen Unit := do
  match tc.symbol.type.codes? with
  | none => throw ⟨⟩
  | some codes =>
    if codes.length ≠ tc.data.size then
      report tc.pos (.constantWords tc.symbol.name tc.data.size codes.length)
    else
      match ← onImage tc.pos (Image.addTypedConstants tc.data) with
      | some base => initialiseWords tc base 0 codes
      | none => pure ()

/-- Code that initialises typed constants one after another. -/
def initialiseAll : List TypedConst → Gen Unit
  | [] => pure ()
  | tc :: rest => do
    initialise tc
    initialiseAll rest

/-- Patch several instructions to one target. -/
def patchAll (pos : Pos) (target : Nat) : List Nat → Gen Unit
  | [] => pure ()
  | a :: rest => do
    patch pos (some a) target
    patchAll pos target rest

/-- Give a subprogram its entry address, and point the calls that wait for it there. -/
def enterAt (pos : Pos) (sym : Symbol) (entry : Nat) : Gen Unit := do
  let waiting := (← get).pending.filter (·.symbol.id == sym.id)
  modify fun g =>
    { g with
      entries := (sym.id, entry) :: g.entries
      pending := g.pending.filter (·.symbol.id != sym.id) }
  patchAll pos entry (waiting.flatMap (·.addresses.reverse))

/-- The type code byte of the result, which must be simple for a function. -/
def resultCode (h : SubprogramHeader) : Gen UInt8 := do
  if h.kind = .function then
    match h.result.code? with
    | some code => return code
    | none =>
      report h.pos (.resultType h.name h.result)
      return 0
  else return TypeCode.void.byte

/-- Start the list of exit jumps of a subprogram. -/
def openExits : Gen Unit := modify fun g => { g with exits := [] :: g.exits }

/-- End the list of exit jumps of a subprogram; the result is the list, earliest first. -/
def closeExits : Gen (List Nat) := modifyGet fun g =>
  match g.exits with
  | [] => ([], g)
  | addresses :: outer => (addresses.reverse, { g with exits := outer })

/-- Code for a subprogram without those in it; the result is the entry address. -/
def lowerHeader (h : SubprogramHeader) : Gen Nat := do
  let entry ← nextAddress
  match h.symbol with
  | some sym => enterAt h.pos sym entry
  | none => pure ()
  put h.pos .ent 0 h.frameSize s!"start of {h.name} -----------------"
  initialiseAll h.typedConsts
  lowerStmts h.body
  let exits ← closeExits
  let leave ← nextAddress
  let code ← resultCode h
  put h.pos .rtn (operandOfCode code) 0 ("end of " ++ h.name)
  patchAll h.pos leave exits
  return entry

mutual

/-- Code for a subprogram, after that of the subprograms in it; the result is the entry address. -/
def lowerSubprogram : Subprogram → Gen Nat
  | .mk h nested => do
    openExits
    lowerSubprograms nested
    lowerHeader h

/-- Code for subprograms one after another. -/
def lowerSubprograms : List Subprogram → Gen Unit
  | [] => pure ()
  | s :: rest => do
    let _ ← lowerSubprogram s
    lowerSubprograms rest

end

/-- The errors for calls that still wait for code, in the order of their wordings. -/
def missingBodies (pending : List PendingCalls) : List CompileError :=
  let errors := pending.map fun p => { pos := p.calledAt, fault := .noBody p.symbol.name }
  errors.mergeSort fun a b => !(CompileError.message b < CompileError.message a)

/-- Code for a program and for its start. -/
def lowerProgram (main : Subprogram) : Gen Unit := do
  let entry ← lowerSubprogram main
  modify fun g => { g with errors := g.errors ++ (missingBodies g.pending).toArray }
  let start ← nextAddress
  let _ ← onImage {} (Image.setStart (Int64.ofNat start))
  put {} .mst 0 0 "start of program -----------------"
  put {} .cup 0 (Int64.ofNat entry) "call main program"
  put {} .stp 0 0 "program end"

end PCode.Gen

namespace PCode

/-- What compilation ends with. -/
inductive Compilation where
  /-- a frozen image -/
  | image (image : Image)
  /-- everything that could not be lowered -/
  | errors (errors : Array CompileError)
  /-- there is no program -/
  | noProgram
  /-- the type of a missing expression was needed -/
  | brokenOff
  deriving Inhabited

/-- Compile a program over a registry of native procedures. -/
def compile (natives : Registry) (program : Option Subprogram) : Compilation :=
  match program with
  | none => .noProgram
  | some main =>
    match Gen.lowerProgram main { image := Image.empty natives } with
    | .error .. => .brokenOff
    | .ok _ g => if g.errors.isEmpty then .image g.image.freeze else .errors g.errors

end PCode
