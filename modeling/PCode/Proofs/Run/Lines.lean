import PCode.Proofs.Machine.Session
import PCode.Proofs.Run.Moves
import PCode.Proofs.Run.Natives

/-!
# Lines of input

A program that reads a line suspends the machine, and the line comes to it through
a buffer with room for one: at once, if the host answers while it is asked, or at
any later time.  Whatever the timing, every line that is asked for is pushed once, for
the instruction that asked, and before any other instruction is executed.

Main definitions and results:

- `Machine.asked`, `Machine.answers`: the lines asked for, and those that were given.
- `Machine.Orderly`: every answer has been asked for, and is given once.
- `Machine.Reading`: the reading of a line, from the instruction that asks for it to the next.
- `Machine.stepOnce_readsLine`: the instruction that asks for a line.
- `Machine.Owes.play`: a line is owed only while the machine waits for it.
- `Machine.Reading.play`: the reading of a line goes on until the next instruction.
- `Machine.line_read_once`: every line is read once.
-/

namespace PCode

/-! ## Questions and answers -/

namespace Machine

/-- The next instruction reads a line: the machine is running, and fetches a call of the procedure
that reads lines, without arguments. -/
def readsLine (m : Machine) : Bool :=
  m.state == .running &&
    (m.image.fetch? m.pc).any fun w =>
      w.opcode == Opcode.csp.byte && w.operand1 == 0 &&
        (m.image.natives.at? w.operand2).any (·.name == Library.readLn.name)

/-- The line that the host gives while it is asked, if it does.  Without a console it is empty. -/
def promptLine? (m : Machine) : Option String :=
  match m.console with
  | none => some ""
  | some c =>
    match c.mode with
    | .prompt => some (c.lines.headD "")
    | .later | .manual => none

end Machine

namespace Move

/-- Whether a move asks for a line. -/
def asks : Move → Machine → Bool
  | execute, m => m.readsLine
  | _, _ => false

/-- The lines that are given with a move. -/
def answers : Move → Machine → List String
  | execute, m => if m.readsLine then m.promptLine?.toList else []
  | answer line, _ => [line]
  | _, _ => []

end Move

namespace Machine

/-- How many lines some moves ask for. -/
def asked (m : Machine) (moves : List Move) : Nat :=
  (m.record moves).countP fun p => p.2.asks p.1

/-- The lines that are given during some moves. -/
def answers (m : Machine) (moves : List Move) : List String :=
  (m.record moves).flatMap fun p => p.2.answers p.1

/-- The host gives a line only if it owes one: if more were asked for than it has given.  Some
lines may be owed from the start. -/
def Orderly (m : Machine) (owed : Nat) (moves : List Move) : Prop :=
  ∀ before line after, moves = before ++ .answer line :: after →
    (m.answers before).length < owed + m.asked before

variable {m m' : Machine}

private theorem asked_cons_ok {a : Move} {u : Unit} (h : a.run m = .ok u m') (moves : List Move) :
    m.asked (a :: moves) = (a.asks m).toNat + m'.asked moves := by
  simp only [asked, record, h, List.countP_cons]
  cases a.asks m <;> simp [Nat.add_comm]

private theorem answers_cons_ok {a : Move} {u : Unit} (h : a.run m = .ok u m') (moves : List Move) :
    m.answers (a :: moves) = a.answers m ++ m'.answers moves := by
  simp only [answers, record, h, List.flatMap_cons]

private theorem answers_cons_error {a : Move} {c : Crash} (h : a.run m = .error c m')
    (moves : List Move) :
    m.answers (a :: moves) = a.answers m := by
  simp only [answers, record, h, List.flatMap_cons, List.flatMap_nil, List.append_nil]

/-! ## The stages of a machine -/

/-- No line is on its way. -/
structure Quiet (m : Machine) : Prop where
  line : m.line = none
  reader : m.reader = none
  state : m.state ≠ .suspended

/-- The machine waits for a line, and the buffer holds a line or none. -/
structure Awaits (buffer : Option String) (m : Machine) : Prop where
  line : m.line = buffer
  reader : m.reader = some (.native Library.lineArrived)
  state : m.state = .suspended

private theorem inert_quiet : Inert Quiet where
  data _ _ _ _ _ _ _ _ h := ⟨h.line, h.reader, h.state⟩
  stop := by
    intro m h
    unfold Machine.stop
    split
    · exact h
    · exact ⟨h.line, h.reader, nofun⟩

private theorem Quiet.failWith (h : m.Quiet) (e : MachineError) : (m.failWith e).Quiet :=
  inert_quiet.stop (m := { m with error := some e }) ⟨h.line, h.reader, h.state⟩

private theorem Quiet.pollInput (h : m.Quiet) : pollInput m = .ok () m := by
  simp only [Machine.pollInput, h.line]

private theorem Quiet.generator (h : m.Quiet) (g : Generator) : Quiet { m with generator := g } :=
  ⟨h.line, h.reader, h.state⟩

private theorem Quiet.random (h : m.Quiet) : m.random.2.Quiet := by
  unfold Machine.random
  exact h.generator m.generator.next.2

/-! ## Other instructions -/

/-- A tame routine leaves no line on its way. -/
theorem Quiet.carryOut (h : m.Quiet) {r : Routine} (htame : r.Tame fun _ => True) :
    Inert.Upheld Quiet (ofHost (Machine.carryOut r)) m := by
  induction r generalizing m with
  | done result => exact h
  | fail why => exact h
  | stop next ih => exact ih (inert_quiet.stop h) htame
  | delay milliseconds next ih =>
    refine ih (m := m.hold milliseconds) ?_ htame
    unfold Machine.hold
    split
    · exact h
    · exact ⟨h.line, h.reader, h.state⟩
  | writeLine line next ih => exact ih (m := m.writeLine line) ⟨h.line, h.reader, h.state⟩ htame
  | readMemory address next ih =>
    exact Lasting.attempt (inert_quiet.stable.load address h) fun answer m' _ h' =>
      ih answer h' (htame answer fun _ _ => trivial)
  | writeMemory address value next ih =>
    exact Lasting.attempt (inert_quiet.storeAt address value h) fun answer m' _ h' =>
      ih answer h' (htame answer fun _ _ => trivial)
  | malloc size next ih =>
    exact Lasting.attempt (inert_quiet.malloc size h) fun answer m' _ h' =>
      ih answer h' (htame answer fun _ _ => trivial)
  | free address next ih =>
    exact Lasting.attempt (inert_quiet.free address h) fun answer m' _ h' =>
      ih answer h' (htame answer fun _ _ => trivial)
  | keyPressed next ih => exact ih _ h (htame _)
  | readKey next ih =>
    refine ih _ (m := m.readKey.2) ?_ (htame _)
    unfold Machine.readKey
    split
    · exact ⟨h.line, h.reader, h.state⟩
    · exact h
  | random next ih =>
    refine (ih m.random.1 h.random (htame _)).congr ?_
    unfold ofHost
    rw [carryOut_random]
  | randomize next ih =>
    refine (ih (h.generator m.generator.reseed) htame).congr ?_
    unfold ofHost
    rw [carryOut_randomize]
  | suspend | resume | readLine | push => exact htame.elim

private theorem popArguments_length {n : Nat} {popped arguments : List Value}
    (h : popArguments n popped m = .ok arguments m') : arguments.length = n + popped.length := by
  induction n generalizing m popped with
  | zero =>
    cases h
    exact (Nat.zero_add _).symm
  | succ n ih =>
    simp only [popArguments, bind, EStateM.bind] at h
    cases hpop : pop m with
    | error e m₁ => simp [hpop] at h
    | ok v m₁ =>
      rw [hpop] at h
      have := ih h
      simp only [List.length_cons] at this
      omega

/-- A native procedure that reads no line leaves none on its way. -/
theorem Quiet.callNative (h : m.Quiet) {n index : Nat}
    (htame : ∀ native, m.image.natives.at? index = some native →
      ∀ arguments : Array Value, arguments.size = n → (native.body arguments).Tame fun _ => True) :
    Inert.Upheld Quiet (Machine.callNative n index) m := by
  cases hnative : m.image.natives.at? index with
  | none => exact upholds_error (callNative_missing hnative n) h trivial
  | some native =>
    refine Upholds.congr ?_ (callNative_eq hnative n)
    refine (inert_quiet.stable.popArguments n [] h).seq fun arguments m₁ hpop h₁ => ?_
    have hsize : arguments.toArray.size = n := popArguments_length hpop
    have h₂ : Quiet { m₁ with suspendedInCall := false, inCall := true } :=
      ⟨h₁.line, h₁.reader, h₁.state⟩
    refine Upholds.seq (upholds_modify h₂) fun _ m₂ _ h₂ => ?_
    refine (h₂.carryOut (htame native hnative _ hsize)).seq fun result m₃ _ h₃ => ?_
    have h₄ : Quiet { m₃ with inCall := false } := ⟨h₃.line, h₃.reader, h₃.state⟩
    refine Upholds.seq (upholds_modify h₄) fun _ m₄ _ h₄ => ?_
    refine Upholds.seq (upholds_host_ok h₄.pollInput h₄) fun _ m₅ _ h₅ => ?_
    cases result with
    | error why => cases why <;> exact ⟨h₅, trivial⟩
    | ok v =>
      refine upholds_get ?_
      split
      · exact inert_quiet.push v h₅
      · exact upholds_pure h₅

end Machine

/-- Of the standard procedures only one has the name of the one that reads lines. -/
theorem Library.eq_readLn_of_name {native : Native} (h : native ∈ natives)
    (hname : native.name = readLn.name) : native = readLn := by
  have hother : ∀ n ∈ (mathematics ++ keyboard).map (·.name), n ≠ readLn.name := by decide
  simp only [natives, List.mem_append] at h
  rcases h with (h | h) | h
  · exact absurd hname (hother _ (List.mem_map_of_mem (List.mem_append_left _ h)))
  · simp only [system, List.mem_cons, List.not_mem_nil, or_false] at h
    rcases h with rfl | rfl | rfl | rfl | rfl | rfl | rfl | rfl | rfl
    all_goals first
      | rfl
      | exact absurd hname (by decide)
  · exact absurd hname (hother _ (List.mem_map_of_mem (List.mem_append_right _ h)))

namespace Machine

variable {m m' : Machine}

private theorem readsLine_iff : m.readsLine = true ↔ m.state = .running ∧
    ∃ w native, m.image.fetch? m.pc = some w ∧ w.opcode = Opcode.csp.byte ∧ w.operand1 = 0 ∧
      m.image.natives.at? w.operand2 = some native ∧ native.name = Library.readLn.name := by
  simp only [readsLine, Bool.and_eq_true, beq_iff_eq, Option.any_eq_true]
  constructor
  · rintro ⟨hrun, w, hw, ⟨hop, hargs⟩, native, hnative, hname⟩
    exact ⟨hrun, w, native, hw, hop, hargs, hnative, hname⟩
  · rintro ⟨hrun, w, native, hw, hop, hargs, hnative, hname⟩
    exact ⟨hrun, w, hw, ⟨hop, hargs⟩, native, hnative, hname⟩

private theorem readsLine_of_idle (h : m.state ≠ .running) : m.readsLine = false := by
  cases hreads : m.readsLine with
  | false => rfl
  | true => exact absurd (readsLine_iff.mp hreads).1 h

/-- A machine that is not running executes nothing. -/
theorem execute_of_idle (h : m.state ≠ .running) :
    Move.execute.run m = .ok () m ∧ Move.execute.asks m = false ∧ Move.execute.answers m = [] := by
  have hreads := readsLine_of_idle h
  exact ⟨if_pos h, hreads, if_neg (by simp [hreads])⟩

/-- An instruction that reads no line leaves none on its way. -/
theorem Quiet.stepOnce (h : m.Quiet) (hnatives : m.image.natives = Library.registry)
    (hreads : m.readsLine = false) : Inert.Upheld Quiet (ofHost Machine.stepOnce) m := by
  refine inert_quiet.stable.stepOnce (fun e h => h.failWith e)
    (fun _ h => ⟨h.line, h.reader, h.state⟩) h fun w hrunning hfetch hfetched => ?_
  by_cases hcall : Opcode.ofByte? w.opcode = some .csp
  · unfold execute
    rw [hcall]
    refine hfetched.callNative fun native hnative arguments hsize => ?_
    have hmem : native ∈ Library.natives := Library.mem_of_at? (hnatives ▸ hnative)
    refine (Library.tame_or_readLn (fun _ => trivial) hmem).elim (fun htame => htame _) ?_
    rintro rfl
    refine Library.tame_readLn (fun _ => trivial) fun hnone => ?_
    have hreads' : m.readsLine = true := readsLine_iff.mpr ⟨hrunning, w, _, hfetch,
      (Opcode.byte_of_ofByte? hcall).symm, hsize.symm.trans hnone, hnative, rfl⟩
    rw [hreads] at hreads'
    cases hreads'
  · exact inert_quiet.execute hcall hfetched

/-! ## The instruction that reads a line -/

/-- What becomes of a line in a machine that waits for it: it is pushed and the machine goes on; if
the stack is full, the machine stops; and a stack outside the store is a crash. -/
def takeLine (m : Machine) (line : String) : EStateM.Result Crash Machine Unit :=
  if m.np ≤ m.sp then .ok () { m with state := .stopped, finishes := m.finishes + 1 }
  else if m.inStore m.sp then
    .ok () { m.setWord m.sp (.ofString line) with sp := m.sp + 1, state := .running }
  else .error ⟨m.sp⟩ m

/-- A line that is taken leaves the buffer and the reader as they are, and the machine is no longer
suspended; it does not conceal that it was. -/
theorem takeLine_ok {line : String} {u : Unit} (h : m.takeLine line = .ok u m') :
    m'.line = m.line ∧ m'.reader = m.reader ∧ m'.state ≠ .suspended ∧
      m'.suspendedInCall = m.suspendedInCall := by
  unfold takeLine at h
  split at h
  · cases h
    exact ⟨rfl, rfl, nofun, rfl⟩
  · split at h
    · cases h
      exact ⟨rfl, rfl, nofun, rfl⟩
    · cases h

private theorem handOn_lineArrived (hstate : m.state = .suspended) (line : String) :
    handOn (.native Library.lineArrived) line m = m.takeLine line := by
  unfold takeLine
  by_cases hfull : m.np ≤ m.sp
  · have hpush : push (.ofString line) m = .error (.fault (.stackFull m.sp m.np)) m := if_pos hfull
    rw [if_pos hfull]
    simp only [handOn, Library.lineArrived, carryOut, bind, EStateM.bind, attempt, hpush]
    exact congrArg (EStateM.Result.ok ()) (if_neg (by simp [hstate]))
  · by_cases hin : m.inStore m.sp
    · have hpush : push (.ofString line) m =
          .ok () { m.setWord m.sp (.ofString line) with sp := m.sp + 1 } :=
        (if_neg hfull).trans (if_pos hin)
      rw [if_neg hfull, if_pos hin]
      simp only [handOn, Library.lineArrived, carryOut, bind, EStateM.bind, attempt, hpush]
      exact congrArg (EStateM.Result.ok ()) (if_pos hstate)
    · have hpush : push (.ofString line) m = .error (.crash ⟨m.sp⟩) m :=
        (if_neg hfull).trans (if_neg hin)
      rw [if_neg hfull, if_neg hin]
      simp only [handOn, Library.lineArrived, carryOut, bind, EStateM.bind, attempt, hpush]

private theorem pollInput_awaits_none (h : m.Awaits none) : pollInput m = .ok () m := by
  simp only [pollInput, h.line]

private theorem pollInput_awaits_some {line : String} (h : m.Awaits (some line)) :
    pollInput m = { m with line := none, reader := none }.takeLine line := by
  rw [← handOn_lineArrived (m := { m with line := none, reader := none }) h.state line]
  simp only [pollInput, h.line, h.reader]

/-- A host that gives a line while it is asked puts it into the buffer. -/
theorem requestLine_eq_promptLine (h : m.line = none) :
    ∃ console, m.requestLine = { m with line := m.promptLine?, console } := by
  unfold requestLine promptLine?
  cases hconsole : m.console with
  | none => exact ⟨none, by simp only [deliver, h, hconsole]⟩
  | some c =>
    simp only
    cases c.mode with
    | prompt => exact ⟨_, by simp only [deliver, h]; rfl⟩
    | later => exact ⟨_, by simp only [h]; rfl⟩
    | manual => exact ⟨_, by simp only [h]; rfl⟩

/-- A machine that has just asked for a line. -/
def asking (m : Machine) (w : Word) (console : Option Console) : Machine :=
  { m.fetched w with
    state := .suspended, suspendedInCall := true, inCall := false
    reader := some (.native Library.lineArrived), line := m.promptLine?, console }

private theorem carryOut_readLn_eq (hstate : m.state = .running) (hcall : m.inCall = true)
    (hline : m.line = none) :
    ∃ console, carryOut (Library.readLn.body #[]) m = .ok (.ok .undefined)
      { m with state := .suspended, suspendedInCall := true,
               reader := some (.native Library.lineArrived), line := m.promptLine?, console } := by
  have hsuspend : m.suspend = { m with state := .suspended, suspendedInCall := true } := by
    unfold suspend
    rw [if_pos hstate, hcall, Bool.or_true]
  obtain ⟨console, hrequest⟩ := requestLine_eq_promptLine
    (m := { m with state := .suspended, suspendedInCall := true,
                   reader := some (.native Library.lineArrived) }) hline
  have hread : m.suspend.readLine (.native Library.lineArrived) = (.ok (),
      { m with state := .suspended, suspendedInCall := true,
               reader := some (.native Library.lineArrived), line := m.promptLine?, console }) := by
    rw [hsuspend, readLine, if_pos rfl, hrequest]
    rfl
  have hbody : Library.readLn.body #[] = .suspend (.readLine Library.lineArrived
      (Routine.orFail fun _ => .nothing)) := rfl
  refine ⟨console, ?_⟩
  simp only [hbody, carryOut, hread]
  rfl

private theorem asking_awaits (m : Machine) (w : Word) (console : Option Console) :
    (m.asking w console).Awaits m.promptLine? := ⟨rfl, rfl, rfl⟩

private theorem suspendedInCall_of_asking {w : Word} {console : Option Console} {u : Unit}
    (h : pollInput (m.asking w console) = .ok u m') : m'.suspendedInCall = true := by
  have hawaits := m.asking_awaits w console
  cases hprompt : m.promptLine? with
  | none =>
    rw [pollInput_awaits_none (hprompt ▸ hawaits)] at h
    cases h
    rfl
  | some line =>
    rw [pollInput_awaits_some (hprompt ▸ hawaits)] at h
    exact (takeLine_ok h).2.2.2

/-- The call of a native procedure without arguments. -/
theorem callNative_zero {native : Native} {index : Nat} {result : Except Failure Value}
    (hnative : m.image.natives.at? index = some native)
    (hcarry : carryOut (native.body #[]) { m with suspendedInCall := false, inCall := true } =
      .ok result m') : callNative 0 index m = conclude native result m' := by
  rw [callNative_eq hnative 0]
  change EStateM.bind (ofHost (carryOut (native.body #[]))) (conclude native)
    { m with suspendedInCall := false, inCall := true } = _
  simp only [EStateM.bind, ofHost, hcarry]

/-- A procedure that has suspended the machine pushes no result of its own. -/
theorem conclude_of_suspended {native : Native} {v : Value}
    (hsuspended : ∀ u m₁, pollInput { m with inCall := false } = .ok u m₁ →
      m₁.suspendedInCall = true) :
    conclude native (.ok v) m = ofHost pollInput { m with inCall := false } := by
  change EStateM.bind (ofHost pollInput) _ { m with inCall := false } = _
  cases hpoll : pollInput { m with inCall := false } with
  | error c m₁ => simp only [EStateM.bind, ofHost, hpoll]
  | ok u m₁ =>
    simp only [EStateM.bind, ofHost, hpoll]
    change (if _ then push v else pure ()) m₁ = _
    rw [if_neg (by simp [hsuspended u m₁ hpoll])]
    rfl

/-- The instruction that reads a line asks for it, and takes it if it is given at once.  It never
pushes a result of its own. -/
theorem stepOnce_readsLine (h : m.Quiet) (hnatives : m.image.natives = Library.registry)
    (hreads : m.readsLine = true) :
    ∃ w console, Machine.stepOnce m = settle (ofHost pollInput (m.asking w console)) := by
  obtain ⟨hrunning, w, native, hfetch, hop, hargs, hnative, hname⟩ := readsLine_iff.mp hreads
  obtain rfl := Library.eq_readLn_of_name (Library.mem_of_at? (hnatives ▸ hnative)) hname
  obtain ⟨console, hcarry⟩ := carryOut_readLn_eq
    (m := { m.fetched w with suspendedInCall := false, inCall := true }) hrunning rfl h.line
  have hexecute : execute w (m.fetched w) = callNative 0 w.operand2 (m.fetched w) := by
    unfold execute
    rw [hop, Opcode.ofByte?_byte, hargs]
    rfl
  have hconclude : callNative 0 w.operand2 (m.fetched w) =
      conclude Library.readLn (.ok .undefined) { m.asking w console with inCall := true } :=
    callNative_zero hnative hcarry
  refine ⟨w, console, ?_⟩
  rw [stepOnce_fetched hrunning hfetch, hexecute, hconclude]
  exact congrArg settle (conclude_of_suspended fun _ _ => suspendedInCall_of_asking)

/-! ## The reading of a line -/

/-- The program's side of a machine is that of another, which has gone on by one instruction. -/
structure Untouched (m₀ m : Machine) : Prop where
  image : m.image = m₀.image
  store : m.store = m₀.store
  pc : m.pc = m₀.pc + 1
  sp : m.sp = m₀.sp
  mp : m.mp = m₀.mp
  np : m.np = m₀.np
  ep : m.ep = m₀.ep

/-- A machine whose stack has one more word. -/
def withWord (m : Machine) (v : Value) : Machine := { m.setWord m.sp v with sp := m.sp + 1 }

/-- The reading of a line from the instruction that asks for it up to the next one: the lines that
were given, and the machine.  It waits for the line; or the line was given and is kept; or it was
pushed, unless there was no room for it. -/
inductive Reading (m₀ : Machine) : List String → EStateM.Result Crash Machine Unit → Prop where
  | waiting {m : Machine} : m.Awaits none → m₀.Untouched m → Reading m₀ [] (.ok () m)
  | kept {line : String} {m : Machine} : m.Awaits (some line) → m₀.Untouched m →
    Reading m₀ [line] (.ok () m)
  | pushed {line : String} {m : Machine} : m₀.sp < m₀.np → m₀.inStore m₀.sp →
    m.Quiet → m.state = .running → (m₀.withWord (.ofString line)).Untouched m →
    Reading m₀ [line] (.ok () m)
  | full {line : String} {m : Machine} : m₀.np ≤ m₀.sp →
    m.Quiet → m.state = .stopped → m₀.Untouched m → Reading m₀ [line] (.ok () m)
  | outside {line : String} {m : Machine} : m₀.sp < m₀.np → ¬ m₀.inStore m₀.sp →
    Reading m₀ [line] (.error ⟨m₀.sp⟩ m)

namespace Reading

variable {m₀ : Machine} {lines : List String}

private theorem of_eq {r r' : EStateM.Result Crash Machine Unit} (h : Reading m₀ lines r)
    (heq : r' = r) :
    Reading m₀ lines r' := heq ▸ h

/-- The host may change its console and wait, and observe the machine. -/
theorem beside (h : Reading m₀ lines (.ok () m)) (console : Option Console) (held : Nat)
    (dumps : Array Snapshot) : Reading m₀ lines (.ok () { m with console, held, dumps }) := by
  cases h with
  | waiting hawaits h =>
      exact .waiting ⟨hawaits.1, hawaits.2, hawaits.3⟩ ⟨h.1, h.2, h.3, h.4, h.5, h.6, h.7⟩
  | kept hawaits h =>
      exact .kept ⟨hawaits.1, hawaits.2, hawaits.3⟩ ⟨h.1, h.2, h.3, h.4, h.5, h.6, h.7⟩
  | pushed hroom hin hquiet hstate h =>
    exact .pushed hroom hin ⟨hquiet.1, hquiet.2, hquiet.3⟩ hstate
      ⟨h.1, h.2, h.3, h.4, h.5, h.6, h.7⟩
  | full hfull hquiet hstate h =>
    exact .full hfull ⟨hquiet.1, hquiet.2, hquiet.3⟩ hstate ⟨h.1, h.2, h.3, h.4, h.5, h.6, h.7⟩

private theorem observe (h : Reading m₀ lines (.ok () m)) :
    Reading m₀ lines (.ok () m.observe) := by
  unfold Machine.observe
  split
  · exact h.beside m.console m.held _
  · exact h

/-- A machine that hands on a line pushes it, if there is room. -/
theorem take {line : String} (hawaits : m.Awaits (some line)) (h : m₀.Untouched m) :
    Reading m₀ [line] (pollInput m) := by
  have hpoll := pollInput_awaits_some hawaits
  have hstore : m.inStore m.sp ↔ m₀.inStore m₀.sp := by simp only [inStore, h.store, h.sp]
  by_cases hfull : m.np ≤ m.sp
  · rw [hpoll.trans (if_pos hfull)]
    have hfull₀ : m₀.np ≤ m₀.sp := by rwa [h.np, h.sp] at hfull
    have hstopped : RunState.stopped ≠ .suspended := by decide
    exact .full hfull₀ ⟨rfl, rfl, hstopped⟩ rfl ⟨h.image, h.store, h.pc, h.sp, h.mp, h.np, h.ep⟩
  have hroom₀ : m₀.sp < m₀.np := by
    rw [h.np, h.sp] at hfull
    exact Int64.not_le.mp hfull
  by_cases hin : m.inStore m.sp
  · rw [hpoll.trans ((if_neg hfull).trans (if_pos hin))]
    have hset :
        (m.setWord m.sp (.ofString line)).store = (m₀.setWord m₀.sp (.ofString line)).store := by
      simp only [setWord, h.store, h.sp]
    have hrunning : RunState.running ≠ .suspended := by decide
    exact .pushed hroom₀ (hstore.mp hin) ⟨rfl, rfl, hrunning⟩ rfl
      ⟨h.image, hset, h.pc, congrArg (· + 1) h.sp, h.mp, h.np, h.ep⟩
  · rw [hpoll.trans ((if_neg hfull).trans (if_neg hin))]
    change Reading m₀ [line] (.error ⟨m.sp⟩ _)
    rw [h.sp]
    exact .outside hroom₀ (mt hstore.mpr hin)

/-- The instruction that asks for a line. -/
theorem start (h : m₀.Quiet) (hnatives : m₀.image.natives = Library.registry)
    (hreads : m₀.readsLine = true) : Reading m₀ m₀.promptLine?.toList (Machine.stepOnce m₀) := by
  obtain ⟨w, console, hstep⟩ := stepOnce_readsLine h hnatives hreads
  rw [hstep]
  have hawaits := m₀.asking_awaits w console
  have huntouched : m₀.Untouched (m₀.asking w console) := ⟨rfl, rfl, rfl, rfl, rfl, rfl, rfl⟩
  cases hprompt : m₀.promptLine? with
  | none =>
    rw [hprompt] at hawaits
    have hpoll := pollInput_awaits_none hawaits
    simp only [ofHost, hpoll]
    exact (Reading.waiting hawaits huntouched).observe
  | some line =>
    rw [hprompt] at hawaits
    have htake := take hawaits huntouched
    cases hpoll : pollInput (m₀.asking w console) with
    | ok u m₁ =>
      rw [hpoll] at htake
      simp only [ofHost, hpoll]
      exact htake.observe
    | error c m₁ =>
      rw [hpoll] at htake
      simp only [ofHost, hpoll]
      exact htake

/-- What a move adds to the reading of a line, unless it executes the next instruction: the line, if
the machine waits for it, or the push. -/
theorem move {a : Move} (h : Reading m₀ lines (.ok () m))
    (hidle : a = .execute → m.state ≠ .running)
    (hanswer : ∀ line, a = .answer line → m.Awaits none) :
    Reading m₀ (lines ++ a.answers m) (a.run m) := by
  cases a with
  | poll =>
    refine (List.append_nil lines).symm ▸ ?_
    cases h with
    | waiting hawaits h => exact (Reading.waiting hawaits h).of_eq (pollInput_awaits_none hawaits)
    | kept hawaits h => exact take hawaits h
    | pushed hroom hin hquiet hstate h =>
      exact (Reading.pushed hroom hin hquiet hstate h).of_eq hquiet.pollInput
    | full hfull hquiet hstate h =>
        exact (Reading.full hfull hquiet hstate h).of_eq hquiet.pollInput
  | execute =>
    obtain ⟨hstep, -, hnone⟩ := execute_of_idle (hidle rfl)
    rw [hnone, List.append_nil]
    exact h.of_eq hstep
  | answer line =>
    have hwait := hanswer line rfl
    cases h with
    | waiting _ h =>
      have hdeliver : m.deliver line = { m with line := some line } := by
        simp only [deliver, hwait.line]
      change Reading m₀ [line] (.ok () (m.deliver line))
      rw [hdeliver]
      exact .kept ⟨rfl, hwait.reader, hwait.state⟩ ⟨h.image, h.store, h.pc, h.sp, h.mp, h.np, h.ep⟩
    | kept hkept => exact nomatch hkept.line.symm.trans hwait.line
    | pushed _ _ hquiet => exact absurd hwait.state hquiet.state
    | full _ hquiet => exact absurd hwait.state hquiet.state
  | console c => exact (List.append_nil lines).symm ▸ h.beside c m.held m.dumps
  | wait => exact (List.append_nil lines).symm ▸ h.beside m.console 0 m.dumps

/-- A line that was given is pushed at the latest when the machine is polled. -/
theorem poll_not_suspended {u : Unit} (h : Reading m₀ lines (.ok () m)) (hgiven : lines ≠ [])
    (hpoll : pollInput m = .ok u m') : m'.state ≠ .suspended := by
  cases h with
  | waiting => exact absurd rfl hgiven
  | kept hawaits => exact (takeLine_ok ((pollInput_awaits_some hawaits).symm.trans hpoll)).2.2.1
  | pushed _ _ hquiet =>
    cases hquiet.pollInput.symm.trans hpoll
    exact hquiet.state
  | full _ hquiet =>
    cases hquiet.pollInput.symm.trans hpoll
    exact hquiet.state

private theorem length_le {r : EStateM.Result Crash Machine Unit} (h : Reading m₀ lines r) :
    lines.length ≤ 1 := by
  cases h <;> simp

/-- The reading of a line goes on until the next instruction is executed. -/
theorem play (moves : List Move) (h : Reading m₀ lines (.ok () m))
    (hidle : ∀ p ∈ m.record moves, p.2 = .execute → p.1.state ≠ .running)
    (hanswer : ∀ p ∈ m.record moves, ∀ line, p.2 = .answer line → p.1.Awaits none) :
    Reading m₀ (lines ++ m.answers moves) (Machine.play moves m) := by
  induction moves generalizing m lines with
  | nil => exact (List.append_nil lines).symm ▸ h
  | cons a moves ih =>
    have hhead : (m, a) ∈ m.record (a :: moves) := List.mem_cons_self
    have hmove := h.move (hidle _ hhead) (hanswer _ hhead)
    cases ha : a.run m with
    | ok u m₁ =>
      rw [ha] at hmove
      have htail : ∀ p ∈ m₁.record moves, p ∈ m.record (a :: moves) := by
        intro p hp
        simp only [record, ha]
        exact List.mem_cons_of_mem _ hp
      rw [play_cons_ok ha, answers_cons_ok ha, ← List.append_assoc]
      exact ih hmove (fun p hp => hidle p (htail p hp)) fun p hp => hanswer p (htail p hp)
    | error c m₁ =>
      rw [ha] at hmove
      rw [play_cons_error ha, answers_cons_error ha]
      exact hmove

end Reading

/-! ## Lines that are owed -/

/-- How many lines are owed: none if no line is on its way, and one while the machine waits for it.
-/
inductive Owes (m : Machine) : Nat → Prop where
  | quiet : m.Quiet → Owes m 0
  | kept {line : String} : m.Awaits (some line) → Owes m 0
  | waiting : m.Awaits none → Owes m 1

private theorem Reading.owes {m₀ : Machine} {lines : List String}
    (h : Reading m₀ lines (.ok () m)) :
    ∃ owed, m.Owes owed ∧ owed + lines.length = 1 := by
  cases h with
  | waiting hawaits => exact ⟨1, .waiting hawaits, rfl⟩
  | kept hawaits => exact ⟨0, .kept hawaits, rfl⟩
  | pushed _ _ hquiet => exact ⟨0, .quiet hquiet, rfl⟩
  | full _ hquiet => exact ⟨0, .quiet hquiet, rfl⟩

namespace Owes

variable {owed : Nat}

private theorem quiet_of_running (h : m.Owes owed) (hrunning : m.state = .running) :
    m.Quiet ∧ owed = 0 := by
  cases h with
  | quiet hquiet => exact ⟨hquiet, rfl⟩
  | kept hawaits => exact nomatch hawaits.state.symm.trans hrunning
  | waiting hawaits => exact nomatch hawaits.state.symm.trans hrunning

private theorem beside (h : m.Owes owed) (console : Option Console) (held : Nat) :
    Owes { m with console, held } owed := by
  cases h with
  | quiet h => exact .quiet ⟨h.line, h.reader, h.state⟩
  | kept h => exact .kept ⟨h.line, h.reader, h.state⟩
  | waiting h => exact .waiting ⟨h.line, h.reader, h.state⟩

/-- A move changes what is owed by what it asks for and gives. -/
theorem move {a : Move} {u : Unit} (h : m.Owes owed) (hnatives : m.image.natives = Library.registry)
    (hanswer : ∀ line, a = .answer line → owed ≠ 0) (hrun : a.run m = .ok u m') :
    ∃ owed', m'.Owes owed' ∧ owed + (a.asks m).toNat = owed' + (a.answers m).length := by
  cases a with
  | poll =>
    cases h with
    | quiet hquiet =>
      cases hquiet.pollInput.symm.trans hrun
      exact ⟨0, .quiet hquiet, rfl⟩
    | kept hawaits =>
      obtain ⟨hline, hreader, hstate, -⟩ :=
        takeLine_ok ((pollInput_awaits_some hawaits).symm.trans hrun)
      exact ⟨0, .quiet ⟨hline, hreader, hstate⟩, rfl⟩
    | waiting hawaits =>
      cases (pollInput_awaits_none hawaits).symm.trans hrun
      exact ⟨1, .waiting hawaits, rfl⟩
  | execute =>
    by_cases hrunning : m.state = .running
    · obtain ⟨hquiet, rfl⟩ := h.quiet_of_running hrunning
      cases hreads : m.readsLine with
      | true =>
        have hreading := (Reading.start hquiet hnatives hreads).of_eq hrun.symm
        obtain ⟨owed', howes, hbalance⟩ := hreading.owes
        refine ⟨owed', howes, ?_⟩
        simp only [Move.asks, Move.answers, hreads, if_pos, Bool.toNat_true]
        exact hbalance.symm
      | false =>
        refine ⟨0, .quiet ((hquiet.stepOnce hnatives hreads).of_host_ok hrun), ?_⟩
        simp [Move.asks, Move.answers, hreads]
    · obtain ⟨hstep, hasks, hanswers⟩ := execute_of_idle hrunning
      cases hstep.symm.trans hrun
      exact ⟨owed, h, by rw [hasks, hanswers]; rfl⟩
  | answer line =>
    cases h with
    | quiet => exact absurd rfl (hanswer line rfl)
    | kept => exact absurd rfl (hanswer line rfl)
    | waiting hawaits =>
      have hdeliver : m.deliver line = { m with line := some line } := by
        simp only [deliver, hawaits.line]
      cases hrun
      refine ⟨0, ?_, rfl⟩
      rw [hdeliver]
      have hkept : Awaits (some line) { m with line := some line } :=
        ⟨rfl, hawaits.reader, hawaits.state⟩
      exact .kept hkept
  | console c =>
    cases hrun
    exact ⟨owed, h.beside c m.held, rfl⟩
  | wait =>
    cases hrun
    exact ⟨owed, h.beside m.console 0, rfl⟩

end Owes

namespace Orderly

variable {owed owed' : Nat}

/-- A host that gives a line owes one. -/
theorem owed_ne_zero {a : Move} {moves : List Move} (h : m.Orderly owed (a :: moves))
    (line : String) (ha : a = .answer line) : owed ≠ 0 := by
  have hfirst : 0 < owed + 0 := h [] line moves (congrArg (· :: moves) ha)
  omega

/-- After a move the host owes the balance. -/
theorem tail {a : Move} {u : Unit} {moves : List Move} (h : m.Orderly owed (a :: moves))
    (hrun : a.run m = .ok u m')
    (hbalance : owed + (a.asks m).toNat = owed' + (a.answers m).length) :
    m'.Orderly owed' moves := by
  intro before line after hsplit
  have hlater := h (a :: before) line after (congrArg (a :: ·) hsplit)
  rw [answers_cons_ok hrun, asked_cons_ok hrun, List.length_append] at hlater
  omega

end Orderly

namespace Owes

variable {owed : Nat}

/-- What is owed after some moves is what was owed, and what was asked for, and not what was given.
-/
theorem play {before rest : List Move} (h : m.Owes owed)
    (hnatives : m.image.natives = Library.registry)
    (horderly : m.Orderly owed (before ++ rest)) (hplay : Machine.play before m = .ok () m') :
    ∃ owed', m'.Owes owed' ∧ m'.Orderly owed' rest ∧ m'.image.natives = Library.registry ∧
      owed + m.asked before = owed' + (m.answers before).length := by
  induction before generalizing m owed with
  | nil =>
    cases hplay
    exact ⟨owed, h, horderly, hnatives, rfl⟩
  | cons a before ih =>
    cases ha : a.run m with
    | ok u m₁ =>
      obtain ⟨owed₁, h₁, hbalance₁⟩ := h.move hnatives horderly.owed_ne_zero ha
      rw [play_cons_ok ha] at hplay
      obtain ⟨owed', h', horderly', hnatives', hbalance'⟩ := ih h₁
        ((congrArg Image.natives (image_of_move ha)).trans hnatives)
          (horderly.tail ha hbalance₁) hplay
      refine ⟨owed', h', horderly', hnatives', ?_⟩
      rw [asked_cons_ok ha, answers_cons_ok ha, List.length_append]
      omega
    | error c m₁ =>
      rw [play_cons_error ha] at hplay
      cases hplay

/-- Whenever a line is given, the machine waits for it. -/
theorem awaits_of_answer {moves : List Move} (h : m.Owes owed)
    (hnatives : m.image.natives = Library.registry) (horderly : m.Orderly owed moves) :
    ∀ p ∈ m.record moves, ∀ line, p.2 = .answer line → p.1.Awaits none := by
  induction moves generalizing m owed with
  | nil => exact fun p hp => absurd hp List.not_mem_nil
  | cons a moves ih =>
    have hhead : ∀ line, a = .answer line → m.Awaits none := by
      intro line ha
      have howed := horderly.owed_ne_zero line ha
      cases h with
      | quiet => exact absurd rfl howed
      | kept => exact absurd rfl howed
      | waiting hawaits => exact hawaits
    intro p hp
    rw [record, List.mem_cons] at hp
    rcases hp with rfl | hp
    · exact hhead
    · cases ha : a.run m with
      | ok u m₁ =>
        rw [ha] at hp
        obtain ⟨owed₁, h₁, hbalance₁⟩ := h.move hnatives horderly.owed_ne_zero ha
        exact ih h₁ ((congrArg Image.natives (image_of_move ha)).trans hnatives)
          (horderly.tail ha hbalance₁) p hp
      | error c m₁ =>
        rw [ha] at hp
        exact absurd hp List.not_mem_nil

end Owes

/-- Without a console the line is empty. -/
theorem Reading.answers_of_unattended {m₀ : Machine} {between : List Move}
    {r : EStateM.Result Crash Machine Unit} (h : m₀.Reading (m₀.answers (.execute :: between)) r)
    (hreads : m₀.readsLine = true) (hconsole : m₀.console = none) :
    m₀.answers (.execute :: between) = [""] := by
  have hfirst : Move.execute.answers m₀ = [""] := by
    simp only [Move.answers, hreads, if_pos, promptLine?, hconsole, Option.toList_some]
  obtain ⟨later, heq⟩ : ∃ later, m₀.answers (.execute :: between) = "" :: later := by
    simp only [answers, record, List.flatMap_cons, hfirst]
    exact ⟨_, rfl⟩
  have hlength := h.length_le
  rw [heq] at hlength ⊢
  cases later with
  | nil => rfl
  | cons line later => simp at hlength

/-- The reading of a line by an instruction, up to the next one. -/
theorem Reading.upto_next {m₀ : Machine} {between after : List Move} (hquiet : m₀.Quiet)
    (hnatives : m₀.image.natives = Library.registry) (hreads : m₀.readsLine = true)
    (horderly : m₀.Orderly 0 (.execute :: (between ++ after)))
    (hidle : ∀ p ∈ (m₀.record (.execute :: between)).tail, p.2 = .execute → p.1.state ≠ .running) :
    m₀.Reading (m₀.answers (.execute :: between)) (Machine.play (.execute :: between) m₀) := by
  have hstart := Reading.start hquiet hnatives hreads
  have hanswers : Move.execute.answers m₀ = m₀.promptLine?.toList := if_pos hreads
  cases hstep : Move.execute.run m₀ with
  | error c m₁ =>
    rw [play_cons_error hstep, answers_cons_error hstep, hanswers]
    exact hstart.of_eq hstep.symm
  | ok u m₁ =>
    rw [play_cons_ok hstep, answers_cons_ok hstep, hanswers]
    obtain ⟨owed, howes, hbalance⟩ :=
      (Owes.quiet hquiet).move hnatives (horderly.owed_ne_zero) hstep
    have horderly₁ := horderly.tail hstep hbalance
    have hawaits := howes.awaits_of_answer
      ((congrArg Image.natives (image_of_move hstep)).trans hnatives) horderly₁
    have hidle₁ : ∀ p ∈ m₁.record between, p.2 = .execute → p.1.state ≠ .running := by
      simpa only [record, hstep, List.tail_cons] using hidle
    refine (hstart.of_eq hstep.symm).play between hidle₁ fun p hp => hawaits p ?_
    exact (record_isPrefix m₁ between after).subset hp

/-- Every line is read once.  Cut the moves of a run in two, where the host gives a line only if it
owes one.  If the machine is running there, every line that was asked for has been given, and none
is on its way.  And if it goes on with an instruction that reads a line, then up to the next
instruction this is the reading of one line: the machine waits for it, or keeps it, or has pushed
it, at the latest when it is polled.  Without a console the line is empty. -/
theorem line_read_once (m : Machine) (hnatives : m.image.natives = Library.registry)
    (turns : List HostTurn) (horderly : m.run.Orderly 0 (m.run.movesOf turns)) :
    takeTurns turns m.run = play (m.run.movesOf turns) m.run ∧
    ∀ before rest m₀, m.run.movesOf turns = before ++ rest → play before m.run = .ok () m₀ →
      (m₀.state = .running →
        m.run.asked before = (m.run.answers before).length ∧ m₀.line = none ∧ m₀.reader = none) ∧
      ∀ between after, rest = .execute :: (between ++ after) → m₀.readsLine = true →
        (∀ p ∈ (m₀.record (.execute :: between)).tail, p.2 = .execute → p.1.state ≠ .running) →
        m₀.Reading (m₀.answers (.execute :: between)) (play (.execute :: between) m₀) ∧
        (m₀.console = none → m₀.answers (.execute :: between) = [""]) ∧
        ∀ m₁ m₂, play (.execute :: between) m₀ = .ok () m₁ → pollInput m₁ = .ok () m₂ →
          m₀.answers (.execute :: between) ≠ [] → m₂.state ≠ .suspended := by
  refine ⟨takeTurns_eq_play turns m.run, fun before rest m₀ hsplit hplay => ?_⟩
  have hquiet : m.run.Quiet := ⟨rfl, rfl, nofun⟩
  have himage : m.run.image = m.image := by
    unfold run reset stop
    split <;> rfl
  obtain ⟨owed, howes, horderly₀, hnatives₀, hbalance⟩ := (Owes.quiet hquiet).play
    ((congrArg Image.natives himage).trans hnatives) (hsplit ▸ horderly) hplay
  refine ⟨fun hrunning => ?_, fun between after hrest hreads hidle => ?_⟩
  · obtain ⟨hquiet₀, rfl⟩ := howes.quiet_of_running hrunning
    exact ⟨by omega, hquiet₀.line, hquiet₀.reader⟩
  · obtain ⟨hquiet₀, rfl⟩ := howes.quiet_of_running (readsLine_iff.mp hreads).1
    have hreading := Reading.upto_next hquiet₀ hnatives₀ hreads (hrest ▸ horderly₀) hidle
    refine ⟨hreading, fun hconsole => ?_, fun m₁ m₂ hplay₁ hpoll hgiven => ?_⟩
    · exact hreading.answers_of_unattended hreads hconsole
    · exact (hreading.of_eq hplay₁.symm).poll_not_suspended hgiven hpoll

/-- The standard registry, with its procedures at hand. -/
def standardNatives : Registry := { Library.registry with natives := Library.natives.toArray }

private theorem standardNatives_eq : standardNatives = Library.registry := by
  unfold standardNatives
  rw [← Library.registry_natives]

/-- A program that reads a line. -/
def lineReader : Image where
  code := #[(Word.encode Opcode.csp.byte 0 14).toOption.getD default]
  natives := standardNatives
  frozen := true

private theorem lineReader_answered :
    ∃ m, create? (some lineReader)
        { storeSize := 16, console := some { mode := .manual, lines := [] } } = .ok m ∧
      m.image = lineReader ∧ m.run.readsLine = true ∧
      m.run.movesOf [.stepOnce, .answer "Ada", .step 0] = [.execute, .answer "Ada", .poll] ∧
      m.run.answers [.execute] = [] ∧ m.run.asked [.execute] = 1 ∧
      m.run.answers [.execute, .answer "Ada", .poll] = ["Ada"] ∧
      ((m.run.record [.execute, .answer "Ada", .poll]).tail.all fun p => p.2 != .execute) = true :=
  ⟨_, rfl, rfl, by decide +kernel, by decide +kernel, by decide +kernel, by decide +kernel,
    by decide +kernel, by decide +kernel⟩

/-- A line that arrives after the question is read once. -/
theorem line_read_once_later :
    ∃ m, create? (some lineReader)
        { storeSize := 16, console := some { mode := .manual, lines := [] } } = .ok m ∧
      m.run.movesOf [.stepOnce, .answer "Ada", .step 0] = [.execute, .answer "Ada", .poll] ∧
      m.run.Reading ["Ada"] (play [.execute, .answer "Ada", .poll] m.run) := by
  obtain ⟨m, hcreate, himage, hreads, hmoves, hnone, hone, hlines, hothers⟩ := lineReader_answered
  have horderly : m.run.Orderly 0 [.execute, .answer "Ada", .poll] := by
    intro before line after hsplit
    match before with
    | [] => cases hsplit
    | [_] => cases hsplit; simp [hnone, hone]
    | [_, _] => cases hsplit
    | _ :: _ :: _ :: before => cases before <;> cases hsplit
  have hidle : ∀ p ∈ (m.run.record [.execute, .answer "Ada", .poll]).tail,
      p.2 = .execute → p.1.state ≠ .running := by
    intro p hp hexecute
    have hother := List.all_eq_true.mp hothers p hp
    simp [hexecute] at hother
  have hnatives : m.image.natives = Library.registry := himage ▸ standardNatives_eq
  have hread :=
    (line_read_once m hnatives [.stepOnce, .answer "Ada", .step 0] (hmoves ▸ horderly)).2
    [] _ m.run hmoves rfl
  exact ⟨m, hcreate, hmoves, hlines ▸ (hread.2 [.answer "Ada", .poll] [] rfl hreads hidle).1⟩

/-- A program that returns to a frame below the store and reads a line there. -/
def strayReader : Image where
  typedConstants := #[.ofInt 0, .ofInt 0, .ofInt (-20), .ofInt 0, .ofInt 1]
  code := #[(Opcode.rtn, Int64.ofNat TypeCode.void.byte.toNat, 0), (.ent, 0, 0),
    (.csp, 0, 14)].map
    fun (op, x, y) => (Word.encode op.byte x y).toOption.getD default
  natives := standardNatives
  frozen := true

/-- A line for which there is no place in the store is neither pushed nor does it stop the machine.
-/
theorem line_lost_below_store :
    ∃ m, create? (some strayReader) { storeSize := 16 } = .ok m ∧
      ∃ m', takeTurns [.step 3] m.run = .error ⟨-20⟩ m' :=
  ⟨_, rfl, eq_error_of_crash? (by decide +kernel)⟩

end Machine

end PCode
