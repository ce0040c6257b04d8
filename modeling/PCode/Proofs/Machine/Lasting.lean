import PCode.Proofs.Machine.Allocation

/-!
# Properties that last

A property of machines that survives the access primitives and the requests of
native procedures survives every instruction but the few that set registers
from the store.  So what holds throughout a run is proved from what the
primitives keep.  Releasing a block may be subject to a condition, which then has to
hold whenever a native procedure releases one.

Main definitions and results:

- `Machine.Upholds`: a part of an instruction keeps a property, also when it is interrupted.
- `Machine.Stable`: a property survives what the instructions on operands are made of.
- `Machine.Stable.perform`: it survives these instructions.
- `Machine.Lasting`: it survives also what native procedures are made of.
- `Machine.Lasting.carryOut`, `Machine.Lasting.callNative`: it survives native procedures.
-/

namespace PCode

/-- The instructions that set the stack pointer or the mark pointer from the frame, or call a native
procedure. -/
def Opcode.isLinkage : Opcode → Bool
  | .cup | .csp | .ent | .rtn => true
  | _ => false

/-! ## Upholding a property -/

namespace Machine

section

variable {α β : Type} {I : Machine → Prop} {E : Interrupt → Prop} {m m' : Machine}

/-- A part of an instruction keeps a property, and is interrupted only as allowed. -/
def Upholds (I : Machine → Prop) (E : Interrupt → Prop) (x : Instr α) (m : Machine) : Prop :=
  match x m with
  | .ok _ m' => I m'
  | .error e m' => I m' ∧ E e

/-- A part that succeeds upholds what holds afterwards. -/
theorem upholds_ok {x : Instr α} {a : α} (h : x m = .ok a m') (hI : I m') : Upholds I E x m := by
  unfold Upholds
  rw [h]
  exact hI

/-- A part that is interrupted upholds what holds afterwards. -/
theorem upholds_error {x : Instr α} {e : Interrupt} (h : x m = .error e m') (hI : I m')
    (hE : E e) : Upholds I E x m := by
  unfold Upholds
  rw [h]
  exact ⟨hI, hE⟩

/-- What is upheld holds after success. -/
theorem Upholds.of_ok {x : Instr α} {a : α} (h : Upholds I E x m) (hx : x m = .ok a m') :
    I m' := by
  unfold Upholds at h
  rwa [hx] at h

/-- What is upheld holds after an interrupt of a kind that is allowed. -/
theorem Upholds.of_error {x : Instr α} {e : Interrupt} (h : Upholds I E x m)
    (hx : x m = .error e m') : I m' ∧ E e := by
  unfold Upholds at h
  rwa [hx] at h

/-- What follows a part that keeps a property. -/
theorem Upholds.seq {x : Instr α} {f : α → Instr β} (h : Upholds I E x m)
    (hf : ∀ a m', x m = .ok a m' → I m' → Upholds I E (f a) m') : Upholds I E (x >>= f) m := by
  cases hx : x m with
  | ok a m' =>
    have hrest := hf a m' hx (h.of_ok hx)
    unfold Upholds at hrest ⊢
    simpa only [bind, EStateM.bind, hx] using hrest
  | error e m' =>
    have hbind : (x >>= f) m = .error e m' := by simp only [bind, EStateM.bind, hx]
    exact upholds_error hbind (h.of_error hx).1 (h.of_error hx).2

/-- Two parts that do the same uphold the same. -/
theorem Upholds.congr {x y : Instr α} (h : Upholds I E y m') (heq : x m = y m') :
    Upholds I E x m := by
  unfold Upholds at h ⊢
  rwa [heq]

/-- A request of the host that succeeds upholds what holds afterwards. -/
theorem upholds_host_ok {request : Host α} {a : α} (h : request m = .ok a m') (hI : I m') :
    Upholds I E (ofHost request) m :=
  upholds_ok (a := a) (by simp only [ofHost, h]) hI

/-- A request of the host that crashes upholds what holds afterwards. -/
theorem upholds_host_error {request : Host α} {c : Crash} (h : request m = .error c m') (hI : I m')
    (hE : E (.crash c)) : Upholds I E (ofHost request) m :=
  upholds_error (e := .crash c) (by simp only [ofHost, h]) hI hE

/-- What a request keeps as a part of an instruction. -/
theorem Upholds.of_host_ok {request : Host α} {a : α} (h : Upholds I E (ofHost request) m)
    (hrequest : request m = .ok a m') : I m' :=
  h.of_ok (a := a) (by simp only [ofHost, hrequest])

/-- What a request of the host upholds holds after a crash. -/
theorem Upholds.of_host_error {request : Host α} {c : Crash} (h : Upholds I E (ofHost request) m)
    (hrequest : request m = .error c m') : I m' ∧ E (.crash c) :=
  h.of_error (by simp only [ofHost, hrequest])

/-- Returning a value upholds what holds already. -/
theorem upholds_pure {a : α} (hI : I m) : Upholds I E (pure a) m := hI

/-- A change upholds what holds of the changed machine. -/
theorem upholds_modify {f : Machine → Machine} (hI : I (f m)) :
    Upholds I E (modify f : Instr Unit) m := hI

/-- Asking for the machine upholds what the rest upholds of it. -/
theorem upholds_get {f : Machine → Instr α} (h : Upholds I E (f m) m) :
    Upholds I E (get >>= f) m := h

end

end Machine

/-! ## Accesses of native procedures -/

/-- The accesses that follow the answer to a request; a crash has no answer. -/
def Machine.following {α : Type} (access : Instr α)
    (next : Except Failure α → Machine → List (Machine × Access)) (m : Machine) :
    List (Machine × Access) :=
  match Machine.attempt access m with
  | .ok answer m => next answer m
  | .error .. => []

/-- The accesses after one that was answered are those of what follows. -/
theorem Machine.following_ok {α : Type} {access : Instr α}
    {next : Except Failure α → Machine → List (Machine × Access)} {m m' : Machine}
    {answer : Except Failure α} (h : attempt access m = .ok answer m') :
    following access next m = next answer m' := by
  rw [following, h]

/-- The accesses that a routine asks for when a machine carries it out, each with the machine at the
time. -/
def Routine.accesses : Routine → Machine → List (Machine × Access)
  | .done _ => fun _ => []
  | .fail _ => fun _ => []
  | .stop next => fun m => next.accesses m.stop
  | .suspend next => fun m => next.accesses m.suspend
  | .resume next => fun m => next.accesses m.resume
  | .delay milliseconds next => fun m => next.accesses (m.hold milliseconds)
  | .writeLine line next => fun m => next.accesses (m.writeLine line)
  | .readLine onLine next => fun m =>
    let (answer, m) := m.readLine (.native onLine)
    (next answer).accesses m
  | .readMemory address next => fun m =>
    Machine.following (Machine.load address) (fun answer => (next answer).accesses) m
  | .writeMemory address value next => fun m =>
    (m, .store address value) ::
      Machine.following (Machine.storeAt address value) (fun answer => (next answer).accesses) m
  | .push value next => fun m =>
    (m, .push value) ::
      Machine.following (Machine.push value) (fun answer => (next answer).accesses) m
  | .malloc size next => fun m =>
    (m, .malloc size) ::
      Machine.following (Machine.malloc size) (fun answer => (next answer).accesses) m
  | .free address next => fun m =>
    (m, .free address) ::
      Machine.following (Machine.free address) (fun answer => (next answer).accesses) m
  | .keyPressed next => fun m => (next m.keyPressed).accesses m
  | .readKey next => fun m =>
    let (key, m) := m.readKey
    (next key).accesses m
  | .random next => fun m =>
    let (x, m) := m.random
    (next x).accesses m
  | .randomize next => fun m => next.accesses { m with generator := m.generator.reseed }

/- The equations for random reals are stated apart, so that nobody looks into the generator. -/

/-- After a random number the accesses are those of what follows. -/
theorem Routine.accesses_random (next : Float → Routine) (m : Machine) :
    (Routine.random next).accesses m = (next m.random.1).accesses m.random.2 := by
  rw [Routine.accesses]

/-- After a new seed the accesses are those of what follows. -/
theorem Routine.accesses_randomize (next : Routine) (m : Machine) :
    (Routine.randomize next).accesses m =
      next.accesses { m with generator := m.generator.reseed } := by
  rw [Routine.accesses]

/-- A random number is handed to what follows. -/
theorem Machine.carryOut_random (next : Float → Routine) (m : Machine) :
    carryOut (.random next) m = carryOut (next m.random.1) m.random.2 := by
  rw [carryOut]

/-- A new seed is there for what follows. -/
theorem Machine.carryOut_randomize (next : Routine) (m : Machine) :
    carryOut (.randomize next) m = carryOut next { m with generator := m.generator.reseed } := by
  rw [carryOut]

namespace Machine

/-- The accesses of handing on a line that has arrived. -/
def pollAccesses (m : Machine) : List (Machine × Access) :=
  match m.line, m.reader with
  | some line, some (.native onLine) =>
      (onLine line).accesses { m with line := none, reader := none }
  | _, _ => []

/-- The accesses of a call of a native procedure. -/
def callAccesses (argumentCount index : Nat) (m : Machine) : List (Machine × Access) :=
  match m.image.natives.at? index with
  | none => []
  | some native =>
    match popArguments argumentCount [] m with
    | .error .. => []
    | .ok arguments m =>
      let m := { m with suspendedInCall := false, inCall := true }
      (native.body arguments.toArray).accesses m ++
        match carryOut (native.body arguments.toArray) m with
        | .ok _ m => pollAccesses { m with inCall := false }
        | .error .. => []

/-! ## What survives -/

/-- A property survives what the instructions on operands are made of. -/
structure Stable (I : Machine → Prop) (E : Interrupt → Prop) : Prop where
  fault : ∀ cause, E (.fault cause)
  error : ∀ e, E (.error e)
  registers : ∀ {m : Machine} pc ipc profile, I m → I { m with pc, ipc, profile }
  stop : ∀ {m : Machine}, I m → I m.stop
  push : ∀ {m : Machine} v, I m → Upholds I E (Machine.push v) m
  pop : ∀ {m : Machine}, I m → Upholds I E Machine.pop m
  storeAt : ∀ {m : Machine} a v, I m → Upholds I E (Machine.storeAt a v) m

/-- A property survives also what native procedures are made of.  Releasing a block is subject to a
condition. -/
structure Lasting (I : Machine → Prop) (E : Interrupt → Prop) (G : Machine → Int64 → Prop) : Prop
    extends Stable I E where
  calls : ∀ {m : Machine} inCall suspendedInCall, I m → I { m with inCall, suspendedInCall }
  world : ∀ {m : Machine} line reader held keyboard console generator output dumps received, I m →
    I { m with line, reader, held, keyboard, console, generator, output, dumps, received }
  suspend : ∀ {m : Machine}, I m → I m.suspend
  resume : ∀ {m : Machine}, I m → I m.resume
  malloc : ∀ {m : Machine} size, I m → Upholds I E (Machine.malloc size) m
  free : ∀ {m : Machine} a, I m → G m a → Upholds I E (Machine.free a) m

namespace Stable

variable {I : Machine → Prop} {E : Interrupt → Prop} {m : Machine}

/-- A fault keeps a stable property. -/
theorem raise {α : Type} (h : Stable I E) (cause : Fault) (hI : I m) :
    Upholds I E (Machine.raise cause : Instr α) m := ⟨hI, h.fault cause⟩

/-- A load keeps a stable property. -/
theorem load (h : Stable I E) (a : Int64) (hI : I m) : Upholds I E (Machine.load a) m := by
  cases hfault : m.addressFault? a with
  | none => exact upholds_ok (load_of_none hfault) hI
  | some cause => exact upholds_error (load_of_fault hfault) hI (h.fault cause)

private theorem jump (h : Stable I E) (target : Int64) (hI : I m) :
    Upholds I E (Machine.jump target) m := h.registers target m.ipc m.profile hI

/-! ## Instructions on operands -/

private theorem unary (h : Stable I E) (f : Value → Value) (hI : I m) :
    Upholds I E (Machine.unary f) m :=
  (h.pop hI).seq fun _ _ _ hI => h.push _ hI

private theorem binary (h : Stable I E) (f : Value → Value → Value) (hI : I m) :
    Upholds I E (Machine.binary f) m :=
  (h.pop hI).seq fun _ _ _ hI => (h.pop hI).seq fun _ _ _ hI => h.push _ hI

private theorem binaryE (h : Stable I E) (f : Value → Value → Except Fault Value) (hI : I m) :
    Upholds I E (Machine.binaryE f) m := by
  refine (h.pop hI).seq fun b _ _ hI => (h.pop hI).seq fun a _ _ hI => ?_
  cases f a b with
  | ok r => exact h.push r hI
  | error cause => exact h.raise cause hI

private theorem frame (h : Stable I E) (level : Nat) (hI : I m) :
    Upholds I E (Machine.frame level) m := by
  have houter : ∀ base m, I m → Upholds I E (outerFrame level base) m := by
    induction level with
    | zero => exact fun _ _ hI => upholds_pure hI
    | succ level ih => exact fun _ _ hI => (h.load _ hI).seq fun link _ _ hI => ih _ _ hI
  exact houter m.mp m hI

private theorem pushAll (h : Stable I E) (vs : List Value) (hI : I m) :
    Upholds I E (Machine.pushAll vs) m := by
  induction vs generalizing m with
  | nil => exact upholds_pure hI
  | cons v vs ih => exact (h.push v hI).seq fun _ _ _ hI => ih hI

private theorem loadConstant (h : Stable I E) (code : UInt8) (operand : Nat) (hI : I m) :
    Upholds I E (Machine.loadConstant code operand) m := by
  unfold Machine.loadConstant
  split
  case h_7 => exact h.raise _ hI
  case h_1 => exact h.push _ hI
  case h_2 => exact h.push _ hI
  all_goals
    refine upholds_get ?_
    simp only
    split
    · exact h.push _ hI
    · exact h.raise _ hI

private theorem loadValue (h : Stable I E) (level offset : Nat) (hI : I m) :
    Upholds I E (Machine.loadValue level offset) m :=
  (h.frame level hI).seq fun _ _ _ hI => (h.load _ hI).seq fun v _ _ hI => h.push v hI

private theorem jumpIf (h : Stable I E) (truth : Bool) (target : Nat) (hI : I m) :
    Upholds I E (Machine.jumpIf truth target) m := by
  refine (h.pop hI).seq fun condition _ _ hI => ?_
  split
  · exact h.jump _ hI
  · exact upholds_pure hI

/-- A stable property survives the instructions on operands. -/
theorem perform (h : Stable I E) {op : Opcode} (hop : op.isLinkage = false) (x y : Nat)
    (hI : I m) : Upholds I E (Machine.perform op x y) m := by
  cases op <;> try cases hop
  case mst =>
    refine (h.frame x hI).seq fun link m _ hI => upholds_get ?_
    exact h.pushAll _ hI
  case ujp => exact h.jump _ hI
  case xjp => exact (h.pop hI).seq fun target _ _ hI => h.jump _ hI
  case fjp => exact h.jumpIf _ _ hI
  case tjp => exact h.jumpIf _ _ hI
  case stp => exact upholds_modify (h.stop hI)
  case lda => exact (h.frame x hI).seq fun _ _ _ hI => h.push _ hI
  case ldc => exact h.loadConstant _ _ hI
  case ldi => exact (h.pop hI).seq fun a _ _ hI => (h.load _ hI).seq fun v _ _ hI => h.push v hI
  case sti => exact (h.pop hI).seq fun v _ _ hI => (h.pop hI).seq fun a _ _ hI => h.storeAt _ v hI
  case ixa => exact (h.pop hI).seq fun i _ _ hI => (h.pop hI).seq fun a _ _ hI => h.push _ hI
  case flt => exact upholds_pure hI
  case flo => exact upholds_pure hI
  all_goals first
    | exact h.binary _ hI
    | exact h.unary _ hI
    | exact h.binaryE _ hI
    | exact h.loadValue _ _ hI
    | exact h.raise _ hI

/-- Popping arguments keeps a stable property. -/
theorem popArguments (h : Stable I E) (count : Nat) (popped : List Value) (hI : I m) :
    Upholds I E (Machine.popArguments count popped) m := by
  induction count generalizing m popped with
  | zero => exact upholds_pure hI
  | succ count ih => exact (h.pop hI).seq fun v _ _ hI => ih _ hI

/-! ## Steps -/

/-- A property survives a step if it survives the instruction that is executed, the end of a run
with an error, and being observed. -/
theorem stepOnce (h : Stable I E) (hfail : ∀ {m : Machine} e, I m → I (m.failWith e))
    (hdumps : ∀ {m : Machine} dumps, I m → I { m with dumps }) (hI : I m)
    (hexecute : ∀ w, m.state = .running → m.image.fetch? m.pc = some w → I (m.fetched w) →
      Upholds I E (execute w) (m.fetched w)) : Upholds I E (ofHost Machine.stepOnce) m := by
  by_cases hidle : m.state ≠ .running
  · exact upholds_host_ok (if_pos hidle) hI
  cases hfetch : m.image.fetch? m.pc with
  | none =>
    have hstep : Machine.stepOnce m = .ok () (failWith { m with ipc := m.pc }
        (errorOf { m with ipc := m.pc } (.noInstruction m.pc m.image.code.size))) := by
      simp only [Machine.stepOnce, if_neg hidle, hfetch]
    exact upholds_host_ok hstep (hfail _ (h.registers m.pc m.pc m.profile hI))
  | some w =>
    have hrunning : m.state = .running := Decidable.not_not.mp hidle
    have hrun := hexecute w hrunning hfetch (h.registers _ _ _ hI)
    have hstep := stepOnce_fetched hrunning hfetch
    cases hx : execute w (m.fetched w) with
    | ok u m' =>
      rw [hx] at hstep
      refine upholds_host_ok hstep ?_
      unfold observe
      split
      · exact hdumps _ (hrun.of_ok hx)
      · exact hrun.of_ok hx
    | error e m' =>
      obtain ⟨hI', hE⟩ := hrun.of_error hx
      rw [hx] at hstep
      cases e with
      | fault cause => exact upholds_host_ok hstep (hfail _ hI')
      | error e => exact upholds_host_ok hstep (hfail e hI')
      | crash c => exact upholds_host_error hstep hI' hE

end Stable

/-! ## Native procedures -/

namespace Lasting

variable {I : Machine → Prop} {E : Interrupt → Prop} {G : Machine → Int64 → Prop} {m : Machine}

/-- What is carried out for a native procedure and what follows it. -/
theorem attempt {α : Type} {access : Instr α} {next : Except Failure α → Routine}
    (haccess : Upholds I E access m)
    (hnext : ∀ answer m', Machine.attempt access m = .ok answer m' → I m' →
      Upholds I E (ofHost (Machine.carryOut (next answer))) m') :
    Upholds I E (ofHost (do Machine.carryOut (next (← Machine.attempt access)))) m := by
  have hrun (answer) {m'} (hattempt : Machine.attempt access m = .ok answer m') (hI : I m') :
      Upholds I E (ofHost (do Machine.carryOut (next (← Machine.attempt access)))) m := by
    have hrest := hnext answer m' hattempt hI
    unfold Upholds ofHost at hrest ⊢
    simpa only [bind, EStateM.bind, hattempt] using hrest
  unfold Upholds at haccess
  cases hx : access m with
  | ok a m' =>
    rw [hx] at haccess
    exact hrun (.ok a) (by simp only [Machine.attempt, hx]) haccess
  | error e m' =>
    rw [hx] at haccess
    cases e with
    | fault cause =>
      exact hrun (.error (.machine (m'.errorOf cause)))
        (by simp only [Machine.attempt, hx]) haccess.1
    | error e =>
      exact hrun (.error (.machine e)) (by simp only [Machine.attempt, hx]) haccess.1
    | crash c =>
      refine upholds_error (e := .crash c) ?_ haccess.1 haccess.2
      simp only [ofHost, bind, EStateM.bind, Machine.attempt, hx]

/-- The delivery of a line keeps a lasting property. -/
theorem deliver (h : Lasting I E G) (line : String) (hI : I m) : I (m.deliver line) := by
  unfold Machine.deliver
  split
  · exact h.world _ _ _ _ _ _ _ _ _ hI
  · exact hI

private theorem requestLine (h : Lasting I E G) (hI : I m) : I m.requestLine := by
  unfold Machine.requestLine
  split
  · exact h.deliver _ hI
  · simp only
    split
    · exact h.deliver _ (h.world _ _ _ _ _ _ _ _ _ hI)
    · exact h.world _ _ _ _ _ _ _ _ _ hI
    · exact h.world _ _ _ _ _ _ _ _ _ hI

private theorem readLine (h : Lasting I E G) (reader : Reader) (hI : I m) :
    I (m.readLine reader).2 := by
  unfold Machine.readLine
  split
  · exact h.requestLine (h.world _ _ _ _ _ _ _ _ _ hI)
  · exact hI

/-- Holding the machine keeps a lasting property. -/
theorem hold (h : Lasting I E G) (milliseconds : Int64) (hI : I m) : I (m.hold milliseconds) := by
  unfold Machine.hold
  split
  · exact hI
  · exact h.world _ _ _ _ _ _ _ _ _ hI

private theorem readKey (h : Lasting I E G) (hI : I m) : I m.readKey.2 := by
  unfold Machine.readKey
  split
  · exact h.world _ _ _ _ _ _ _ _ _ hI
  · exact hI

private theorem random (h : Lasting I E G) (hI : I m) : I m.random.2 := by
  unfold Machine.random
  exact h.world _ _ _ _ _ m.generator.next.2 _ _ _ hI

/-- A lasting property survives a routine that releases only what may be released. -/
theorem carryOut (h : Lasting I E G) (r : Routine) (hI : I m)
    (hG : ∀ p a, (p, Access.free a) ∈ r.accesses m → G p a) :
    Upholds I E (ofHost (Machine.carryOut r)) m := by
  induction r generalizing m with
  | done result => exact hI
  | fail why => exact hI
  | stop next ih => exact ih (h.stop hI) hG
  | suspend next ih => exact ih (h.suspend hI) hG
  | resume next ih => exact ih (h.resume hI) hG
  | delay milliseconds next ih => exact ih (h.hold milliseconds hI) hG
  | writeLine line next ih => exact ih (h.world _ _ _ _ _ _ _ _ _ hI) hG
  | readLine onLine next _ ih => exact ih _ (h.readLine _ hI) hG
  | readMemory address next ih =>
    refine attempt (h.load address hI) fun answer m' hattempt hI => ih answer hI fun p a hmem => ?_
    exact hG p a (by simpa only [Routine.accesses, following_ok hattempt] using hmem)
  | writeMemory address value next ih =>
    refine attempt (h.storeAt address value hI) fun answer m' hattempt hI =>
      ih answer hI fun p a hmem => hG p a (List.mem_cons_of_mem _ ?_)
    simpa only [following_ok hattempt] using hmem
  | push value next ih =>
    refine attempt (h.push value hI) fun answer m' hattempt hI =>
      ih answer hI fun p a hmem => hG p a (List.mem_cons_of_mem _ ?_)
    simpa only [following_ok hattempt] using hmem
  | malloc size next ih =>
    refine attempt (h.malloc size hI) fun answer m' hattempt hI =>
      ih answer hI fun p a hmem => hG p a (List.mem_cons_of_mem _ ?_)
    simpa only [following_ok hattempt] using hmem
  | free address next ih =>
    refine attempt (h.free address hI (hG m address List.mem_cons_self))
      fun answer m' hattempt hI => ih answer hI fun p a hmem => hG p a (List.mem_cons_of_mem _ ?_)
    simpa only [following_ok hattempt] using hmem
  | keyPressed next ih => exact ih _ hI hG
  | readKey next ih => exact ih _ (h.readKey hI) hG
  | random next ih =>
    rw [Routine.accesses_random] at hG
    refine (ih m.random.1 (h.random hI) hG).congr ?_
    unfold ofHost
    rw [carryOut_random]
  | randomize next ih =>
    rw [Routine.accesses_randomize] at hG
    refine (ih (h.world _ _ _ _ _ _ _ _ _ hI) hG).congr ?_
    unfold ofHost
    rw [carryOut_randomize]

/-- A poll keeps a lasting property, if the releases in it are subject to the condition. -/
theorem pollInput (h : Lasting I E G) (hI : I m)
    (hG : ∀ p a, (p, Access.free a) ∈ m.pollAccesses → G p a) :
    Upholds I E (ofHost Machine.pollInput) m := by
  cases hline : m.line with
  | none =>
    have hpoll : Machine.pollInput m = .ok () m := by simp only [Machine.pollInput, hline]
    exact upholds_host_ok hpoll hI
  | some line =>
    cases hreader : m.reader with
    | none =>
      have hpoll : Machine.pollInput m = .ok () { m with line := none } := by
        simp only [Machine.pollInput, hline, hreader]
      exact upholds_host_ok hpoll (h.world _ _ _ _ _ _ _ _ _ hI)
    | some reader =>
      have hI' : I { m with line := none, reader := none } := h.world _ _ _ _ _ _ _ _ _ hI
      cases reader with
      | host =>
        have hpoll : Machine.pollInput m =
            .ok () { m with line := none, reader := none, received := m.received.push line } := by
          simp only [Machine.pollInput, handOn, hline, hreader]
        exact upholds_host_ok hpoll (h.world _ _ _ _ _ _ _ _ _ hI)
      | native onLine =>
        have hcarry := h.carryOut (onLine line) hI'
          (by simpa only [pollAccesses, hline, hreader] using hG)
        have hpoll : Machine.pollInput m =
            (do let _ ← Machine.carryOut (onLine line) : Host Unit)
              { m with line := none, reader := none } := by
          simp only [Machine.pollInput, handOn, hline, hreader]
        simp only [bind, EStateM.bind] at hpoll
        cases hrun : Machine.carryOut (onLine line) { m with line := none, reader := none } with
        | ok result m' =>
          rw [hrun] at hpoll
          exact upholds_host_ok hpoll (hcarry.of_host_ok hrun)
        | error c m' =>
          rw [hrun] at hpoll
          exact upholds_host_error hpoll (hcarry.of_host_error hrun).1 (hcarry.of_host_error hrun).2

/-- A lasting property survives the call of a native procedure that releases only what may be
released. -/
theorem callNative (h : Lasting I E G) (argumentCount index : Nat) (hI : I m)
    (hG : ∀ p a, (p, Access.free a) ∈ m.callAccesses argumentCount index → G p a) :
    Upholds I E (Machine.callNative argumentCount index) m := by
  refine upholds_get ?_
  cases hnative : m.image.natives.at? index with
  | none => exact h.raise _ hI
  | some native =>
    refine (h.popArguments argumentCount [] hI).seq fun arguments m₁ hpop hI₁ => ?_
    simp only [callAccesses, hnative, hpop] at hG
    have hI₂ := h.calls true false hI₁
    refine Upholds.seq (upholds_modify hI₂) fun _ m₂ hm₂ _ => ?_
    obtain rfl : { m₁ with suspendedInCall := false, inCall := true } = m₂ := by injection hm₂
    refine (h.carryOut _ hI₂ fun p a hmem =>
      hG p a (List.mem_append_left _ hmem)).seq fun result m₃ hcarry hI₃ => ?_
    have hcarry' : Machine.carryOut (native.body arguments.toArray)
        { m₁ with suspendedInCall := false, inCall := true } = .ok result m₃ := by
      unfold ofHost at hcarry
      split at hcarry
      · rename_i hrun
        rw [hrun]
        injection hcarry with hresult hm
        rw [hresult, hm]
      · cases hcarry
    have hI₄ := h.calls false m₃.suspendedInCall hI₃
    refine Upholds.seq (upholds_modify hI₄) fun _ m₄ hm₄ _ => ?_
    obtain rfl : { m₃ with inCall := false } = m₄ := by injection hm₄
    refine (h.pollInput hI₄ fun p a hmem => hG p a (List.mem_append_right _ ?_)).seq
      fun _ m₅ _ hI₅ => ?_
    · simpa only [hcarry'] using hmem
    · cases result with
      | error why =>
        cases why with
        | machine e => exact ⟨hI₅, h.error e⟩
        | notSuspended => exact h.raise _ hI₅
        | reason text => exact h.raise _ hI₅
      | ok v =>
        refine upholds_get ?_
        split
        · exact h.push v hI₅
        · exact upholds_pure hI₅

/-! ## Steps -/

/-- A lasting property survives a step if it survives the instruction that is executed, and the end
of a run with an error. -/
theorem stepOnce (h : Lasting I E G) (hfail : ∀ {m : Machine} e, I m → I (m.failWith e)) (hI : I m)
    (hexecute : ∀ w, m.image.fetch? m.pc = some w → I (m.fetched w) →
      Upholds I E (execute w) (m.fetched w)) : Upholds I E (ofHost Machine.stepOnce) m :=
  h.toStable.stepOnce hfail (fun _ hI => h.world _ _ _ _ _ _ _ _ _ hI) hI fun w _ => hexecute w

end Lasting

end Machine

end PCode
