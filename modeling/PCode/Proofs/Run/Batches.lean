import PCode.Proofs.Run.Moves
import PCode.Proofs.Run.Natives

/-!
# Batches of instructions

A host steps a machine in batches.  Every batch begins with a look for a line that
has arrived, so how a run is cut into batches could make a difference.  It makes
none if lines are given while they are asked for and no native procedure holds the
machine: a line is then handed on within the call that asks for it, unless the
routine that gets it asks for another, and between two instructions none is waiting.

Main definitions and results:

- `Routine.Brisk`: a routine asks for no delay, and for lines only as it may.
- `Machine.Brisk`: which lines may be waiting in a machine that is never held.
- `Machine.Brisk.stepOnce`: between two instructions no line is waiting.
- `Machine.stepLoop_add`: instructions are executed one after another.
- `Machine.Driven`: what a host that only starts and steps a machine can make of it.
- `Machine.batches_agree`: a run does not depend on its batches.
-/

namespace PCode

/-! ## Routines that do not make a machine wait -/

/-- A routine asks for no delay, and for lines only if it may.  The routine that gets a line may ask
for none. -/
def Routine.Brisk (asks : Bool) : Routine → Prop
  | .done _ | .fail _ => True
  | .delay _ _ => False
  | .stop next | .suspend next | .resume next | .writeLine _ next | .randomize next =>
    next.Brisk asks
  | .readLine onLine next =>
    asks = true ∧ (∀ line, (onLine line).Brisk false) ∧ ∀ answer, (next answer).Brisk asks
  | .readMemory _ next => ∀ answer, (next answer).Brisk asks
  | .writeMemory _ _ next => ∀ answer, (next answer).Brisk asks
  | .push _ next => ∀ answer, (next answer).Brisk asks
  | .malloc _ next => ∀ answer, (next answer).Brisk asks
  | .free _ next => ∀ answer, (next answer).Brisk asks
  | .keyPressed next => ∀ pressed, (next pressed).Brisk asks
  | .readKey next => ∀ key, (next key).Brisk asks
  | .random next => ∀ x, (next x).Brisk asks

/-- No procedure of a registry asks for a delay, and what gets a line asks for no other. -/
def Registry.Brisk (r : Registry) : Prop :=
  ∀ index native, r.at? index = some native → ∀ arguments, (native.body arguments).Brisk true

namespace Machine

/-- A machine is not held and its console, if any, answers at once.  A line is waiting only where
lines may be asked for, and then for a routine that asks for none. -/
structure Brisk (asks : Bool) (m : Machine) : Prop where
  line : m.line = none ∨ asks = true ∧
    ∃ onLine, m.reader = some (.native onLine) ∧ ∀ line, (onLine line).Brisk false
  held : m.held = 0
  console : ∀ c, m.console = some c → c.mode = .prompt

variable {asks : Bool} {m m' : Machine}

namespace Brisk

private theorem line_eq_none (h : m.Brisk false) : m.line = none := by
  rcases h.line with hnone | ⟨hasks, -⟩
  · exact hnone
  · cases hasks

private theorem transfer (h : m.Brisk asks) (hline : m'.line = m.line)
    (hreader : m'.reader = m.reader)
    (hheld : m'.held = m.held) (hconsole : m'.console = m.console) : m'.Brisk asks := by
  refine ⟨?_, hheld.trans h.held, fun c hc => h.console c (hconsole.symm.trans hc)⟩
  rw [hline, hreader]
  exact h.line

private theorem stop (h : m.Brisk asks) : m.stop.Brisk asks := by
  unfold Machine.stop
  split
  · exact h
  · exact h.transfer rfl rfl rfl rfl

private theorem suspend (h : m.Brisk asks) : m.suspend.Brisk asks := by
  unfold Machine.suspend
  split
  · exact h.transfer rfl rfl rfl rfl
  · exact h

private theorem resume (h : m.Brisk asks) : m.resume.Brisk asks := by
  unfold Machine.resume
  split
  · exact h.transfer rfl rfl rfl rfl
  · exact h

private theorem readKey (h : m.Brisk asks) : m.readKey.2.Brisk asks := by
  unfold Machine.readKey
  split
  · exact h.transfer rfl rfl rfl rfl
  · exact h

private theorem generator (h : m.Brisk asks) (g : Generator) :
    Brisk asks { m with generator := g } :=
  h.transfer rfl rfl rfl rfl

private theorem random (h : m.Brisk asks) : m.random.2.Brisk asks := by
  unfold Machine.random
  exact h.generator m.generator.next.2

/-- Where lines may be asked for, a request keeps the line for the routine that asks for none. -/
theorem readLine (h : m.Brisk true) {onLine : String → Routine}
    (hline : ∀ line, (onLine line).Brisk false) : (m.readLine (.native onLine)).2.Brisk true := by
  have hbrisk {m' : Machine} (hreader : m'.reader = some (.native onLine))
      (hheld : m'.held = m.held) (hconsole : ∀ c, m'.console = some c → c.mode = .prompt) :
      m'.Brisk true :=
    ⟨.inr ⟨rfl, onLine, hreader, hline⟩, hheld.trans h.held, hconsole⟩
  have hdeliver {m' : Machine} (line : String) (h' : m'.Brisk true)
      (hreader : m'.reader = some (.native onLine)) : (m'.deliver line).Brisk true := by
    unfold Machine.deliver
    split
    · exact ⟨.inr ⟨rfl, onLine, hreader, hline⟩, h'.held, h'.console⟩
    · exact h'
  unfold Machine.readLine
  split
  · unfold Machine.requestLine
    split
    · exact hdeliver _ (hbrisk rfl rfl h.console) rfl
    · rename_i c hc
      have hprompt : c.mode = .prompt := h.console c hc
      simp only [hprompt]
      exact hdeliver _ (hbrisk rfl rfl fun c' hc' => by cases hc'; rfl) rfl
  · exact h

end Brisk

private theorem inert_brisk (asks : Bool) : Inert (Brisk asks) where
  data _ _ _ _ _ _ _ _ h := h.transfer rfl rfl rfl rfl
  stop h := h.stop

/-- A brisk routine keeps the machine brisk. -/
theorem Brisk.carryOut (h : m.Brisk asks) {r : Routine} (hr : r.Brisk asks) :
    Inert.Upheld (Brisk asks) (ofHost (Machine.carryOut r)) m := by
  induction r generalizing m with
  | done result => exact h
  | fail why => exact h
  | stop next ih => exact ih h.stop hr
  | suspend next ih => exact ih h.suspend hr
  | resume next ih => exact ih h.resume hr
  | delay milliseconds next => exact hr.elim
  | writeLine line next ih => exact ih (m := m.writeLine line) (h.transfer rfl rfl rfl rfl) hr
  | readLine onLine next _ ih =>
    obtain ⟨rfl, hline, hnext⟩ := hr
    exact ih _ (h.readLine hline) (hnext _)
  | readMemory address next ih =>
    exact Lasting.attempt ((inert_brisk asks).stable.load address h) fun answer _ _ h' =>
      ih answer h' (hr answer)
  | writeMemory address value next ih =>
    exact Lasting.attempt ((inert_brisk asks).storeAt address value h) fun answer _ _ h' =>
      ih answer h' (hr answer)
  | push value next ih =>
    exact Lasting.attempt ((inert_brisk asks).push value h) fun answer _ _ h' =>
      ih answer h' (hr answer)
  | malloc size next ih =>
    exact Lasting.attempt ((inert_brisk asks).malloc size h) fun answer _ _ h' =>
      ih answer h' (hr answer)
  | free address next ih =>
    exact Lasting.attempt ((inert_brisk asks).free address h) fun answer _ _ h' =>
      ih answer h' (hr answer)
  | keyPressed next ih => exact ih _ h (hr _)
  | readKey next ih => exact ih _ h.readKey (hr _)
  | random next ih =>
    refine (ih m.random.1 h.random (hr _)).congr ?_
    unfold ofHost
    rw [carryOut_random]
  | randomize next ih =>
    refine (ih (h.generator m.generator.reseed) hr).congr ?_
    unfold ofHost
    rw [carryOut_randomize]

/-! ## Instructions -/

/-- Handing on a line leaves none waiting. -/
theorem Brisk.pollInput {u : Unit} (h : m.Brisk true) (hpoll : Machine.pollInput m = .ok u m') :
    m'.Brisk false := by
  cases hline : m.line with
  | none =>
    simp only [Machine.pollInput, hline] at hpoll
    obtain ⟨-, rfl⟩ := EStateM.Result.ok.inj hpoll
    exact ⟨.inl hline, h.held, h.console⟩
  | some line =>
    obtain hnone | ⟨-, onLine, hreader, hquiet⟩ := h.line
    · rw [hline] at hnone
      cases hnone
    have h' : Brisk false { m with line := none, reader := none } := ⟨.inl rfl, h.held, h.console⟩
    have hcarry := h'.carryOut (hquiet line)
    simp only [Machine.pollInput, hline, hreader, handOn, bind, EStateM.bind] at hpoll
    cases hrun : Machine.carryOut (onLine line) { m with line := none, reader := none } with
    | ok answer m₁ =>
      rw [hrun] at hpoll
      cases hpoll
      exact hcarry.of_host_ok hrun
    | error c m₁ =>
      rw [hrun] at hpoll
      cases hpoll

/-- A part of an instruction leaves a machine with a property, unless it crashes. -/
def Leaves {α : Type} (I : Machine → Prop) (x : Instr α) (m : Machine) : Prop :=
  match x m with
  | .ok _ m' => I m'
  | .error (.crash _) _ => True
  | .error _ m' => I m'

section

variable {α β : Type} {I : Machine → Prop}

private theorem Upholds.leaves {E : Interrupt → Prop} {x : Instr α} (h : Upholds I E x m) :
    Leaves I x m := by
  unfold Upholds at h
  unfold Leaves
  split
  · rename_i hx
    rwa [hx] at h
  · trivial
  · rename_i hx
    rw [hx] at h
    exact h.1

private theorem Leaves.congr {x y : Instr α} (h : Leaves I y m) (heq : x m = y m) :
    Leaves I x m := by
  unfold Leaves
  rw [heq]
  exact h

private theorem Leaves.seq {x : Instr α} {f : α → Instr β} (h : Leaves I x m)
    (hf : ∀ a m', x m = .ok a m' → I m' → Leaves I (f a) m') : Leaves I (x >>= f) m := by
  unfold Leaves at h
  cases hx : x m with
  | ok a m' =>
    rw [hx] at h
    have hrest := hf a m' hx h
    unfold Leaves at hrest ⊢
    simpa only [bind, EStateM.bind, hx] using hrest
  | error e m' =>
    rw [hx] at h
    unfold Leaves
    simp only [bind, EStateM.bind, hx]
    cases e <;> exact h

/-- A request of a native procedure either succeeds or crashes. -/
theorem leaves_ofHost_seq {request : Host α} {f : α → Instr β}
    (hf : ∀ a m', request m = .ok a m' → Leaves I (f a) m') :
    Leaves I (ofHost request >>= f) m := by
  cases hrequest : request m with
  | ok a m' =>
    have hrest := hf a m' hrequest
    unfold Leaves at hrest ⊢
    simpa only [bind, EStateM.bind, ofHost, hrequest] using hrest
  | error c m' =>
    unfold Leaves
    simp only [bind, EStateM.bind, ofHost, hrequest]

end

/-- A native procedure that does not make the machine wait leaves no line waiting. -/
theorem Brisk.callNative (h : m.Brisk false) (hnatives : m.image.natives.Brisk) (n index : Nat) :
    Leaves (Brisk false) (Machine.callNative n index) m := by
  cases hnative : m.image.natives.at? index with
  | none =>
    unfold Leaves
    rw [callNative_missing hnative]
    exact h
  | some native =>
    refine Leaves.congr ?_ (callNative_eq hnative n)
    refine ((inert_brisk false).stable.popArguments n [] h).leaves.seq fun arguments m₁ _ h₁ => ?_
    have h₂ : Brisk true { m₁ with suspendedInCall := false, inCall := true } :=
      ⟨.inl h₁.line_eq_none, h₁.held, h₁.console⟩
    have hbody := h₂.carryOut (hnatives index native hnative arguments.toArray)
    refine leaves_ofHost_seq fun result m₃ hrun => ?_
    have h₄ : Brisk true { m₃ with inCall := false } :=
      (hbody.of_host_ok hrun).transfer rfl rfl rfl rfl
    refine leaves_ofHost_seq fun _ m₅ hpoll => ?_
    have h₅ := h₄.pollInput hpoll
    cases result with
    | error why => cases why <;> exact h₅
    | ok v =>
      refine Upholds.leaves (E := fun _ => True) (upholds_get ?_)
      split
      · exact (inert_brisk false).push v h₅
      · exact upholds_pure h₅

/-- Between two instructions no line is waiting. -/
theorem Brisk.stepOnce {u : Unit} (h : m.Brisk false) (hnatives : m.image.natives.Brisk)
    (hstep : Machine.stepOnce m = .ok u m') : m'.Brisk false := by
  have hfail {m : Machine} (h : m.Brisk false) (e : MachineError) : (m.failWith e).Brisk false :=
    Brisk.stop (m := { m with error := some e }) (h.transfer rfl rfl rfl rfl)
  by_cases hidle : m.state ≠ .running
  · rw [Machine.stepOnce, if_pos hidle] at hstep
    cases hstep
    exact h
  have hrunning : m.state = .running := Decidable.not_not.mp hidle
  cases hfetch : m.image.fetch? m.pc with
  | none =>
    simp only [Machine.stepOnce, if_neg hidle, hfetch] at hstep
    cases hstep
    exact hfail (m := { m with ipc := m.pc }) (h.transfer rfl rfl rfl rfl) _
  | some w =>
    have hfetched : (m.fetched w).Brisk false := h.transfer rfl rfl rfl rfl
    have hleaves : Leaves (Brisk false) (execute w) (m.fetched w) := by
      by_cases hcall : Opcode.ofByte? w.opcode = some .csp
      · unfold execute
        rw [hcall]
        exact hfetched.callNative hnatives _ _
      · exact ((inert_brisk false).execute hcall hfetched).leaves
    rw [stepOnce_fetched hrunning hfetch] at hstep
    unfold Leaves at hleaves
    cases hrun : execute w (m.fetched w) with
    | ok v m₁ =>
      rw [hrun] at hstep hleaves
      cases hstep
      unfold observe
      split
      · exact hleaves.transfer rfl rfl rfl rfl
      · exact hleaves
    | error e m₁ =>
      rw [hrun] at hstep hleaves
      cases e with
      | fault cause => cases hstep; exact hfail hleaves _
      | error e => cases hstep; exact hfail hleaves _
      | crash c => cases hstep

/-! ## Batches -/

/-- A machine that would execute nothing stays as it is. -/
theorem stepLoop_of_not_ready (h : m.ready = false) (n before : Nat) :
    stepLoop n before m = .ok before m := by
  cases n with
  | zero => rfl
  | succ n => simp only [stepLoop, h, Bool.false_eq_true, if_false]

/-- Instructions are executed one after another. -/
theorem stepLoop_add (n k before : Nat) (m : Machine) :
    stepLoop (n + k) before m = (stepLoop n before >>= stepLoop k) m := by
  induction n generalizing m before with
  | zero => rw [Nat.zero_add]; rfl
  | succ n ih =>
    cases hready : m.ready with
    | true =>
      rw [Nat.succ_add]
      simp only [stepLoop, hready, if_true, bind, EStateM.bind]
      cases hstep : Machine.stepOnce m with
      | ok u m₁ =>
        simp only [ih]
        rfl
      | error c m₁ => rfl
    | false =>
      rw [stepLoop_of_not_ready hready]
      simp only [bind, EStateM.bind, stepLoop_of_not_ready hready]

/-- The instructions executed before are only counted. -/
theorem stepLoop_count (n earlier before : Nat) (m : Machine) :
    stepLoop n (earlier + before) m = (do return earlier + (← stepLoop n before)) m := by
  induction n generalizing m before with
  | zero => rfl
  | succ n ih =>
    cases hready : m.ready with
    | true =>
      simp only [stepLoop, hready, if_true, bind, EStateM.bind]
      cases hstep : Machine.stepOnce m with
      | ok u m₁ => exact ih (before + 1) m₁
      | error c m₁ => rfl
    | false =>
      rw [stepLoop_of_not_ready hready]
      simp only [bind, EStateM.bind, stepLoop_of_not_ready hready]
      rfl

/-- Between two batches no line is waiting. -/
theorem Brisk.stepLoop {n before count : Nat} (h : m.Brisk false) (hnatives : m.image.natives.Brisk)
    (hloop : Machine.stepLoop n before m = .ok count m') :
    m'.Brisk false ∧ m'.image = m.image := by
  induction n generalizing m before with
  | zero =>
    cases hloop
    exact ⟨h, rfl⟩
  | succ n ih =>
    cases hready : m.ready with
    | true =>
      simp only [Machine.stepLoop, hready, if_true] at hloop
      cases hstep : Machine.stepOnce m with
      | ok u m₁ =>
        rw [hstep] at hloop
        have himage : m₁.image = m.image := image_of_move (a := .execute) hstep
        obtain ⟨hbrisk, hsame⟩ := ih (h.stepOnce hnatives hstep) (himage ▸ hnatives) hloop
        exact ⟨hbrisk, hsame.trans himage⟩
      | error c m₁ =>
        rw [hstep] at hloop
        cases hloop
    | false =>
      rw [stepLoop_of_not_ready hready] at hloop
      cases hloop
      exact ⟨h, rfl⟩

/-- Where no line is waiting, a batch begins with an instruction. -/
theorem Brisk.step_eq (h : m.Brisk false) (n : Int64) :
    step n m = Machine.stepLoop n.toNatClampNeg 0 m := by
  simp only [step, bind, EStateM.bind, Machine.pollInput, h.line_eq_none]

/-- Step a machine in batches; the result is the number of instructions executed. -/
def stepAll : List Int64 → Host Nat
  | [] => pure 0
  | n :: batches => do
    let first ← step n
    let rest ← stepAll batches
    return first + rest

private theorem stepAll_pair (a b : Int64) (m : Machine) :
    stepAll [a, b] m = (do return (← step a) + (← step b)) m := by
  simp only [stepAll, bind, EStateM.bind]
  cases step a m with
  | error c m₁ => rfl
  | ok first m₁ =>
    simp only
    cases step b m₁ <;> rfl

/-- The number of instructions in some batches, if the run does not end before. -/
def allotted (batches : List Int64) : Nat := (batches.map (·.toNatClampNeg)).sum

/-- Batches are executed like one. -/
theorem Brisk.stepAll_eq (h : m.Brisk false) (hnatives : m.image.natives.Brisk)
    (batches : List Int64) : stepAll batches m = Machine.stepLoop (allotted batches) 0 m := by
  induction batches generalizing m with
  | nil => rfl
  | cons n batches ih =>
    have hsum : allotted (n :: batches) = n.toNatClampNeg + allotted batches := rfl
    rw [hsum, stepLoop_add]
    simp only [stepAll, bind, EStateM.bind, h.step_eq]
    cases hloop : Machine.stepLoop n.toNatClampNeg 0 m with
    | error c m₁ => rfl
    | ok count m₁ =>
      obtain ⟨h₁, himage⟩ := h.stepLoop hnatives hloop
      have hcount := stepLoop_count (allotted batches) count 0 m₁
      rw [Nat.add_zero] at hcount
      simp only [ih h₁ (himage ▸ hnatives), hcount, bind, EStateM.bind]

/-- A batch after which nothing is left to execute, be it that the run has stopped, failed, been
parked or crashed. -/
def Over : EStateM.Result Crash Machine Nat → Prop
  | .ok _ m => m.ready = false
  | .error .. => True

/-- When nothing is left to execute, more instructions make no difference. -/
theorem stepLoop_of_over {n k before : Nat} (h : Over (stepLoop n before m)) (hle : n ≤ k) :
    stepLoop k before m = stepLoop n before m := by
  obtain ⟨d, rfl⟩ := Nat.exists_eq_add_of_le hle
  rw [stepLoop_add]
  simp only [bind, EStateM.bind]
  cases hloop : stepLoop n before m with
  | error c m₁ => rfl
  | ok count m₁ =>
    rw [hloop] at h
    exact stepLoop_of_not_ready h d count

/-! ## Runs -/

/-- A machine over an image that a host has made, with a console that answers at once or none, and
has only started and stepped. -/
inductive Driven (image : Image) : Machine → Prop where
  | create {equipment : Equipment} {m : Machine} :
    create? (some image) equipment = .ok m →
    (∀ c, equipment.console = some c → c.mode = .prompt) → Driven image m
  | run {m : Machine} : Driven image m → Driven image m.run
  | step {m m' : Machine} {n : Int64} {count : Nat} :
    Driven image m → Machine.step n m = .ok count m' → Driven image m'

private theorem create?_brisk {image : Image} {equipment : Equipment}
    (h : create? (some image) equipment = .ok m)
    (hconsole : ∀ c, equipment.console = some c → c.mode = .prompt) :
    m.Brisk false ∧ m.image = image := by
  unfold create? at h
  simp only at h
  generalize (if 0 < equipment.storeSize then equipment.storeSize
    else Int64.ofNat defaultStoreSize) = size at h
  split at h
  · cases h
  split at h
  · cases h
  split at h
  · cases h
  obtain rfl := Except.ok.inj h
  exact ⟨⟨.inl rfl, rfl, hconsole⟩, rfl⟩

private theorem Brisk.run (h : m.Brisk false) : m.run.Brisk false ∧ m.run.image = m.image := by
  have himage : m.stop.image = m.image := (inert_image m.image).stop rfl
  exact ⟨⟨.inl rfl, rfl, h.stop.console⟩, himage⟩

/-- No line is waiting in a machine that has only been started and stepped. -/
theorem Driven.brisk {image : Image} (h : m.Driven image) (hnatives : image.natives.Brisk) :
    m.Brisk false ∧ m.image = image := by
  induction h with
  | create hcreate hconsole => exact create?_brisk hcreate hconsole
  | run _ ih =>
    obtain ⟨hbrisk, himage⟩ := ih
    exact ⟨hbrisk.run.1, hbrisk.run.2.trans himage⟩
  | step _ hstep ih =>
    obtain ⟨hbrisk, himage⟩ := ih
    rw [hbrisk.step_eq] at hstep
    obtain ⟨hbrisk', himage'⟩ := hbrisk.stepLoop (himage ▸ hnatives) hstep
    exact ⟨hbrisk', himage'.trans himage⟩

/-- A run does not depend on its batches.  In a machine that has only been started and stepped no
line is waiting; two batches do what one of both sizes does, and are counted alike; so do any
batches that allow for as many instructions; and once nothing is left to execute, so do all that
allow for more.  What is compared is the whole machine, or the crash. -/
theorem batches_agree {image : Image} (hnatives : image.natives.Brisk) {m : Machine}
    (hm : m.Driven image) :
    m.line = none ∧
      (∀ a b : Int64, 0 ≤ a → 0 ≤ b → a.toInt + b.toInt < 2 ^ 63 →
        (do return (← step a) + (← step b)) m = step (a + b) m) ∧
      (∀ batches batches', allotted batches = allotted batches' →
        stepAll batches m = stepAll batches' m) ∧
      ∀ batches batches', Over (stepAll batches m) → allotted batches ≤ allotted batches' →
        stepAll batches' m = stepAll batches m := by
  obtain ⟨hbrisk, himage⟩ := hm.brisk hnatives
  have hnatives : m.image.natives.Brisk := himage ▸ hnatives
  refine ⟨hbrisk.line_eq_none, fun a b ha hb hfits => ?_, fun batches batches' hsame => ?_,
    fun batches batches' hover hle => ?_⟩
  · have hsum : allotted [a, b] = (a + b).toNatClampNeg := by
      rw [Int64.le_iff_toInt_le, Int64.toInt_zero] at ha hb
      simp only [allotted, List.map_cons, List.map_nil, List.sum_cons, List.sum_nil,
        toNatClampNeg_eq, toInt_add_of_fits (show -2 ^ 63 ≤ a.toInt + b.toInt by omega) hfits]
      omega
    rw [← stepAll_pair, hbrisk.stepAll_eq hnatives, hsum, hbrisk.step_eq]
  · rw [hbrisk.stepAll_eq hnatives, hbrisk.stepAll_eq hnatives, hsame]
  · rw [hbrisk.stepAll_eq hnatives] at hover ⊢
    rw [hbrisk.stepAll_eq hnatives]
    exact stepLoop_of_over hover hle

/-- A routine that parks the machine and asks for a line. -/
def question (onLine : String → Routine) : Routine :=
  .suspend (.readLine onLine fun _ => .nothing)

/-- A routine that pushes a line and lets the machine go on. -/
def answered (line : String) : Routine := .push (.ofString line) fun _ => .resume .nothing

/-- A program that twice asks for a line, which is pushed, and then stops. -/
def twoQuestions : Image where
  code := #[(Opcode.csp, 0, 0), (.csp, 0, 0), (.stp, 0, 0)].map
    fun (op, x, y) => (Word.encode op.byte x y).toOption.getD default
  natives := { natives := #[{ name := "Ask", body := fun _ => question answered }] }
  frozen := true

private theorem twoQuestions_brisk : twoQuestions.natives.Brisk := by
  intro index native hnative arguments
  match index with
  | 0 =>
    obtain rfl := Option.some.inj hnative
    refine ⟨rfl, fun _ _ => trivial, fun _ => trivial⟩
  | _ + 1 => cases hnative

/-- Whether the lines are asked for in one batch or in two makes no difference. -/
theorem batches_agree_two_questions :
    ∃ m, create? (some twoQuestions)
        { storeSize := 16, console := some { mode := .prompt, lines := ["Ada", "Eve"] } } = .ok m ∧
      (do return (← step 1) + (← step 2)) m.run = step (1 + 2) m.run ∧
      stepAll [2, 1, 7] m.run = stepAll [5, 5] m.run := by
  obtain ⟨m, hcreate⟩ : ∃ m, create? (some twoQuestions)
      { storeSize := 16, console := some { mode := .prompt, lines := ["Ada", "Eve"] } } = .ok m :=
    ⟨_, rfl⟩
  have hdriven : m.run.Driven twoQuestions := .run (.create hcreate fun c hc => by cases hc; rfl)
  obtain ⟨-, hadd, hsame, -⟩ := batches_agree twoQuestions_brisk hdriven
  exact ⟨m, hcreate, hadd 1 2 (by decide) (by decide) (by decide), hsame _ _ (by decide)⟩

/-- A program that stops at once. -/
def quitter : Image where
  code := #[(Word.encode Opcode.stp.byte 0 0).toOption.getD default]
  frozen := true

/-- A program that asks for a line, and for another one when it gets the first. -/
def askingAgain : Image where
  code := #[(Word.encode Opcode.csp.byte 0 0).toOption.getD default]
  natives :=
    { natives := #[{ name := "Ask", body := fun _ => question fun _ => question answered }] }
  frozen := true

/-- The state of the machine that a batch leaves. -/
def stateAfter? : EStateM.Result Crash Machine Nat → Option RunState
  | .ok _ m => some m.state
  | .error .. => none

/-- Two batches do not do what one of both sizes does if that size wraps, or if a line is waiting
between them because a routine that gets a line asks for another. -/
theorem batches_disagree :
    (∃ m, create? (some quitter) { storeSize := 16 } = .ok m ∧
      (do return (← step 4611686018427387904) + (← step 4611686018427387904)) m.run ≠
        step (4611686018427387904 + 4611686018427387904) m.run) ∧
      ∃ m, create? (some askingAgain) { storeSize := 16 } = .ok m ∧
        (do return (← step 1) + (← step 0)) m.run ≠ step (1 + 0) m.run := by
  refine ⟨⟨_, rfl, fun h => ?_⟩, ⟨_, rfl, fun h => ?_⟩⟩
  · exact absurd (congrArg stateAfter? h) (by decide +kernel)
  · exact absurd (congrArg stateAfter? h) (by decide +kernel)

end Machine

end PCode
