import PCode.Native.Library
import PCode.Proofs.Machine.Instructions
import PCode.Proofs.Machine.Lasting
import PCode.Proofs.Native.Registry

/-!
# Native procedures and the stack

A native procedure pops its arguments and leaves its result.  In between, most
procedures only read and write words, reserve or release blocks, or end the run.
Reading a line is different: the machine is suspended, and the line is pushed
when it arrives, at once or later.

Main definitions and results:

- `Routine.Tame`: a routine that neither pushes nor suspends the machine.
- `Library.tame_or_readLn`: the standard procedures are tame, apart from the one that reads a line.
- `Machine.Served`: what a call of a native procedure leaves.
- `Machine.meets_callNative`: a call of a standard procedure leaves its result, or waits for it.
-/

namespace PCode

/-! ## Tame routines -/

namespace Routine

/-- A routine that neither pushes nor suspends the machine, and fails only in an accepted way as
long as its requests do. -/
def Tame (P : Failure → Prop) : Routine → Prop
  | .done _ => True
  | .fail why => P why
  | .stop next | .delay _ next | .writeLine _ next | .randomize next => next.Tame P
  | .keyPressed next => ∀ pressed, (next pressed).Tame P
  | .readKey next => ∀ key, (next key).Tame P
  | .random next => ∀ x, (next x).Tame P
  | .readMemory _ next => ∀ answer, (∀ why, answer = .error why → P why) → (next answer).Tame P
  | .writeMemory _ _ next => ∀ answer, (∀ why, answer = .error why → P why) → (next answer).Tame P
  | .malloc _ next => ∀ answer, (∀ why, answer = .error why → P why) → (next answer).Tame P
  | .free _ next => ∀ answer, (∀ why, answer = .error why → P why) → (next answer).Tame P
  | .suspend _ | .resume _ | .readLine _ _ | .push _ _ => False

private theorem tame_orFail {α : Type} {P : Failure → Prop} {next : α → Routine}
    (h : ∀ a, (next a).Tame P) (answer : Except Failure α)
    (hanswer : ∀ why, answer = .error why → P why) : (orFail next answer).Tame P := by
  cases answer with
  | ok a => exact h a
  | error why => exact hanswer why rfl

end Routine

namespace Library

variable {P : Failure → Prop}

private theorem tame_withCount (hP : ∀ text, P (.reason text)) {name : String}
    {least greatest : Nat} {arguments : Array Value} (next : Routine) (h : next.Tame P) :
    (withCount name least greatest arguments next).Tame P := by
  unfold withCount
  split
  · exact h
  · exact hP _

private theorem tame_realFunction (hP : ∀ text, P (.reason text)) (name : String)
    (returns : TypeCode) (f : Float → Value) (arguments : Array Value) :
    ((realFunction name returns f).body arguments).Tame P :=
  tame_withCount hP (.done _) trivial

private theorem tame_adjust (hP : ∀ text, P (.reason text)) (name : String) (sign : Int64)
    (arguments : Array Value) : ((adjust name sign).body arguments).Tame P :=
  tame_withCount hP _ (Routine.tame_orFail fun _ => Routine.tame_orFail fun _ => trivial)

private theorem tame_allocate (hP : ∀ text, P (.reason text)) (name : String)
    (arguments : Array Value) : ((allocate name).body arguments).Tame P :=
  tame_withCount hP _ (Routine.tame_orFail fun _ => Routine.tame_orFail fun _ => trivial)

private theorem tame_dispose (hP : ∀ text, P (.reason text)) (arguments : Array Value) :
    (dispose.body arguments).Tame P :=
  tame_withCount hP _
    (Routine.tame_orFail fun _ => Routine.tame_orFail fun _ => Routine.tame_orFail fun _ => trivial)

private theorem tame_random (hP : ∀ text, P (.reason text)) (arguments : Array Value) :
    (random.body arguments).Tame P := by
  refine tame_withCount hP (.random _) fun x => ?_
  split <;> trivial

private theorem tame_mathematics (hP : ∀ text, P (.reason text)) {native : Native}
    (h : native ∈ mathematics) (arguments : Array Value) : (native.body arguments).Tame P := by
  simp only [mathematics, List.mem_cons, List.not_mem_nil, or_false] at h
  rcases h with rfl | rfl | rfl | rfl | rfl | rfl | rfl | rfl | rfl | rfl | rfl
  all_goals first
    | exact tame_realFunction hP ..
    | exact tame_random hP _
    | exact tame_withCount hP (.randomize .nothing) trivial

private theorem tame_system (hP : ∀ text, P (.reason text)) {native : Native}
    (h : native ∈ system) : (∀ arguments, (native.body arguments).Tame P) ∨ native = readLn := by
  simp only [system, List.mem_cons, List.not_mem_nil, or_false] at h
  rcases h with rfl | rfl | rfl | rfl | rfl | rfl | rfl | rfl | rfl
  · exact .inl (tame_adjust hP _ _)
  · exact .inl (tame_adjust hP _ _)
  · exact .inl fun _ => trivial
  · exact .inr rfl
  · exact .inl fun _ => trivial
  · exact .inl fun _ => tame_withCount hP (.delay _ .nothing) trivial
  · exact .inl (tame_allocate hP _)
  · exact .inl (tame_allocate hP _)
  · exact .inl (tame_dispose hP)

private theorem tame_keyboard {native : Native} (h : native ∈ keyboard) (arguments : Array Value) :
    (native.body arguments).Tame P := by
  simp only [keyboard, List.mem_cons, List.not_mem_nil, or_false] at h
  rcases h with rfl | rfl
  · exact fun _ => trivial
  · exact fun _ => trivial

/-- The standard procedures are tame, apart from the one that reads a line. -/
theorem tame_or_readLn (hP : ∀ text, P (.reason text)) {native : Native} (h : native ∈ natives) :
    (∀ arguments, (native.body arguments).Tame P) ∨ native = readLn := by
  simp only [natives, List.mem_append] at h
  rcases h with (h | h) | h
  · exact .inl (tame_mathematics hP h)
  · exact tame_system hP h
  · exact .inl (tame_keyboard h)

/-- Reading a line with arguments is refused. -/
theorem tame_readLn (hP : ∀ text, P (.reason text)) {arguments : Array Value}
    (h : arguments.size ≠ 0) : (readLn.body arguments).Tame P := by
  have hwrong : ¬ (0 ≤ arguments.size ∧ arguments.size ≤ 0) := by omega
  simp only [readLn, withCount, if_neg hwrong]
  exact hP _

end Library

/-! ## The standard registry -/

private theorem Library.names_distinct : (natives.map fun n => Text.lower n.name).Nodup := by
  have hlists : (natives.map fun n => n.name.toList.map Text.lowerChar).Nodup := by decide +kernel
  refine List.pairwise_map.mpr ((List.pairwise_map.mp hlists).imp fun hne heq => hne ?_)
  simpa [Text.lower] using congrArg String.toList heq

/-- The standard registry holds the standard procedures in their order. -/
theorem Library.registry_natives : registry.natives = natives.toArray := by
  obtain ⟨byName, hregister⟩ := Registry.registerAll_eq_ok (r := .empty) names_distinct
    (fun n _ => Std.HashMap.not_mem_empty) (by decide)
  have heq : registry = { natives := Registry.empty.natives ++ natives.toArray, byName } := by
    unfold registry register
    rw [hregister]
  rw [heq]
  exact Array.empty_append

private theorem Library.registry_at? (index : Nat) : registry.at? index = natives[index]? := by
  rw [Registry.at?, registry_natives, List.getElem?_toArray]

/-- The standard registry holds standard procedures only. -/
theorem Library.mem_of_at? {index : Nat} {native : Native}
    (h : registry.at? index = some native) : native ∈ natives :=
  List.mem_of_getElem? (registry_at? index ▸ h)

/-- The library has fewer procedures than a word can count. -/
theorem Library.registry_size : registry.size < 2 ^ 63 := by
  have hlength : natives.length = 22 := rfl
  rw [Registry.size, registry_natives, List.size_toArray]
  omega

/-- A failure that says nothing against the order of the stack. -/
def Failure.Benign : Failure → Prop
  | .machine e => e.fault.Benign
  | .notSuspended | .reason _ => True

/-- An answer that is no failure, or one that says nothing against the order of the stack. -/
def Failure.BenignIn {α : Type} (answer : Except Failure α) : Prop :=
  ∀ why, answer = .error why → why.Benign

private theorem Failure.benignIn_ok {α : Type} (a : α) : BenignIn (.ok a) := fun _ h => nomatch h

private theorem Failure.benignIn_error {α : Type} {why : Failure} (h : why.Benign) :
    BenignIn (.error why : Except Failure α) := fun _ hwhy => Except.error.inj hwhy ▸ h

namespace Machine

/-! ## Carrying out a routine -/

/-- The stores among some accesses, as far as the machine allows them. -/
def storesAmong (accesses : List (Machine × Access)) : List (Machine × Int64) :=
  accesses.flatMap fun x =>
    match x.2 with
    | .store a _ => storesAt a x.1
    | _ => []

private theorem mem_storesAmong_cons {p : Machine × Int64} {accesses : List (Machine × Access)}
    (h : p ∈ storesAmong accesses) (x : Machine × Access) : p ∈ storesAmong (x :: accesses) :=
  List.mem_append_right _ h

/-- One machine differs from another in its store, in the ends of its stack and heap and in what
concerns the host, and it may have been stopped. -/
structure Beside (m m' : Machine) : Prop where
  image : m'.image = m.image
  pc : m'.pc = m.pc
  mp : m'.mp = m.mp
  error : m'.error = m.error
  reader : m'.reader = m.reader
  suspendedInCall : m'.suspendedInCall = m.suspendedInCall
  state : m'.state = m.state ∨ m'.state = .stopped

namespace Beside

variable {m m₁ m₂ : Machine}

private theorem refl (m : Machine) : Beside m m := ⟨rfl, rfl, rfl, rfl, rfl, rfl, .inl rfl⟩

private theorem trans (h₁ : Beside m m₁) (h₂ : Beside m₁ m₂) : Beside m m₂ where
  image := h₂.image.trans h₁.image
  pc := h₂.pc.trans h₁.pc
  mp := h₂.mp.trans h₁.mp
  error := h₂.error.trans h₁.error
  reader := h₂.reader.trans h₁.reader
  suspendedInCall := h₂.suspendedInCall.trans h₁.suspendedInCall
  state := by
    rcases h₂.state with h | h
    · rw [h]
      exact h₁.state
    · exact .inr h

private theorem of_still (np : Int64) (h : m₁.still = { m.still with np }) : Beside m m₁ where
  image := (congrArg Machine.image h :)
  pc := (congrArg Machine.pc h :)
  mp := (congrArg Machine.mp h :)
  error := (congrArg Machine.error h :)
  reader := (congrArg Machine.reader h :)
  suspendedInCall := (congrArg Machine.suspendedInCall h :)
  state := .inl (congrArg Machine.state h :)

/-- A stopped machine is beside the one that ran. -/
theorem stop (m : Machine) : Beside m m.stop := by
  unfold Machine.stop
  split
  · exact refl m
  · exact ⟨rfl, rfl, rfl, rfl, rfl, rfl, .inr rfl⟩

private theorem hold (m : Machine) (milliseconds : Int64) : Beside m (m.hold milliseconds) := by
  unfold Machine.hold
  split
  · exact refl m
  · exact ⟨rfl, rfl, rfl, rfl, rfl, rfl, .inl rfl⟩

private theorem readKey (m : Machine) : Beside m m.readKey.2 := by
  unfold Machine.readKey
  split
  · exact ⟨rfl, rfl, rfl, rfl, rfl, rfl, .inl rfl⟩
  · exact refl m

private theorem generator (m : Machine) (g : Generator) : Beside m { m with generator := g } :=
  ⟨rfl, rfl, rfl, rfl, rfl, rfl, .inl rfl⟩

end Beside

section

variable {m : Machine} {top heap : Nat} {guards : List (Nat × Value)}

/-- A machine beside another whose stack is still in order. -/
structure Tended (m : Machine) (top : Nat) (guards : List (Nat × Value)) (m' : Machine) : Prop where
  keeps : ∃ heap, Keeps m' top heap guards
  beside : Beside m m'

/-- What a machine tends to beside another, it tends to. -/
theorem Tended.after {m₁ m₂ : Machine} (h : Tended m₁ top guards m₂) (hbeside : Beside m m₁) :
    Tended m top guards m₂ :=
  ⟨h.keeps, hbeside.trans h.beside⟩

private theorem Keeps.stop (h : Keeps m top heap guards) : Keeps m.stop top heap guards := by
  unfold Machine.stop
  split
  · exact h
  · exact h.transfer rfl rfl rfl rfl

private theorem Keeps.hold (h : Keeps m top heap guards) (milliseconds : Int64) :
    Keeps (m.hold milliseconds) top heap guards := by
  unfold Machine.hold
  split
  · exact h
  · exact h.transfer rfl rfl rfl rfl

private theorem Keeps.readKey (h : Keeps m top heap guards) :
    Keeps m.readKey.2 top heap guards := by
  unfold Machine.readKey
  split
  · exact h.transfer rfl rfl rfl rfl
  · exact h

private theorem Keeps.generator (h : Keeps m top heap guards) (g : Generator) :
    Keeps { m with generator := g } top heap guards :=
  h.transfer rfl rfl rfl rfl

/-- What a native procedure ends with: the stack in order, and no failure that says otherwise. -/
def CarriedOut (m : Machine) (top : Nat) (guards : List (Nat × Value))
    (result : Except Failure Value) (m' : Machine) : Prop :=
  Tended m top guards m' ∧ Failure.BenignIn result

private theorem Meets.after {m₁ : Machine} {r : Routine} (hbeside : Beside m m₁)
    (h : Meets (ofHost (carryOut r)) m₁ (CarriedOut m₁ top guards)) :
    Meets (ofHost (carryOut r)) m₁ (CarriedOut m top guards) :=
  h.mono fun _ _ ⟨htended, hbenign⟩ => ⟨htended.after hbeside, hbenign⟩

/-- What follows an access, whether it succeeded or was refused. -/
theorem meets_attempt {α : Type} {access : Instr α} {next : Except Failure α → Routine}
    (htries : Tries access m fun _ => Tended m top guards) (hm : Tended m top guards m)
    (hnext : ∀ answer m' heap', attempt access m = .ok answer m' → Keeps m' top heap' guards →
      Failure.BenignIn answer →
        Meets (ofHost (carryOut (next answer))) m' (CarriedOut m' top guards)) :
    Meets (ofHost (do carryOut (next (← attempt access)))) m (CarriedOut m top guards) := by
  have hrun (answer) (m') (hattempt : attempt access m = .ok answer m')
      (htended : Tended m top guards m') (hbenign : Failure.BenignIn answer) :
      Meets (ofHost (do carryOut (next (← attempt access)))) m (CarriedOut m top guards) := by
    obtain ⟨⟨heap', hkeeps⟩, hbeside⟩ := htended
    have hrest := (hnext answer m' heap' hattempt hkeeps hbenign).after hbeside
    unfold Meets ofHost at hrest ⊢
    simpa only [bind, EStateM.bind, hattempt] using hrest
  rcases htries with ⟨a, m', heq, htended⟩ | ⟨cause, heq, hbenign⟩ | ⟨m', heq⟩
  · exact hrun (.ok a) m' (by simp only [attempt, heq]) htended (Failure.benignIn_ok a)
  · have hwhy : Failure.Benign (.machine (m.errorOf cause)) := hbenign
    exact hrun (.error (.machine (m.errorOf cause))) m (by simp only [attempt, heq]) hm
      (Failure.benignIn_error hwhy)
  · unfold Meets ofHost
    simp only [bind, EStateM.bind, attempt, heq]

/-- A tame routine keeps the stack in order, if it stores only what may be stored. -/
theorem meets_carryOut (r : Routine) (htame : r.Tame Failure.Benign) (h : Keeps m top heap guards)
    (hclear : ∀ p ∈ storesAmong (r.accesses m), Clear top guards p.1 p.2) :
    Meets (ofHost (carryOut r)) m (CarriedOut m top guards) := by
  have htended {m heap} (h : Keeps m top heap guards) : Tended m top guards m :=
    ⟨⟨heap, h⟩, .refl m⟩
  induction r generalizing m heap with
  | done result => exact ⟨htended h, Failure.benignIn_ok result⟩
  | fail why => exact ⟨htended h, Failure.benignIn_error htame⟩
  | stop next ih =>
    have hnext := (ih htame h.stop hclear).after (.stop m)
    exact hnext
  | delay milliseconds next ih =>
    have hnext := (ih htame (h.hold milliseconds) hclear).after (.hold m milliseconds)
    exact hnext
  | writeLine line next ih =>
    have hkeeps : Keeps (m.writeLine line) top heap guards := h.transfer rfl rfl rfl rfl
    have hbeside : Beside m (m.writeLine line) := ⟨rfl, rfl, rfl, rfl, rfl, rfl, .inl rfl⟩
    have hnext := (ih htame hkeeps hclear).after hbeside
    exact hnext
  | keyPressed next ih => exact ih _ (htame _) h hclear
  | readKey next ih =>
    have hnext := (ih m.readKey.1 (htame _) h.readKey hclear).after (.readKey m)
    exact hnext
  | random next ih =>
    rw [Routine.accesses_random] at hclear
    have hnext := (ih m.random.1 (htame _) (h.generator m.generator.next.2) hclear).after (m := m)
      (.generator m _)
    unfold Meets ofHost at hnext ⊢
    rwa [carryOut_random]
  | randomize next ih =>
    rw [Routine.accesses_randomize] at hclear
    have hnext := (ih htame (h.generator _) hclear).after (m := m) (.generator m _)
    unfold Meets ofHost at hnext ⊢
    rwa [carryOut_randomize]
  | readMemory address next ih =>
    refine meets_attempt ((tries_load m address).mono fun _ m' heq => by rw [heq]; exact htended h)
      (htended h) fun answer m' heap' hattempt h' hbenign => ?_
    refine ih answer (htame answer hbenign) h' fun p hp => hclear p ?_
    simpa only [Routine.accesses, following_ok hattempt] using hp
  | writeMemory address value next ih =>
    have hstore : ∀ p ∈ storesAt address m, Clear top guards p.1 p.2 := fun p hp =>
      hclear p (List.mem_flatMap.mpr ⟨_, .head _, hp⟩)
    refine meets_attempt ((h.storeAt value hstore).mono fun _ m' hstored =>
      ⟨⟨heap, hstored.1⟩, .of_still m.np hstored.2⟩) (htended h)
      fun answer m' heap' hattempt h' hbenign => ?_
    refine ih answer (htame answer hbenign) h' fun p hp => hclear p (mem_storesAmong_cons ?_ _)
    simpa only [following_ok hattempt] using hp
  | malloc size next ih =>
    refine meets_attempt ((tries_malloc h size).mono fun _ m' hblock => hblock.elim
      fun heap' hkept => ⟨⟨heap', hkept.1⟩, .of_still _ hkept.2⟩) (htended h)
      fun answer m' heap' hattempt h' hbenign => ?_
    refine ih answer (htame answer hbenign) h' fun p hp => hclear p (mem_storesAmong_cons ?_ _)
    simpa only [following_ok hattempt] using hp
  | free address next ih =>
    refine meets_attempt ((tries_free h address).mono fun _ m' hfreed => hfreed.elim
      fun heap' hkept => ⟨⟨heap', hkept.1⟩, .of_still _ hkept.2⟩) (htended h)
      fun answer m' heap' hattempt h' hbenign => ?_
    refine ih answer (htame answer hbenign) h' fun p hp => hclear p (mem_storesAmong_cons ?_ _)
    simpa only [following_ok hattempt] using hp
  | suspend | resume | readLine | push => exact htame.elim

/-! ## Lines -/

/-- What a call of a native procedure leaves: the machine is stopped, or goes on with the result on
the stack, or waits for a line that will be the result. -/
structure Served (m : Machine) (top : Nat) (guards : List (Nat × Value)) (results : Nat)
    (m' : Machine) : Prop where
  image : m'.image = m.image
  error : m'.error = m.error
  outcome : m'.state = .stopped ∨ m'.pc = m.pc ∧ m'.mp = m.mp ∧ ∃ heap,
    (m'.state = .running ∧ m'.reader = none ∧ Keeps m' (top + results) heap guards) ∨
    (m'.state = .suspended ∧ m'.reader = some (.native Library.lineArrived) ∧ results = 1 ∧
      Keeps m' top heap guards)

private theorem Served.congr {b m' : Machine} {results : Nat} (h : Served m top guards results m')
    (himage : m.image = b.image) (herror : m.error = b.error) (hpc : m.pc = b.pc)
    (hmp : m.mp = b.mp) : Served b top guards results m' where
  image := h.image.trans himage
  error := h.error.trans herror
  outcome := by
    rw [← hpc, ← hmp]
    exact h.outcome

/-- A line that arrives is pushed, and the machine goes on, or stops if there is no room. -/
theorem meets_lineArrived (h : Keeps m top heap guards) (hstate : m.state = .suspended)
    (hreader : m.reader = none) (line : String) :
    Meets (ofHost (carryOut (Library.lineArrived line))) m fun _ m' =>
      Served m top guards 1 m' ∧ m'.suspendedInCall = m.suspendedInCall := by
  rcases tries_push h (.ofString line) with ⟨u, m₁, heq, hkeeps, hstill⟩ | ⟨cause, heq, -⟩
    | ⟨m₁, heq⟩
  · have hbeside : Beside m m₁ := .of_still m.np hstill
    have hsuspended : m₁.state = .suspended := (congrArg Machine.state hstill :).trans hstate
    have hrun : carryOut (Library.lineArrived line) m = .ok (.ok .undefined) m₁.resume := by
      simp only [Library.lineArrived, carryOut, bind, EStateM.bind, attempt, heq]
      rfl
    have hresume : m₁.resume = { m₁ with state := .running } := if_pos hsuspended
    have hgoes : Keeps { m₁ with state := .running } (top + 1) heap guards :=
      (hkeeps.subset fun p hp => .tail _ hp).transfer rfl rfl rfl rfl
    have hmeets : ofHost (carryOut (Library.lineArrived line)) m =
        .ok (.ok .undefined) { m₁ with state := .running } := by simp only [ofHost, hrun, hresume]
    refine meets_of_eq hmeets ⟨⟨hbeside.image, hbeside.error, .inr ?_⟩, ?_⟩
    · exact ⟨hbeside.pc, hbeside.mp, heap, .inl ⟨rfl, hbeside.reader.trans hreader, hgoes⟩⟩
    · exact hbeside.suspendedInCall
  · have hrun : carryOut (Library.lineArrived line) m = .ok (.ok .undefined) m.stop := by
      simp only [Library.lineArrived, carryOut, bind, EStateM.bind, attempt, heq]
      rfl
    have hstop : m.stop = { m with state := .stopped, finishes := m.finishes + 1 } :=
      if_neg (by simp [hstate])
    have hmeets : ofHost (carryOut (Library.lineArrived line)) m =
        .ok (.ok .undefined) { m with state := .stopped, finishes := m.finishes + 1 } := by
      simp only [ofHost, hrun, hstop]
    exact meets_of_eq hmeets ⟨⟨rfl, rfl, .inl rfl⟩, rfl⟩
  · unfold Meets ofHost
    simp only [Library.lineArrived, carryOut, bind, EStateM.bind, attempt, heq]

/-- A machine that waits for a line goes on when one has arrived, and waits on otherwise. -/
theorem meets_pollInput_waiting (h : Keeps m top heap guards) (hstate : m.state = .suspended)
    (hreader : m.reader = some (.native Library.lineArrived)) :
    Meets (ofHost pollInput) m fun _ m' =>
      Served m top guards 1 m' ∧ m'.suspendedInCall = m.suspendedInCall := by
  cases hline : m.line with
  | none =>
    have hpoll : pollInput m = .ok () m := by simp only [pollInput, hline]
    refine meets_of_eq (a := ()) (by simp only [ofHost, hpoll]) ⟨⟨rfl, rfl, .inr ?_⟩, rfl⟩
    exact ⟨rfl, rfl, heap, .inr ⟨hstate, hreader, rfl, h⟩⟩
  | some line =>
    have hkeeps : Keeps { m with line := none, reader := none } top heap guards :=
      h.transfer rfl rfl rfl rfl
    have harrived := meets_lineArrived hkeeps hstate rfl line
    unfold Meets ofHost at harrived ⊢
    simp only [pollInput, hline, hreader, handOn, bind, EStateM.bind]
    cases hrun : carryOut (Library.lineArrived line) { m with line := none, reader := none } with
    | ok result m' =>
      rw [hrun] at harrived
      exact ⟨harrived.1.congr rfl rfl rfl rfl, harrived.2⟩
    | error c m' =>
      rw [hrun] at harrived
      exact harrived

/-! ## Calls -/

/-- The end of a call of a native procedure. -/
def conclude (native : Native) (result : Except Failure Value) : Instr Unit := do
  modify fun m => { m with inCall := false }
  ofHost pollInput
  match result with
  | .error (.machine e) => throw (.error e)
  | .error why => raise (.native native.name why.message)
  | .ok v =>
    let m ← get
    if native.isFunction ∧ m.state = .running ∧ !m.suspendedInCall then push v

/-- The call of a known native procedure pops its arguments, runs its routine and polls the input.
-/
theorem callNative_eq {native : Native} {index : Nat}
    (hnative : m.image.natives.at? index = some native) (n : Nat) :
    callNative n index m = (do
      let arguments ← popArguments n []
      modify fun m : Machine => { m with suspendedInCall := false, inCall := true }
      let result ← ofHost (carryOut (native.body arguments.toArray))
      conclude native result) m := by
  refine (bind_eq rfl).trans ?_
  simp only [hnative]
  rfl

/-- The call of a native procedure that is not known is refused. -/
theorem callNative_missing {index : Nat} (hnative : m.image.natives.at? index = none) (n : Nat) :
    callNative n index m = .error (.fault (.noNative index)) m := by
  refine (bind_eq rfl).trans ?_
  simp only [hnative]
  rfl

private theorem meets_modify {α : Type} {f : Machine → Machine} {x : Instr α}
    {Q : α → Machine → Prop} (h : Meets x (f m) Q) : Meets (modify f >>= fun _ => x) m Q :=
  h

private theorem meets_get {α : Type} {f : Machine → Instr α} {Q : α → Machine → Prop}
    (h : Meets (f m) m Q) : Meets (get >>= f) m Q :=
  h

private theorem meets_ofHost {α β : Type} {request : Host α} {a : α} {m' : Machine}
    {f : α → Instr β}
    {Q : β → Machine → Prop} (hrequest : request m = .ok a m') (h : Meets (f a) m' Q) :
    Meets (ofHost request >>= f) m Q :=
  Meets.bind (meets_of_eq (a := a) (by simp only [ofHost, hrequest]) h)

/-- A procedure that failed makes the instruction fail. -/
theorem meets_conclude_error {native : Native} {why : Failure} (hreader : m.reader = none)
    (hbenign : why.Benign) {Q : Unit → Machine → Prop} :
    Meets (conclude native (.error why)) m Q := by
  refine meets_modify (meets_ofHost (pollInput_unawaited (.inr hreader)) ?_)
  cases why with
  | machine e => exact hbenign
  | notSuspended => exact meets_raise trivial
  | reason text => exact meets_raise trivial

/-- The result of a function is pushed, unless the machine was stopped. -/
theorem meets_conclude_ok {native : Native} {v : Value} (h : Keeps m top heap guards)
    (hstate : m.state = .running ∨ m.state = .stopped) (hreader : m.reader = none)
    (hcall : m.suspendedInCall = false) :
    Meets (conclude native (.ok v)) m fun _ =>
      Served m top guards (Item.results native.isFunction) := by
  have hkeeps : Keeps { m with inCall := false, line := none } top heap guards :=
    h.transfer rfl rfl rfl rfl
  refine meets_modify (meets_ofHost (pollInput_unawaited (.inr hreader)) (meets_get ?_))
  rcases hstate with hrunning | hstopped
  · cases hfunction : native.isFunction with
    | true =>
      rw [if_pos (by simp [hrunning, hcall])]
      refine (tries_push hkeeps v).meets.mono fun _ m' ⟨hpushed, hstill⟩ => ?_
      have hbeside : Beside { m with inCall := false, line := none } m' :=
        .of_still m.np hstill
      refine ⟨hbeside.image, hbeside.error, .inr ⟨hbeside.pc, hbeside.mp, heap, .inl ⟨?_, ?_, ?_⟩⟩⟩
      · exact (congrArg Machine.state hstill :).trans hrunning
      · exact hbeside.reader.trans hreader
      · exact hpushed.subset fun p hp => .tail _ hp
    | false =>
      rw [if_neg (by simp)]
      exact meets_pure ⟨rfl, rfl, .inr ⟨rfl, rfl, heap, .inl ⟨hrunning, hreader, hkeeps⟩⟩⟩
  · rw [if_neg (by simp [hstopped])]
    exact meets_pure ⟨rfl, rfl, .inl hstopped⟩

/-- A procedure that has requested a line leaves it to the line to be the result. -/
theorem meets_conclude_waiting {native : Native} {v : Value} (h : Keeps m top heap guards)
    (hstate : m.state = .suspended) (hreader : m.reader = some (.native Library.lineArrived))
    (hcall : m.suspendedInCall = true) :
    Meets (conclude native (.ok v)) m fun _ => Served m top guards 1 := by
  have hkeeps : Keeps { m with inCall := false } top heap guards := h.transfer rfl rfl rfl rfl
  refine meets_modify
    ((meets_pollInput_waiting hkeeps hstate hreader).seq fun _ m' ⟨hserved, hcall'⟩ => ?_)
  refine meets_get ?_
  rw [if_neg (by simp [hcall', hcall])]
  exact meets_pure (hserved.congr rfl rfl rfl rfl)

/-- Requesting a line changes nothing but what the console knows of it. -/
theorem requestLine_eq (m : Machine) :
    ∃ line console, m.requestLine = { m with line, console } := by
  have hdeliver (m : Machine) (text : String) : ∃ line, m.deliver text = { m with line } := by
    unfold deliver
    split
    · exact ⟨_, rfl⟩
    · exact ⟨m.line, rfl⟩
  unfold requestLine
  split
  · obtain ⟨line, heq⟩ := hdeliver m ""
    exact ⟨line, m.console, heq⟩
  · simp only
    split
    · obtain ⟨line, heq⟩ := hdeliver { m with console := some _ } _
      exact ⟨line, _, heq⟩
    · exact ⟨m.line, _, rfl⟩
    · exact ⟨m.line, _, rfl⟩

/-- Reading a line suspends the machine and requests one. -/
theorem carryOut_readLn (hrunning : m.state = .running) (hcall : m.inCall = true) :
    ∃ m', carryOut (Library.readLn.body #[]) m = .ok (.ok .undefined) m' ∧
      m'.state = .suspended ∧ m'.reader = some (.native Library.lineArrived) ∧
      m'.suspendedInCall = true ∧
      ∃ line console, m' = { m with state := m'.state, reader := m'.reader,
                                    suspendedInCall := m'.suspendedInCall, line, console } := by
  have hsuspend : m.suspend = { m with state := .suspended, suspendedInCall := true } := by
    unfold suspend
    rw [if_pos hrunning, hcall, Bool.or_true]
  obtain ⟨line, console, hrequest⟩ := requestLine_eq
    { m with state := .suspended, suspendedInCall := true,
             reader := some (.native Library.lineArrived) }
  have hread : m.suspend.readLine (.native Library.lineArrived) = (.ok (),
      { m with state := .suspended, suspendedInCall := true,
               reader := some (.native Library.lineArrived), line, console }) := by
    rw [hsuspend, readLine, if_pos rfl, hrequest]
  have hbody : Library.readLn.body #[] = .suspend (.readLine Library.lineArrived
      (Routine.orFail fun _ => .nothing)) := rfl
  refine ⟨(m.suspend.readLine (.native Library.lineArrived)).2, ?_, ?_⟩
  · simp only [hbody, carryOut, hread]
    rfl
  · rw [hread]
    exact ⟨rfl, rfl, rfl, line, console, rfl⟩

/-- A call of a standard procedure pops its arguments and leaves its result, or waits for it, if it
stores only what may be stored. -/
theorem meets_callNative {n index : Nat} {native : Native} (h : Keeps m (top + n) heap guards)
    (hbase : m.image.typedConstants.size ≤ top) (hbelow : ∀ p ∈ guards, p.1 < top)
    (hnative : m.image.natives.at? index = some native)
    (hkind : (∀ arguments, (native.body arguments).Tame Failure.Benign) ∨
      native = Library.readLn)
    (hrunning : m.state = .running) (hreader : m.reader = none)
    (hclear : ∀ p ∈ storesAmong (m.callAccesses n index), Clear top guards p.1 p.2) :
    Meets (callNative n index) m fun _ =>
      Served m top guards (Item.results native.isFunction) := by
  have hoperands : Operands m top heap guards n m := ⟨h, hbase, hbelow, rfl⟩
  unfold Meets
  rw [callNative_eq hnative]
  refine Meets.seq (hoperands.popArguments []).with_eq fun arguments m₁ hpop => ?_
  obtain ⟨hpopped, heq⟩ := hpop
  simp only [callAccesses, hnative, heq] at hclear
  have hstill := hpopped.still
  have hkeeps : Keeps { m₁ with suspendedInCall := false, inCall := true } top heap guards :=
    hpopped.keeps.transfer rfl rfl rfl rfl
  have hstate : m₁.state = .running := (congrArg Machine.state hstill :).trans hrunning
  have hreader₁ : m₁.reader = none := (congrArg Machine.reader hstill :).trans hreader
  have hserved {m₂ m' : Machine} (himage : m₂.image = m₁.image) (herror : m₂.error = m₁.error)
      (hpc : m₂.pc = m₁.pc) (hmp : m₂.mp = m₁.mp) {results : Nat}
      (hs : Served m₂ top guards results m') : Served m top guards results m' :=
    hs.congr (himage.trans (congrArg Machine.image hstill :))
      (herror.trans (congrArg Machine.error hstill :)) (hpc.trans (congrArg Machine.pc hstill :))
      (hmp.trans (congrArg Machine.mp hstill :))
  refine meets_modify ?_
  by_cases htame : (native.body arguments.toArray).Tame Failure.Benign
  · refine (meets_carryOut _ htame hkeeps fun p hp => hclear p ?_).seq
      fun result m₂ hcarried => ?_
    · exact List.mem_flatMap.mpr (List.mem_flatMap.mp hp |>.imp fun x hx =>
        ⟨List.mem_append_left _ hx.1, hx.2⟩)
    obtain ⟨⟨⟨heap', hkeeps'⟩, hbeside⟩, hbenign⟩ := hcarried
    cases result with
    | error why => exact meets_conclude_error (hbeside.reader.trans hreader₁) (hbenign why rfl)
    | ok v =>
      have hstate' : m₂.state = .running ∨ m₂.state = .stopped :=
        hbeside.state.imp_left fun heq => heq.trans hstate
      exact (meets_conclude_ok hkeeps' hstate' (hbeside.reader.trans hreader₁)
        hbeside.suspendedInCall).mono fun _ m' hs =>
          hserved hbeside.image hbeside.error hbeside.pc hbeside.mp hs
  · -- Only reading a line is not tame, and only when it is called as it should be.
    obtain rfl := hkind.resolve_left fun hall => htame (hall _)
    obtain rfl : arguments = [] := by
      refine Decidable.byContradiction fun hne => htame (Library.tame_readLn (fun _ => trivial) ?_)
      simpa using hne
    obtain ⟨m₂, hcarry, hsuspended, hwaits, hcall, line, console, hm₂⟩ := carryOut_readLn
      (m := { m₁ with suspendedInCall := false, inCall := true }) hstate rfl
    have hkeeps' : Keeps m₂ top heap guards := by
      rw [hm₂]
      exact hkeeps.transfer rfl rfl rfl rfl
    refine meets_ofHost hcarry ((meets_conclude_waiting hkeeps' hsuspended hwaits hcall).mono
      fun _ m' hs => hserved ?_ ?_ ?_ ?_ hs)
    all_goals rw [hm₂]

end

end Machine

end PCode
