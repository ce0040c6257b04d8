import PCode.Proofs.Machine.Inert

/-!
# Moves of the host

What a host does during a run is cut into moves, of which a call that steps the machine
is a row: it polls, and then executes instructions one by one.  Between two moves the host may
give a line, and it may change how its console will answer.

Main definitions and results:

- `Move`, `Machine.play`: what a host does, and the machine after it.
- `Machine.record`: the moves, each with the machine before it.
- `HostTurn`, `Machine.takeTurns`, `Machine.movesOf`: the calls of a host, and the moves that they
  are.
- `takeTurns_eq_play`: some calls are their moves.
- `image_of_move`: no move changes the image.
-/

namespace PCode

/-! ## Moves of the host -/

deriving instance DecidableEq for Console

/-- What a host does during a run: it hands on a line that has arrived, lets an instruction be
executed, gives a line, changes its console, or waits until the machine is no longer held. -/
inductive Move where
  | poll
  | execute
  | answer (line : String)
  | console (c : Option Console)
  | wait
  deriving DecidableEq

/-- The effect of a move. -/
def Move.run : Move → Host Unit
  | poll => Machine.pollInput
  | execute => Machine.stepOnce
  | answer line => fun m => .ok () (m.deliver line)
  | console c => fun m => .ok () { m with console := c }
  | wait => fun m => .ok () { m with held := 0 }

namespace Machine

/-- Make moves one after another, up to a crash. -/
def play : List Move → Host Unit
  | [] => pure ()
  | a :: moves => do
    a.run
    play moves

/-- Moves with the machine before each of them, up to a crash. -/
def record (m : Machine) : List Move → List (Machine × Move)
  | [] => []
  | a :: moves =>
    (m, a) ::
      match a.run m with
      | .ok _ m' => m'.record moves
      | .error .. => []

/-- The first moves are recorded first. -/
theorem record_isPrefix (m : Machine) (moves after : List Move) :
    m.record moves <+: m.record (moves ++ after) := by
  induction moves generalizing m with
  | nil => exact List.nil_prefix
  | cons a moves ih =>
    simp only [List.cons_append, record]
    refine (List.prefix_cons_inj _).mpr ?_
    cases a.run m with
    | ok u m₁ => exact ih m₁
    | error c m₁ => exact List.nil_prefix

end Machine

/-! ## Turns of the host -/

/-- What a host can do during a run without ending it: it steps the machine, gives a line, changes
its console, or waits. -/
inductive HostTurn where
  | step (n : Int64)
  | stepOnce
  | answer (line : String)
  | console (c : Option Console)
  | wait

namespace HostTurn

/-- The effect of a turn. -/
def call : HostTurn → Host Unit
  | step n => do let _ ← Machine.step n
  | stepOnce => Machine.stepOnce
  | answer line => fun m => .ok () (m.deliver line)
  | console c => fun m => .ok () { m with console := c }
  | wait => fun m => .ok () { m with held := 0 }

/-- The instructions that a batch executes. -/
def batch : Nat → Machine → List Move
  | 0, _ => []
  | n + 1, m =>
    if m.ready then
      .execute ::
        match Machine.stepOnce m with
        | .ok _ m' => batch n m'
        | .error .. => []
    else []

/-- The moves that make up a turn. -/
def moves : HostTurn → Machine → List Move
  | step n, m =>
    .poll ::
      match Machine.pollInput m with
      | .ok _ m' => batch n.toNatClampNeg m'
      | .error .. => []
  | stepOnce, _ => [.execute]
  | answer line, _ => [.answer line]
  | console c, _ => [.console c]
  | wait, _ => [.wait]

end HostTurn

namespace Machine

/-- Take turns one after another, up to a crash. -/
def takeTurns : List HostTurn → Host Unit
  | [] => pure ()
  | t :: turns => do
    t.call
    takeTurns turns

/-- The moves that make up some turns. -/
def movesOf (m : Machine) : List HostTurn → List Move
  | [] => []
  | t :: turns =>
    t.moves m ++
      match t.call m with
      | .ok _ m' => m'.movesOf turns
      | .error .. => []

end Machine

section

variable {m m' : Machine}

/-- A play goes on after a move that succeeds. -/
theorem play_cons_ok {a : Move} {u : Unit} (h : a.run m = .ok u m') (moves : List Move) :
    Machine.play (a :: moves) m = Machine.play moves m' := by
  simp only [Machine.play, bind, EStateM.bind, h]

/-- A play ends with a move that crashes. -/
theorem play_cons_error {a : Move} {c : Crash} (h : a.run m = .error c m') (moves : List Move) :
    Machine.play (a :: moves) m = .error c m' := by
  simp only [Machine.play, bind, EStateM.bind, h]

private theorem play_singleton (a : Move) (m : Machine) : Machine.play [a] m = a.run m := by
  cases h : a.run m with
  | ok u m' => rw [play_cons_ok h]; rfl
  | error c m' => rw [play_cons_error h]

/-- Moves are made one after another, up to a crash. -/
theorem play_append (before rest : List Move) (m : Machine) :
    Machine.play (before ++ rest) m = (Machine.play before >>= fun _ => Machine.play rest) m := by
  induction before generalizing m with
  | nil => rfl
  | cons a before ih =>
    simp only [List.cons_append, Machine.play, bind, EStateM.bind]
    cases a.run m with
    | ok u m₁ => exact ih m₁
    | error c m₁ => rfl

/-- No move changes the image. -/
theorem image_of_move {a : Move} {u : Unit} (h : a.run m = .ok u m') : m'.image = m.image := by
  have hlasting := Machine.lasting_image m.image
  cases a with
  | poll => exact (hlasting.pollInput rfl fun _ _ _ => trivial).of_host_ok h
  | execute =>
    refine (hlasting.stepOnce (fun {m₁} e h => ?_) rfl fun w _ h => ?_).of_host_ok h
    · exact (Machine.inert_image m.image).stop (m := { m₁ with error := some e }) h
    · exact (Machine.inert_image m.image).execute_any hlasting w h
  | answer line =>
    cases h
    exact hlasting.deliver line rfl
  | console c => cases h; rfl
  | wait => cases h; rfl

/-- Neither do moves one after another. -/
theorem image_of_play {moves : List Move} {u : Unit} (h : Machine.play moves m = .ok u m') :
    m'.image = m.image := by
  induction moves generalizing m with
  | nil => cases h; rfl
  | cons a moves ih =>
    cases ha : a.run m with
    | ok v m₁ =>
      rw [play_cons_ok ha] at h
      exact (ih h).trans (image_of_move ha)
    | error c m₁ =>
      rw [play_cons_error ha] at h
      cases h

/-- A batch of instructions is executed one by one. -/
theorem stepLoop_eq_play (n before : Nat) (m : Machine) :
    (do let _ ← Machine.stepLoop n before : Host Unit) m = Machine.play (HostTurn.batch n m) m := by
  induction n generalizing m before with
  | zero => rfl
  | succ n ih =>
    by_cases hready : m.ready = true
    · simp only [HostTurn.batch, if_pos hready]
      cases hstep : Machine.stepOnce m with
      | ok u m₁ =>
        rw [play_cons_ok (show Move.execute.run m = .ok u m₁ from hstep), ← ih (before + 1)]
        simp only [bind, EStateM.bind, Machine.stepLoop, if_pos hready, hstep]
      | error c m₁ =>
        rw [play_cons_error (show Move.execute.run m = .error c m₁ from hstep)]
        simp only [bind, EStateM.bind, Machine.stepLoop, if_pos hready, hstep]
    · simp only [HostTurn.batch, if_neg hready, bind, EStateM.bind, Machine.stepLoop]
      rfl

/-- A turn is its moves. -/
theorem HostTurn.call_eq_play (t : HostTurn) (m : Machine) :
    t.call m = Machine.play (t.moves m) m := by
  cases t with
  | step n =>
    simp only [HostTurn.moves]
    cases hpoll : Machine.pollInput m with
    | ok u m₁ =>
      rw [play_cons_ok (show Move.poll.run m = .ok u m₁ from hpoll), ← stepLoop_eq_play _ 0]
      simp only [HostTurn.call, Machine.step, bind, EStateM.bind, hpoll]
    | error c m₁ =>
      rw [play_cons_error (show Move.poll.run m = .error c m₁ from hpoll)]
      simp only [HostTurn.call, Machine.step, bind, EStateM.bind, hpoll]
  | stepOnce => exact (play_singleton .execute m).symm
  | answer line => rfl
  | console c => rfl
  | wait => rfl

/-- Some turns are their moves. -/
theorem takeTurns_eq_play (turns : List HostTurn) (m : Machine) :
    Machine.takeTurns turns m = Machine.play (m.movesOf turns) m := by
  induction turns generalizing m with
  | nil => rfl
  | cons t turns ih =>
    rw [Machine.movesOf, play_append]
    simp only [Machine.takeTurns, bind, EStateM.bind, ← t.call_eq_play m]
    cases t.call m with
    | ok u m₁ => exact ih m₁
    | error c m₁ => rfl

end

end PCode
