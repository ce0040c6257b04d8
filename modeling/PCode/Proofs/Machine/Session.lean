import PCode.Proofs.Machine.Inert

/-!
# Sessions

A host starts, steps, stops and resets a machine in any order, and native
procedures stop, suspend and resume it in between.  Every run that was started
is accounted for: its end was counted once, or a reset dropped it, or it is still
going on.

Main definitions and results:

- `HostOperation`, `Machine.session`: what a host does to a machine.
- `Machine.Accounts`: the runs that were started and not dropped are those that ended and the
  present one.
- `Machine.Accounts.stepOnce`: an instruction keeps the account, whatever it is.
- `Machine.finishes_of_session`: how often the end of a run was counted in any session.
-/

namespace PCode

/-! ## Operations of the host -/

/-- What a host can do to a machine.  Time passes between operations, until the machine is no longer
held. -/
inductive HostOperation where
  | run
  | reset
  | step (n : Int64)
  | stepOnce
  | stop
  | suspend
  | resume
  | delay (milliseconds : Int64)
  | deliver (line : String)
  | wait
  deriving DecidableEq

namespace Machine

/-- The machine after a request, also when it ends in a crash. -/
def left {α : Type} (request : Host α) (m : Machine) : Machine :=
  match request m with
  | .ok _ m' => m'
  | .error _ m' => m'

/-- The crash in which a request of the host ends. -/
def crash? : EStateM.Result Crash Machine Unit → Option Crash
  | .ok _ _ => none
  | .error c _ => some c

/-- A request that ends in a crash leaves some machine. -/
theorem eq_error_of_crash? {r : EStateM.Result Crash Machine Unit} {c : Crash}
    (h : crash? r = some c) : ∃ m', r = .error c m' := by
  cases r with
  | ok u m' => cases h
  | error c' m' =>
    cases h
    exact ⟨m', rfl⟩

end Machine

namespace HostOperation

/-- The machine after an operation. -/
def after : HostOperation → Machine → Machine
  | run, m => m.run
  | reset, m => m.reset
  | step n, m => Machine.left (Machine.step n) m
  | stepOnce, m => Machine.left Machine.stepOnce m
  | stop, m => m.stop
  | suspend, m => m.suspend
  | resume, m => m.resume
  | delay milliseconds, m => m.hold milliseconds
  | deliver line, m => m.deliver line
  | wait, m => { m with held := 0 }

/-- Whether an operation starts a run. -/
def starts : HostOperation → Bool
  | run => true
  | _ => false

/-- Whether an operation drops the present run: it resets a machine that is not stopped. -/
def drops : HostOperation → Machine → Bool
  | reset, m => m.state != .stopped
  | _, _ => false

end HostOperation

namespace Machine

/-- The machine after some operations. -/
def session (m : Machine) : List HostOperation → Machine
  | [] => m
  | op :: ops => (op.after m).session ops

/-- How many runs some operations drop. -/
def dropped (m : Machine) : List HostOperation → Nat
  | [] => 0
  | op :: ops => (op.drops m).toNat + (op.after m).dropped ops

/-- How many runs are going on, none or one. -/
def ongoing (m : Machine) : Nat := if m.state = .stopped then 0 else 1

/-! ## The account -/

/-- The runs that ended and the present one are as many as are due, and there is an error only when
the machine is stopped. -/
structure Accounts (due : Nat) (m : Machine) : Prop where
  balance : m.finishes + m.ongoing = due
  error : m.state ≠ .stopped → m.error = none

namespace Accounts

variable {due : Nat} {m : Machine}

/-- Only the state, the error and the count matter to the account. -/
theorem transfer {m' : Machine} (h : Accounts due m) (hstate : m'.state = m.state)
    (herror : m'.error = m.error) (hfinishes : m'.finishes = m.finishes) : Accounts due m' := by
  refine ⟨?_, ?_⟩
  · rw [ongoing, hstate, hfinishes]
    exact h.balance
  · rw [hstate, herror]
    exact h.error

/-- Stopping counts the end of the present run, whatever error there is. -/
theorem of_stop (hbalance : m.finishes + m.ongoing = due) : Accounts due m.stop := by
  unfold Machine.stop
  split
  · rename_i hstopped
    exact ⟨hbalance, fun hgoing => absurd hstopped hgoing⟩
  · rename_i hgoing
    rw [ongoing, if_neg hgoing] at hbalance
    exact ⟨hbalance, fun hgoing => absurd rfl hgoing⟩

private theorem stop (h : Accounts due m) : Accounts due m.stop := of_stop h.balance

/-- A run that fails ends like one that is stopped, and its end is not counted again if it was
stopped before. -/
theorem failWith (h : Accounts due m) (e : MachineError) : Accounts due (m.failWith e) :=
  of_stop (m := { m with error := some e }) h.balance

private theorem suspend (h : Accounts due m) : Accounts due m.suspend := by
  unfold Machine.suspend
  split
  · rename_i hrunning
    have hgoing : m.state ≠ .stopped := by simp [hrunning]
    have hbalance := h.balance
    rw [ongoing, if_neg hgoing] at hbalance
    exact ⟨hbalance, fun _ => h.error hgoing⟩
  · exact h

private theorem resume (h : Accounts due m) : Accounts due m.resume := by
  unfold Machine.resume
  split
  · rename_i hsuspended
    have hgoing : m.state ≠ .stopped := by simp [hsuspended]
    have hbalance := h.balance
    rw [ongoing, if_neg hgoing] at hbalance
    exact ⟨hbalance, fun _ => h.error hgoing⟩
  · exact h

/-- The account does not depend on the store and the registers. -/
theorem inert (due : Nat) : Inert (Accounts due) where
  data _ _ _ _ _ _ _ _ h := h.transfer rfl rfl rfl
  stop h := h.stop

/-- No condition is needed for the account to last. -/
theorem lasting (due : Nat) : Lasting (Accounts due) (fun _ => True) (fun _ _ => True) where
  toStable := (inert due).stable
  calls _ _ h := h.transfer rfl rfl rfl
  world _ _ _ _ _ _ _ _ _ h := h.transfer rfl rfl rfl
  suspend h := h.suspend
  resume h := h.resume
  malloc size h := (inert due).malloc size h
  free a h _ := (inert due).free a h

/-- A part of an instruction keeps the account, however it ends. -/
abbrev Upheld {α : Type} (due : Nat) (x : Instr α) (m : Machine) : Prop :=
  Upholds (Accounts due) (fun _ => True) x m

private theorem execute (h : Accounts due m) (w : Word) : Upheld due (Machine.execute w) m :=
  (inert due).execute_any (lasting due) w h

/-! ## Steps -/

private theorem of_host {α : Type} {request : Host α} (h : Upheld due (ofHost request) m) :
    Accounts due (left request m) := by
  unfold left
  cases hrequest : request m with
  | ok a m' => exact h.of_host_ok hrequest
  | error c m' => exact (h.of_host_error hrequest).1

/-- An instruction keeps the account, whatever it is and however it ends. -/
theorem stepOnce (h : Accounts due m) : Upheld due (ofHost Machine.stepOnce) m :=
  (lasting due).stepOnce (fun e h => h.failWith e) h fun w _ h => h.execute w

private theorem stepLoop (h : Accounts due m) (n before : Nat) :
    Upheld due (ofHost (Machine.stepLoop n before)) m := by
  induction n generalizing m before with
  | zero => exact h
  | succ n ih =>
    by_cases hready : m.ready = true
    · have hstep := h.stepOnce
      cases hrun : Machine.stepOnce m with
      | ok u m' =>
        have hloop : Machine.stepLoop (n + 1) before m = Machine.stepLoop n (before + 1) m' := by
          simp only [Machine.stepLoop, hready, if_true, hrun]
        refine (ih (hstep.of_host_ok hrun) (before + 1)).congr ?_
        simp only [ofHost, hloop]
      | error c m' =>
        have hloop : Machine.stepLoop (n + 1) before m = .error c m' := by
          simp only [Machine.stepLoop, hready, if_true, hrun]
        exact upholds_host_error hloop (hstep.of_host_error hrun).1 trivial
    · exact upholds_host_ok (if_neg hready) h

private theorem step (h : Accounts due m) (n : Int64) : Upheld due (ofHost (Machine.step n)) m := by
  have hpoll := (lasting due).pollInput h fun _ _ _ => trivial
  cases hrun : Machine.pollInput m with
  | ok u m' =>
    have hstep : Machine.step n m = Machine.stepLoop n.toNatClampNeg 0 m' := by
      simp only [Machine.step, bind, EStateM.bind, hrun]
    refine (stepLoop (hpoll.of_host_ok hrun) n.toNatClampNeg 0).congr ?_
    simp only [ofHost, hstep]
  | error c m' =>
    have hstep : Machine.step n m = .error c m' := by
      simp only [Machine.step, bind, EStateM.bind, hrun]
    exact upholds_host_error hstep (hpoll.of_host_error hrun).1 trivial

/-! ## Runs -/

/-- A run that is started is due. -/
theorem run (h : Accounts due m) : Accounts (due + 1) m.run := by
  have hbalance := h.stop.balance
  have hstopped : m.stop.state = .stopped := by
    unfold Machine.stop
    split
    · assumption
    · rfl
  rw [ongoing, if_pos hstopped] at hbalance
  refine ⟨?_, fun _ => rfl⟩
  change m.stop.finishes + 1 = due + 1
  omega

/-- An operation keeps the account, with one run more if it starts one and one less if it drops
one. -/
theorem operation (h : Accounts due m) (op : HostOperation) :
    ∃ due', due' + (op.drops m).toNat = due + op.starts.toNat ∧ Accounts due' (op.after m) := by
  cases op with
  | run => exact ⟨due + 1, rfl, h.run⟩
  | reset =>
    have hdrops : (HostOperation.reset.drops m).toNat = m.ongoing := by
      change (m.state != .stopped).toNat = if m.state = .stopped then 0 else 1
      cases m.state <;> rfl
    refine ⟨m.finishes, ?_, rfl, fun hgoing => absurd rfl hgoing⟩
    rw [hdrops]
    exact h.balance
  | step n => exact ⟨due, rfl, of_host (h.step n)⟩
  | stepOnce => exact ⟨due, rfl, of_host h.stepOnce⟩
  | stop => exact ⟨due, rfl, h.stop⟩
  | suspend => exact ⟨due, rfl, h.suspend⟩
  | resume => exact ⟨due, rfl, h.resume⟩
  | delay milliseconds => exact ⟨due, rfl, (lasting due).hold milliseconds h⟩
  | deliver line => exact ⟨due, rfl, (lasting due).deliver line h⟩
  | wait => exact ⟨due, rfl, h.transfer rfl rfl rfl⟩

/-- A session keeps the account, with the runs that it starts and without those that it drops. -/
theorem session (h : Accounts due m) (ops : List HostOperation) :
    ∃ due', due' + m.dropped ops = due + ops.countP HostOperation.starts ∧
      Accounts due' (m.session ops) := by
  induction ops generalizing due m with
  | nil => exact ⟨due, rfl, h⟩
  | cons op ops ih =>
    obtain ⟨due₁, heq₁, h₁⟩ := h.operation op
    obtain ⟨due₂, heq₂, h₂⟩ := ih h₁
    refine ⟨due₂, ?_, h₂⟩
    have hcount : (op :: ops).countP HostOperation.starts =
        ops.countP HostOperation.starts + op.starts.toNat := by
      rw [List.countP_cons]
      cases op.starts <;> rfl
    rw [dropped, hcount]
    omega

/-- As long as a run is neither started nor dropped, as many are due as before. -/
theorem session_of_quiet (h : Accounts due m) {ops : List HostOperation}
    (hquiet : ∀ op ∈ ops, op ≠ .run ∧ op ≠ .reset) : Accounts due (m.session ops) := by
  induction ops generalizing m with
  | nil => exact h
  | cons op ops ih =>
    obtain ⟨hrun, hreset⟩ := hquiet op List.mem_cons_self
    obtain ⟨due', heq, h'⟩ := h.operation op
    have hsame : due' = due := by
      cases op <;> first | contradiction | exact heq
    exact ih (hsame ▸ h') fun op hop => hquiet op (List.mem_cons_of_mem _ hop)

end Accounts

/-! ## Sessions -/

/-- In every session with a new machine, the ends of runs were counted as often as runs were
started, less those that a reset dropped and less the present one; and there is no error unless the
machine is stopped.  So from its start on a run is counted exactly once when it has ended, and not
before; if it is still going on when the next run is started, it is counted then. -/
theorem finishes_of_session {image : Option Image} {equipment : Equipment} {m : Machine}
    (hcreate : create? image equipment = .ok m) (ops : List HostOperation) :
    ((m.session ops).finishes : Int) =
        ops.countP HostOperation.starts - m.dropped ops - (m.session ops).ongoing ∧
      ((m.session ops).state ≠ .stopped → (m.session ops).error = none) ∧
      ∀ more : List HostOperation, (∀ op ∈ more, op ≠ .run ∧ op ≠ .reset) →
        ((m.session ops).run.session more).finishes +
            ((m.session ops).run.session more).ongoing = (m.session ops).run.finishes + 1 ∧
          ((m.session ops).run.session more).run.finishes = (m.session ops).run.finishes + 1 := by
  have hnew : Accounts 0 m := by
    cases image with
    | none => cases hcreate
    | some image =>
      obtain ⟨m₀, rfl, -, hfinishes, -⟩ := create?_ok hcreate
      exact ⟨hfinishes, fun hgoing => absurd rfl hgoing⟩
  obtain ⟨due, hdue, haccount⟩ := hnew.session ops
  have hbalance := haccount.balance
  refine ⟨by omega, haccount.error, fun more hquiet => ?_⟩
  have hstarted := haccount.run.balance
  have hmore := (haccount.run.session_of_quiet hquiet)
  have hlater := hmore.balance
  have hnext := hmore.run.balance
  have hgoing (m : Machine) : m.run.ongoing = 1 := rfl
  rw [hgoing] at hstarted hnext
  omega

/-- A program that calls a native procedure, which stops the machine and then fails. -/
def stopAndFail : Image where
  code := #[(Word.encode Opcode.csp.byte 0 0).toOption.getD default]
  natives := { natives := #[{ name := "Quit", body := fun _ => .stop (.fail (.reason "quit")) }] }
  frozen := true

/-- Of three runs the last one goes on, and each of the others has been counted once. -/
theorem finishes_of_session_stop_and_fail :
    ∃ m, create? (some stopAndFail) { storeSize := 16 } = .ok m ∧
      ((m.session [.run, .step 5, .stop, .run, .suspend, .run]).finishes : Int) = 3 - 0 - 1 := by
  refine ⟨_, rfl, (finishes_of_session
    (show create? (some stopAndFail) { storeSize := 16 } = _ from rfl)
    [.run, .step 5, .stop, .run, .suspend, .run]).1.trans ?_⟩
  decide +kernel

end Machine

end PCode
