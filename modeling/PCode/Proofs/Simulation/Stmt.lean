import PCode.Proofs.Machine.Effects
import PCode.Proofs.Simulation.Expr

/-!
# The code of statements does what they mean

Whenever the reference semantics takes a statement from one world to another, a
machine that shows the first world at the code of the statement comes to show
the second one behind it, or at the target of the exit jumps if the statement
ends by an exit.  The proof is an induction on the run of the semantics; a loop
comes back to its own first address, from where its next round is a run of the
same loop.

Main definitions and results:

- `Machine.Continues`: a machine differs from another in its store and output only, but for a
  line that had arrived.
- `Machine.Ends`: a machine comes to show a world at an address.
- `Machine.simulated_of_exec`: the code of a statement does what the statement means.
-/

namespace PCode

open Gen

/-- The code of a task. -/
@[simp] def Task.code : Task → List Item
  | .stmt s => stmtCode s
  | .stmts body => stmtsCode body
  | .counting counter last down body =>
    match counter.symbol.type.code? with
    | some code =>
      loopCode (testCounterCode counter code (exprCode .value last) down) .tjp
        (stmtCode body ++ stepCounterCode counter code down)
    | none => [.refused]

/-- Where execution goes on after a task. -/
def Outcome.target (o : Outcome) (next exit : Nat) : Nat :=
  match o with
  | .normal => next
  | .exit => exit

/-- The exit jumps among some addresses have one target. -/
def Linking.ExitsTo (k : Linking) (a n exit : Nat) : Prop :=
  ∀ x t, a ≤ x → x < a + n → k.leaves x t → t = exit

private theorem Linking.ExitsTo.mono {k : Linking} {a n a' n' exit : Nat} (h : k.ExitsTo a n exit)
    (hfrom : a ≤ a') (hto : a' + n' ≤ a + n) : k.ExitsTo a' n' exit :=
  fun x t h₁ h₂ => h x t (by omega) (by omega)

namespace Machine

/-! ## Machines that continue -/

/-- What a statement without calls of subprograms leaves alone. -/
def setting (m : Machine) : Machine :=
  { m with
    store := #[], output := #[], inCall := false, suspendedInCall := false, line := none }

/-- A machine differs from another in its store and output only, and may have dropped a line that
had arrived. -/
structure Continues (b b' : Machine) : Prop where
  rest : b'.setting = b.setting
  size : b'.store.size = b.store.size
  line : b'.line = b.line ∨ b'.line = none

namespace Continues

variable {b b' b'' : Machine}

private theorem refl (b : Machine) : Continues b b :=
  ⟨rfl, rfl, .inl rfl⟩

private theorem trans (h₁ : Continues b b') (h₂ : Continues b' b'') : Continues b b'' where
  rest := h₂.rest.trans h₁.rest
  size := h₂.size.trans h₁.size
  line := by
    obtain h | h := h₂.line
    · rw [h]
      exact h₁.line
    · exact .inr h

private theorem image (h : Continues b b') : b'.image = b.image :=
  (congrArg Machine.image h.rest :)

/-- A machine that continues has its stack pointer where it was. -/
theorem sp (h : Continues b b') : b'.sp = b.sp :=
  (congrArg Machine.sp h.rest :)

/-- A machine that continues has its heap pointer where it was. -/
theorem np (h : Continues b b') : b'.np = b.np :=
  (congrArg Machine.np h.rest :)

/-- A machine that continues has its mark pointer where it was. -/
theorem mp (h : Continues b b') : b'.mp = b.mp :=
  (congrArg Machine.mp h.rest :)

/-- A machine that continues is in the state in which it was. -/
theorem state (h : Continues b b') : b'.state = b.state :=
  (congrArg Machine.state h.rest :)

private theorem reader (h : Continues b b') : b'.reader = b.reader :=
  (congrArg Machine.reader h.rest :)

/-- A line that nothing waits for stays so. -/
theorem unawaited (h : Continues b b') (hb : b.line = none ∨ b.reader = none) :
    b'.line = none ∨ b'.reader = none := by
  obtain hline | hreader := hb
  · obtain h | h := h.line
    · exact .inl (h.trans hline)
    · exact .inl h
  · exact .inr (h.reader.trans hreader)

private theorem room (h : Continues b b') : b'.room = b.room := by
  rw [Machine.room, Machine.room, h.sp, h.np]

/-- A machine that continues is ready for more code. -/
theorem ready (h : Continues b b') (hb : b.Ready) : b'.Ready where
  sound := by
    constructor
    · rw [h.image, h.sp]
      exact hb.sound.base
    · rw [h.sp, h.np]
      exact hb.sound.gap
    · rw [h.np, h.size]
      exact hb.sound.top
    · rw [h.size]
      exact hb.sound.size
  running := h.state.trans hb.running
  bound := by
    rw [h.image]
    exact hb.bound

end Continues

/-- A machine with a linking under which code over a registry can be executed. -/
structure Prepared (b : Machine) (natives : Registry) (k : Linking) : Prop where
  ready : b.Ready
  /-- no native procedure waits for a line that has arrived -/
  unawaited : b.line = none ∨ b.reader = none
  natives : b.image.natives = natives
  constants : k.constants = b.image.constants

private theorem Prepared.continues {b b' : Machine} {natives : Registry} {k : Linking}
    (hb : b.Prepared natives k) (h : b.Continues b') : b'.Prepared natives k where
  ready := h.ready hb.ready
  unawaited := h.unawaited hb.unawaited
  natives := by
    rw [h.image]
    exact hb.natives
  constants := by
    rw [h.image]
    exact hb.constants

/-- From an address on, a machine comes to show a world at another. -/
def Ends (b : Machine) (a : Nat) (w : World) (t : Nat) : Prop :=
  ∃ b', b.Continues b' ∧ b'.world = w ∧ b.Leads a [] b' t []

section

variable {b : Machine} {natives : Registry} {k : Linking} {a a₁ t exit : Nat} {w w₁ : World}

private theorem Ends.of_leads (h : b.Leads a [] b t []) : b.Ends a b.world t :=
  ⟨b, .refl b, rfl, h⟩

private theorem Ends.after (h₁ : b.Leads a [] b a₁ []) (h₂ : b.Ends a₁ w t) : b.Ends a w t := by
  obtain ⟨b', hcont, hworld, hleads⟩ := h₂
  exact ⟨b', hcont, hworld, h₁.trans hleads⟩

private theorem Ends.andThen (h₁ : b.Ends a w₁ a₁)
    (h₂ : ∀ b', b.Continues b' → b'.world = w₁ → b'.Ends a₁ w t) : b.Ends a w t := by
  obtain ⟨b₁, hcont₁, hworld₁, hleads₁⟩ := h₁
  obtain ⟨b₂, hcont₂, hworld₂, hleads₂⟩ := h₂ b₁ hcont₁ hworld₁
  exact ⟨b₂, hcont₁.trans hcont₂, hworld₂, hleads₁.trans hleads₂⟩

/-! ## Parts of statements -/

private theorem leads_word {mode : Mode} {e : Expr} {ws : List Value} {v : Value}
    (hb : b.Prepared natives k) (hcode : CodeAt b.image.code k a (exprCode mode e))
    (hword : b.memory.word mode e = some v) (hroom : (ws.length + depth mode e : Int) ≤ b.room) :
    b.Leads a ws b (a + (exprCode mode e).length) (ws ++ [v]) := by
  unfold Memory.word at hword
  obtain ⟨vs, hvs, hsingle⟩ := Option.bind_eq_some_iff.mp hword
  obtain rfl := single_eq_some hsingle
  exact leads_exprCode hb.ready hb.constants mode e hcode hvs hroom

/-- A store ends an assignment. -/
theorem ends_sti {x : Int64} {p v : Value} (hb : b.Prepared natives k)
    (hcode : CodeAt b.image.code k a₁ [.op .sti x 0]) (hleads : b.Leads a [] b a₁ [p, v])
    (hstore : b.world.store p v = some w) : b.Ends a w (a₁ + 1) := by
  obtain ⟨mem, hwrite, rfl⟩ := Option.map_eq_some_iff.mp hstore
  obtain ⟨hmem, hsize⟩ := Memory.write_eq hwrite
  have hsti : b.Leads a₁ ([] ++ [p, v]) { b with store := mem.store } (a₁ + 1) [] :=
    leads_sti hb.ready (codeAt_cons.mp hcode).1 hwrite
  refine ⟨{ b with store := mem.store }, ⟨rfl, hsize, .inl rfl⟩, ?_, hleads.trans hsti⟩
  rw [hmem]
  rfl

/-! ## Counters -/

/-- The code that sets a counter stores the word that another code leaves. -/
theorem ends_setCounter {counter : Ident} {c : UInt8} {value : List Item} {p v : Value}
    (hb : b.Prepared natives k)
    (hcode : CodeAt b.image.code k a (setCounterCode counter c value))
    (haddress : b.memory.addressOf counter = some p)
    (hvalue : b.Leads (a + 1) [p] b (a + 1 + value.length) [p, v])
    (hstore : b.world.store p v = some w) (hroom : 1 ≤ b.room) :
    b.Ends a w (a + (setCounterCode counter c value).length) := by
  obtain ⟨hident, -, hsti⟩ := codeAt_setCounterCode hcode
  have hp : b.Leads a [] b (a + 1) [p] :=
    leads_exprCode hb.ready hb.constants .address (.ident {} counter)
      (exprCode_ident_address .. ▸ hident) (by simp [Memory.eval, haddress])
      (by simpa [depth] using hroom)
  have hends := ends_sti hb hsti (hp.trans hvalue) hstore
  rwa [show a + (setCounterCode counter c value).length = a + 1 + value.length + 1 by
    simp [setCounterCode, identAddressCode]; omega]

/-- The value of a counter is pushed. -/
theorem leads_counter {counter : Ident} {ws : List Value} {i : Value}
    (hb : b.Prepared natives k) (hcode : CodeAt b.image.code k a (identValueCode counter))
    (hi : (b.memory.valueOf counter).bind Memory.single = some i)
    (hroom : (ws.length + depth .value (.ident {} counter) : Int) ≤ b.room) :
    b.Leads a ws b (a + (identValueCode counter).length) (ws ++ [i]) := by
  rw [← exprCode_ident_value {} counter] at hcode ⊢
  exact leads_word hb hcode (by simpa only [Memory.word, Memory.eval] using hi) hroom

/-- The code that tests a counter leaves whether it has passed the last value. -/
theorem leads_testCounter {counter : Ident} {c : UInt8} {last : Expr} {down : Bool} {i n : Value}
    (hb : b.Prepared natives k)
    (hcode : CodeAt b.image.code k a (testCounterCode counter c (exprCode .value last) down))
    (hi : (b.memory.valueOf counter).bind Memory.single = some i)
    (hn : b.memory.word .value last = some n)
    (hroom : (countingDepth counter last : Int) ≤ b.room) :
    b.Leads a [] b (a + (testCounterCode counter c (exprCode .value last) down).length)
      [passed down i n] := by
  unfold testCounterCode at hcode ⊢
  unfold countingDepth at hroom
  obtain ⟨hboth, hop⟩ := codeAt_append.mp hcode
  obtain ⟨hcounter, hlast⟩ := codeAt_append.mp hboth
  have h₁ : b.Leads a [] b _ ([] ++ [i]) := leads_counter hb hcounter hi (by simp; omega)
  have h₂ : b.Leads _ [i] b _ ([i] ++ [n]) := leads_word hb hlast hn (by simp; omega)
  have hbinary : Operator.binary? (if down then .les else .grt) i n = some (passed down i n) := by
    cases down <;> rfl
  have h₃ : b.Leads _ ([] ++ [i, n]) b _ ([] ++ [passed down i n]) :=
    leads_binary hb.ready hbinary (codeAt_cons.mp hop).1
  simp only [List.length_append, ← Nat.add_assoc] at h₃ ⊢
  exact (h₁.trans h₂).trans h₃

/-- The code that moves a counter stores the word that follows it. -/
theorem ends_stepCounter {counter : Ident} {c : UInt8} {down : Bool} {p i : Value}
    (hb : b.Prepared natives k)
    (hcode : CodeAt b.image.code k a (stepCounterCode counter c down))
    (haddress : b.memory.addressOf counter = some p)
    (hi : (b.memory.valueOf counter).bind Memory.single = some i)
    (hstore : b.world.store p (counted down i) = some w)
    (hroom : (1 + depth .value (.ident {} counter) : Int) ≤ b.room) :
    b.Ends a w (a + (stepCounterCode counter c down).length) := by
  unfold stepCounterCode at hcode ⊢
  obtain ⟨-, hvalue, -⟩ := codeAt_setCounterCode hcode
  obtain ⟨hcounter, hop⟩ := codeAt_append.mp hvalue
  have h₁ : b.Leads (a + 1) [p] b _ ([p] ++ [i]) :=
    leads_counter hb hcounter hi (by simpa using hroom)
  have h₂ : b.Leads _ ([p] ++ [i]) b _ ([p] ++ [counted down i]) :=
    leads_unary hb.ready (by cases down <;> rfl) (codeAt_cons.mp hop).1
  refine ends_setCounter hb hcode haddress ?_ hstore (by omega)
  simp only [List.length_append, ← Nat.add_assoc]
  exact h₁.trans h₂

/-! ## Branches and loops -/

/-- A test with the truth value of its branch leads to the target of the branch. -/
theorem leads_taken (truth : Bool) {n t : Nat} {d : Int} {v : Value} (hb : b.Ready)
    (hjump : At b k n (.jump (branchOpcode truth) d)) (ht : (n : Int) + d = t)
    (htest : b.Leads a [] b n [v]) (hv : v.truthy = truth) : b.Leads a [] b t [] := by
  have hbranch : b.Leads n ([] ++ [v]) b _ [] := leads_branch truth hb hjump ht
  rw [if_pos hv] at hbranch
  exact htest.trans hbranch

/-- A test with the other truth value leads behind its branch. -/
theorem leads_untaken (truth : Bool) {n t : Nat} {d : Int} {v : Value} (hb : b.Ready)
    (hjump : At b k n (.jump (branchOpcode truth) d)) (ht : (n : Int) + d = t)
    (htest : b.Leads a [] b n [v]) (hv : v.truthy ≠ truth) : b.Leads a [] b (n + 1) [] := by
  have hbranch : b.Leads n ([] ++ [v]) b _ [] := leads_branch truth hb hjump ht
  rw [if_neg hv] at hbranch
  exact htest.trans hbranch

/-- A loop whose test has the truth value that ends it leads behind its code. -/
theorem leads_loop_done (truth : Bool) {test body : List Item} {v : Value}
    (hb : b.Ready) (hcode : CodeAt b.image.code k a (loopCode test (branchOpcode truth) body))
    (htest : b.Leads a [] b (a + test.length) [v]) (hv : v.truthy = truth) :
    b.Leads a [] b (a + (loopCode test (branchOpcode truth) body).length) [] := by
  obtain ⟨-, hout, -, -⟩ := codeAt_loopCode hcode
  exact leads_taken truth hb (codeAt_cons.mp hout).1 (by simp [loopCode]; omega) htest hv

/-- A loop whose test has the other truth value leads to its body. -/
theorem leads_loop_body (truth : Bool) {test body : List Item} {v : Value}
    (hb : b.Ready) (hcode : CodeAt b.image.code k a (loopCode test (branchOpcode truth) body))
    (htest : b.Leads a [] b (a + test.length) [v]) (hv : v.truthy ≠ truth) :
    b.Leads a [] b (a + test.length + 1) [] := by
  obtain ⟨-, hout, -, -⟩ := codeAt_loopCode hcode
  exact leads_untaken truth (t := a + test.length + (body.length + 2)) hb
    (codeAt_cons.mp hout).1 (by simp) htest hv

/-- The end of the body of a loop leads back to its test. -/
theorem leads_loop_back {test body : List Item} {out : Opcode} (hb : b.Ready)
    (hcode : CodeAt b.image.code k a (loopCode test out body)) :
    b.Leads (a + test.length + 1 + body.length) [] b a [] := by
  obtain ⟨-, -, -, hback⟩ := codeAt_loopCode hcode
  exact leads_jump hb (codeAt_cons.mp hback).1 (by omega)

/-- A conditional whose test holds leads to its first alternative. -/
theorem leads_cond_yes {test yes : List Item} {no : Option (List Item)} {v : Value}
    (hb : b.Ready) (hcode : CodeAt b.image.code k a (condCode test yes no))
    (htest : b.Leads a [] b (a + test.length) [v]) (hv : v.truthy = true) :
    b.Leads a [] b (a + test.length + 1) [] := by
  obtain ⟨t, d, hd, hjump⟩ : ∃ (t : Nat) (d : Int), ((a + test.length : Nat) : Int) + d = t ∧
      CodeAt b.image.code k (a + test.length) [.jump (branchOpcode false) d] := by
    cases no with
    | none =>
      exact ⟨a + test.length + (yes.length + 1), _, by simp,
        codeAt_cons.mpr ⟨(codeAt_cons.mp (codeAt_append.mp hcode).2).1, codeAt_nil⟩⟩
    | some no =>
      exact ⟨a + test.length + (yes.length + 2), _, by simp,
        codeAt_cons.mpr ⟨(codeAt_cons.mp (codeAt_append.mp hcode).2).1, codeAt_nil⟩⟩
  exact leads_untaken false hb (codeAt_cons.mp hjump).1 hd htest (by simp [hv])

/-- The end of the first alternative leads behind the conditional. -/
theorem leads_cond_join {test yes : List Item} {no : Option (List Item)} (hb : b.Ready)
    (hcode : CodeAt b.image.code k a (condCode test yes no)) :
    b.Leads (a + test.length + 1 + yes.length) [] b (a + (condCode test yes no).length) [] := by
  cases no with
  | none =>
    rw [show a + (condCode test yes none).length = a + test.length + 1 + yes.length by
      simp [condCode]; omega]
    exact .refl b _ _
  | some no =>
    obtain ⟨-, hrest⟩ := codeAt_cons.mp (codeAt_append.mp hcode).2
    obtain ⟨hjump, -⟩ := codeAt_cons.mp (codeAt_append.mp hrest).2
    exact leads_jump hb hjump (by simp [condCode]; omega)

/-- A conditional without a second alternative whose test fails leads behind its code. -/
theorem leads_cond_skip {test yes : List Item} {v : Value} (hb : b.Ready)
    (hcode : CodeAt b.image.code k a (condCode test yes none))
    (htest : b.Leads a [] b (a + test.length) [v]) (hv : v.truthy = false) :
    b.Leads a [] b (a + (condCode test yes none).length) [] := by
  obtain ⟨hjump, -⟩ := codeAt_cons.mp (codeAt_append.mp hcode).2
  exact leads_taken false hb hjump (by simp [condCode]; omega) htest hv

/-- A conditional whose test fails leads to its second alternative, whose end is its own. -/
theorem leads_cond_no {test yes no : List Item} {v : Value} (hb : b.Ready)
    (hcode : CodeAt b.image.code k a (condCode test yes (some no)))
    (htest : b.Leads a [] b (a + test.length) [v]) (hv : v.truthy = false) :
    b.Leads a [] b (a + test.length + 1 + yes.length + 1) [] := by
  obtain ⟨hjump, -⟩ := codeAt_cons.mp (codeAt_append.mp hcode).2
  exact leads_taken false hb hjump (by simp; omega) htest hv

/-! ## Lines -/

/-- The words of arguments are pushed one after another. -/
theorem leads_arguments (hb : b.Prepared natives k) :
    ∀ (args : List Arg) {a : Nat} (ws : List Value) {vs : List Value},
      CodeAt b.image.code k a (argsCode args) → b.memory.argumentWords args = some vs →
      (ws.length + argumentsDepth args : Int) ≤ b.room →
      b.Leads a ws b (a + (argsCode args).length) (ws ++ vs) ∧ vs.length = args.length
  | [], a, ws, vs, hcode, hvs, hroom => by
    obtain rfl := Option.some.inj hvs
    simpa [argsCode] using Leads.refl b a ws
  | .mk e byRef :: rest, a, ws, vs, hcode, hvs, hroom => by
    simp only [Memory.argumentWords, Option.bind_eq_bind, Option.bind_eq_some_iff] at hvs
    obtain ⟨u, hguard, v, hv, us, hus, huv⟩ := hvs
    obtain rfl := Option.some.inj huv
    obtain rfl : byRef = false := by
      cases byRef with
      | false => rfl
      | true => cases hguard
    simp only [argsCode, Bool.false_eq_true, if_false] at hcode ⊢
    simp only [argumentsDepth] at hroom
    obtain ⟨hfirst, hrest⟩ := codeAt_append.mp hcode
    have h₁ : b.Leads a ws b _ (ws ++ [v]) := leads_word hb hfirst hv (by omega)
    obtain ⟨h₂, hlen⟩ := leads_arguments hb rest (ws ++ [v]) hrest hus (by simp; omega)
    rw [List.append_assoc, List.singleton_append] at h₂
    rw [List.length_append, ← Nat.add_assoc]
    exact ⟨h₁.trans h₂, by simpa using hlen⟩

/-- A call that writes a line does so. -/
theorem ends_write {callee : Ident} {args : List Arg} {vs : List Value}
    (hb : b.Prepared natives k) (hcode : CodeAt b.image.code k a (callCode callee args))
    (hwrites : Writes natives callee) (hvs : b.memory.argumentWords args = some vs)
    (hroom : (argumentsDepth args : Int) ≤ b.room) :
    b.Ends a (b.world.print vs) (a + (callCode callee args).length) := by
  unfold callCode invokeCode at hcode ⊢
  cases htype : callee.symbol.type with
  | subprogram params result =>
    simp only [htype, hwrites.1] at hcode ⊢
    obtain ⟨hargs, hcsp⟩ := codeAt_append.mp hcode
    obtain ⟨h₁, hlen⟩ := leads_arguments hb args [] hargs hvs (by simpa using hroom)
    rw [← hlen] at hcsp
    have h₂ : b.Leads _ ([] ++ vs) (b.wrote vs) _ [] :=
      leads_write hb.ready hb.unawaited (hb.natives ▸ hwrites) (codeAt_cons.mp hcsp).1
    rw [List.length_append, ← Nat.add_assoc]
    exact ⟨b.wrote vs, ⟨rfl, rfl, .inr rfl⟩, rfl, h₁.trans h₂⟩
  | _ =>
    simp only [htype] at hcode
    exact absurd hcode not_codeAt_refused

/-! ## One case for each rule -/

/-- A round of a loop whose body ends normally leads back to its test. -/
theorem ends_round (truth : Bool) {test body : List Item} {v : Value} (hb : b.Ready)
    (hcode : CodeAt b.image.code k a (loopCode test (branchOpcode truth) body))
    (htest : b.Leads a [] b (a + test.length) [v]) (hv : v.truthy ≠ truth)
    (hbody : b.Ends (a + test.length + 1) w (a + test.length + 1 + body.length)) :
    b.Ends a w a := by
  refine .after (leads_loop_body truth hb hcode htest hv) (hbody.andThen fun b' hcont hw => ?_)
  rw [← hw]
  exact .of_leads (leads_loop_back (hcont.ready hb) (hcont.image ▸ hcode))

end

/-- A machine that shows a world at the code of a task comes to show another one, behind the code
or at the target of its exit jumps. -/
def Simulated (natives : Registry) (k : Linking) (exit : Nat) (task : Task) (w : World)
    (o : Outcome) (w' : World) : Prop :=
  ∀ (b : Machine) (a : Nat), b.Prepared natives k → CodeAt b.image.code k a task.code →
    k.ExitsTo a task.code.length exit → b.world = w → (task.depth : Int) ≤ b.room →
    b.Ends a w' (o.target (a + task.code.length) exit)

namespace Simulated

variable {natives : Registry} {k : Linking} {exit : Nat} {w w₁ w₂ w' : World} {o : Outcome}

/-- A task that follows another one at an address where its code stands. -/
theorem andThen {b : Machine} {a a' : Nat} {task : Task}
    (h : Simulated natives k exit task w o w') (hb : b.Prepared natives k)
    (hfirst : b.Ends a w a') (hcode : CodeAt b.image.code k a' task.code)
    (hexits : k.ExitsTo a' task.code.length exit) (hroom : (task.depth : Int) ≤ b.room) :
    b.Ends a w' (o.target (a' + task.code.length) exit) :=
  hfirst.andThen fun b' hcont hw =>
    h b' a' (hb.continues hcont) (hcont.image ▸ hcode) hexits hw (hcont.room ▸ hroom)

private theorem assign {pos : Pos} {target value : Expr} {p v : Value}
    (hp : w.memory.word .address target = some p) (hv : w.memory.word .value value = some v)
    (hstore : w.store p v = some w') :
    Simulated natives k exit (.stmt (.assign pos target value)) w .normal w' := by
  rintro b a hb hcode - rfl hroom
  simp only [Task.code, Task.depth, stmtCode, stmtDepth] at hcode hroom ⊢
  obtain ⟨hboth, hsti⟩ := codeAt_append.mp hcode
  obtain ⟨htarget, hvalue⟩ := codeAt_append.mp hboth
  have h₁ : b.Leads a [] b _ ([] ++ [p]) := leads_word hb htarget hp (by simp; omega)
  have h₂ : b.Leads _ [p] b _ ([p] ++ [v]) := leads_word hb hvalue hv (by simp; omega)
  cases hc : value.type?.bind Ty.code? with
  | none =>
    simp only [hc] at hsti
    exact absurd hsti not_codeAt_refused
  | some c =>
    simp only [hc, List.length_append, ← Nat.add_assoc] at hsti ⊢
    exact ends_sti hb hsti (h₁.trans h₂) hstore

private theorem write {pos : Pos} {callee : Ident} {args : List Arg} {vs : List Value}
    (hwrites : Writes natives callee) (hvs : w.memory.argumentWords args = some vs) :
    Simulated natives k exit (.stmt (.call pos callee args)) w .normal (w.print vs) := by
  rintro b a hb hcode - rfl hroom
  simp only [Task.code, Task.depth, stmtCode, stmtDepth] at hcode hroom ⊢
  cases htype : callee.symbol.type with
  | subprogram params result =>
    simp only [htype] at hcode ⊢
    split at hcode
    · rename_i hvoid
      rw [if_pos hvoid]
      exact ends_write hb hcode hwrites hvs hroom
    · exact absurd hcode not_codeAt_refused
  | _ =>
    simp only [htype] at hcode ⊢
    exact ends_write hb hcode hwrites hvs hroom

private theorem condYes {pos : Pos} {test : Expr} {yes no : Stmt} {v : Value}
    (hv : w.memory.word .value test = some v) (htruthy : v.truthy = true)
    (hyes : Simulated natives k exit (.stmt yes) w o w') :
    Simulated natives k exit (.stmt (.cond pos test yes no)) w o w' := by
  rintro b a hb hcode hexits rfl hroom
  simp only [Task.code, Task.depth, stmtCode, stmtDepth] at hcode hexits hroom ⊢
  generalize (if no.isMissing then none else some (stmtCode no)) = other at hcode hexits ⊢
  have hseg := Segment.cond_yes a (exprCode .value test) (stmtCode yes) other
  have htest : b.Leads a [] b _ ([] ++ [v]) :=
    leads_word hb ((Segment.cond_test ..).codeAt hcode) hv (by simp; omega)
  have hends := hyes.andThen hb (.of_leads (leads_cond_yes hb.ready hcode htest htruthy))
    (hseg.codeAt hcode) (hexits.mono hseg.range.1 hseg.range.2) (by simp only [Task.depth]; omega)
  cases o with
  | exit => exact hends
  | normal =>
    refine hends.andThen fun b' hcont hw => ?_
    rw [← hw]
    exact .of_leads (leads_cond_join (hcont.ready hb.ready) (hcont.image ▸ hcode))

private theorem condNo {pos : Pos} {test : Expr} {yes no : Stmt} {v : Value}
    (hv : w.memory.word .value test = some v) (htruthy : v.truthy = false)
    (hno : Simulated natives k exit (.stmt no) w o w') :
    Simulated natives k exit (.stmt (.cond pos test yes no)) w o w' := by
  rintro b a hb hcode hexits rfl hroom
  simp only [Task.code, Task.depth, stmtCode, stmtDepth] at hcode hexits hroom ⊢
  have htest : b.Leads a [] b _ ([] ++ [v]) :=
    leads_word hb ((Segment.cond_test ..).codeAt hcode) hv (by simp; omega)
  by_cases hmissing : no.isMissing
  · -- without a second alternative the run continues as one of nothing behind the code
    simp only [hmissing, if_true] at hcode ⊢
    obtain rfl : no = .missing := by
      cases no <;> first | rfl | cases hmissing
    have hends := hno.andThen hb (.of_leads (leads_cond_skip hb.ready hcode htest htruthy))
      codeAt_nil (fun x t h₁ h₂ => absurd h₂ (Nat.not_lt.mpr h₁))
      (by simp only [Task.depth, stmtDepth]; omega)
    simpa only [Task.code, stmtCode, List.length_nil, Nat.add_zero] using hends
  · simp only [hmissing, Bool.false_eq_true, if_false] at hcode hexits ⊢
    have hseg := Segment.cond_no a (exprCode .value test) (stmtCode yes) (stmtCode no)
    have hends := hno.andThen hb (.of_leads (leads_cond_no hb.ready hcode htest htruthy))
      (hseg.codeAt hcode) (hexits.mono hseg.range.1 hseg.range.2)
      (by simp only [Task.depth]; omega)
    rwa [show a + (exprCode .value test).length + 1 + (stmtCode yes).length + 1 +
      (Task.stmt no).code.length =
        a + (condCode (exprCode .value test) (stmtCode yes) (some (stmtCode no))).length by
      simp [condCode, Task.code]; omega] at hends

/-! ### Loops with a test at the top -/

private theorem whileDone {pos : Pos} {test : Expr} {body : Stmt} {v : Value}
    (hv : w.memory.word .value test = some v) (htruthy : v.truthy = false) :
    Simulated natives k exit (.stmt (.whileDo pos test body)) w .normal w := by
  rintro b a hb hcode - rfl hroom
  simp only [Task.code, Task.depth, stmtCode, stmtDepth] at hcode hroom ⊢
  have htest : b.Leads a [] b _ ([] ++ [v]) :=
    leads_word hb ((Segment.loop_test ..).codeAt hcode) hv (by simp; omega)
  exact .of_leads (leads_loop_done false hb.ready hcode htest htruthy)

/-- The body of a loop whose test holds is executed. -/
theorem whileBody {pos : Pos} {test : Expr} {body : Stmt} {v : Value}
    (hv : w.memory.word .value test = some v) (htruthy : v.truthy = true)
    (hbody : Simulated natives k exit (.stmt body) w o w') {b : Machine} {a : Nat}
    (hb : b.Prepared natives k)
    (hcode : CodeAt b.image.code k a (Task.stmt (.whileDo pos test body)).code)
    (hexits : k.ExitsTo a (Task.stmt (.whileDo pos test body)).code.length exit)
    (hw : b.world = w) (hroom : ((Task.stmt (.whileDo pos test body)).depth : Int) ≤ b.room) :
    b.Ends a w' (o.target a exit) := by
  subst hw
  simp only [Task.code, Task.depth, stmtCode, stmtDepth] at hcode hexits hroom
  have htest : b.Leads a [] b _ ([] ++ [v]) :=
    leads_word hb ((Segment.loop_test ..).codeAt hcode) hv (by simp; omega)
  have hseg := Segment.loop_body a (exprCode .value test) (stmtCode body) .fjp
  have hround := hbody b _ hb (hseg.codeAt hcode) (hexits.mono hseg.range.1 hseg.range.2) rfl
    (by simp only [Task.depth]; omega)
  cases o with
  | normal => exact ends_round false hb.ready hcode htest (by simp [htruthy]) hround
  | exit =>
    exact .after (leads_loop_body false hb.ready hcode htest (by simp [htruthy])) hround

private theorem whileAgain {pos : Pos} {test : Expr} {body : Stmt} {v : Value}
    (hv : w.memory.word .value test = some v) (htruthy : v.truthy = true)
    (hbody : Simulated natives k exit (.stmt body) w .normal w₁)
    (hrest : Simulated natives k exit (.stmt (.whileDo pos test body)) w₁ o w') :
    Simulated natives k exit (.stmt (.whileDo pos test body)) w o w' := by
  intro b a hb hcode hexits hw hroom
  exact hrest.andThen hb (whileBody hv htruthy hbody hb hcode hexits hw hroom) hcode hexits hroom

/-! ### Loops with a test at the bottom -/

/-- After the body of a loop with its test at the bottom, the test leads back or on. -/
theorem repeatTest {pos : Pos} {body : List Stmt} {test : Expr} {v : Value}
    (hbody : Simulated natives k exit (.stmts body) w .normal w')
    (hv : w'.memory.word .value test = some v) {b : Machine} {a : Nat}
    (hb : b.Prepared natives k)
    (hcode : CodeAt b.image.code k a (Task.stmt (.repeatUntil pos body test)).code)
    (hexits : k.ExitsTo a (Task.stmt (.repeatUntil pos body test)).code.length exit)
    (hw : b.world = w)
    (hroom : ((Task.stmt (.repeatUntil pos body test)).depth : Int) ≤ b.room) :
    b.Ends a w' (if v.truthy = false then a
      else a + (Task.stmt (.repeatUntil pos body test)).code.length) := by
  simp only [Task.code, Task.depth, stmtCode, stmtDepth, List.append_assoc]
    at hcode hexits hroom ⊢
  obtain ⟨hfirst, hrest⟩ := codeAt_append.mp hcode
  obtain ⟨htest, hback⟩ := codeAt_append.mp hrest
  refine (hbody b a hb hfirst (hexits.mono (Nat.le_refl _) (by simp [Task.code])) hw
    (by simp only [Task.depth]; omega)).andThen fun b' hcont hw' => ?_
  subst hw'
  have hb' := hb.continues hcont
  have h₁ : b'.Leads _ [] b' _ ([] ++ [v]) :=
    leads_word hb' (hcont.image ▸ htest) hv (by rw [hcont.room]; simp; omega)
  have h₂ : b'.Leads _ ([] ++ [v]) b' _ [] :=
    leads_branch false (t := a) hb'.ready (hcont.image ▸ (codeAt_cons.mp hback).1) (by omega)
  simp only [List.length_append, List.length_singleton, ← Nat.add_assoc]
  exact .of_leads (h₁.trans h₂)

private theorem repeatDone {pos : Pos} {body : List Stmt} {test : Expr} {v : Value}
    (hbody : Simulated natives k exit (.stmts body) w .normal w')
    (hv : w'.memory.word .value test = some v) (htruthy : v.truthy = true) :
    Simulated natives k exit (.stmt (.repeatUntil pos body test)) w .normal w' := by
  intro b a hb hcode hexits hw hroom
  have hends := repeatTest hbody hv hb hcode hexits hw hroom
  rwa [if_neg (by simp [htruthy])] at hends

private theorem repeatAgain {pos : Pos} {body : List Stmt} {test : Expr} {v : Value}
    (hbody : Simulated natives k exit (.stmts body) w .normal w₁)
    (hv : w₁.memory.word .value test = some v) (htruthy : v.truthy = false)
    (hrest : Simulated natives k exit (.stmt (.repeatUntil pos body test)) w₁ o w') :
    Simulated natives k exit (.stmt (.repeatUntil pos body test)) w o w' := by
  intro b a hb hcode hexits hw hroom
  have hends := repeatTest hbody hv hb hcode hexits hw hroom
  rw [if_pos htruthy] at hends
  exact hrest.andThen hb hends hcode hexits hroom

private theorem repeatExit {pos : Pos} {body : List Stmt} {test : Expr}
    (hbody : Simulated natives k exit (.stmts body) w .exit w') :
    Simulated natives k exit (.stmt (.repeatUntil pos body test)) w .exit w' := by
  intro b a hb hcode hexits hw hroom
  simp only [Task.code, Task.depth, stmtCode, stmtDepth, List.append_assoc]
    at hcode hexits hroom ⊢
  exact hbody b a hb (codeAt_append.mp hcode).1
    (hexits.mono (Nat.le_refl _) (by simp [Task.code])) hw (by simp only [Task.depth]; omega)

/-! ### Counted loops -/

private theorem forTo {pos : Pos} {counter : Ident} {first last : Expr} {down : Bool} {body : Stmt}
    {p v : Value} (hp : w.memory.addressOf counter = some p)
    (hv : w.memory.word .value first = some v) (hstore : w.store p v = some w₁)
    (hrest : Simulated natives k exit (.counting counter last down body) w₁ o w') :
    Simulated natives k exit (.stmt (.forTo pos counter first last down body)) w o w' := by
  rintro b a hb hcode hexits rfl hroom
  simp only [Task.code, Task.depth, stmtCode, stmtDepth] at hcode hexits hroom ⊢
  cases hc : counter.symbol.type.code? with
  | none =>
    simp only [hc] at hcode
    exact absurd hcode not_codeAt_refused
  | some c =>
    simp only [hc] at hcode hexits ⊢
    obtain ⟨hset, hloop⟩ := codeAt_append.mp hcode
    have hvalue : b.Leads (a + 1) [p] b _ ([p] ++ [v]) :=
      leads_word hb (codeAt_setCounterCode hset).2.1 hv (by simp; omega)
    have hends := hrest.andThen hb (ends_setCounter hb hset hp hvalue hstore (by omega))
      (by simpa only [Task.code, hc] using hloop)
      (by simp only [Task.code, hc]; exact hexits.mono (by omega) (by simp; omega))
      (by simp only [Task.depth]; omega)
    simpa only [Task.code, hc, List.length_append, Nat.add_assoc] using hends

/-- A counter that is tested in code has a simple type. -/
theorem exists_code_of_counting {counter : Ident} {last : Expr} {down : Bool} {body : Stmt}
    {b : Machine} {a : Nat}
    (hcode : CodeAt b.image.code k a (Task.counting counter last down body).code) :
    ∃ c, counter.symbol.type.code? = some c := by
  cases hc : counter.symbol.type.code? with
  | none =>
    simp only [Task.code, hc] at hcode
    exact absurd hcode not_codeAt_refused
  | some c => exact ⟨c, rfl⟩

private theorem countDone {counter : Ident} {last : Expr} {down : Bool} {body : Stmt} {i n : Value}
    (hi : (w.memory.valueOf counter).bind Memory.single = some i)
    (hn : w.memory.word .value last = some n) (hpassed : (passed down i n).truthy = true) :
    Simulated natives k exit (.counting counter last down body) w .normal w := by
  rintro b a hb hcode - rfl hroom
  obtain ⟨c, hc⟩ := exists_code_of_counting hcode
  simp only [Task.code, Task.depth, hc] at hcode hroom ⊢
  have htest := leads_testCounter hb ((Segment.loop_test ..).codeAt hcode) hi hn (by omega)
  exact .of_leads (leads_loop_done true hb.ready hcode htest hpassed)

private theorem countAgain {counter : Ident} {last : Expr} {down : Bool} {body : Stmt}
    {i n j p : Value} (hi : (w.memory.valueOf counter).bind Memory.single = some i)
    (hn : w.memory.word .value last = some n) (hpassed : (passed down i n).truthy = false)
    (hbody : Simulated natives k exit (.stmt body) w .normal w₁)
    (hp : w₁.memory.addressOf counter = some p)
    (hj : (w₁.memory.valueOf counter).bind Memory.single = some j)
    (hstore : w₁.store p (counted down j) = some w₂)
    (hrest : Simulated natives k exit (.counting counter last down body) w₂ o w') :
    Simulated natives k exit (.counting counter last down body) w o w' := by
  rintro b a hb hcode hexits rfl hroom
  refine hrest.andThen hb ?_ hcode hexits hroom
  obtain ⟨c, hc⟩ := exists_code_of_counting hcode
  simp only [Task.code, Task.depth, hc] at hcode hexits hroom
  have htest := leads_testCounter hb ((Segment.loop_test ..).codeAt hcode) hi hn (by omega)
  have hseg := Segment.loop_body a (testCounterCode counter c (exprCode .value last) down)
    (stmtCode body ++ stepCounterCode counter c down) .tjp
  obtain ⟨hfirst, hstep⟩ := codeAt_append.mp (hseg.codeAt hcode)
  refine ends_round true hb.ready hcode htest (by simp [hpassed]) ?_
  -- the body and the step of the counter are the round of the loop
  have hround := hbody b _ hb hfirst
    (hexits.mono hseg.range.1 (Nat.le_trans (by simp [Task.code]) hseg.range.2)) rfl
    (by simp only [Task.depth]; omega)
  refine hround.andThen fun b' hcont hw => ?_
  subst hw
  have hcounting : (countingDepth counter last : Int) ≤ b'.room := by
    rw [hcont.room]
    omega
  unfold countingDepth at hcounting
  have hends := ends_stepCounter (hb.continues hcont) (hcont.image ▸ hstep) hp hj hstore
    (by omega)
  rw [List.length_append, ← Nat.add_assoc]
  exact hends

private theorem countExit {counter : Ident} {last : Expr} {down : Bool} {body : Stmt} {i n : Value}
    (hi : (w.memory.valueOf counter).bind Memory.single = some i)
    (hn : w.memory.word .value last = some n) (hpassed : (passed down i n).truthy = false)
    (hbody : Simulated natives k exit (.stmt body) w .exit w') :
    Simulated natives k exit (.counting counter last down body) w .exit w' := by
  rintro b a hb hcode hexits rfl hroom
  obtain ⟨c, hc⟩ := exists_code_of_counting hcode
  simp only [Task.code, Task.depth, hc] at hcode hexits hroom
  have htest := leads_testCounter hb ((Segment.loop_test ..).codeAt hcode) hi hn (by omega)
  have hseg := Segment.loop_body a (testCounterCode counter c (exprCode .value last) down)
    (stmtCode body ++ stepCounterCode counter c down) .tjp
  exact .after (leads_loop_body true hb.ready hcode htest (by simp [hpassed]))
    (hbody b _ hb (codeAt_append.mp (hseg.codeAt hcode)).1
      (hexits.mono hseg.range.1 (Nat.le_trans (by simp [Task.code]) hseg.range.2)) rfl
      (by simp only [Task.depth]; omega))

/-! ### Statements one after another -/

private theorem cons {s : Stmt} {rest : List Stmt}
    (hfirst : Simulated natives k exit (.stmt s) w .normal w₁)
    (hrest : Simulated natives k exit (.stmts rest) w₁ o w') :
    Simulated natives k exit (.stmts (s :: rest)) w o w' := by
  intro b a hb hcode hexits hw hroom
  simp only [Task.code, Task.depth, stmtsCode, stmtsDepth] at hcode hexits hroom ⊢
  obtain ⟨hs, htail⟩ := codeAt_append.mp hcode
  rw [List.length_append] at hexits
  have hends : b.Ends a w₁ (a + (stmtCode s).length) :=
    hfirst b a hb hs (hexits.mono (Nat.le_refl _) (by simp [Task.code])) hw
      (by simp only [Task.depth]; omega)
  rw [List.length_append, ← Nat.add_assoc]
  exact hrest.andThen hb hends htail
    (hexits.mono (Nat.le_add_right _ _) (by simp [Task.code, Nat.add_assoc]))
    (by simp only [Task.depth]; omega)

private theorem consExit {s : Stmt} {rest : List Stmt}
    (hfirst : Simulated natives k exit (.stmt s) w .exit w') :
    Simulated natives k exit (.stmts (s :: rest)) w .exit w' := by
  intro b a hb hcode hexits hw hroom
  simp only [Task.code, Task.depth, stmtsCode, stmtsDepth] at hcode hexits hroom
  rw [List.length_append] at hexits
  exact hfirst b a hb (codeAt_append.mp hcode).1
    (hexits.mono (Nat.le_refl _) (by simp [Task.code])) hw (by simp only [Task.depth]; omega)

end Simulated

/-! ## The induction -/

/-- Every run of the reference semantics is simulated by the code. -/
theorem simulated_of_exec {natives : Registry} {k : Linking} {exit : Nat} {task : Task}
    {w w' : World} {o : Outcome} (h : Exec natives task w o w') :
    Simulated natives k exit task w o w' := by
  induction h with
  | missing | nil =>
    rintro b a - - - rfl -
    exact .of_leads (.refl b a [])
  | block hbody ih =>
    intro b a hb hcode hexits hw hroom
    simp only [Task.code, Task.depth, stmtCode, stmtDepth] at hcode hexits hroom ⊢
    exact ih b a hb hcode hexits hw hroom
  | exit =>
    rintro b a hb hcode hexits rfl -
    simp only [Task.code, stmtCode] at hcode hexits
    obtain ⟨t, hleaves, hleads⟩ := leads_leave hb.ready (codeAt_cons.mp hcode).1
    obtain rfl := hexits a t (Nat.le_refl _) (by simp) hleaves
    exact .of_leads hleads
  | assign hp hv hstore => exact .assign hp hv hstore
  | write hwrites hvs => exact .write hwrites hvs
  | condYes hv htruthy _ ih => exact .condYes hv htruthy ih
  | condNo hv htruthy _ ih => exact .condNo hv htruthy ih
  | whileDone hv htruthy => exact .whileDone hv htruthy
  | whileAgain hv htruthy _ _ ihbody ihrest => exact .whileAgain hv htruthy ihbody ihrest
  | whileExit hv htruthy _ ih =>
    intro b a hb hcode hexits hw hroom
    exact Simulated.whileBody hv htruthy ih hb hcode hexits hw hroom
  | repeatDone _ hv htruthy ih => exact .repeatDone ih hv htruthy
  | repeatAgain _ hv htruthy _ ihbody ihrest => exact .repeatAgain ihbody hv htruthy ihrest
  | repeatExit _ ih => exact .repeatExit ih
  | forTo hp hv hstore _ ih => exact .forTo hp hv hstore ih
  | cons _ _ ihfirst ihrest => exact .cons ihfirst ihrest
  | consExit _ ih => exact .consExit ih
  | countDone hi hn hpassed => exact .countDone hi hn hpassed
  | countAgain hi hn hpassed _ hp hj hstore _ ihbody ihrest =>
    exact .countAgain hi hn hpassed ihbody hp hj hstore ihrest
  | countExit hi hn hpassed _ ih => exact .countExit hi hn hpassed ih

end Machine

end PCode
