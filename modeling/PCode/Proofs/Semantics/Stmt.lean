import PCode.Native.Library
import PCode.Proofs.Semantics.Expr

/-!
# What statements mean

A big-step semantics of the statements that call no subprogram: assignments of
one word, conditionals, the three kinds of loops, exit statements and lines
written by `WriteLn`.  A statement acts on a memory and on the lines written so
far, and ends normally or with an exit, which abandons everything around it up
to the end of the subprogram.  The stack pointer, the heap and the active frame
of the memory stay what they are throughout.

Main definitions:

- `World`: what a statement can change.
- `Exec`: how a statement takes one world to another.
- `Gen.stmtDepth`: how many words are on the stack at most while it is executed.
-/

namespace PCode

/-! ## Worlds -/

namespace Memory

/-- Replace the word at an address that can be accessed. -/
def write (mem : Memory) (a : Int64) (v : Value) : Option Memory :=
  if mem.accessible a then
    some { mem with store := mem.store.setIfInBounds a.toNatClampNeg v }
  else none

/-- A store leaves everything but the store as it is, and its size too. -/
theorem write_eq {mem mem' : Memory} {a : Int64} {v : Value} (h : mem.write a v = some mem') :
    mem' = { mem with store := mem'.store } ∧ mem'.store.size = mem.store.size := by
  unfold write at h
  split at h
  · obtain rfl := Option.some.inj h
    simp
  · cases h

/-- The single word that an expression means. -/
def word (mem : Memory) (mode : Gen.Mode) (e : Expr) : Option Value :=
  (mem.eval mode e).bind single

/-- The words of arguments that are passed by value, one word each. -/
def argumentWords (mem : Memory) : List Arg → Option (List Value)
  | [] => some []
  | .mk e byRef :: rest => do
    guard (!byRef)
    let v ← mem.word .value e
    let vs ← mem.argumentWords rest
    return v :: vs

end Memory

/-- What a statement can change: the memory, and the lines written. -/
structure World where
  memory : Memory
  output : Array String

namespace World

/-- Replace the word at an address. -/
def store (w : World) (address v : Value) : Option World :=
  (w.memory.write address.toInt v).map ({ w with memory := · })

/-- Write values on one line. -/
def print (w : World) (vs : List Value) : World :=
  { w with output := w.output.push (String.intercalate " " (vs.map Value.text)) }

end World

/-- The world that a machine shows to a statement. -/
def Machine.world (m : Machine) : World := ⟨m.memory, m.output⟩

/-! ## Execution -/

/-- How a statement ends. -/
inductive Outcome where
  | normal
  /-- by an exit statement -/
  | exit
  deriving DecidableEq

/-- What is executed: a statement, statements one after another, or a counted loop whose counter
has been set. -/
inductive Task where
  | stmt (s : Stmt)
  | stmts (body : List Stmt)
  | counting (counter : Ident) (last : Expr) (down : Bool) (body : Stmt)

/-- The word that says whether a counter has passed the last value. -/
def passed (down : Bool) (counter last : Value) : Value :=
  if down then Operator.less counter last else Operator.greater counter last

/-- The word that follows a counter. -/
def counted (down : Bool) (counter : Value) : Value :=
  Operator.stepBy (if down then -1 else 1) counter

/-- A callee is the native procedure that writes its arguments on one line. -/
def Writes (natives : Registry) (callee : Ident) : Prop :=
  callee.symbol.kind = .native ∧
    natives.at? callee.symbol.address.toNatClampNeg = some Library.writeLn

open Memory in
/-- A task takes one world to another. -/
inductive Exec (natives : Registry) : Task → World → Outcome → World → Prop where
  | missing {w : World} : Exec natives (.stmt .missing) w .normal w
  | block {pos : Pos} {body : List Stmt} {o : Outcome} {w w' : World} :
      Exec natives (.stmts body) w o w' → Exec natives (.stmt (.block pos body)) w o w'
  | assign {pos : Pos} {target value : Expr} {a v : Value} {w w' : World} :
      w.memory.word .address target = some a → w.memory.word .value value = some v →
      w.store a v = some w' → Exec natives (.stmt (.assign pos target value)) w .normal w'
  | write {pos : Pos} {callee : Ident} {args : List Arg} {vs : List Value} {w : World} :
      Writes natives callee → w.memory.argumentWords args = some vs →
      Exec natives (.stmt (.call pos callee args)) w .normal (w.print vs)
  | condYes {pos : Pos} {test : Expr} {yes no : Stmt} {t : Value} {o : Outcome} {w w' : World} :
      w.memory.word .value test = some t → t.truthy = true → Exec natives (.stmt yes) w o w' →
      Exec natives (.stmt (.cond pos test yes no)) w o w'
  | condNo {pos : Pos} {test : Expr} {yes no : Stmt} {t : Value} {o : Outcome} {w w' : World} :
      w.memory.word .value test = some t → t.truthy = false → Exec natives (.stmt no) w o w' →
      Exec natives (.stmt (.cond pos test yes no)) w o w'
  | whileDone {pos : Pos} {test : Expr} {body : Stmt} {t : Value} {w : World} :
      w.memory.word .value test = some t → t.truthy = false →
      Exec natives (.stmt (.whileDo pos test body)) w .normal w
  | whileAgain {pos : Pos} {test : Expr} {body : Stmt} {t : Value} {o : Outcome} {w w₁ w' : World} :
      w.memory.word .value test = some t → t.truthy = true →
      Exec natives (.stmt body) w .normal w₁ →
      Exec natives (.stmt (.whileDo pos test body)) w₁ o w' →
      Exec natives (.stmt (.whileDo pos test body)) w o w'
  | whileExit {pos : Pos} {test : Expr} {body : Stmt} {t : Value} {w w' : World} :
      w.memory.word .value test = some t → t.truthy = true →
      Exec natives (.stmt body) w .exit w' →
      Exec natives (.stmt (.whileDo pos test body)) w .exit w'
  | repeatDone {pos : Pos} {body : List Stmt} {test : Expr} {t : Value} {w w' : World} :
      Exec natives (.stmts body) w .normal w' → w'.memory.word .value test = some t →
      t.truthy = true → Exec natives (.stmt (.repeatUntil pos body test)) w .normal w'
  | repeatAgain {pos : Pos} {body : List Stmt} {test : Expr} {t : Value} {o : Outcome}
      {w w₁ w' : World} :
      Exec natives (.stmts body) w .normal w₁ → w₁.memory.word .value test = some t →
      t.truthy = false → Exec natives (.stmt (.repeatUntil pos body test)) w₁ o w' →
      Exec natives (.stmt (.repeatUntil pos body test)) w o w'
  | repeatExit {pos : Pos} {body : List Stmt} {test : Expr} {w w' : World} :
      Exec natives (.stmts body) w .exit w' →
      Exec natives (.stmt (.repeatUntil pos body test)) w .exit w'
  | forTo {pos : Pos} {counter : Ident} {first last : Expr} {down : Bool} {body : Stmt}
      {a v : Value} {o : Outcome} {w w₁ w' : World} :
      w.memory.addressOf counter = some a → w.memory.word .value first = some v →
      w.store a v = some w₁ → Exec natives (.counting counter last down body) w₁ o w' →
      Exec natives (.stmt (.forTo pos counter first last down body)) w o w'
  | exit {pos : Pos} {w : World} : Exec natives (.stmt (.exit pos)) w .exit w
  | nil {w : World} : Exec natives (.stmts []) w .normal w
  | cons {s : Stmt} {rest : List Stmt} {o : Outcome} {w w₁ w' : World} :
      Exec natives (.stmt s) w .normal w₁ → Exec natives (.stmts rest) w₁ o w' →
      Exec natives (.stmts (s :: rest)) w o w'
  | consExit {s : Stmt} {rest : List Stmt} {w w' : World} :
      Exec natives (.stmt s) w .exit w' → Exec natives (.stmts (s :: rest)) w .exit w'
  | countDone {counter : Ident} {last : Expr} {down : Bool} {body : Stmt} {i n : Value}
      {w : World} :
      (w.memory.valueOf counter).bind single = some i → w.memory.word .value last = some n →
      (passed down i n).truthy = true →
      Exec natives (.counting counter last down body) w .normal w
  | countAgain {counter : Ident} {last : Expr} {down : Bool} {body : Stmt} {i n j a : Value}
      {o : Outcome} {w w₁ w₂ w' : World} :
      (w.memory.valueOf counter).bind single = some i → w.memory.word .value last = some n →
      (passed down i n).truthy = false → Exec natives (.stmt body) w .normal w₁ →
      w₁.memory.addressOf counter = some a → (w₁.memory.valueOf counter).bind single = some j →
      w₁.store a (counted down j) = some w₂ →
      Exec natives (.counting counter last down body) w₂ o w' →
      Exec natives (.counting counter last down body) w o w'
  | countExit {counter : Ident} {last : Expr} {down : Bool} {body : Stmt} {i n : Value}
      {w w' : World} :
      (w.memory.valueOf counter).bind single = some i → w.memory.word .value last = some n →
      (passed down i n).truthy = false → Exec natives (.stmt body) w .exit w' →
      Exec natives (.counting counter last down body) w .exit w'

/-! ## Depth -/

namespace Gen

/-- How many words are on the stack at most while arguments are evaluated. -/
def argumentsDepth : List Arg → Nat
  | [] => 0
  | .mk e _ :: rest => max (depth .value e) (1 + argumentsDepth rest)

/-- How many words are on the stack at most while a counter is tested and moved. -/
def countingDepth (counter : Ident) (last : Expr) : Nat :=
  max (1 + depth .value (.ident {} counter)) (1 + depth .value last)

mutual

/-- How many words are on the stack at most while a statement is executed. -/
@[simp] def stmtDepth : Stmt → Nat
  | .missing | .exit _ => 0
  | .block _ body => stmtsDepth body
  | .assign _ target value => max (depth .address target) (1 + depth .value value)
  | .call _ _ args => argumentsDepth args
  | .cond _ test yes no => max (depth .value test) (max (stmtDepth yes) (stmtDepth no))
  | .whileDo _ test body => max (depth .value test) (stmtDepth body)
  | .repeatUntil _ body test => max (stmtsDepth body) (depth .value test)
  | .forTo _ counter first last _ body =>
    max (1 + depth .value first) (max (countingDepth counter last) (stmtDepth body))

/-- How many words are on the stack at most while statements are executed. -/
@[simp] def stmtsDepth : List Stmt → Nat
  | [] => 0
  | s :: rest => max (stmtDepth s) (stmtsDepth rest)

end

end Gen

/-- How many words are on the stack at most while a task is carried out. -/
@[simp] def Task.depth : Task → Nat
  | .stmt s => Gen.stmtDepth s
  | .stmts body => Gen.stmtsDepth body
  | .counting counter last _ body => max (Gen.countingDepth counter last) (Gen.stmtDepth body)

end PCode
