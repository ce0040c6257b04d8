import PCode.Proofs.Codegen.Pieces
import PCode.Proofs.Simulation.Expr

/-!
# Compiled expressions

Every expression in an accepted program, wherever its code has come to stand,
computes what the reference evaluator says.  A composite parameter passed by
reference is the one place where the evaluator does not go by the size of a
type: its words are counted by type codes, and those are fewer than the size
says when the size does not fit in a word.

Main results:

- `compiled_expression_computes`: the code of an expression pushes what it means.
- `composite_by_reference_cut_short`: it need not push as many words as the size says.
-/

namespace PCode

/-- A machine at the code of an expression of an accepted program that has a meaning reaches the
end of that code, with the meaning pushed and all else as it was. -/
theorem compiled_expression_computes {natives : Registry} {main : Subprogram} {im : Image}
    (hcompile : compile natives (some main) = .image im) (hbound : im.code.size < 2 ^ 63)
    {b : Block} (hb : b ∈ (Ledger.program natives main).blocks) {p : Piece}
    (hp : p ∈ b.expressions) {m : Machine} (himage : m.image = im) (hrun : m.state = .running)
    (hsound : m.Sound) (hpc : m.pc = Int64.ofNat p.address) {vs : List Value}
    (heval : m.memory.eval p.mode p.expr = some vs)
    (hroom : (Gen.depth p.mode p.expr : Int) ≤ m.room) :
    ∃ m', m.Reaches m' ∧
      m.Stacked (p.address + (Gen.exprCode p.mode p.expr).length) vs m' := by
  subst himage
  obtain ⟨hholds, -, -⟩ := compile_holds hcompile hbound
  have hcode := codeAt_expression hholds (Ledger.placed_program natives main) hb hp
  have hleads : m.Leads p.address [] m (p.address + (Gen.exprCode p.mode p.expr).length) vs :=
    Machine.leads_exprCode ⟨hsound, hrun, hbound⟩ rfl p.mode p.expr hcode heval
      (by simpa using hroom)
  exact hleads m (.refl hsound hpc)

/-! ## A test on an element and a rate -/

/-- A variable of the active frame that holds an integer. -/
def numberVar (address : Int64) : Ident :=
  ⟨{ id := address.toNatClampNeg, name := "number", kind := .data, type := .integer, address,
     byRef := false }, 0⟩

/-- An array of integers with indices from two to four. -/
def rowVar : Ident :=
  ⟨{ id := 1, name := "row", kind := .data, type := .array [⟨2, 4⟩] .integer, address := 5,
     byRef := false }, 0⟩

/-- An index of the array. -/
def indexVar : Ident :=
  ⟨{ id := 2, name := "i", kind := .data, type := .integer, address := 8, byRef := false }, 0⟩

/-- A real number. -/
def rateVar : Ident :=
  ⟨{ id := 3, name := "rate", kind := .data, type := .real, address := 9, byRef := false }, 0⟩

/-- A truth value. -/
def testVar : Ident :=
  ⟨{ id := 4, name := "test", kind := .data, type := .boolean, address := 10, byRef := false },
    0⟩

/-- The element at the index, less one, is greater than the index times two. -/
def elementTest : Expr :=
  .binary {} .gt
    (.binary {} .sub (.index {} (.ident {} rowVar) [.ident {} indexVar]) (.number {} 1) .integer)
    (.binary {} .mul (.ident {} indexVar) (.number {} 2) .integer) .boolean

/-- The rate times a half is at most one and a quarter. -/
def rateTest : Expr :=
  .binary {} .le (.binary {} .mul (.ident {} rateVar) (.number {} 0.5) .real)
    (.number {} 1.25) .boolean

/-- Both tests hold. -/
def bothTests : Expr := .binary {} .and elementTest rateTest .boolean

/-- A program that makes both tests. -/
def testProgram : Subprogram :=
  .mk
    { kind := .program, symbol := none, result := .missing, paramWords := 0, varWords := 6
      body := [.assign {} (.ident {} testVar) bothTests] }
    []

/-- A machine that is about to make them, with the index three and the rate two. -/
def testMachine : Machine :=
  { (default : Machine) with
    image := (compile .empty (some testProgram)).result
    store := #[.ofInt 0, .ofInt 0, .ofInt 0, .ofInt 0, .ofInt 99, .ofInt 70, .ofInt 71, .ofInt 72,
      .ofInt 3, .ofReal 2, .ofBool false, .ofAddress 10] ++ Array.replicate 8 .undefined
    pc := 2, sp := 12, mp := 0, np := 20
    state := .running }

/-- The result of both tests is pushed above the address that waits for it. -/
theorem compiled_expression_computes_tests :
    ∃ m', testMachine.Reaches m' ∧ testMachine.Stacked 20 [.ofBool true] m' :=
  compiled_expression_computes (Compilation.eq_image (by decide +kernel)) (by decide +kernel)
    (List.mem_singleton_self _) (p := ⟨2, .value, bothTests⟩) (.tail _ (.head _)) rfl rfl
    ⟨by decide +kernel, by decide +kernel, by decide +kernel, by decide +kernel⟩ rfl
    (by decide +kernel) (by decide +kernel)

/-! ## A size that does not fit in a word -/

/-- An array whose size, three times its length, is five modulo the range of a word. -/
def wrappedType : Ty := .array [⟨0, 6148914691236517206⟩] (.array [⟨0, 2⟩] .integer)

/-- A parameter of that type, passed by reference. -/
def wrappedParam : Ident :=
  ⟨{ id := 1, name := "v", kind := .param, type := wrappedType, address := 5, byRef := true }, 0⟩

/-- A native procedure, of which no more is needed than that it can be called. -/
def writeProcedure : Ident :=
  ⟨{ id := 2, name := "WriteLn", kind := .native, type := .subprogram [] .missing, address := 13,
     byRef := false }, 0⟩

/-- A body that passes the parameter on by value. -/
def wrappedProgram : Subprogram :=
  .mk
    { kind := .procedure, symbol := none, result := .missing, paramWords := 1, varWords := 0
      body := [.call {} writeProcedure [.mk (.ident {} wrappedParam) false]] }
    []

/-- A machine that is about to evaluate the parameter, whose words are the five from address
five on. -/
def wrappedMachine : Machine :=
  { (default : Machine) with
    image := (compile .empty (some wrappedProgram)).result
    store := #[.ofInt 0, .ofInt 0, .ofInt 0, .ofInt 0, .ofInt 9, .ofInt 70, .ofInt 71, .ofInt 72,
      .ofInt 73, .ofInt 74, .ofInt 0, .ofInt 0, .ofInt 0, .ofInt 0, .ofInt 9, .ofAddress 5] ++
      Array.replicate 16 .undefined
    pc := 1, sp := 16, mp := 10, np := 32
    state := .running }

/-- The parameter has five words by its size, which all can be read, and there is room for more.
But the machine never comes to the end of its code with all five pushed. -/
theorem composite_by_reference_cut_short :
    compile .empty (some wrappedProgram) = .image wrappedMachine.image ∧
      (∃ b ∈ (Ledger.program .empty wrappedProgram).blocks,
        ⟨1, .value, .ident {} wrappedParam⟩ ∈ b.expressions) ∧
      wrappedMachine.state = .running ∧ wrappedMachine.Sound ∧ wrappedMachine.pc = Int64.ofNat 1 ∧
      6 ≤ wrappedMachine.room ∧
      ∃ vs, (List.range wrappedType.size.toNatClampNeg).mapM
          (wrappedMachine.memory.wordOf wrappedParam) = some vs ∧ vs.length = 5 ∧
        ¬ ∃ m', wrappedMachine.Reaches m' ∧
          wrappedMachine.Stacked (1 + (Gen.exprCode .value (.ident {} wrappedParam)).length) vs
            m' := by
  refine ⟨Compilation.eq_image (by decide +kernel), ⟨_, List.mem_singleton_self _, .head _⟩, rfl,
    ⟨by decide +kernel, by decide +kernel, by decide +kernel, by decide +kernel⟩, rfl,
    by decide +kernel, [.ofInt 70, .ofInt 71, .ofInt 72, .ofInt 73, .ofInt 74], rfl, rfl, ?_⟩
  rintro ⟨m', hreaches, hstacked⟩
  -- the run ends in the call that follows the code
  obtain ⟨i, hi, hafter⟩ := hreaches.before_end (n := 11) (by decide +kernel) hstacked.state
  have hnever : ∀ i < 11, (wrappedMachine.after i).all (·.sp.toInt ≠ 21) = true := by
    decide +kernel
  have hsp := hnever i hi
  rw [hafter, Option.all_some, hstacked.sp] at hsp
  exact absurd hsp (by decide +kernel)

end PCode
