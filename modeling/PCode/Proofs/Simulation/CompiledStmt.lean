import PCode.Proofs.Simulation.CompiledExpr
import PCode.Proofs.Simulation.Stmt

/-!
# Compiled statements

Every statement in an accepted program, wherever its code has come to stand,
does what the reference semantics says.  All jumps in the code of a statement
have been filled in by then, and an exit leads to the return of the subprogram
around it.

Main results:

- `compiled_statement_runs`: the code of a statement does what the statement means.
- `arrived_line_disturbs_writing`: a line that waits for a reader changes the stack.
-/

namespace PCode

/-- A machine at the code of a statement of an accepted program, when the semantics takes its world
to another one, reaches a machine that shows that world, behind the code or, after an exit, at the
return of the subprogram.  No native procedure may wait for a line that has arrived. -/
theorem compiled_statement_runs {natives : Registry} {main : Subprogram} {im : Image}
    (hcompile : compile natives (some main) = .image im) (hbound : im.code.size < 2 ^ 63)
    {b : Block} (hb : b ∈ (Ledger.program natives main).blocks) {a : Nat} {s : Stmt}
    (hs : (a, s) ∈ b.statements) {m : Machine} (himage : m.image = im)
    (hrun : m.state = .running) (hsound : m.Sound) (hline : m.line = none ∨ m.reader = none)
    (hpc : m.pc = Int64.ofNat a) (hroom : (Gen.stmtDepth s : Int) ≤ m.room)
    {o : Outcome} {w : World} (hexec : Exec natives (.stmt s) m.world o w) :
    (∃ word, im.code[b.exit]? = some word ∧ word.opcode = Opcode.rtn.byte) ∧
      ∃ m', m.Reaches m' ∧
        m'.pc = Int64.ofNat (o.target (a + (Gen.stmtCode s).length) b.exit) ∧
        m'.sp = m.sp ∧ m'.mp = m.mp ∧ m'.np = m.np ∧ m'.ep = m.ep ∧ m'.state = .running ∧
        m'.output = w.output ∧ m'.store.size = w.memory.store.size ∧
        ∀ i : Nat, (i : Int) < m.sp.toInt ∨ m.np.toInt ≤ i →
          m'.store[i]? = w.memory.store[i]? := by
  subst himage
  obtain ⟨hholds, -, -⟩ := compile_holds hcompile hbound
  have hplaced := Ledger.placed_program natives main
  refine ⟨hholds.return_at_exit hplaced hb, ?_⟩
  obtain ⟨hcode, hfrom, hto⟩ := codeAt_statement hholds hplaced hb hs
  dsimp only at hcode hfrom hto
  have hprepared : m.Prepared natives ((Ledger.program natives main).finalLinking m.image) :=
    ⟨⟨hsound, hrun, hbound⟩, hline,
      hholds.natives.trans (Ledger.program_natives natives main), rfl⟩
  have hexits : ((Ledger.program natives main).finalLinking m.image).ExitsTo a
      (Gen.stmtCode s).length b.exit :=
    fun x t h₁ h₂ => hplaced.leaves_eq hb (by omega)
  obtain ⟨m₁, hcont, rfl, hleads⟩ :=
    Machine.simulated_of_exec hexec m a hprepared hcode hexits rfl hroom
  obtain ⟨m', hreaches, hstacked⟩ := hleads m (.refl hsound hpc)
  have hsp : m'.sp.toInt = m.sp.toInt := by simpa [hcont.sp] using hstacked.sp
  refine ⟨m', hreaches, hstacked.pc, Int64.toInt_inj.mp hsp, hstacked.mp.trans hcont.mp,
    hstacked.np.trans hcont.np, ?_, hstacked.state.trans (hcont.state.trans hrun), ?_,
    hstacked.size, fun i hi => hstacked.kept i ?_⟩
  · exact (congrArg Machine.ep hstacked.rest :).trans (congrArg Machine.ep hcont.rest :)
  · exact (congrArg Machine.output hstacked.rest :)
  · have hbase := hsound.base
    have hgap := hsound.gap
    rw [hcont.sp, hcont.np]
    simp only [toNatClampNeg_eq]
    omega

/-! ## A loop that writes -/

/-- A registry with nothing but the procedure that writes a line. -/
def writingRegistry : Registry := { natives := #[Library.writeLn] }

/-- The procedure that writes a line. -/
def writingCallee : Ident :=
  ⟨{ id := 1, name := "WriteLn", kind := .native, type := .subprogram [] .missing, address := 0,
     byRef := false }, 0⟩

/-- The statement that writes a variable. -/
def writeNumber (address : Int64) : Stmt :=
  .call {} writingCallee [.mk (.ident {} (numberVar address)) false]

/-- While the first number is less than the second, write it and add the second to it, and exit
if that makes it equal to the second. -/
def numberLoop : Stmt :=
  .whileDo {} (.binary {} .lt (.ident {} (numberVar 5)) (.ident {} (numberVar 6)) .boolean) <|
    .block {}
      [ writeNumber 5
      , .assign {} (.ident {} (numberVar 5))
          (.binary {} .add (.ident {} (numberVar 5)) (.ident {} (numberVar 6)) .integer)
      , .cond {} (.binary {} .eq (.ident {} (numberVar 5)) (.ident {} (numberVar 6)) .boolean)
          (.exit {}) .missing ]

/-- A program with two numbers and a given body. -/
def numberProgram (body : Stmt) : Subprogram :=
  .mk
    { kind := .program, symbol := none, result := .missing, paramWords := 0, varWords := 2
      body := [body] }
    []

/-- A machine at the body of such a program, with the numbers three and four, when a line has
arrived that nothing waits for. -/
def numberMachine (body : Stmt) : Machine :=
  { (default : Machine) with
    image := (compile writingRegistry (some (numberProgram body))).result
    store := #[.ofInt 0, .ofInt 0, .ofInt 0, .ofInt 0, .ofInt 99, .ofInt 3, .ofInt 4] ++
      Array.replicate 5 .undefined
    pc := 1, sp := 7, mp := 0, np := 12
    state := .running, line := some "late" }

/-- The image of the machine is that of the program. -/
theorem compile_numberProgram (body : Stmt)
    (h : (compile writingRegistry (some (numberProgram body))).isImage = true) :
    compile writingRegistry (some (numberProgram body)) = .image (numberMachine body).image := by
  dsimp only [numberMachine]
  exact Compilation.eq_image h

/-- The loop is left after one round, in which a line was written and the first number became
seven. -/
theorem compiled_statement_runs_loop :
    ∃ m', (numberMachine numberLoop).Reaches m' ∧ m'.pc = 18 ∧ m'.sp = 7 ∧ m'.output = #["3"] ∧
      m'.store[5]? = some (.ofInt 7) := by
  have hexec : Exec writingRegistry (.stmt numberLoop) (numberMachine numberLoop).world .normal _ :=
    .whileAgain rfl rfl
      (.block (.cons (.write ⟨rfl, rfl⟩ rfl)
        (.cons (.assign rfl rfl rfl) (.cons (.condNo rfl rfl .missing) .nil))))
      (.whileDone rfl rfl)
  have hcompile := compile_numberProgram numberLoop (by decide +kernel)
  obtain ⟨-, m', hreaches, hpc, hsp, -, -, -, -, hout, -, hstore⟩ :=
    compiled_statement_runs hcompile (by decide +kernel) (List.mem_singleton_self _) (.head _) rfl
      rfl ⟨by decide +kernel, by decide +kernel, by decide +kernel, by decide +kernel⟩ (.inr rfl)
      rfl (by decide +kernel) hexec
  refine ⟨m', hreaches, hpc, hsp, hout, ?_⟩
  rw [hstore 5 (.inl (by decide +kernel))]
  decide +kernel

/-! ## A line that has arrived -/

/-- A machine about to write a number, while a native procedure waits for the line that has
arrived. -/
def disturbedMachine : Machine :=
  { numberMachine (writeNumber 5) with reader := some (.native Library.lineArrived) }

/-- The image of that machine is that of its program. -/
theorem compile_disturbed :
    compile writingRegistry (some (numberProgram (writeNumber 5))) =
      .image disturbedMachine.image :=
  compile_numberProgram _ (by decide +kernel)

/-- The semantics takes the world of the machine to one with a line written.  But in the call that
writes it the line that has arrived is handed on, which pushes it, so the machine never comes to
the end of the code with its stack as it was. -/
theorem arrived_line_disturbs_writing :
    compile writingRegistry (some (numberProgram (writeNumber 5))) = .image disturbedMachine.image ∧
      (∃ b ∈ (Ledger.program writingRegistry (numberProgram (writeNumber 5))).blocks,
        (1, writeNumber 5) ∈ b.statements) ∧
      disturbedMachine.state = .running ∧ disturbedMachine.Sound ∧
      disturbedMachine.pc = Int64.ofNat 1 ∧
      (Gen.stmtDepth (writeNumber 5) : Int) ≤ disturbedMachine.room ∧
      Exec writingRegistry (.stmt (writeNumber 5)) disturbedMachine.world .normal
        (disturbedMachine.world.print [.ofInt 3]) ∧
      ¬ ∃ m', disturbedMachine.Reaches m' ∧
        m'.pc = Int64.ofNat (1 + (Gen.stmtCode (writeNumber 5)).length) ∧
        m'.sp = disturbedMachine.sp ∧ m'.state = .running := by
  refine ⟨compile_disturbed, ⟨_, List.mem_singleton_self _, .head _⟩, rfl,
    ⟨by decide +kernel, by decide +kernel, by decide +kernel, by decide +kernel⟩, rfl,
    by decide +kernel, .write ⟨rfl, rfl⟩ rfl, ?_⟩
  rintro ⟨m', hreaches, hpc, hsp, hrun⟩
  -- the return that follows leads to an address without an instruction
  obtain ⟨i, hi, hafter⟩ := hreaches.before_end (n := 4) (by decide +kernel) hrun
  have hnever : ∀ i < 4, (disturbedMachine.after i).all
      (fun m => m.pc ≠ Int64.ofNat (1 + (Gen.stmtCode (writeNumber 5)).length) ∨
        m.sp ≠ disturbedMachine.sp) = true := by
    decide +kernel
  have hthis := hnever i hi
  rw [hafter, Option.all_some, hpc, hsp] at hthis
  simp at hthis

end PCode
