import PCode.Proofs.Run.Frames

/-!
# Links and heights

While a compiled program runs and stores only to words of its own, the marks on
its stack are a picture of the calls that have not returned.  The dynamic links
lead from each frame to that of its caller, the static links to those of the
subprograms around it, and how high the stack is above the newest frame depends
on the next instruction only.

Main definitions and results:

- `OwnRun`: a run that stores only to words of its own.
- `Machine.Mirrors`: the links on a stack are those of a call stack.
- `Machine.Upright`: the height of a stack is that of the next instruction.
- `links_mirror_calls`: the links on the stack are those of the call stack.
- `height_above_frame`: the height of the stack is that of the next instruction.
- `pair_operand_shifts_frame`: an operand of two words puts a frame in the wrong place.
- `wrapped_frame_loses_height`: so does a size that does not fit in a word.
-/

namespace PCode

open Machine

/-! ## Links -/

namespace Machine

section

variable {natives : Registry} {src : Scoped} {m : Machine} {acts : List Activation} {s : Shape}
  {top heap words : Nat}

end

end Machine

section

variable {natives : Registry} {src : Scoped} {im : Image} {m : Machine} {acts : List Activation}

/-- Where the stack of a machine ends: above the typed constants and below the heap, and in the code
of a subprogram as far above the frame as the instruction says. -/
structure Machine.Upright (natives : Registry) (src : Scoped) (m : Machine) : Prop where
  bottom : m.image.typedConstants.size ≤ m.sp.toInt
  gap : m.sp.toInt ≤ m.np.toInt
  top : m.np.toInt ≤ m.store.size
  height : ∀ q t, q :: t ∈ src.sites natives → ∀ p, q.block.entry < p → p ≤ q.block.exit →
    m.pc = Int64.ofNat p →
      m.sp.toInt = m.mp.toInt + q.block.header.frameSize.toInt + q.block.height natives p

/-- The blocks end before the start of the program. -/
theorem Scoped.exit_lt_launch {q : Level} {t : List Level} (h : q :: t ∈ src.sites natives) :
    q.block.exit < src.launch natives := by
  have hends := (Ledger.placed_program natives src.tree).ends _ (mem_blocks h)
  have hstart : (Ledger.program natives src.tree).start = src.launch natives :=
    Ledger.start_addSubprogram { natives } src.tree
  omega

private theorem Compiled.launch_lt (hc : Compiled natives src im) :
    src.launch natives + 2 < 2 ^ 63 := by
  obtain ⟨-, ⟨w, hword, -⟩, -⟩ := hc.holds.launch (Eq.refl (src.launch natives))
  have hlt := (Array.getElem?_eq_some_iff.mp hword).1
  have hbound := hc.holds.bound
  omega

/-- The number of words in a frame is what the entry instruction says. -/
theorem Scoped.Program.toInt_frameSize {q : Level} {t : List Level} (hp : src.Program natives)
    (h : q :: t ∈ src.sites natives) : q.block.header.frameSize.toInt = q.frameSize := by
  have hfive := (hp.frameSize_eq h).2
  simp only [Level.frameSize, toNatClampNeg_eq, markSize] at hfive ⊢
  omega

/-- The stack of a machine in order ends where the next instruction says. -/
theorem Ordered.upright (hc : Compiled natives src im) (h : Ordered natives src m acts) :
    m.Upright natives src := by
  have hlaunch := hc.launch_lt
  obtain ⟨top, heap, kept, hkeeps⟩ : ∃ top heap kept, Keeps m top heap kept := by
    cases h with
    | idle _ _ hkeeps => exact ⟨_, _, _, hkeeps⟩
    | launching _ _ hkeeps => exact ⟨_, _, _, hkeeps⟩
    | entering h =>
      obtain ⟨arguments, heap, hkeeps⟩ := h.keeps
      exact ⟨_, _, _, hkeeps⟩
    | inside h =>
      obtain ⟨heap, hkeeps⟩ := h.keeps
      exact ⟨_, _, _, hkeeps⟩
  have hsp := hkeeps.toInt_sp
  have hnp := hkeeps.toInt_np
  have hbase := hkeeps.base
  have hgap := hkeeps.gap
  have hheap := hkeeps.heap_le
  refine ⟨by omega, by omega, by omega, fun q t hq p hlow hhigh hpc => ?_⟩
  have hexit := Scoped.exit_lt_launch hq
  have hint := toInt_ofNat (n := p) (by omega)
  -- No other address has the same number.
  have hsame {p' : Nat} (hlt : p' ≤ src.launch natives + 2) (hpc' : m.pc = Int64.ofNat p') :
      p = p' := by
    have hint' := toInt_ofNat (n := p') (by omega)
    rw [← hpc', hpc, hint] at hint'
    omega
  cases h with
  | idle _ hstart _ =>
    rcases hstart with hstart | hstart
    · have := hsame (by omega) hstart
      omega
    · have := hsame (by omega) hstart
      omega
  | launching _ hstart _ =>
    have := hsame (by omega) hstart
    omega
  | @entering a rest h =>
    have ha := h.live.chain_mem (.head _)
    rw [a.chain_eq] at ha
    have hentry := a.level.block.entry_le_exit
    have hbelow := Scoped.exit_lt_launch ha
    have hat := hsame (by omega) h.pc
    obtain ⟨rfl, -⟩ := List.cons.inj (Scoped.site_of_address hq ha ⟨by omega, hhigh⟩
      ⟨by omega, by omega⟩)
    omega
  | @inside a rest p' h =>
    have hbelow := Scoped.exit_lt_launch h.chain_mem
    have hhigh' := h.high
    have hlow' := h.low
    obtain rfl := hsame (by omega) h.pc
    obtain ⟨rfl, -⟩ := List.cons.inj (Scoped.site_of_address hq h.chain_mem ⟨by omega, hhigh⟩
      ⟨by omega, hhigh'⟩)
    obtain ⟨heap', hkeeps'⟩ := h.keeps
    have hgap' := hkeeps'.gap
    have hheap' := hkeeps'.heap_le
    have hsize' := hkeeps'.size
    have htop : a.top = a.base + a.level.frameSize := rfl
    have hheight : a.level.block.height natives p =
      Shape.height (a.level.block.shapeAt natives p) := rfl
    rw [hkeeps'.toInt_sp, h.mp, toInt_ofNat (by omega), hc.program.toInt_frameSize hq]
    omega

/-! ## Runs -/

/-- A machine that a run over an image has come to by some moves, in which it stored only to words
of its own. -/
structure OwnRun (natives : Registry) (src : Scoped) (im : Image) (start : Machine)
    (moves : List Move) (m : Machine) : Prop where
  image : start.image = im
  constants : im.typedConstants.size ≤ start.store.size
  size : start.store.size ≤ Machine.maxStoreSize.toNatClampNeg
  disciplined : src.Disciplined natives [] start.run moves
  played : Machine.play moves start.run = .ok () m

/-- The stack is in order when a run has come to a machine that goes on. -/
theorem OwnRun.ordered {start : Machine} {moves : List Move} (hc : Compiled natives src im)
    (h : OwnRun natives src im start moves m) (hstate : m.state = .running) :
    m.image = im ∧ m.Active ∧
      Ordered natives src m (src.callStack natives [] start.run moves) := by
  have hlargest : Machine.maxStoreSize.toNatClampNeg < 2 ^ 62 := by decide
  have hsize := h.size
  have himage : start.run.image = im := (Beside.stop start).image.trans h.image
  have hunderway := underway_run hc h.image (h.image ▸ h.constants) (by omega)
  obtain ⟨himage', hunderway'⟩ := hunderway.play hc himage h.disciplined h.played
  refine ⟨himage'.trans himage, ?_⟩
  cases hunderway' with
  | stopped hstopped => simp [hstate] at hstopped
  | waiting hwaiting => simp [hstate] at hwaiting
  | running _ hreader hordered => exact ⟨⟨hstate, hreader⟩, hordered⟩

/-- What the standard procedures are called with does not matter for a program that was built
through scopes and compiled. -/
theorem Compiled.of_compile (hp : src.Program Library.registry)
    (hcompile : compile Library.registry (some src.tree) = .image im)
    (hbound : im.code.size < 2 ^ 63) : Compiled Library.registry src im := by
  obtain ⟨hholds, -, hstart⟩ := compile_holds hcompile hbound
  exact ⟨hp, hholds, hstart, fun _ _ => Library.mem_of_at?, Library.registry_size⟩

section

variable {start : Machine} {moves : List Move}

/-- Whenever a compiled program is running and has stored only to words of its own, its stack ends
as far above the newest frame as the next instruction says: at the frame itself where a statement
starts or ends and at the return.  The next instruction is there, and if it stores to a word of its
own too, it neither finds the stack empty nor calls below the stack. -/
theorem height_above_frame (hp : src.Program Library.registry)
    (hcompile : compile Library.registry (some src.tree) = .image im)
    (hbound : im.code.size < 2 ^ 63) (hrun : OwnRun Library.registry src im start moves m)
    (hstate : m.state = .running) :
    m.Upright Library.registry src ∧
      (∀ q t, q :: t ∈ src.sites Library.registry →
        q.block.height Library.registry q.block.exit = 0 ∧
        ∀ p ∈ q.block.statements, q.block.height Library.registry p.1 = 0 ∧
          q.block.height Library.registry (p.1 + (Gen.stmtCode p.2).length) = 0) ∧
      ∃ w, m.image.fetch? m.pc = some w ∧
        ((∀ x ∈ (m.fetched w).stores w, Permitted im.typedConstants.size
            (src.callStack Library.registry [] start.run moves) x.1 x.2) →
          Meets (execute w) (m.fetched w) fun _ m' => m'.image = im) := by
  have hc := Compiled.of_compile hp hcompile hbound
  obtain ⟨himage, hactive, hordered⟩ := hrun.ordered hc hstate
  refine ⟨hordered.upright hc, fun q t hq => ?_, ?_⟩
  · obtain ⟨nested, hfits⟩ := (hc.program.nested_cons hq).fits
    have hsurroundings := hc.program.surroundings hq hc.holds hc.few
    have haccepted := hc.program.accepted hq hc.holds
    refine ⟨?_, fun p hp => Block.height_statement hsurroundings hfits.body haccepted hp⟩
    rw [Block.height, hc.shapeAt_exit hq, Shape.height_nil]
  · obtain ⟨w, hfetch, hexecutes⟩ := hordered.executes hc himage hactive
    refine ⟨w, hfetch, fun hstores => ?_⟩
    rw [← himage] at hstores
    exact (hexecutes hstores).mono fun _ m' hcontinues => hcontinues.1.trans himage

end

end

/-! ## Checking stores -/

instance (s : Scope) (offset : Int) : Decidable (s.Declares offset) :=
  @instDecidableOr _ _ (inferInstanceAs (Decidable (∃ p ∈ s.symbols, _)))
    (decidable_of_iff (s.result.any (fun sym => offset == sym.address.toInt) = true)
      (by simp [Option.any_eq_true]))

/-- Every store during some moves is to a declared word of a live frame. -/
def Scoped.storesDeclared (natives : Registry) (src : Scoped) :
    List Activation → Machine → List Move → Bool
  | _, _, [] => true
  | acts, m, a :: moves =>
    (a.stores m).all (fun x => acts.any fun c => c.level.scope.Declares (x.2.toInt - c.base)) &&
      match a.run m with
      | .ok _ m' => src.storesDeclared natives (a.follow natives src acts m) m' moves
      | .error .. => true

private theorem Scoped.disciplined_of_storesDeclared {natives : Registry} {src : Scoped}
    {acts : List Activation} {m : Machine} {moves : List Move}
    (h : src.storesDeclared natives acts m moves = true) :
    src.Disciplined natives acts m moves := by
  induction moves generalizing acts m with
  | nil => trivial
  | cons a moves ih =>
    rw [storesDeclared, Bool.and_eq_true, List.all_eq_true] at h
    obtain ⟨hstores, hrest⟩ := h
    refine ⟨fun x hx => ?_, ?_⟩
    · obtain ⟨c, hc, hdeclares⟩ := List.any_eq_true.mp (hstores x hx)
      exact .inl ⟨c, hc, of_decide_eq_true hdeclares⟩
    · cases hrun : a.run m with
      | ok u m' =>
        rw [hrun] at hrest
        exact ih hrest
      | error c m' => trivial

/-- What can be said of the machine after some moves, if none of them crashes. -/
def Machine.playsTo (m : Machine) (moves : List Move) (test : Machine → Bool) : Bool :=
  match Machine.play moves m with
  | .ok _ m' => test m'
  | .error .. => false

/-- A play that was checked leads to a machine that passes the test. -/
theorem Machine.exists_play {m : Machine} {moves : List Move} {test : Machine → Bool}
    (h : m.playsTo moves test = true) : ∃ m', play moves m = .ok () m' ∧ test m' = true := by
  unfold playsTo at h
  split at h
  · rename_i m' hplay
    exact ⟨m', hplay, h⟩
  · cases h

/-- A store of forty words for a compiled program. -/
def freshMachine (src : Scoped) : Machine :=
  { (default : Machine) with
    image := (compile Library.registry (some src.tree)).result
    store := Array.replicate 40 .undefined }

private theorem compile_freshMachine {src : Scoped}
    (h : (compile Library.registry (some src.tree)).isImage = true) :
    compile Library.registry (some src.tree) = .image (freshMachine src).image := by
  dsimp only [freshMachine]
  exact Compilation.eq_image h

/-- Instructions that store to declared words only are a run of their own. -/
theorem ownRun_of_checks (src : Scoped) (n : Nat) (test : Machine → Bool)
    (hconstants : (freshMachine src).image.typedConstants.size ≤ 40)
    (hstores : src.storesDeclared Library.registry [] (freshMachine src).run
      (List.replicate n .execute) = true)
    (hplays : (freshMachine src).run.playsTo (List.replicate n .execute) test = true) :
    ∃ m, OwnRun Library.registry src (freshMachine src).image (freshMachine src)
      (List.replicate n .execute) m ∧ test m = true := by
  obtain ⟨m, hplay, htest⟩ := Machine.exists_play hplays
  refine ⟨m, ⟨rfl, ?_, ?_, Scoped.disciplined_of_storesDeclared hstores, hplay⟩, htest⟩
  · simpa [freshMachine] using hconstants
  · have hsize : (freshMachine src).store.size = 40 := by simp [freshMachine]
    rw [hsize]
    decide

/-! ## Nested calls -/

/-- A procedure with given parameters. -/
def procedureSymbol (id : Nat) (name : String) (params : List (Parameter Ty)) : Symbol :=
  { id, name, kind := .subprogram, type := .subprogram params .void, address := 0, byRef := false }

/-- A variable. -/
def variableSymbol (id : Nat) (name : String) (type : Ty) (address : Int64) : Symbol :=
  { id, name, kind := .data, type, address, byRef := false }

/-- The program, and in it a procedure `outer` with a procedure `inner`. -/
def outerSymbol : Symbol := procedureSymbol 1 "outer" []

/-- A procedure in the outer one. -/
def innerSymbol : Symbol := procedureSymbol 2 "inner" []

/-- A variable of the program. -/
def flagSymbol : Symbol := variableSymbol 3 "flag" .boolean 5

/-- The scope of the program, with the variable and the outer procedure. -/
def flagScope : Scope := ({ varWords := 1 : Scope }.define flagSymbol).define outerSymbol

/-- The scope of the outer procedure. -/
def outerScope : Scope := ({} : Scope).define innerSymbol

/-- A procedure that sets the variable. -/
def innerCall : Scoped :=
  .mk {}
    (({} : Scope).subprogram .procedure (some innerSymbol)
      [.assign {} (.ident {} ⟨flagSymbol, 2⟩) (.bool {} true)] []).header []

/-- A procedure that calls that one, which is in it. -/
def outerCall : Scoped :=
  .mk outerScope
    (outerScope.subprogram .procedure (some outerSymbol) [.call {} ⟨innerSymbol, 0⟩ []] []).header
    [innerCall]

/-- A program that calls this one in turn. -/
def nestedCalls : Scoped :=
  .mk flagScope (flagScope.subprogram .program none [.call {} ⟨outerSymbol, 0⟩ []] []).header
    [outerCall]

/-- A procedure without a result is no function. -/
theorem not_function (id : Nat) (name : String) (params : List (Parameter Ty)) :
    SubprogramKind.procedure = .function ↔
      ∃ sym, some (procedureSymbol id name params) = some sym ∧ sym.resultType.isVoid = false := by
  constructor
  · intro h
    cases h
  · rintro ⟨sym, hsym, hvoid⟩
    obtain rfl := Option.some.inj hsym
    cases hvoid

/-- A procedure can be called in the scope that declares it. -/
theorem callTyped_define (natives : Registry) (s : Scope) (id : Nat) (name : String)
    (around : Scopes) :
    CallTyped natives (s.define (procedureSymbol id name []) :: around)
      ⟨procedureSymbol id name [], 0⟩ [] := by
  refine ⟨⟨0, name, ?_⟩, ⟨by simp, by decide⟩, trivial⟩
  simp [Scopes.lookup?, Scopes.find?, Scope.find?, Scope.define, procedureSymbol]

private theorem nestedCalls_program (natives : Registry) : nestedCalls.Program natives := by
  have hflag : flagScope.Built :=
    ⟨[.var 3 "flag" .boolean, .subprogram outerSymbol.id outerSymbol.name outerSymbol.type], _, rfl,
      by unfold ParamsFirst; decide,
      List.forall_mem_cons.mpr ⟨trivial, by simp [Declaration.Sized]⟩, by decide⟩
  have houter : outerScope.Built :=
    ⟨[.subprogram innerSymbol.id innerSymbol.name innerSymbol.type], _, rfl,
      by unfold ParamsFirst; decide, by simp [Declaration.Sized], by decide⟩
  have hnone : ({} : Scope).Built := ⟨[], _, rfl, .nil, by simp, by decide⟩
  have hinner : innerCall.WellFormed natives [outerScope, flagScope] :=
    ⟨⟨hnone, rfl, rfl, rfl, not_function ..,
      ⟨⟨trivial, ⟨.boolean, rfl, rfl, rfl⟩, trivial⟩, trivial⟩, by simp⟩, trivial⟩
  have houterCall : outerCall.WellFormed natives [flagScope] := by
    refine ⟨⟨houter, rfl, rfl, rfl, not_function ..,
      ⟨⟨callTyped_define .., trivial⟩, trivial⟩, fun n hn => ?_⟩, hinner, trivial⟩
    obtain rfl := List.mem_singleton.mp hn
    exact ⟨innerSymbol, rfl, rfl, _, .head _⟩
  refine ⟨⟨⟨hflag, rfl, rfl, rfl, by decide, ⟨⟨callTyped_define .., trivial⟩, trivial⟩,
    fun n hn => ?_⟩, houterCall, trivial⟩, rfl, by decide⟩
  obtain rfl := List.mem_singleton.mp hn
  exact ⟨outerSymbol, rfl, rfl, _, .head _⟩

/-- The address and the value of the assignment are above the frame of the inner procedure. -/
theorem height_above_frame_nested :
    ∃ m, OwnRun Library.registry nestedCalls (freshMachine nestedCalls).image
        (freshMachine nestedCalls) (List.replicate 11 .execute) m ∧
      m.sp.toInt = m.mp.toInt + 5 + 2 ∧ m.Upright Library.registry nestedCalls := by
  obtain ⟨m, hrun, htest⟩ := ownRun_of_checks nestedCalls 11
    (fun m => m.state = .running ∧ m.sp.toInt = m.mp.toInt + 5 + 2)
    (by decide +kernel) (by decide +kernel) (by decide +kernel)
  obtain ⟨hstate, hsp⟩ := of_decide_eq_true htest
  have habove := height_above_frame (nestedCalls_program _)
    (compile_freshMachine (by decide +kernel)) (by decide +kernel) hrun hstate
  exact ⟨m, hrun, hsp, habove.1⟩

/-! ## An operand of two words -/

/-- Two types whose sizes fit in a word, but not their sum. -/
def hugeType : Ty := .array [⟨0, 9223372036854775805⟩] .integer

/-- The larger one, which has as many words as can be counted. -/
def hugerType : Ty := .array [⟨0, 9223372036854775806⟩] .integer

/-- A variable of one word that comes after two of these, and so lies in the mark. -/
def strayFlag : Symbol := variableSymbol 4 "flag" .boolean 2

/-- The scope of a procedure with all these variables. -/
def wrappedScope : Scope :=
  ((({ varWords := 2 : Scope }.define (variableSymbol 2 "huge" hugeType 5)).define
    (variableSymbol 3 "huger" hugerType (-9223372036854775805))).define strayFlag).define
    (variableSymbol 5 "rest" (.array [⟨0, 3⟩] .integer) 3)

/-- The statement that sets it. -/
def setStray : Stmt := .assign {} (.ident {} ⟨strayFlag, 0⟩) (.bool {} true)

/-- A program with a procedure that sets it. -/
def wrappedCalls : Scoped :=
  .mk (({} : Scope).define outerSymbol)
    ((({} : Scope).define outerSymbol).subprogram .program none [.call {} ⟨outerSymbol, 0⟩ []]
      []).header
    [.mk wrappedScope
      (wrappedScope.subprogram .procedure (some outerSymbol) [setStray] []).header []]

/-- Sizes that are not negative can have a sum that wraps.  Then a variable can lie in the mark of
its frame: setting it sets the dynamic link, and the caller goes on with a frame that is not its
own. -/
theorem wrapped_frame_loses_height :
    (do
        let (_, s) ← ({} : Scope).addVar 2 "huge" hugeType
        let (_, s) ← s.addVar 3 "huger" hugerType
        let (_, s) ← s.addVar 4 "flag" .boolean
        let (_, s) ← s.addVar 5 "rest" (.array [⟨0, 3⟩] .integer)
        return s) = Except.ok wrappedScope ∧
      (0 ≤ hugeType.size ∧ 0 ≤ hugerType.size) ∧
      StmtsTyped Library.registry [wrappedScope, ({} : Scope).define outerSymbol] [setStray] ∧
      compile Library.registry (some wrappedCalls.tree) = .image (freshMachine wrappedCalls).image ∧
      ∃ m, OwnRun Library.registry wrappedCalls (freshMachine wrappedCalls).image
          (freshMachine wrappedCalls) (List.replicate 10 .execute) m ∧ m.state = .running ∧
        ¬ m.Upright Library.registry wrappedCalls := by
  refine ⟨rfl, by decide, ⟨⟨trivial, ⟨.boolean, rfl, rfl, rfl⟩, trivial⟩, trivial⟩,
    compile_freshMachine (by decide +kernel), ?_⟩
  obtain ⟨m, hrun, htest⟩ := ownRun_of_checks wrappedCalls 10
    (fun m => m.state = .running ∧ m.pc = Int64.ofNat 8 ∧ m.sp = 5 ∧ m.mp = 1)
    (by decide +kernel) (by decide +kernel) (by decide +kernel)
  obtain ⟨hstate, hpc, hsp, hmp⟩ := of_decide_eq_true htest
  refine ⟨m, hrun, hstate, fun hupright => ?_⟩
  have hheight := hupright.height _ _ (wrappedCalls.root_mem_sites Library.registry) 8
    (by decide +kernel) (by decide +kernel) hpc
  have hframe : ((wrappedCalls.root Library.registry).block.header.frameSize).toInt = 5 := by
    decide +kernel
  rw [hsp, hmp, hframe, show (5 : Int64).toInt = 5 from rfl, show (1 : Int64).toInt = 1 from rfl]
    at hheight
  omega

end PCode
