import PCode.Proofs.Machine.Containment
import PCode.Proofs.Machine.Instructions
import PCode.Proofs.Machine.Leads

/-!
# How far instructions move the stack

An instruction on operands that ends without a fault moves the stack pointer by
the words that it pushes less those that it pops, whatever the stack and the
store are like, and leaves all other registers alone.  A call and a return set
the stack pointer or the frame from one another.

Main definitions and results:

- `Machine.Shifts`: a part of an instruction pops and pushes numbers of words.
- `Machine.shifts_perform`: an instruction on operands does so by its arity.
- `Machine.shifts_markStack`: a mark has five words.
- `Machine.sp_of_leave`, `Machine.mp_of_callUser`: what returns and calls do.
-/

namespace PCode.Machine

/-! ## Parts of instructions -/

/-- A part of an instruction that succeeds has popped and pushed numbers of words, and has changed
nothing but the store and the stack pointer. -/
def Shifts {α : Type} (x : Instr α) (popped pushed : Nat) : Prop :=
  ∀ m a m', x m = .ok a m' → m'.sp.toInt + popped = m.sp.toInt + pushed ∧ m'.still = m.still

section

variable {α β : Type} {x : Instr α} {f : α → Instr β} {p q p' q' : Nat}

private theorem Shifts.bind (hx : Shifts x p q) (hf : ∀ a, Shifts (f a) p' q') :
    Shifts (x >>= f) (p + p') (q + q') := by
  intro m b m' h
  simp only [Bind.bind, EStateM.bind] at h
  cases hrun : x m with
  | ok a m₁ =>
    rw [hrun] at h
    obtain ⟨hsp, hstill⟩ := hx m a m₁ hrun
    obtain ⟨hsp', hstill'⟩ := hf a m₁ b m' h
    exact ⟨by omega, hstill'.trans hstill⟩
  | error e m₁ =>
    rw [hrun] at h
    cases h

private theorem shifts_pure (a : α) : Shifts (pure a : Instr α) 0 0 := by
  intro m b m' h
  cases h
  exact ⟨rfl, rfl⟩

private theorem shifts_get : Shifts (get : Instr Machine) 0 0 := by
  intro m b m' h
  cases h
  exact ⟨rfl, rfl⟩

/-- What fails succeeds in no way. -/
theorem shifts_raise (cause : Fault) (p q : Nat) : Shifts (raise cause : Instr α) p q := by
  intro m b m' h
  cases h

end

private theorem shifts_push (v : Value) : Shifts (push v) 0 1 := by
  intro m a m' h
  unfold push at h
  split at h
  · cases h
  · rename_i hgap
    split at h
    · cases h
      have hlt : m.sp.toInt < m.np.toInt := by
        rw [Int64.le_iff_toInt_le] at hgap
        omega
      have hnp := m.np.toInt_lt
      have hlow := m.sp.le_toInt
      have hsp : (m.sp + 1).toInt = m.sp.toInt + 1 :=
        toInt_add_of_fits (by simp; omega) (by simp; omega)
      exact ⟨by simp only [setWord, hsp]; omega, rfl⟩
    · cases h

private theorem shifts_pop : Shifts pop 1 0 := by
  intro m a m' h
  unfold pop at h
  split at h
  · cases h
  · rename_i hempty
    simp only at h
    split at h
    · cases h
      have hlt : m.stackBase.toInt < m.sp.toInt := by
        rw [Int64.le_iff_toInt_le] at hempty
        omega
      have hbase := m.stackBase.le_toInt
      have hhigh := m.sp.toInt_lt
      have hsp : (m.sp - 1).toInt = m.sp.toInt - 1 := by
        rw [Int64.toInt_sub, show (1 : Int64).toInt = 1 from rfl, Int.bmod_eq_of_le] <;> omega
      exact ⟨by simp only [setWord, hsp]; omega, rfl⟩
    · cases h

private theorem shifts_load (a : Int64) : Shifts (load a) 0 0 := by
  intro m v m' h
  unfold load at h
  split at h <;> cases h
  exact ⟨rfl, rfl⟩

private theorem shifts_storeAt (a : Int64) (v : Value) : Shifts (storeAt a v) 0 0 := by
  intro m u m' h
  unfold storeAt at h
  split at h <;> cases h
  exact ⟨rfl, rfl⟩

private theorem shifts_outerFrame (level : Nat) (base : Int64) :
    Shifts (outerFrame level base) 0 0 := by
  induction level generalizing base with
  | zero => exact shifts_pure base
  | succ level ih => exact (shifts_load _).bind fun link => ih link.toInt

private theorem shifts_frame (level : Nat) : Shifts (frame level) 0 0 :=
  fun m => shifts_outerFrame level m.mp m

private theorem shifts_pushAll (vs : List Value) : Shifts (pushAll vs) 0 vs.length := by
  induction vs with
  | nil => exact shifts_pure ()
  | cons v vs ih =>
    have h := (shifts_push v).bind fun _ => ih
    rwa [Nat.add_comm 1] at h

/-- Popping arguments takes their words from the stack. -/
theorem shifts_popArguments (n : Nat) (popped : List Value) :
    Shifts (popArguments n popped) n 0 := by
  induction n generalizing popped with
  | zero => exact shifts_pure popped
  | succ n ih =>
    have h := shifts_pop.bind fun v => ih (v :: popped)
    rwa [Nat.add_comm 1] at h

/-! ## Instructions -/

private theorem shifts_unary (f : Value → Value) : Shifts (unary f) 1 1 :=
  shifts_pop.bind fun _ => shifts_push _

private theorem shifts_binary (f : Value → Value → Value) : Shifts (binary f) 2 1 :=
  shifts_pop.bind fun _ => shifts_pop.bind fun _ => shifts_push _

private theorem shifts_binaryE (f : Value → Value → Except Fault Value) :
    Shifts (binaryE f) 2 1 := by
  change Shifts _ (1 + (1 + 0)) (0 + (0 + 1))
  refine shifts_pop.bind fun b => shifts_pop.bind fun a => ?_
  cases f a b with
  | ok r => exact shifts_push r
  | error cause => exact shifts_raise cause 0 1

private theorem shifts_loadConstant (code : UInt8) (operand : Nat) :
    Shifts (loadConstant code operand) 0 1 := by
  unfold loadConstant
  split
  case h_7 => exact shifts_raise _ 0 1
  case h_1 => exact shifts_push _
  case h_2 => exact shifts_push _
  all_goals
    change Shifts _ (0 + 0) (0 + 1)
    refine shifts_get.bind fun m => ?_
    simp only
    cases m.image.constants[operand]? with
    | some v => exact shifts_push v
    | none => exact shifts_raise _ 0 1

/-- A mark has five words. -/
theorem shifts_markStack (level : Nat) : Shifts (markStack level) 0 markSize := by
  have hwords (link : Int64) (m : Machine) :
      Shifts (pushAll [.ofInt 0, .ofInt link, .ofInt m.mp, .ofInt m.ep, .ofInt 0]) 0 markSize :=
    shifts_pushAll _
  exact (shifts_frame level).bind fun link => shifts_get.bind fun m => hwords link m

/-- An instruction on operands pops and pushes as many words as its arity says. -/
theorem shifts_perform {o : Opcode} {popped pushed : Nat} (h : o.arity? = some (popped, pushed))
    (x y : Nat) : Shifts (perform o x y) popped pushed := by
  have hvalue : Shifts (loadValue x y) 0 1 :=
    (shifts_frame x).bind fun _ => (shifts_load _).bind fun _ => shifts_push _
  have haddress : Shifts (loadAddress x y) 0 1 := (shifts_frame x).bind fun _ => shifts_push _
  have hindirect : Shifts loadIndirect 1 1 :=
    shifts_pop.bind fun _ => (shifts_load _).bind fun _ => shifts_push _
  have hstore : Shifts storeIndirect 2 0 :=
    shifts_pop.bind fun _ => shifts_pop.bind fun _ => shifts_storeAt _ _
  have hindex : Shifts (indexAddress y) 2 1 :=
    shifts_pop.bind fun _ => shifts_pop.bind fun _ => shifts_push _
  cases o with
  | equ | neq | grt | geq | les | leq | adi | sbi | mpi | adr | sbr | mpr | ior | and | xor =>
    cases h
    exact shifts_binary _
  | dvi | mod | dvr =>
    cases h
    exact shifts_binaryE _
  | ngi | abi | sqi | inc | dec | ngr | abr | sqr | not | trc | rnd | chr | ord =>
    cases h
    exact shifts_unary _
  | flt | flo =>
    cases h
    exact shifts_pure ()
  | ldc =>
    cases h
    exact shifts_loadConstant _ _
  | lva | lvb | lvc | lvi | lvr =>
    cases h
    exact hvalue
  | lda =>
    cases h
    exact haddress
  | ldi =>
    cases h
    exact hindirect
  | sti =>
    cases h
    exact hstore
  | ixa =>
    cases h
    exact hindex
  | _ => cases h

/-- A call makes the words below its arguments the mark of the new frame. -/
theorem mp_of_callUser {argumentWords target : Nat} {m m' : Machine} {u : Unit}
    (h : callUser argumentWords target m = .ok u m') :
    m'.mp = m.sp - Int64.ofNat argumentWords - Int64.ofNat markSize := by
  unfold callUser at h
  simp only at h
  split at h
  · cases h
  · split at h
    · cases h
      rfl
    · cases h

/-- A return cuts the stack back to the frame, but for a result. -/
theorem sp_of_leave {code : UInt8} {m m' : Machine} {u : Unit} (h : leave code m = .ok u m') :
    m'.sp = m.topAfter code := by
  by_cases hmark : m.ReadsMark
  · rw [leave_eq hmark] at h
    simp only [bind, EStateM.bind] at h
    split at h
    · cases h
      rfl
    · cases h
  · obtain ⟨cause, hfault⟩ := leave_of_fault hmark code
    rw [hfault] at h
    cases h

/-- The base of the frame that a call makes, where the stack holds a mark and the arguments. -/
theorem toInt_frameBase {sp : Int64} {base : Int} {argumentWords : Nat} (hbase : 0 ≤ base)
    (hsp : sp.toInt = base + markSize + argumentWords) :
    (sp - Int64.ofNat argumentWords - Int64.ofNat markSize).toInt = base := by
  simp only [markSize] at hsp
  have hhigh := sp.toInt_lt
  have hargs : (Int64.ofNat argumentWords).toInt = argumentWords := toInt_ofNat (by omega)
  have hmark : (Int64.ofNat markSize).toInt = 5 := rfl
  have hsub : (sp - Int64.ofNat argumentWords).toInt = sp.toInt - argumentWords := by
    rw [toInt_sub_of_fits] <;> rw [hargs] <;> omega
  rw [toInt_sub_of_fits] <;> rw [hsub, hmark] <;> omega

/-- A machine that has called a subprogram with its frame at some base. -/
def called (m : Machine) (base : Int64) (target : Nat) : Machine :=
  { m.setWord (base + Int64.ofNat markReturnAddress) (.ofInt m.pc) with
    mp := base
    pc := Int64.ofNat target
    profile := m.profile.map fun p => (p.recordCall (Int64.ofNat target)).2 }

/-- A call whose frame lies on the stack succeeds. -/
theorem callUser_eq {argumentWords : Nat} {m : Machine} {base : Int64} (h : m.Sound)
    (hbase : (m.image.typedConstants.size : Int) ≤ base.toInt)
    (hsp : m.sp.toInt = base.toInt + markSize + argumentWords) (target : Nat) :
    callUser argumentWords target m = .ok () (m.called base target) := by
  have hgap := h.gap
  have htop := h.top
  have hsize := h.size
  have hframe : m.sp - Int64.ofNat argumentWords - Int64.ofNat markSize = base :=
    Int64.toInt_inj.mp (toInt_frameBase (by omega) hsp)
  have hslot : (Int64.ofNat markReturnAddress).toInt = 4 := rfl
  simp only [markSize] at hsp
  have hreturn : (base + Int64.ofNat markReturnAddress).toInt = base.toInt + 4 := by
    rw [toInt_add_of_fits] <;> rw [hslot] <;> omega
  have hlow : ¬ base < m.stackBase := by
    rw [Int64.lt_iff_toInt_lt, stackBase, toInt_ofNat (by omega)]
    omega
  have hin : m.inStore (base + Int64.ofNat markReturnAddress) := by
    rw [inStore_iff, hreturn]
    omega
  unfold callUser
  simp only [hframe]
  rw [if_neg hlow, if_pos (show ({ m with mp := base } : Machine).inStore _ from hin)]
  rfl

/-- An observer leaves the stack pointer as it is. -/
@[simp]
theorem observe_sp (m : Machine) : m.observe.sp = m.sp := by
  unfold observe
  split <;> rfl

/-- An observer leaves the mark pointer as it is. -/
@[simp]
theorem observe_mp (m : Machine) : m.observe.mp = m.mp := by
  unfold observe
  split <;> rfl

/-- Fetching an instruction keeps a machine sound. -/
theorem Sound.fetched {m : Machine} (h : m.Sound) (w : Word) : (m.fetched w).Sound :=
  ⟨h.base, h.gap, h.top, h.size⟩

section

variable {m m' : Machine} {w : Word} {o : Opcode}

/-- A step after which the machine still runs is the effect of its opcode. -/
theorem performed_of_step (hrun : m.state = .running) (hfetch : m.image.fetch? m.pc = some w)
    (hop : w.opcode = o.byte) (hstep : stepOnce m = .ok () m') (hrun' : m'.state = .running) :
    ∃ m₁, perform o w.operand1 w.operand2 (m.fetched w) = .ok () m₁ ∧ m' = m₁.observe := by
  have hfailed (m₁ : Machine) (e : MachineError) (heq : m₁.failWith e = m') : False := by
    subst heq
    unfold failWith stop at hrun'
    split at hrun'
    · simp_all
    · cases hrun'
  rw [stepOnce_eq hrun hfetch hop] at hstep
  cases hperform : perform o w.operand1 w.operand2 (m.fetched w) with
  | ok u m₁ =>
    rw [hperform] at hstep
    exact ⟨m₁, rfl, (EStateM.Result.ok.inj hstep).2.symm⟩
  | error e m₁ =>
    rw [hperform] at hstep
    cases e with
    | fault cause => exact (hfailed _ _ (EStateM.Result.ok.inj hstep).2).elim
    | error e => exact (hfailed _ _ (EStateM.Result.ok.inj hstep).2).elim
    | crash c => cases hstep

/-- A machine has gone on to the next instruction of its code, with another stack pointer. -/
structure Onward (m m' : Machine) (popped pushed : Nat) : Prop where
  sp : m'.sp.toInt + popped = m.sp.toInt + pushed
  pc : m'.pc = m.pc + 1
  mp : m'.mp = m.mp
  image : m'.image = m.image
  running : m'.state = .running

/-- A step moves the stack pointer as the effect of its opcode does. -/
theorem onward_of_step {popped pushed : Nat} (hrun : m.state = .running)
    (hfetch : m.image.fetch? m.pc = some w) (hop : w.opcode = o.byte)
    (hshifts : Shifts (perform o w.operand1 w.operand2) popped pushed)
    (hstep : stepOnce m = .ok () m') (hrun' : m'.state = .running) : Onward m m' popped pushed := by
  obtain ⟨m₁, hperform, rfl⟩ := performed_of_step hrun hfetch hop hstep hrun'
  obtain ⟨hsp, hstill⟩ := hshifts _ _ _ hperform
  have hobserve : m₁.observe.still = { m.fetched w with
      store := #[], sp := 0, dumps := m₁.observe.dumps } := by
    have hsame : m₁.observe.still = { m₁.still with dumps := m₁.observe.dumps } := by
      unfold observe
      split <;> rfl
    rw [hsame, hstill]
    rfl
  refine ⟨by rw [observe_sp]; exact hsp, ?_, ?_, ?_, hrun'⟩
  · exact (congrArg Machine.pc hobserve :)
  · exact (congrArg Machine.mp hobserve :)
  · exact (congrArg Machine.image hobserve :)

end

end PCode.Machine
