import PCode.Native.Library
import PCode.Proofs.Machine.Session

/-!
# Containment

Whatever instructions, constants and words a program consists of, its machine
touches only words of its store as long as the stack pointer and the heap pointer
lie in the store.  Two instructions set the stack pointer from the mark pointer,
which a program can load from its own words, and releasing a block trusts a size
word.  These are the only ways out: where they lead to an address that is not
negative, no step ever crashes.

Main definitions and results:

- `Machine.Releasable`, `Machine.Proper`: a step does not lead out of the store.
- `Machine.Contained.lasting`: the access primitives stay in the store.
- `Machine.leave_crashes`: a return below the store crashes.
- `Machine.crash_only_after_stray_step`: a run crashes only after a step that is not proper.
-/

namespace PCode.Machine

/-! ## Proper steps -/

/-- The end of the block that is released can be computed, and so can the address of its size. -/
structure Releasable (m : Machine) (address : Int64) : Prop where
  least : address ≠ Int64.minValue
  size : address = m.np + 1 → address.toInt + (m.word (address - 1)).int.toInt < 2 ^ 63

/-- The links in the mark of the active frame can be read. -/
def ReadsMark (m : Machine) : Prop :=
  ∀ slot ∈ [markDynamicLink, markExtremePointer, markReturnAddress],
    m.addressFault? (m.mp + Int64.ofNat slot) = none

/-- The top of the stack after a return. -/
def topAfter (m : Machine) (code : UInt8) : Int64 :=
  if code = TypeCode.void.byte then m.mp else m.mp + 1

/-- An instruction does not set the stack pointer to a negative address, and the native procedure
that it calls releases only blocks whose end can be computed. -/
def Proper (m : Machine) (w : Word) : Prop :=
  match Opcode.ofByte? w.opcode with
  | some .ent => w.operand1 = 0 → 0 ≤ (m.mp + Int64.ofNat w.operand2).toInt
  | some .rtn => m.ReadsMark → 0 ≤ (m.topAfter (UInt8.ofNat w.operand1)).toInt
  | some .csp => ∀ p a, (p, Access.free a) ∈ (m.fetched w).callAccesses w.operand1 w.operand2 →
      p.Releasable a
  | _ => True

/-! ## Primitives -/

namespace Contained

variable {m : Machine}

/-- A part of an instruction stays in the store and does not crash. -/
abbrev Confined {α : Type} (x : Instr α) (m : Machine) : Prop :=
  Upholds Contained (fun e => ∀ c, e ≠ .crash c) x m

private theorem transfer {m' : Machine} (h : m.Contained) (himage : m'.image = m.image)
    (hstore : m'.store.size = m.store.size) (hsp : m'.sp = m.sp) (hnp : m'.np = m.np) :
    m'.Contained := by
  constructor
  · rw [himage, hstore]
    exact h.constants
  · rw [hsp]
    exact h.sp_nonneg
  · rw [hsp, hstore]
    exact h.sp_le
  · rw [hnp]
    exact h.np_nonneg
  · rw [hnp, hstore]
    exact h.np_le
  · rw [hstore]
    exact h.size

/-- The stack ends elsewhere in the store. -/
theorem restack {store : Array Value} (h : m.Contained) (sp : Int64)
    (hstore : store.size = m.store.size) (hlow : 0 ≤ sp.toInt) (hhigh : sp.toInt ≤ m.store.size) :
    Contained { m with store, sp } := by
  refine ⟨?_, hlow, ?_, h.np_nonneg, ?_, ?_⟩ <;> simp only [hstore]
  · exact h.constants
  · exact hhigh
  · exact h.np_le
  · exact h.size

/-- The heap starts elsewhere in the store. -/
theorem reheap {store : Array Value} {np : Int64} (h : m.Contained)
    (hstore : store.size = m.store.size) (hlow : 0 ≤ np.toInt) (hhigh : np.toInt ≤ m.store.size) :
    Contained { m with store, np } := by
  refine ⟨?_, h.sp_nonneg, ?_, hlow, ?_, ?_⟩ <;> simp only [hstore]
  · exact h.constants
  · exact h.sp_le
  · exact hhigh
  · exact h.size

private theorem push (h : m.Contained) (v : Value) : Confined (Machine.push v) m := by
  have hlow := h.sp_nonneg
  have htop := h.np_le
  have hsize := h.size
  by_cases hfull : m.np ≤ m.sp
  · exact upholds_error (if_pos hfull) h (by simp)
  have hgap : m.sp.toInt < m.np.toInt := by
    rw [Int64.le_iff_toInt_le] at hfull
    omega
  have hin : m.inStore m.sp := inStore_iff.mpr (by omega)
  have hnext : (m.sp + 1).toInt = m.sp.toInt + 1 := by
    rw [toInt_add_of_fits] <;> rw [Int64.toInt_one] <;> omega
  exact upholds_ok ((if_neg hfull).trans (if_pos hin))
    (h.restack (m.sp + 1) (setWord_size m m.sp v) (by omega) (by omega))

private theorem toInt_stackBase (h : m.Contained) :
    m.stackBase.toInt = m.image.typedConstants.size := by
  have hconstants := h.constants
  have hsize := h.size
  rw [stackBase, toInt_ofNat (by omega)]

private theorem pop (h : m.Contained) : Confined Machine.pop m := by
  have hhigh := h.sp_le
  have hsize := h.size
  by_cases hempty : m.sp ≤ m.stackBase
  · exact upholds_error (if_pos hempty) h (by simp)
  have hsome : (m.image.typedConstants.size : Int) < m.sp.toInt := by
    rw [Int64.le_iff_toInt_le, h.toInt_stackBase] at hempty
    omega
  have hpred : (m.sp - 1).toInt = m.sp.toInt - 1 := by
    rw [toInt_sub_of_fits] <;> rw [Int64.toInt_one] <;> omega
  have hin : ({ m with sp := m.sp - 1 } : Machine).inStore (m.sp - 1) := by
    rw [inStore_iff]
    simp only
    omega
  exact upholds_ok ((if_neg hempty).trans (if_pos hin))
    (h.restack (m.sp - 1) (by simp) (by omega) (by omega))

private theorem storeAt (h : m.Contained) (a : Int64) (v : Value) :
    Confined (Machine.storeAt a v) m := by
  cases hfault : m.addressFault? a with
  | some cause => exact upholds_error (storeAt_of_fault hfault v) h (by simp)
  | none => exact upholds_ok (storeAt_of_none hfault v) (h.transfer rfl (by simp) rfl rfl)

private theorem malloc (h : m.Contained) (size : Int64) : Confined (Machine.malloc size) m := by
  have hlow := h.sp_nonneg
  have hhigh := h.np_le
  have hbound := h.size
  rcases Int.lt_or_le size.toInt 0 with hneg | hnonneg
  · exact upholds_error (malloc_negative m hneg) h (by simp)
  rcases Int.lt_or_le (m.np.toInt - size.toInt - 1) m.sp.toInt with hfull | hroom
  · exact upholds_error (malloc_full h hnonneg hfull) h (by simp)
  obtain ⟨address, store, hmalloc, hres⟩ := malloc_room h hnonneg hroom
  have hstart := hres.start
  have hpred : (address - 1).toInt = address.toInt - 1 := by
    rw [toInt_sub_of_fits] <;> rw [Int64.toInt_one] <;> omega
  exact upholds_ok hmalloc (h.reheap hres.length (by omega) (by omega))

private theorem refused (h : m.Contained) {address : Int64} (hleast : address ≠ Int64.minValue)
    (hrefused : m.Refuses address) : Confined (Machine.free address) m := by
  rcases hrefused with hfree | hfree | ⟨heq, -⟩
  · exact upholds_error hfree h (by simp)
  · exact upholds_error hfree h (by simp)
  · exact absurd heq hleast

/-- Releasing a block whose end can be computed stays in the store, whatever its size word is. -/
theorem free (h : m.Contained) {address : Int64} (hrelease : m.Releasable address) :
    Confined (Machine.free address) m := by
  have hlow := h.np_nonneg
  have hhigh := h.np_le
  have hsize := h.size
  by_cases hlowest : address = m.np + 1
  · by_cases hnone : m.np.toInt = m.store.size
    · exact h.refused hrelease.least (hlowest ▸ free_empty h hnone)
    obtain ⟨k, hk⟩ : ∃ k : Nat, m.np.toInt = k := ⟨m.np.toInt.toNat, by omega⟩
    have hnp : m.np = Int64.ofNat k := (ofNat_of_toInt hk).symm
    have haddress : address = Int64.ofNat (k + 1) := by rw [hlowest, hnp, ofNat_succ]
    have hint : address.toInt = k + 1 := by rw [haddress, toInt_ofNat (by omega)]; rfl
    have hpred : address - 1 = Int64.ofNat k := by rw [hlowest, Int64.add_sub_cancel, hnp]
    have hend := hrelease.size hlowest
    rw [hpred, hint] at hend
    by_cases hblock : m.isBlockSize address (m.word (address - 1)) = true
    · have hblockAt : m.BlockAt k (m.word (Int64.ofNat k)).int := by
        simp only [isBlockSize, hpred, Bool.and_eq_true, decide_eq_true_eq, beq_iff_eq,
          Int64.le_iff_toInt_le, Int64.toInt_zero, toInt_ofNat hsize] at hblock
        obtain ⟨⟨hkind, hnonneg⟩, hfits⟩ := hblock
        rw [toInt_add_of_fits (by omega) (by omega)] at hfits
        exact ⟨hkind, rfl, hnonneg, by omega⟩
      have hnonneg := hblockAt.nonneg
      have hfits := hblockAt.fits
      obtain ⟨store, hfree, hlength, -, -⟩ := free_lowest h hblockAt hnp
      rw [← haddress] at hfree
      have hnext := toInt_ofNat (n := k + 1 + (m.word (Int64.ofNat k)).int.toInt.toNat) (by omega)
      exact upholds_ok hfree (h.reheap hlength (by omega) (by omega))
    · have hinside : ¬ (address - 1 < m.np ∨ Int64.ofNat m.store.size < address) := by
        rw [hpred, Int64.lt_iff_toInt_lt, Int64.lt_iff_toInt_lt, toInt_ofNat (by omega),
          toInt_ofNat hsize]
        omega
      have hin : m.inStore (address - 1) := by
        rw [hpred, inStore_iff, toInt_ofNat (by omega)]
        omega
      have hcorrupt : (!m.isBlockSize address (m.word (address - 1))) = true := by
        simpa using hblock
      exact upholds_error ((if_neg hinside).trans ((if_pos hin).trans (if_pos hcorrupt))) h
        (by simp)
  · rcases free_other h hlowest with hfree | hrefused
    · exact upholds_ok hfree h
    · exact h.refused hrelease.least hrefused

private theorem stop (h : m.Contained) : m.stop.Contained := by
  unfold Machine.stop
  split
  · exact h
  · exact h.transfer rfl rfl rfl rfl

private theorem failWith (h : m.Contained) (e : MachineError) : (m.failWith e).Contained :=
  stop (m := { m with error := some e }) (h.transfer rfl rfl rfl rfl)

/-- The access primitives stay in the store, and so do native procedures that release only blocks
whose end can be computed. -/
theorem lasting : Lasting Contained (fun e => ∀ c, e ≠ .crash c) Releasable where
  fault _ := by simp
  error _ := by simp
  registers _ _ _ h := h.transfer rfl rfl rfl rfl
  calls _ _ h := h.transfer rfl rfl rfl rfl
  world _ _ _ _ _ _ _ _ _ h := h.transfer rfl rfl rfl rfl
  stop h := h.stop
  suspend h := by
    unfold Machine.suspend
    split
    · exact h.transfer rfl rfl rfl rfl
    · exact h
  resume h := by
    unfold Machine.resume
    split
    · exact h.transfer rfl rfl rfl rfl
    · exact h
  push v h := h.push v
  pop h := h.pop
  storeAt a v h := h.storeAt a v
  malloc size h := h.malloc size
  free a h hrelease := h.free hrelease

/-! ## Linkage -/

/-- A call needs no condition: the mark lies below the top of the stack. -/
theorem callUser (h : m.Contained) {argumentWords : Nat} (hwords : argumentWords ≤ maxOperand1)
    (target : Nat) : Confined (Machine.callUser argumentWords target) m := by
  have hlow := h.sp_nonneg
  have hhigh := h.sp_le
  have hsize := h.size
  simp only [maxOperand1] at hwords
  have hmark : (Int64.ofNat markSize).toInt = 5 := rfl
  have hslot : (Int64.ofNat markReturnAddress).toInt = 4 := rfl
  have hargs : (Int64.ofNat argumentWords).toInt = argumentWords := toInt_ofNat (by omega)
  have hsub : (m.sp - Int64.ofNat argumentWords).toInt = m.sp.toInt - argumentWords := by
    rw [toInt_sub_of_fits] <;> rw [hargs] <;> omega
  have hbase : (m.sp - Int64.ofNat argumentWords - Int64.ofNat markSize).toInt =
      m.sp.toInt - argumentWords - 5 := by
    rw [toInt_sub_of_fits] <;> rw [hsub, hmark] <;> omega
  by_cases hbelow : m.sp - Int64.ofNat argumentWords - Int64.ofNat markSize < m.stackBase
  · exact upholds_error (if_pos hbelow) h (by simp)
  have hin : ({ m with
      mp := m.sp - Int64.ofNat argumentWords - Int64.ofNat markSize } : Machine).inStore
        (m.sp - Int64.ofNat argumentWords - Int64.ofNat markSize +
          Int64.ofNat markReturnAddress) := by
    rw [Int64.lt_iff_toInt_lt, h.toInt_stackBase, hbase] at hbelow
    have hstore : (m.sp - Int64.ofNat argumentWords - Int64.ofNat markSize +
        Int64.ofNat markReturnAddress).toInt = m.sp.toInt - argumentWords - 1 := by
      rw [toInt_add_of_fits] <;> rw [hbase, hslot] <;> omega
    rw [inStore_iff, hstore]
    simp only
    omega
  exact upholds_ok ((if_neg hbelow).trans (if_pos hin)) (h.transfer rfl (by simp) rfl rfl)

/-- Filling from the end of the stack, or up to it, stays in the store. -/
theorem fill (h : m.Contained) (v : Value) {first last : Int64} (hfirst : 0 ≤ first.toInt)
    (hlast : last.toInt ≤ m.store.size) : ∃ store,
      Machine.fill v (span first last) first m = .ok () { m with store } ∧
      store.size = m.store.size := by
  have hsize := h.size
  rcases Int.lt_or_le last.toInt first.toInt with hnone | hsome
  · have hspan : span first last = 0 := by
      unfold span
      omega
    exact ⟨m.store, by rw [hspan]; rfl, rfl⟩
  · obtain ⟨k, hk⟩ : ∃ k : Nat, first.toInt = k := ⟨first.toInt.toNat, by omega⟩
    have hfirst' : first = Int64.ofNat k := (ofNat_of_toInt hk).symm
    have hspan : k + span first last ≤ m.store.size := by
      unfold span
      omega
    obtain ⟨store, hfill, hlength, -, -⟩ := fill_eq (m := m) v (span first last) hspan hsize
    exact ⟨store, by rw [← hfill, ← hfirst'], hlength⟩

private theorem enter (h : m.Contained) (register amount : Nat)
    (hproper : register = 0 → 0 ≤ (m.mp + Int64.ofNat amount).toInt) :
    Confined (Machine.enter register amount) m := by
  have hnp := h.np_le
  match register with
  | 0 =>
    by_cases hlarge : m.np < m.mp + Int64.ofNat amount
    · exact upholds_error (if_pos hlarge) h (by simp)
    · have htop : (m.mp + Int64.ofNat amount).toInt ≤ m.store.size := by
        rw [Int64.lt_iff_toInt_lt] at hlarge
        omega
      obtain ⟨store, hfill, hlength⟩ := h.fill (.ofInt 0) h.sp_nonneg htop
      refine upholds_ok (a := ()) ?_
        (h.restack (m.mp + Int64.ofNat amount) hlength (hproper rfl) htop)
      unfold Machine.enter
      simp only
      rw [if_neg hlarge, hfill]
  | 1 => exact h.transfer rfl rfl rfl rfl
  | _ + 2 => exact ⟨h, by simp⟩

end Contained

/-- A machine that has read the links of a return. -/
def returning (m : Machine) : Machine :=
  { m with
    mp := (m.word (m.mp + Int64.ofNat markDynamicLink)).toInt
    ep := (m.word (m.mp + Int64.ofNat markExtremePointer)).toInt
    pc := (m.word (m.mp + Int64.ofNat markReturnAddress)).toInt }

/-- Once the links are read, a return clears the words above the new top and sets it. -/
theorem leave_eq {m : Machine} (hmark : m.ReadsMark) (code : UInt8) :
    leave code m =
      (do
        fill .undefined (span (m.topAfter code) m.sp) (m.topAfter code)
        modify fun m' : Machine => { m' with sp := m.topAfter code } : Instr Unit) m.returning := by
  have hlink := load_of_none (hmark markDynamicLink (by simp))
  have hextreme := load_of_none (hmark markExtremePointer (by simp))
  have hback := load_of_none (hmark markReturnAddress (by simp))
  refine (bind_eq rfl).trans ?_
  rw [bind_eq hlink, bind_eq hextreme, bind_eq hback]
  rfl

/-- A return whose links cannot all be read is a fault. -/
theorem leave_of_fault {m : Machine} (hmark : ¬ m.ReadsMark) (code : UInt8) :
    ∃ cause, leave code m = .error (.fault cause) m := by
  cases hlink : m.addressFault? (m.mp + Int64.ofNat markDynamicLink) with
  | some cause => exact ⟨cause, (bind_eq rfl).trans (bind_error (load_of_fault hlink))⟩
  | none =>
    cases hextreme : m.addressFault? (m.mp + Int64.ofNat markExtremePointer) with
    | some cause =>
      refine ⟨cause, (bind_eq rfl).trans ?_⟩
      rw [bind_eq (load_of_none hlink), bind_error (load_of_fault hextreme)]
    | none =>
      cases hback : m.addressFault? (m.mp + Int64.ofNat markReturnAddress) with
      | some cause =>
        refine ⟨cause, (bind_eq rfl).trans ?_⟩
        rw [bind_eq (load_of_none hlink), bind_eq (load_of_none hextreme),
          bind_error (load_of_fault hback)]
      | none => exact absurd (by simp [ReadsMark, hlink, hextreme, hback]) hmark

/-- A sum that is not negative has not wrapped. -/
theorem toInt_add_of_nonneg {a : Int64} {k : Nat} (hk : k < 2 ^ 32)
    (hsum : 0 ≤ (a + Int64.ofNat k).toInt) : (a + Int64.ofNat k).toInt = a.toInt + k := by
  have hlow := a.le_toInt
  have hhigh := a.toInt_lt
  have hint : (Int64.ofNat k).toInt = k := toInt_ofNat (by omega)
  rw [Int64.toInt_add, hint] at hsum ⊢
  simp only [Int.bmod] at hsum ⊢
  split <;> omega

/-- The return address of a frame lies above the top of the stack after the return. -/
theorem Contained.topAfter_le {m : Machine} (h : m.Contained) (hmark : m.ReadsMark) (code : UInt8) :
    (m.topAfter code).toInt ≤ m.store.size := by
  have hsize := h.size
  have hlow := m.mp.le_toInt
  have hback := (addressFault?_eq_none_iff hsize).mp (hmark markReturnAddress (by simp))
  have hint := toInt_add_of_nonneg (k := markReturnAddress) (by decide) hback.1
  simp only [markReturnAddress] at hint hback
  unfold topAfter
  split
  · omega
  · rw [toInt_add_of_fits] <;> rw [Int64.toInt_one] <;> omega

private theorem Contained.leave {m : Machine} (h : m.Contained) (code : UInt8)
    (hproper : m.ReadsMark → 0 ≤ (m.topAfter code).toInt) : Confined (Machine.leave code) m := by
  by_cases hmark : m.ReadsMark
  · have hreturning : m.returning.Contained := h.transfer rfl rfl rfl rfl
    have htop := h.topAfter_le hmark code
    obtain ⟨store, hfill, hlength⟩ := hreturning.fill .undefined (hproper hmark) h.sp_le
    have hcleared : Confined
        (Machine.fill .undefined (span (m.topAfter code) m.sp) (m.topAfter code)) m.returning :=
      upholds_ok hfill (hreturning.transfer rfl hlength rfl rfl)
    refine Upholds.congr (hcleared.seq fun _ m' hm' _ => upholds_modify ?_) (leave_eq hmark code)
    obtain rfl : { m.returning with store } = m' := by
      rw [hfill] at hm'
      injection hm'
    exact hreturning.restack (m.topAfter code) hlength (hproper hmark) htop
  · obtain ⟨cause, hleave⟩ := leave_of_fault hmark code
    exact upholds_error hleave h (by simp)

/-- A return whose links can be read, but whose top would be below the store, crashes. -/
theorem leave_crashes {m : Machine} (h : m.Contained) (hmark : m.ReadsMark) {code : UInt8}
    (hbelow : (m.topAfter code).toInt < 0) :
    Machine.leave code m = .error (.crash ⟨m.topAfter code⟩) m.returning := by
  have hlow := h.sp_nonneg
  obtain ⟨count, hspan⟩ : ∃ count, span (m.topAfter code) m.sp = count + 1 := by
    refine ⟨span (m.topAfter code) m.sp - 1, ?_⟩
    unfold span
    omega
  have hout : ¬ m.returning.inStore (m.topAfter code) := by
    rw [inStore_iff]
    omega
  have hfill : Machine.fill .undefined (count + 1) (m.topAfter code) m.returning =
      .error (.crash ⟨m.topAfter code⟩) m.returning := if_neg hout
  rw [leave_eq hmark code, hspan]
  simp only [bind, EStateM.bind, hfill]

/-! ## Runs -/

private theorem Contained.execute {m : Machine} {w : Word} (h : (m.fetched w).Contained)
    (hproper : m.Proper w) : Confined (Machine.execute w) (m.fetched w) := by
  unfold Machine.execute
  unfold Proper at hproper
  cases hop : Opcode.ofByte? w.opcode with
  | none => exact lasting.raise _ h
  | some op =>
    rw [hop] at hproper
    cases hlinkage : op.isLinkage with
    | false => exact lasting.perform hlinkage _ _ h
    | true =>
      cases op <;> cases hlinkage
      · exact h.callUser w.operand1_le _
      · exact lasting.callNative _ _ h hproper
      · exact h.enter _ _ hproper
      · exact h.leave _ hproper

/-- A proper step stays in the store and does not crash. -/
theorem Contained.stepOnce {m : Machine} (h : m.Contained)
    (hproper : m.state = .running → ∀ w, m.image.fetch? m.pc = some w → m.Proper w) :
    ∃ m', Machine.stepOnce m = .ok () m' ∧ m'.Contained := by
  by_cases hidle : m.state ≠ .running
  · exact ⟨m, if_pos hidle, h⟩
  have hstep := lasting.stepOnce (fun e h => h.failWith e) h
    fun w hfetch h' => h'.execute (hproper (Decidable.not_not.mp hidle) w hfetch)
  cases hrun : Machine.stepOnce m with
  | ok u m' => exact ⟨m', rfl, hstep.of_host_ok hrun⟩
  | error c m' => exact absurd rfl ((hstep.of_host_error hrun).2 c)

/-- Some step of a run, the machine being in order before it, is not proper. -/
def Strays (m : Machine) (n : Nat) : Prop :=
  ∃ k < n, ∃ m' w, stepSingly k m = .ok () m' ∧ m'.Contained ∧ m'.state = .running ∧
    m'.image.fetch? m'.pc = some w ∧ ¬ m'.Proper w

/-- A run stays in the store up to its first step that is not proper. -/
theorem Contained.stepSingly {due : Nat} {m : Machine} (h : m.Contained) (hdue : Accounts due m)
    (n : Nat) :
    (∃ m', Machine.stepSingly n m = .ok () m' ∧ m'.Contained ∧ Accounts due m') ∨ m.Strays n := by
  induction n generalizing m with
  | zero => exact .inl ⟨m, rfl, h, hdue⟩
  | succ n ih =>
    by_cases hproper : m.state = .running → ∀ w, m.image.fetch? m.pc = some w → m.Proper w
    · obtain ⟨m₁, hstep, h₁⟩ := h.stepOnce hproper
      have hsucc := stepSingly_succ hstep
      rcases ih h₁ (hdue.stepOnce.of_host_ok hstep) with ⟨m', hrest, hend⟩
        | ⟨k, hk, m', w, hrest, hend⟩
      · exact .inl ⟨m', (hsucc n).trans hrest, hend⟩
      · exact .inr ⟨k + 1, by omega, m', w, (hsucc k).trans hrest, hend⟩
    · simp only [Classical.not_imp, Classical.not_forall] at hproper
      obtain ⟨hrunning, w, hfetch, himproper⟩ := hproper
      exact .inr ⟨0, by omega, m, w, rfl, h, hrunning, hfetch, himproper⟩

/-- A step that returns below the store crashes. -/
theorem Contained.stepOnce_crashes {m : Machine} {w : Word} (h : m.Contained)
    (hrunning : m.state = .running) (hfetch : m.image.fetch? m.pc = some w)
    (hop : Opcode.ofByte? w.opcode = some .rtn) (hmark : m.ReadsMark)
    (hbelow : (m.topAfter (UInt8.ofNat w.operand1)).toInt < 0) :
    ∃ m', Machine.stepOnce m = .error ⟨m.topAfter (UInt8.ofNat w.operand1)⟩ m' := by
  have hfetched : (m.fetched w).Contained := h.transfer rfl rfl rfl rfl
  have hexecute : Machine.execute w (m.fetched w) =
      .error (.crash ⟨m.topAfter (UInt8.ofNat w.operand1)⟩) (m.fetched w).returning := by
    unfold Machine.execute
    rw [hop]
    exact leave_crashes hfetched hmark hbelow
  refine ⟨(m.fetched w).returning, ?_⟩
  rw [stepOnce_fetched hrunning hfetch, hexecute]
  rfl

/-- A machine that was made and started is in order. -/
theorem run_contained {image : Image} {equipment : Equipment} {m : Machine}
    (hcreate : create? (some image) equipment = .ok m)
    (hconstants : image.typedConstants.size + markSize < 2 ^ 63) :
    m.run.Contained ∧ ∃ due, Accounts due m.run := by
  obtain ⟨m₀, rfl, rfl, -, hfits⟩ := create?_ok hcreate
  have hlength := reset_size (hfits hconstants)
  have hagain : m₀.reset.stop.Fits :=
    ⟨hlength ▸ (hfits hconstants).constants, hlength ▸ (hfits hconstants).size⟩
  have hnew : Accounts m₀.finishes m₀.reset := ⟨rfl, fun hgoing => absurd rfl hgoing⟩
  exact ⟨(reset_sound hagain).contained.transfer rfl rfl rfl rfl, _, hnew.run⟩

/-- Whatever the image and its words are, a machine that is made and started executes any number of
instructions without a crash, and one that it cannot carry out stops it with an error: unless some
step sets the stack pointer to a negative address or releases a block whose end cannot be computed.
And a return to a negative address, with links that can be read, does crash. -/
theorem crash_only_after_stray_step {image : Image} {equipment : Equipment} {m : Machine}
    (hcreate : create? (some image) equipment = .ok m)
    (hconstants : image.typedConstants.size + markSize < 2 ^ 63) (n : Nat) :
    ((∃ m', stepSingly n m.run = .ok () m' ∧ m'.Contained ∧
        (m'.state ≠ .stopped → m'.error = none)) ∨ m.run.Strays n) ∧
      ∀ (m' : Machine) (w : Word), m'.Contained → m'.state = .running →
        m'.image.fetch? m'.pc = some w → Opcode.ofByte? w.opcode = some .rtn → m'.ReadsMark →
        (m'.topAfter (UInt8.ofNat w.operand1)).toInt < 0 →
        ∃ m'', stepOnce m' = .error ⟨m'.topAfter (UInt8.ofNat w.operand1)⟩ m'' := by
  obtain ⟨hstart, due, haccount⟩ := run_contained hcreate hconstants
  refine ⟨?_, fun m' w h => h.stepOnce_crashes⟩
  refine (hstart.stepSingly haccount n).imp_left ?_
  rintro ⟨m', hrun, hend, haccount'⟩
  exact ⟨m', hrun, hend, haccount'.error⟩

/-- A program that returns to a frame whose links are words of its own, and returns again. -/
def strayReturn : Image where
  typedConstants := #[.ofInt 0, .ofInt 0, .ofInt (-2), .ofInt 0, .ofInt 1]
  code := #[(Opcode.rtn, TypeCode.void, 0), (.ldc, .boolean, 1), (.ldc, .boolean, 1),
    (.ldc, .boolean, 1), (.rtn, .void, 0)].map
    fun (op, code, y) =>
      (Word.encode op.byte (Int64.ofNat code.byte.toNat) y).toOption.getD default
  natives := Library.registry
  frozen := true

/-- The second return reads a word at an address below the store. -/
theorem strayReturn_crash? :
    ∃ m, create? (some strayReturn) { storeSize := 16 } = .ok m ∧
      crash? (stepSingly 5 m.run) = some ⟨-2⟩ :=
  ⟨_, rfl, by decide +kernel⟩

/-- Before the crash the program has strayed. -/
theorem crash_only_after_stray_step_returning :
    ∃ m, create? (some strayReturn) { storeSize := 16 } = .ok m ∧ m.run.Strays 5 := by
  obtain ⟨m, hcreate, hcrash⟩ := strayReturn_crash?
  obtain ⟨m', hrun⟩ := eq_error_of_crash? hcrash
  refine ⟨m, hcreate, (crash_only_after_stray_step hcreate (by decide) 5).1.resolve_left ?_⟩
  rintro ⟨m'', hrun', -⟩
  cases hrun.symm.trans hrun'

/-- A program that was not compiled can crash the machine. -/
theorem malformed_return_crashes :
    ∃ m m', create? (some strayReturn) { storeSize := 16 } = .ok m ∧
      stepSingly 5 m.run = .error ⟨-2⟩ m' := by
  obtain ⟨m, hcreate, hcrash⟩ := strayReturn_crash?
  obtain ⟨m', hrun⟩ := eq_error_of_crash? hcrash
  exact ⟨m, m', hcreate, hrun⟩

end PCode.Machine
