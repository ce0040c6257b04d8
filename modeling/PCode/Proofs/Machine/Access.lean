import Mathlib.Algebra.Order.Ring.Int
import PCode.Machine.Host

/-!
# Access to the store

The registers of a machine are words, and what is proved about them is proved
about the integers that they hold.  A machine is sound when its stack and heap
lie apart in its store; then the access primitives never crash, and whether
they succeed is a question about integers.

Main definitions and results:

- `Machine.Sound`: the stack lies above the typed constants and below the heap.
- `Machine.Contained`: the weaker property that both end in the store.
- `Machine.addressFault?_eq_none_iff`: which addresses can be accessed.
- `Machine.push_eq`, `Machine.pop_eq`: the effect of the stack primitives.
- `Machine.create?_ok`, `Machine.reset_sound`: a machine that was made, or reset, is sound.
- `Machine.fill_eq`: the effect of filling words.
- `Machine.stepOnce_fetched`: a step is the effect of the word that it fetches.
-/

namespace PCode

/-! ## Words as integers -/

/-- A sum that fits in a word is computed without wrapping. -/
theorem toInt_add_of_fits {a b : Int64} (hlow : -2 ^ 63 ≤ a.toInt + b.toInt)
    (hhigh : a.toInt + b.toInt < 2 ^ 63) : (a + b).toInt = a.toInt + b.toInt := by
  rw [Int64.toInt_add, Int.bmod_eq_of_le] <;> omega

/-- A difference that fits in a word is computed without wrapping. -/
theorem toInt_sub_of_fits {a b : Int64} (hlow : -2 ^ 63 ≤ a.toInt - b.toInt)
    (hhigh : a.toInt - b.toInt < 2 ^ 63) : (a - b).toInt = a.toInt - b.toInt := by
  rw [Int64.toInt_sub, Int.bmod_eq_of_le] <;> omega

/-- An index is the number that a word stands for, and zero if that is negative. -/
theorem toNatClampNeg_eq (a : Int64) : a.toNatClampNeg = a.toInt.toNat :=
  rfl

/-- A word is the number that it holds. -/
theorem ofNat_of_toInt {a : Int64} {n : Nat} (h : a.toInt = n) : Int64.ofNat n = a := by
  apply Int64.toInt_inj.mp
  rw [Int64.toInt_ofNat_of_lt, h]
  have := a.toInt_lt
  omega

/-- A number that fits in a word is kept. -/
theorem toInt_ofNat {n : Nat} (h : n < 2 ^ 63) : (Int64.ofNat n).toInt = n :=
  Int64.toInt_ofNat_of_lt h

/-- The word after that of a number is the word of the next number. -/
theorem ofNat_succ (n : Nat) : Int64.ofNat n + 1 = Int64.ofNat (n + 1) :=
  (Int64.ofNat_add n 1).symm

namespace Machine

/-! ## Parts of instructions -/

section

variable {α β : Type} {x : Instr α} {f : α → Instr β} {m m₁ : Machine}

/-- What follows a part that succeeds. -/
theorem bind_eq {v : α} (h : x m = .ok v m₁) : (x >>= f) m = f v m₁ := by
  simp only [bind, EStateM.bind, h]

/-- Nothing follows a part that fails. -/
theorem bind_error {e : Interrupt} (h : x m = .error e m₁) : (x >>= f) m = .error e m₁ := by
  simp only [bind, EStateM.bind, h]

end

/-! ## Addresses -/

/-- An address is in the store if it is below its size and not negative. -/
theorem inStore_iff {m : Machine} {a : Int64} :
    m.inStore a ↔ 0 ≤ a.toInt ∧ a.toInt < m.store.size := by
  unfold inStore
  rw [Int64.le_iff_toInt_le, toNatClampNeg_eq]
  simp only [Int64.toInt_zero]
  omega

/-- An address can be accessed if it is in the store and not in the gap. -/
theorem addressFault?_eq_none_iff {m : Machine} (hsize : m.store.size < 2 ^ 63) {a : Int64} :
    m.addressFault? a = none ↔
      0 ≤ a.toInt ∧ a.toInt < m.store.size ∧ ¬ (m.sp.toInt ≤ a.toInt ∧ a.toInt < m.np.toInt) := by
  unfold addressFault?
  simp only [Int64.lt_iff_toInt_lt, Int64.le_iff_toInt_le, Int64.toInt_zero,
    Int64.toInt_ofNat_of_lt hsize]
  split
  · simp only [reduceCtorEq, false_iff]
    omega
  · split
    · simp only [reduceCtorEq, false_iff]
      omega
    · simp only [true_iff]
      omega

/-- A load from an address that cannot be accessed is refused. -/
theorem load_of_fault {m : Machine} {a : Int64} {cause : Fault}
    (h : m.addressFault? a = some cause) :
    load a m = .error (.fault cause) m := by
  simp only [load, h]

/-- A load from an address that can be accessed gives its word. -/
theorem load_of_none {m : Machine} {a : Int64} (h : m.addressFault? a = none) :
    load a m = .ok (m.word a) m := by
  simp only [load, h]

/-- A store to an address that cannot be accessed is refused. -/
theorem storeAt_of_fault {m : Machine} {a : Int64} {cause : Fault}
    (h : m.addressFault? a = some cause) (v : Value) :
    storeAt a v m = .error (.fault cause) m := by
  simp only [storeAt, h]

/-- A store to an address that can be accessed replaces its word. -/
theorem storeAt_of_none {m : Machine} {a : Int64} (h : m.addressFault? a = none) (v : Value) :
    storeAt a v m = .ok () (m.setWord a v) := by
  simp only [storeAt, h]

/-- Replacing a word does not change the size of the store. -/
@[simp]
theorem setWord_size (m : Machine) (a : Int64) (v : Value) :
    (m.setWord a v).store.size = m.store.size := by
  simp [setWord]

/-! ## Soundness -/

/-- The stack lies above the typed constants and below the heap, and both lie in the store. -/
structure Sound (m : Machine) : Prop where
  base : (m.image.typedConstants.size : Int) ≤ m.sp.toInt
  gap : m.sp.toInt ≤ m.np.toInt
  top : m.np.toInt ≤ m.store.size
  size : m.store.size < 2 ^ 63

/-- Both ends of the gap between stack and heap lie in the store, in whatever order. -/
structure Contained (m : Machine) : Prop where
  constants : m.image.typedConstants.size ≤ m.store.size
  sp_nonneg : 0 ≤ m.sp.toInt
  sp_le : m.sp.toInt ≤ m.store.size
  np_nonneg : 0 ≤ m.np.toInt
  np_le : m.np.toInt ≤ m.store.size
  size : m.store.size < 2 ^ 63

/-- In a sound machine both ends of the gap lie in the store. -/
theorem Sound.contained {m : Machine} (h : m.Sound) : m.Contained := by
  have hbase := h.base
  have hgap := h.gap
  have htop := h.top
  exact ⟨by omega, by omega, by omega, by omega, htop, h.size⟩

/-- The number of words that can be pushed. -/
def room (m : Machine) : Int := m.np.toInt - m.sp.toInt

/-- A word can be pushed where the stack ends below the heap. -/
theorem push_of_lt {m : Machine} (hlow : 0 ≤ m.sp.toInt) (hin : m.sp.toInt < m.store.size)
    (hgap : m.sp.toInt < m.np.toInt) (v : Value) :
    push v m = .ok () { m.setWord m.sp v with sp := m.sp + 1 } := by
  have hfull : ¬ m.np ≤ m.sp := by
    rw [Int64.le_iff_toInt_le]
    omega
  have hstore : m.inStore m.sp := inStore_iff.mpr ⟨hlow, hin⟩
  unfold push
  rw [if_neg hfull, if_pos hstore]
  rfl

/-- Pushing writes above the top of the stack. -/
theorem push_eq {m : Machine} (h : m.Sound) (hroom : 0 < m.room) (v : Value) :
    push v m = .ok () { m.setWord m.sp v with sp := m.sp + 1 } := by
  have hbase := h.base
  have htop := h.top
  unfold room at hroom
  exact push_of_lt (by omega) (by omega) (by omega) v

/-- A word can be popped where the stack has one. -/
theorem pop_of_lt {m : Machine} (hsome : (m.image.typedConstants.size : Int) < m.sp.toInt)
    (hin : m.sp.toInt ≤ m.store.size) :
    pop m = .ok (m.word (m.sp - 1)) ({ m with sp := m.sp - 1 }.setWord (m.sp - 1) .undefined) := by
  have hhigh := m.sp.toInt_lt
  have hsub : (m.sp - 1).toInt = m.sp.toInt - 1 := by
    rw [toInt_sub_of_fits] <;> simp only [Int64.toInt_one] <;> omega
  have hbase : ¬ m.sp ≤ m.stackBase := by
    rw [Int64.le_iff_toInt_le, stackBase, Int64.toInt_ofNat_of_lt] <;> omega
  have hstore : ({ m with sp := m.sp - 1 } : Machine).inStore (m.sp - 1) := by
    rw [inStore_iff]
    simp only
    omega
  unfold pop
  rw [if_neg hbase, if_pos hstore]
  rfl

/-- Popping leaves the cell above the new top undefined. -/
theorem pop_eq {m : Machine} (h : m.Sound)
    (hsome : (m.image.typedConstants.size : Int) < m.sp.toInt) :
    pop m = .ok (m.word (m.sp - 1)) ({ m with sp := m.sp - 1 }.setWord (m.sp - 1) .undefined) := by
  have hgap := h.gap
  have htop := h.top
  exact pop_of_lt hsome (by omega)

/-! ## Making and resetting -/

/-- The typed constants fit into the store, as they do in every machine that is made. -/
structure Fits (m : Machine) : Prop where
  constants : m.image.typedConstants.size ≤ m.store.size
  size : m.store.size < 2 ^ 63

/-- A machine that is made was reset, and it has never run. -/
theorem create?_ok {image : Image} {equipment : Equipment} {m : Machine}
    (h : create? (some image) equipment = .ok m) :
    ∃ m₀ : Machine, m = m₀.reset ∧ m₀.image = image ∧ m₀.finishes = 0 ∧
      (image.typedConstants.size + markSize < 2 ^ 63 → m₀.Fits) := by
  unfold create? at h
  simp only at h
  generalize (if 0 < equipment.storeSize then equipment.storeSize
    else Int64.ofNat defaultStoreSize) = size at h
  split at h
  · cases h
  split at h
  · cases h
  split at h
  · cases h
  rename_i hsmall hlarge
  have hhigh := size.toInt_lt
  refine ⟨_, (Except.ok.inj h).symm, rfl, rfl, fun hbound => ⟨?_, ?_⟩⟩
  · rw [Int64.le_iff_toInt_le, toInt_ofNat hbound] at hsmall
    simp only [Array.size_replicate, toNatClampNeg_eq]
    omega
  · simp only [Array.size_replicate, toNatClampNeg_eq]
    omega

/-- A reset keeps the size of the store. -/
theorem reset_size {m : Machine} (h : m.Fits) : m.reset.store.size = m.store.size := by
  have hconstants := h.constants
  simp only [reset, initialStore, Array.size_append, Array.size_replicate]
  omega

/-- A machine whose store is large enough is sound after a reset. -/
theorem reset_sound {m : Machine} (h : m.Fits) : m.reset.Sound := by
  have hconstants := h.constants
  have hsize := h.size
  have hlength := reset_size h
  have hsp : m.reset.sp.toInt = m.image.typedConstants.size := toInt_ofNat (by omega)
  have hnp : m.reset.np.toInt = m.store.size := toInt_ofNat hsize
  refine ⟨?_, by omega, by omega, by omega⟩
  rw [hsp]
  exact Int.le_refl _

/-! ## Filling -/

/-- Filling words of the store changes nothing else. -/
theorem fill_eq {m : Machine} (v : Value) (count : Nat) {a : Nat} (h : a + count ≤ m.store.size)
    (hsize : m.store.size < 2 ^ 63) :
    ∃ store, fill v count (Int64.ofNat a) m = .ok () { m with store } ∧
      store.size = m.store.size ∧ (∀ i, a ≤ i → i < a + count → store[i]? = some v) ∧
      ∀ i, i < a ∨ a + count ≤ i → store[i]? = m.store[i]? := by
  induction count generalizing a m with
  | zero => exact ⟨m.store, rfl, rfl, fun i _ _ => by omega, fun _ _ => rfl⟩
  | succ count ih =>
    have hindex : (Int64.ofNat a).toNatClampNeg = a := Int64.toNatClampNeg_ofNat_of_lt (by omega)
    have hin : m.inStore (Int64.ofNat a) := by
      rw [inStore_iff, Int64.toInt_ofNat_of_lt (by omega)]
      omega
    obtain ⟨store, hfill, hsize', hfilled, hsame⟩ :=
      ih (m := m.setWord (Int64.ofNat a) v) (a := a + 1)
        (by rw [setWord_size]; omega) (by rw [setWord_size]; omega)
    simp only [setWord, hindex] at hsame
    refine ⟨store, ?_, by rw [hsize', setWord_size], fun i hi hlt => ?_, fun i hi => ?_⟩
    · unfold fill
      rw [if_pos hin, ofNat_succ]
      exact hfill
    · by_cases hfirst : i = a
      · subst hfirst
        rw [hsame i (by omega), Array.getElem?_setIfInBounds_self_of_lt (by omega)]
      · exact hfilled i (by omega) (by omega)
    · rw [hsame i (by omega), Array.getElem?_setIfInBounds_ne (by omega)]

/-! ## Steps -/

/-- A machine that has fetched a word. -/
def fetched (m : Machine) (w : Word) : Machine :=
  { m with ipc := m.pc, pc := m.pc + 1, profile := m.profile.map (·.recordInstruction w.opcode) }

/-- What a step makes of the effect of an instruction. -/
def settle : EStateM.Result Interrupt Machine Unit → EStateM.Result Crash Machine Unit
  | .ok _ m => .ok () m.observe
  | .error (.fault cause) m => .ok () (m.failWith (m.errorOf cause))
  | .error (.error e) m => .ok () (m.failWith e)
  | .error (.crash c) m => .error c m

/-- A step of a running machine is the effect of the word that it fetches. -/
theorem stepOnce_fetched {m : Machine} {w : Word} (hrun : m.state = .running)
    (hfetch : m.image.fetch? m.pc = some w) : stepOnce m = settle (execute w (m.fetched w)) := by
  unfold stepOnce
  rw [if_neg (by simp [hrun])]
  simp only [hfetch]
  rfl

/-- A machine that has failed is stopped. -/
theorem failWith_state (m : Machine) (e : MachineError) : (m.failWith e).state = .stopped := by
  unfold failWith stop
  split
  · assumption
  · rfl

/-- A machine that has failed has the error. -/
theorem failWith_error (m : Machine) (e : MachineError) : (m.failWith e).error = some e := by
  unfold failWith stop
  split <;> rfl

/-- A poll drops a line that no native procedure waits for. -/
theorem pollInput_unawaited {m : Machine} (h : m.line = none ∨ m.reader = none) :
    pollInput m = .ok () { m with line := none } := by
  unfold pollInput
  cases hline : m.line with
  | none =>
    simp only
    rw [← hline]
  | some line =>
    have hreader : m.reader = none := h.resolve_left (by simp [hline])
    simp only [hreader]

/-- Single steps go on after the first one. -/
theorem stepSingly_succ {m m₁ : Machine} (h : stepOnce m = .ok () m₁) (n : Nat) :
    stepSingly (n + 1) m = stepSingly n m₁ := by
  simp only [stepSingly, bind, EStateM.bind, h]

end Machine

end PCode
