import PCode.Proofs.Machine.Heap

/-!
# What instructions keep

Some words of the stack must not change while it grows and shrinks above them:
the links and return addresses of frames.  They are guarded here, as a list of
addresses with their words.  The parts of an instruction are shown to keep the
guarded words and the row of blocks of the heap.

Main definitions and results:

- `Machine.Meets`: a part of an instruction ends as it should.
- `Machine.Tries`: an access succeeds, or is refused and changes nothing.
- `Machine.Keeps`: the stack and the heap lie apart, and the guarded words are in place.
- `Machine.tries_push`, `Machine.meets_pop`, `Machine.tries_storeAt`: the access primitives.
- `Machine.tries_malloc`, `Machine.tries_free`: the heap.
-/

namespace PCode

/-- A fault that can befall a program whose stack is in order. -/
def Fault.Benign : Fault → Prop
  | .stackEmpty _ | .frameBelowStack _ => False
  | _ => True

namespace Machine

/-! ## Outcomes -/

/-- A part of an instruction succeeds with a given outcome, or ends with a fault that does not
concern the order of the stack.  It does not crash, unless it releases a block at the least
address, the word before which would be at the greatest. -/
def Meets {α : Type} (x : Instr α) (m : Machine) (Q : α → Machine → Prop) : Prop :=
  match x m with
  | .ok a m' => Q a m'
  | .error (.fault cause) _ => cause.Benign
  | .error (.error e) _ => e.fault.Benign
  | .error (.crash c) _ => c.address = Int64.maxValue

section

variable {α β : Type} {x : Instr α} {m : Machine} {Q R : α → Machine → Prop}

/-- What follows from a result is met too. -/
theorem Meets.mono (h : Meets x m Q) (hQ : ∀ a m', Q a m' → R a m') : Meets x m R := by
  unfold Meets at h ⊢
  split <;> simp_all

/-- The second part of an instruction goes on from what the first one meets. -/
theorem Meets.bind {f : α → Instr β} {S : β → Machine → Prop}
    (h : Meets x m fun a m' => Meets (f a) m' S) : Meets (x >>= f) m S := by
  unfold Meets at h ⊢
  simp only [Bind.bind, EStateM.bind]
  cases hx : x m with
  | ok a m' => simpa only [hx] using h
  | error e m' =>
    rw [hx] at h
    cases e <;> exact h

/-- What follows a part that is met, with what is known of its outcome. -/
theorem Meets.seq {f : α → Instr β} {S : β → Machine → Prop} (h : Meets x m Q)
    (hf : ∀ a m', Q a m' → Meets (f a) m' S) : Meets (x >>= f) m S :=
  (h.mono hf).bind

/-- The outcome is the one that the part has. -/
theorem Meets.with_eq (h : Meets x m Q) : Meets x m fun a m' => Q a m' ∧ x m = .ok a m' := by
  unfold Meets at h ⊢
  split <;> simp_all

/-- An instruction that succeeds meets what holds of its result. -/
theorem meets_of_eq {a : α} {m' : Machine} (h : x m = .ok a m') (hQ : Q a m') : Meets x m Q := by
  unfold Meets
  rw [h]
  exact hQ

/-- Returning a value meets what holds already. -/
theorem meets_pure {a : α} (h : Q a m) : Meets (pure a) m Q := h

/-- A benign fault meets everything. -/
theorem meets_raise {cause : Fault} (h : cause.Benign) : Meets (raise cause : Instr α) m Q := h

/-- An access succeeds with a given outcome, or is refused and changes nothing, or crashes at the
greatest address. -/
def Tries (x : Instr α) (m : Machine) (Q : α → Machine → Prop) : Prop :=
  (∃ a m', x m = .ok a m' ∧ Q a m') ∨ (∃ cause, x m = .error (.fault cause) m ∧ cause.Benign) ∨
    ∃ m', x m = .error (.crash ⟨Int64.maxValue⟩) m'

/-- What is tried is met, as a refusal is benign. -/
theorem Tries.meets (h : Tries x m Q) : Meets x m Q := by
  unfold Meets
  rcases h with ⟨a, m', heq, hQ⟩ | ⟨cause, heq, hbenign⟩ | ⟨m', heq⟩
  · rw [heq]
    exact hQ
  · rw [heq]
    exact hbenign
  · rw [heq]

/-- What follows from a result is tried too. -/
theorem Tries.mono (h : Tries x m Q) (hQ : ∀ a m', Q a m' → R a m') : Tries x m R :=
  h.imp_left fun ⟨a, m', heq, ha⟩ => ⟨a, m', heq, hQ a m' ha⟩

private theorem tries_of_eq {a : α} {m' : Machine} (h : x m = .ok a m') (hQ : Q a m') :
    Tries x m Q :=
  .inl ⟨a, m', h, hQ⟩

private theorem tries_of_fault {cause : Fault} (h : x m = .error (.fault cause) m)
    (hbenign : cause.Benign) :
    Tries x m Q :=
  .inr (.inl ⟨cause, h, hbenign⟩)

end

/-! ## Guarded words -/

/-- Everything but the words of the store and the top of the stack. -/
def still (m : Machine) : Machine := { m with store := #[], sp := 0 }

/-- The stack ends at an address and the heap starts at another, both lie apart in the store, and
the guarded words are in place. -/
structure Keeps (m : Machine) (top heap : Nat) (guards : List (Nat × Value)) : Prop where
  sp : m.sp = Int64.ofNat top
  np : m.np = Int64.ofNat heap
  base : m.image.typedConstants.size ≤ top
  gap : top ≤ heap
  size : m.store.size < 2 ^ 62
  below : ∀ p ∈ guards, p.1 < top
  guarded : ∀ p ∈ guards, m.store[p.1]? = some p.2
  tiled : Tiled m.store heap

namespace Keeps

variable {m : Machine} {top heap : Nat} {guards : List (Nat × Value)}

/-- The heap starts in the store or at its end. -/
theorem heap_le (h : Keeps m top heap guards) : heap ≤ m.store.size := h.tiled.le_size

/-- The stack pointer is the top. -/
theorem toInt_sp (h : Keeps m top heap guards) : m.sp.toInt = top := by
  have h₁ := h.gap
  have h₂ := h.heap_le
  have h₃ := h.size
  rw [h.sp, Int64.toInt_ofNat_of_lt (by omega)]

/-- The heap pointer is the start of the heap. -/
theorem toInt_np (h : Keeps m top heap guards) : m.np.toInt = heap := by
  have h₂ := h.heap_le
  have h₃ := h.size
  rw [h.np, Int64.toInt_ofNat_of_lt (by omega)]

private theorem sound (h : Keeps m top heap guards) : m.Sound where
  base := by
    have := h.base
    rw [h.toInt_sp]
    omega
  gap := by
    have := h.gap
    rw [h.toInt_sp, h.toInt_np]
    omega
  top := by
    have := h.heap_le
    rw [h.toInt_np]
    omega
  size := by
    have := h.size
    omega

/-- The stack grows or shrinks over words that are not guarded. -/
theorem restack {store : Array Value} {top' : Nat} (h : Keeps m top heap guards)
    (hbase : m.image.typedConstants.size ≤ top') (hgap : top' ≤ heap)
    (hbelow : ∀ p ∈ guards, p.1 < top') (hsize : store.size = m.store.size)
    (hsame : ∀ i, i < top ∧ i < top' ∨ heap ≤ i → store[i]? = m.store[i]?) :
    Keeps { m with store, sp := Int64.ofNat top' } top' heap guards where
  sp := rfl
  np := h.np
  base := hbase
  gap := hgap
  size := hsize ▸ h.size
  below := hbelow
  guarded p hp := by
    rw [hsame p.1 (.inl ⟨h.below p hp, hbelow p hp⟩)]
    exact h.guarded p hp
  tiled := h.tiled.congr hsize fun i hi => hsame i (.inr hi)

/-- The heap grows or shrinks above the stack. -/
theorem reheap {store : Array Value} {heap' : Nat} (h : Keeps m top heap guards)
    (hgap : top ≤ heap') (hsize : store.size = m.store.size)
    (hsame : ∀ i < top, store[i]? = m.store[i]?) (htiled : Tiled store heap') :
    Keeps { m with store, np := Int64.ofNat heap' } top heap' guards where
  sp := h.sp
  np := rfl
  base := h.base
  gap := hgap
  size := hsize ▸ h.size
  below := h.below
  guarded p hp := by
    rw [hsame p.1 (h.below p hp)]
    exact h.guarded p hp
  tiled := htiled

/-- A word of the stack that is not guarded is replaced. -/
theorem overwrite (h : Keeps m top heap guards) {a : Nat} (ha : a < top)
    (hfree : ∀ p ∈ guards, p.1 ≠ a) (v : Value) :
    Keeps { m with store := m.store.setIfInBounds a v } top heap guards :=
  { h with
    size := by simpa using h.size
    guarded := fun p hp => by
      rw [Array.getElem?_setIfInBounds_ne (hfree p hp).symm]
      exact h.guarded p hp
    tiled := h.tiled.congr (by simp) fun i hi => by
      have := h.gap
      rw [Array.getElem?_setIfInBounds_ne (by omega)] }

/-- One more word is guarded. -/
theorem guard (h : Keeps m top heap guards) {a : Nat} {v : Value} (ha : a < top)
    (hv : m.store[a]? = some v) : Keeps m top heap ((a, v) :: guards) :=
  { h with
    below := fun p hp => by
      rcases List.mem_cons.mp hp with rfl | hp
      · exact ha
      · exact h.below p hp
    guarded := fun p hp => by
      rcases List.mem_cons.mp hp with rfl | hp
      · exact hv
      · exact h.guarded p hp }

/-- Fewer words are guarded. -/
theorem subset {guards' : List (Nat × Value)} (h : Keeps m top heap guards)
    (hsub : ∀ p ∈ guards', p ∈ guards) : Keeps m top heap guards' :=
  { h with
    below := fun p hp => h.below p (hsub p hp)
    guarded := fun p hp => h.guarded p (hsub p hp) }

/-- What does not concern the stack, the heap or the image does not matter. -/
theorem transfer {m' : Machine} (h : Keeps m top heap guards) (himage : m'.image = m.image)
    (hstore : m'.store = m.store) (hsp : m'.sp = m.sp) (hnp : m'.np = m.np) :
    Keeps m' top heap guards where
  sp := hsp.trans h.sp
  np := hnp.trans h.np
  base := himage ▸ h.base
  gap := h.gap
  size := hstore ▸ h.size
  below := h.below
  guarded p hp := by
    rw [hstore]
    exact h.guarded p hp
  tiled := hstore ▸ h.tiled

end Keeps

/-! ## Access -/

section

variable {m : Machine} {top heap : Nat} {guards : List (Nat × Value)}

/-- A push guards the word that it leaves on top. -/
theorem tries_push (h : Keeps m top heap guards) (v : Value) :
    Tries (push v) m fun _ m' => Keeps m' (top + 1) heap ((top, v) :: guards) ∧
      m'.still = m.still := by
  have hgap := h.gap
  have hbase := h.base
  have hheap := h.heap_le
  have hsize := h.size
  by_cases hfull : top = heap
  · have hle : m.np ≤ m.sp := by
      rw [Int64.le_iff_toInt_le, h.toInt_sp, h.toInt_np]
      omega
    exact tries_of_fault (if_pos hle) trivial
  · have hroom : 0 < m.room := by
      unfold room
      rw [h.toInt_sp, h.toInt_np]
      omega
    have hindex : (Int64.ofNat top).toNatClampNeg = top :=
      Int64.toNatClampNeg_ofNat_of_lt (by omega)
    refine tries_of_eq (push_eq h.sound hroom v) ⟨?_, rfl⟩
    have hkeeps : Keeps
        { m with store := m.store.setIfInBounds top v, sp := Int64.ofNat (top + 1) }
        (top + 1) heap guards :=
      h.restack (by omega) (by omega) (fun p hp => by have := h.below p hp; omega) (by simp)
        fun i hi => by rw [Array.getElem?_setIfInBounds_ne (by omega)]
    have hguard := hkeeps.guard (Nat.lt_succ_self top)
      (Array.getElem?_setIfInBounds_self_of_lt (by omega))
    refine hguard.transfer rfl ?_ ?_ rfl
    · simp only [setWord, h.sp, hindex]
    · simp only [h.sp, ofNat_succ]

/-- A pop gives the word on top, if no guarded word lies there. -/
theorem meets_pop (h : Keeps m (top + 1) heap guards) (hbase : m.image.typedConstants.size ≤ top)
    (hbelow : ∀ p ∈ guards, p.1 < top) :
    Meets pop m fun v m' => Keeps m' top heap guards ∧ m'.still = m.still ∧
      m.store[top]? = some v := by
  have hgap := h.gap
  have hheap := h.heap_le
  have hsize := h.size
  have hpred : m.sp - 1 = Int64.ofNat top := by
    apply Int64.toInt_inj.mp
    have hsp := h.toInt_sp
    rw [Int64.toInt_ofNat_of_lt (by omega), toInt_sub_of_fits] <;>
      simp only [Int64.toInt_one] <;> omega
  have hindex : (Int64.ofNat top).toNatClampNeg = top :=
    Int64.toNatClampNeg_ofNat_of_lt (by omega)
  have hsome : (m.image.typedConstants.size : Int) < m.sp.toInt := by
    rw [h.toInt_sp]
    omega
  refine meets_of_eq (pop_eq h.sound hsome) ⟨?_, rfl, ?_⟩
  · have hkeeps : Keeps
        { m with store := m.store.setIfInBounds top .undefined, sp := Int64.ofNat top }
        top heap guards :=
      h.restack hbase (by omega) hbelow (by simp)
        fun i hi => by rw [Array.getElem?_setIfInBounds_ne (by omega)]
    refine hkeeps.transfer rfl ?_ hpred rfl
    simp only [setWord, hpred, hindex]
  · rw [hpred, word, hindex, Array.getD_eq_getD_getElem?, Array.getElem?_eq_getElem (by omega),
      Option.getD_some]

/-- An address that cannot be accessed says nothing against the order of the stack. -/
theorem benign_of_addressFault? {a : Int64} {cause : Fault} (h : m.addressFault? a = some cause) :
    cause.Benign := by
  unfold addressFault? at h
  split at h
  · obtain rfl := Option.some.inj h
    trivial
  · split at h
    · obtain rfl := Option.some.inj h
      trivial
    · cases h

/-- A load changes nothing. -/
theorem tries_load (m : Machine) (a : Int64) : Tries (load a) m fun _ m' => m' = m := by
  cases hfault : m.addressFault? a with
  | none => exact tries_of_eq (load_of_none hfault) rfl
  | some cause => exact tries_of_fault (load_of_fault hfault) (benign_of_addressFault? hfault)

/-- A guarded word can be read. -/
theorem load_guarded (h : Keeps m top heap guards) {a : Nat} {v : Value} (hg : (a, v) ∈ guards) :
    load (Int64.ofNat a) m = .ok v m := by
  have hlt := h.below _ hg
  have hgap := h.gap
  have hheap := h.heap_le
  have hsize := h.size
  have hint : (Int64.ofNat a).toInt = a := Int64.toInt_ofNat_of_lt (by simp only at hlt; omega)
  have hfault : m.addressFault? (Int64.ofNat a) = none := by
    rw [addressFault?_eq_none_iff (by omega), hint, h.toInt_sp]
    simp only at hlt
    omega
  have hword : m.word (Int64.ofNat a) = v := by
    rw [word, toNatClampNeg_eq, hint, Int.toNat_natCast, Array.getD_eq_getD_getElem?,
      h.guarded _ hg, Option.getD_some]
  unfold load
  rw [hfault]
  exact congrArg (EStateM.Result.ok · m) hword

/-- A word that is not guarded, of the stack or of a block, can be stored. -/
theorem tries_storeAt (h : Keeps m top heap guards) {a : Int64} (v : Value)
    (hallowed : m.addressFault? a = none →
      (a.toInt < top ∧ ∀ p ∈ guards, (p.1 : Int) ≠ a.toInt) ∨
        Payload m.store heap a.toNatClampNeg) :
    Tries (storeAt a v) m fun _ m' => Keeps m' top heap guards ∧ m'.still = m.still := by
  have hgap := h.gap
  cases hfault : m.addressFault? a with
  | some cause => exact tries_of_fault (storeAt_of_fault hfault v) (benign_of_addressFault? hfault)
  | none =>
    have hrange := (addressFault?_eq_none_iff (by have := h.size; omega)).mp hfault
    refine tries_of_eq (storeAt_of_none hfault v) ⟨?_, rfl⟩
    rcases hallowed hfault with ⟨hlt, hfree⟩ | hpay
    · exact h.overwrite (by rw [toNatClampNeg_eq]; omega)
        (fun p hp => by have := hfree p hp; rw [toNatClampNeg_eq]; omega) v
    · refine { h with size := ?_, guarded := fun p hp => ?_, tiled := h.tiled.set_payload hpay v }
      · simpa [setWord] using h.size
      · have hne : a.toNatClampNeg ≠ p.1 := by
          have h₁ := hpay.lt
          have h₂ := h.below p hp
          omega
        simp only [setWord, Array.getElem?_setIfInBounds_ne hne]
        exact h.guarded p hp

/-! ## The heap -/

/-- Reserving a block puts it before the others. -/
theorem tries_malloc (h : Keeps m top heap guards) (size : Int64) :
    Tries (malloc size) m fun _ m' => ∃ heap', Keeps m' top heap' guards ∧
      m'.still = { m.still with np := m'.np } := by
  have hgap := h.gap
  have hsize := h.size
  have hheap := h.heap_le
  have hnp := h.toInt_np
  have hsp := h.toInt_sp
  rcases Int.lt_or_le size.toInt 0 with hneg | hnonneg
  · exact tries_of_fault (malloc_negative m hneg) trivial
  rcases Int.lt_or_le (m.np.toInt - size.toInt - 1) m.sp.toInt with hfull | hroom
  · exact tries_of_fault (malloc_full h.sound.contained hnonneg hfull) trivial
  obtain ⟨address, store, hmalloc, hres⟩ := malloc_room h.sound.contained hnonneg hroom
  have hstart := hres.start
  -- The size word of the new block is at `k`, and the block ends where the heap started.
  obtain ⟨k, hk⟩ : ∃ k : Nat, address.toInt = k + 1 := ⟨(address.toInt - 1).toNat, by omega⟩
  have haddress : address = Int64.ofNat (k + 1) := (ofNat_of_toInt (by omega)).symm
  have hpred : address - 1 = Int64.ofNat k := by
    rw [haddress, ← ofNat_succ, Int64.add_sub_cancel]
  have htiled : Tiled store k := by
    refine .block (n := size) ?_ hnonneg ?_
    · rw [← hres.header]
      congr 1
      omega
    · rw [show k + 1 + size.toInt.toNat = heap by omega]
      exact h.tiled.congr hres.length fun i hi => hres.rest i (by omega)
  rw [hpred] at hmalloc
  exact tries_of_eq hmalloc
    ⟨k, h.reheap (by omega) hres.length (fun i hi => hres.rest i (by omega)) htiled, rfl⟩

private theorem Refuses.tries {address : Int64} (h : m.Refuses address)
    {Q : Unit → Machine → Prop} :
    Tries (free address) m Q := by
  rcases h with h | h | ⟨-, h⟩
  · exact tries_of_fault h trivial
  · exact tries_of_fault h trivial
  · exact .inr (.inr ⟨m, h⟩)

/-- Releasing the lowest block makes the next one the lowest. -/
theorem tries_free (h : Keeps m top heap guards) (address : Int64) :
    Tries (free address) m fun _ m' => ∃ heap', Keeps m' top heap' guards ∧
      m'.still = { m.still with np := m'.np } := by
  have hgap := h.gap
  by_cases hlowest : address = m.np + 1
  · cases hblock : h.tiled with
    | nil =>
      rw [hlowest]
      exact (free_empty h.sound.contained h.toInt_np).tries
    | @block _ n hn hnonneg hrest =>
      have hfits := hrest.le_size
      obtain ⟨store, hfree, hlength, -, hsame⟩ :=
        free_lowest h.sound.contained (blockAt_of_header h.sound.size hn hnonneg (by omega)) h.np
      have htiled := hrest.congr hlength fun i hi => hsame i (by omega)
      rw [hlowest, h.np, ofNat_succ]
      exact tries_of_eq hfree
        ⟨_, h.reheap (by omega) hlength (fun i hi => hsame i (by omega)) htiled, rfl⟩
  · rcases free_other h.sound.contained hlowest with hfree | hrefused
    · exact tries_of_eq hfree ⟨heap, h, rfl⟩
    · exact hrefused.tries

end

end Machine

end PCode
