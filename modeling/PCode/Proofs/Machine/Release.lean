import PCode.Proofs.Machine.Heap

/-!
# Releasing at any address

The word before a block is data like any other, and a program may have changed
it.  Releasing checks that it can be a size, but the check adds it to the address,
and the sum of two words can wrap.  So a release keeps to the heap for every
address and every size word but two: the least address, which has no word before
it, and the start of the lowest block with a size that no address can hold.

Main definitions and results:

- `Machine.KeepsToHeap`: a release is refused, or gives back words at the bottom of the heap.
- `Machine.Overlong`: the lowest block ends beyond every address.
- `Machine.release_keeps_to_heap_iff`: which releases keep to the heap.
-/

namespace PCode.Machine

variable {m : Machine} {address : Int64}

/-- A release is refused because of its address and changes nothing, or it moves the start of the
heap up, at most to the end of the store, and changes only words that it gives back. -/
def KeepsToHeap (m : Machine) (address : Int64) : Prop :=
  (∃ e, attempt (free address) m = .ok (.error (.machine e)) m ∧
    e.fault.kind = .invalidAddress) ∨
  ∃ store np, attempt (free address) m = .ok (.ok ()) { m with store, np } ∧
    m.np.toInt ≤ np.toInt ∧ np.toInt ≤ m.store.size ∧ store.size = m.store.size ∧
    ∀ i : Nat, (i : Int) < m.np.toInt ∨ np.toInt ≤ i → store[i]? = m.store[i]?

/-- The address is that of the lowest block, and its size word counts words beyond every address. -/
structure Overlong (m : Machine) (address : Int64) : Prop where
  lowest : address = m.np + 1
  kind : (m.word (address - 1)).kind = .int
  size : 2 ^ 63 ≤ address.toInt + (m.word (address - 1)).int.toInt

/-! ## What a release can do -/

/-- The start of the heap after the lowest block is given back is the end of the block. -/
theorem np_add_size (hlowest : address = m.np + 1) (size : Int64) :
    m.np + (size + 1) = address + size := by
  rw [hlowest, Int64.add_comm size 1, Int64.add_assoc]

/-- A block that ends in the store is given back with its size word. -/
theorem giveBack_of_fits {size : Int64} (hnp : 0 ≤ m.np.toInt) (hsize : m.store.size < 2 ^ 63)
    (hlowest : address = m.np + 1) (hnext : address.toInt = m.np.toInt + 1)
    (hnonneg : 0 ≤ size.toInt) (hfits : address.toInt + size.toInt ≤ m.store.size) :
    ∃ store np, m.giveBack address size = .ok () { m with store, np } ∧
      np.toInt = address.toInt + size.toInt ∧ store.size = m.store.size ∧
      ∀ i : Nat, (i : Int) < m.np.toInt ∨ np.toInt ≤ i → store[i]? = m.store[i]? := by
  obtain ⟨k, hk⟩ : ∃ k : Nat, m.np.toInt = k := ⟨m.np.toInt.toNat, by omega⟩
  have hnp' : m.np = Int64.ofNat k := (ofNat_of_toInt hk).symm
  have hend : (address + size).toInt = address.toInt + size.toInt := by
    rw [toInt_add_of_fits] <;> omega
  have hspan : k + span m.np (address + size) ≤ m.store.size := by
    unfold span
    omega
  obtain ⟨store, hfill, hlength, -, hsame⟩ :=
    fill_eq (m := m) .undefined (span m.np (address + size)) hspan hsize
  rw [← hnp'] at hfill
  refine ⟨store, address + size, ?_, hend, hlength, fun i hi => hsame i ?_⟩
  · unfold giveBack
    rw [hfill, ← np_add_size hlowest]
  · unfold span
    omega

/-- Of a block that ends beyond every address no word is cleared, and the start of the heap becomes
negative. -/
theorem giveBack_of_wraps {size : Int64} (hnp : 0 ≤ m.np.toInt) (hlowest : address = m.np + 1)
    (hnext : address.toInt = m.np.toInt + 1) (hwraps : 2 ^ 63 ≤ address.toInt + size.toInt) :
    ∃ np, m.giveBack address size = .ok () { m with np } ∧ np.toInt < 0 := by
  have hhigh := size.toInt_lt
  have hbound := address.toInt_lt
  have hend : (address + size).toInt = address.toInt + size.toInt - 2 ^ 64 := by
    rw [Int64.toInt_add]
    simp only [Int.bmod]
    split <;> omega
  have hspan : span m.np (address + size) = 0 := by
    unfold span
    omega
  refine ⟨address + size, ?_, by omega⟩
  rw [giveBack, hspan, ← np_add_size hlowest]
  rfl

/-! ## Which releases keep to the heap -/

private theorem isBlockSize_iff (hsize : m.store.size < 2 ^ 63) {word : Value} :
    m.isBlockSize address word = true ↔
      word.kind = .int ∧ 0 ≤ word.int.toInt ∧ (address + word.int).toInt ≤ m.store.size := by
  simp only [isBlockSize, Bool.and_eq_true, decide_eq_true_eq, beq_iff_eq, Int64.le_iff_toInt_le,
    Int64.toInt_zero, toInt_ofNat hsize, and_assoc]

/-- A word that is not undefined is one of the store. -/
theorem lt_size_of_kind {a : Int64} (h : (m.word a).kind = .int) : a.toInt < m.store.size := by
  refine Decidable.byContradiction fun hout => ?_
  have hnone : m.store[a.toNatClampNeg]? = none := by
    rw [Array.getElem?_eq_none_iff, toNatClampNeg_eq]
    omega
  rw [word, Array.getD_eq_getD_getElem?, hnone] at h
  cases h

/-- The address after the start of the heap, unless it is the least one. -/
theorem toInt_np_succ (hlowest : address = m.np + 1) (hleast : address ≠ Int64.minValue) :
    address.toInt = m.np.toInt + 1 := by
  have hhigh := m.np.toInt_lt
  have hlow := m.np.le_toInt
  rw [hlowest, toInt_add_of_fits] <;> rw [Int64.toInt_one]
  · omega
  · refine Decidable.byContradiction fun hout => hleast (Int64.toInt_inj.mp ?_)
    have hlast : m.np.toInt = 2 ^ 63 - 1 := by omega
    rw [hlowest, Int64.toInt_add, hlast]
    rfl

/-- The least address has no word before it. -/
theorem free_least (hsize : m.store.size < 2 ^ 63) :
    free Int64.minValue m = .error (.crash ⟨Int64.maxValue⟩) m := by
  have hpred : (Int64.minValue - 1).toInt = 2 ^ 63 - 1 := rfl
  have hmin : Int64.minValue.toInt = -2 ^ 63 := rfl
  have hhigh := m.np.toInt_lt
  have hout : ¬ (Int64.minValue - 1 < m.np ∨ Int64.ofNat m.store.size < Int64.minValue) := by
    rw [Int64.lt_iff_toInt_lt, Int64.lt_iff_toInt_lt, toInt_ofNat hsize, hpred, hmin]
    omega
  have hin : ¬ m.inStore (Int64.minValue - 1) := by
    rw [inStore_iff, hpred]
    omega
  exact (if_neg hout).trans (if_neg hin)

/-- A lowest block that ends beyond every address passes the checks, and the start of the heap
becomes negative. -/
theorem free_overlong (hnp : 0 ≤ m.np.toInt) (hsize : m.store.size < 2 ^ 63)
    (hleast : address ≠ Int64.minValue) (h : m.Overlong address) :
    ∃ np, free address m = .ok () { m with np } ∧ np.toInt < 0 := by
  have hnext := toInt_np_succ h.lowest hleast
  have hpred : address - 1 = m.np := by rw [h.lowest, Int64.add_sub_cancel]
  have hlt := lt_size_of_kind h.kind
  have hwraps := h.size
  have hhigh := (m.word (address - 1)).int.toInt_lt
  have hbound := address.toInt_lt
  have hout : ¬ (address - 1 < m.np ∨ Int64.ofNat m.store.size < address) := by
    rw [Int64.lt_iff_toInt_lt, Int64.lt_iff_toInt_lt, toInt_ofNat hsize]
    rw [hpred] at hlt ⊢
    omega
  have hin : m.inStore (address - 1) := inStore_iff.mpr ⟨by rw [hpred]; exact hnp, hlt⟩
  have hblock : m.isBlockSize address (m.word (address - 1)) = true := by
    have hend : (address + (m.word (address - 1)).int).toInt ≤ m.store.size := by
      rw [Int64.toInt_add]
      simp only [Int.bmod]
      split <;> omega
    exact (isBlockSize_iff hsize).mpr ⟨h.kind, by omega, hend⟩
  rw [free_of_isBlockSize hout hin hblock, if_neg (by simp [h.lowest])]
  exact giveBack_of_wraps hnp h.lowest hnext hwraps

/-- A release that succeeds keeps to the heap if it only gives back words at the bottom of the heap.
-/
theorem keepsToHeap_of_ok {store : Array Value} {np : Int64}
    (hfree : free address m = .ok () { m with store, np }) (hup : m.np.toInt ≤ np.toInt)
    (htop : np.toInt ≤ m.store.size) (hlength : store.size = m.store.size)
    (hsame : ∀ i : Nat, (i : Int) < m.np.toInt ∨ np.toInt ≤ i → store[i]? = m.store[i]?) :
    m.KeepsToHeap address :=
  .inr ⟨store, np, by simp only [attempt, hfree], hup, htop, hlength, hsame⟩

private theorem Overlong.not_keepsToHeap (h : m.Overlong address) (hnp : 0 ≤ m.np.toInt)
    (hsize : m.store.size < 2 ^ 63) (hleast : address ≠ Int64.minValue) :
    ¬ m.KeepsToHeap address := by
  obtain ⟨np, hfree, hneg⟩ := free_overlong hnp hsize hleast h
  have hok : attempt (free address) m = .ok (.ok ()) { m with np } := by
    simp only [attempt, hfree]
  rintro (⟨e, hrefused, -⟩ | ⟨store, np', hfree', hup, -⟩)
  · cases hrefused.symm.trans hok
  · obtain rfl : np = np' := by
      injection hok.symm.trans hfree' with _ hm
      exact congrArg Machine.np hm
    omega

/-- Releasing keeps to the heap, whatever the store holds, exactly when the address is not the least
one and not that of a lowest block whose size word counts words beyond every address. -/
theorem release_keeps_to_heap_iff (hnp : 0 ≤ m.np.toInt) (hle : m.np.toInt ≤ m.store.size)
    (hsize : m.store.size < 2 ^ 63) (address : Int64) :
    m.KeepsToHeap address ↔ address ≠ Int64.minValue ∧ ¬ m.Overlong address := by
  constructor
  · intro hkeeps
    have hleast : address ≠ Int64.minValue := by
      rintro rfl
      have hcrash : attempt (free Int64.minValue) m = .error ⟨Int64.maxValue⟩ m := by
        simp only [attempt, free_least hsize]
      rcases hkeeps with ⟨e, hfree, -⟩ | ⟨store, np, hfree, -⟩ <;> cases hfree.symm.trans hcrash
    exact ⟨hleast, fun hover => hover.not_keepsToHeap hnp hsize hleast hkeeps⟩
  · rintro ⟨hleast, hover⟩
    rcases free_cases hnp hsize address with
      (hfree | hfree | ⟨heq, -⟩) | ⟨-, hfree⟩ | ⟨hlowest, hblock, hfree⟩
    · exact .inl ⟨m.errorOf (.freeOutsideHeap address m.np m.store.size),
        by simp only [attempt, hfree], rfl⟩
    · exact .inl ⟨m.errorOf (.corruptBlock address (m.word (address - 1))),
        by simp only [attempt, hfree], rfl⟩
    · exact absurd heq hleast
    · exact keepsToHeap_of_ok hfree (Int.le_refl _) hle rfl fun _ _ => rfl
    · have hnext := toInt_np_succ hlowest hleast
      obtain ⟨hkind, hnonneg, hend⟩ := (isBlockSize_iff hsize).mp hblock
      have hfits : address.toInt + (m.word (address - 1)).int.toInt < 2 ^ 63 :=
        Decidable.byContradiction fun hlong => hover ⟨hlowest, hkind, by omega⟩
      rw [toInt_add_of_fits (by omega) hfits] at hend
      obtain ⟨store, np, hgive, hstart, hlength, hsame⟩ :=
        giveBack_of_fits hnp hsize hlowest hnext hnonneg hend
      exact keepsToHeap_of_ok (hfree.trans hgive) (by omega) (by omega) hlength hsame

/-- A store of four words with one block of one word, whose size word was overwritten. -/
def corruptHeap (size : Int64) : Machine :=
  { (default : Machine) with
    store := #[.undefined, .undefined, .ofInt size, .ofInt 0], np := 2 }

/-- A size word that counts more words than there are is refused. -/
theorem release_keeps_to_heap_iff_corrupt :
    (corruptHeap 7).np.toInt = 2 ∧ (corruptHeap 7).store.size = 4 ∧ (corruptHeap 7).KeepsToHeap 3 :=
  ⟨rfl, rfl,
    (release_keeps_to_heap_iff (m := corruptHeap 7) (by decide) (by decide) (by decide) 3).mpr
    ⟨by decide, fun h => absurd h.size (by decide)⟩⟩

/-- A size word that counts words beyond every address takes the start of the heap out of the store.
-/
theorem overlong_block_leaves_heap :
    0 ≤ (corruptHeap Int64.maxValue).sp.toInt ∧
      (corruptHeap Int64.maxValue).sp.toInt ≤ (corruptHeap Int64.maxValue).np.toInt ∧
      (corruptHeap Int64.maxValue).np.toInt ≤ (corruptHeap Int64.maxValue).store.size ∧
      ¬ (corruptHeap Int64.maxValue).KeepsToHeap 3 := by
  have hover : (corruptHeap Int64.maxValue).Overlong 3 := ⟨by decide, by decide, by decide⟩
  exact ⟨by decide, by decide, by decide,
    hover.not_keepsToHeap (by decide) (by decide) (by decide)⟩

end PCode.Machine
