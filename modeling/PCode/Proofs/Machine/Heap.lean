import PCode.Proofs.Machine.Access

/-!
# Blocks of the heap

The heap is a row of blocks up to the end of the store, each with its size in
the word before it.  Whatever leaves these words alone leaves the heap as it is.

Main definitions and results:

- `Machine.malloc_room`, `Machine.malloc_full`: what reserving a block does.
- `Machine.free_cases`: what a release can do.
- `Machine.free_lowest`, `Machine.free_inner`, `Machine.free_other`: what releasing one does.
- `Tiled`: from an address on, the store is a row of blocks.
- `Payload`: an address is that of a word of a block, not of a size.
- `Tiled.set_payload`: storing into a block keeps the row.
-/

namespace PCode

/-! ## Reserving -/

namespace Machine

variable {m : Machine}

/-- A negative number of words is not allocated. -/
theorem malloc_negative (m : Machine) {size : Int64} (hneg : size.toInt < 0) :
    malloc size m = .error (.fault (.negativeAllocation size)) m := by
  unfold malloc
  rw [if_pos (Int64.lt_iff_toInt_lt.mpr hneg)]

/-- Where the heap would start after reserving a block.  The difference never wraps. -/
theorem Contained.toInt_malloc (h : m.Contained) {size : Int64} (hnonneg : 0 ≤ size.toInt) :
    (m.np - size - 1).toInt = m.np.toInt - size.toInt - 1 := by
  have hnonneg' := h.np_nonneg
  have hbound := size.toInt_lt
  have hhigh := m.np.toInt_lt
  have hsub : (m.np - size).toInt = m.np.toInt - size.toInt := by
    rw [toInt_sub_of_fits] <;> omega
  rw [toInt_sub_of_fits] <;> rw [hsub, Int64.toInt_one] <;> omega

/-- A block that would reach into the stack is not allocated. -/
theorem malloc_full (h : m.Contained) {size : Int64} (hnonneg : 0 ≤ size.toInt)
    (hfull : m.np.toInt - size.toInt - 1 < m.sp.toInt) :
    malloc size m = .error (.fault (.outOfMemory size m.sp m.np)) m := by
  have hneg : ¬ size < 0 := by
    rw [Int64.lt_iff_toInt_lt, Int64.toInt_zero]
    omega
  have hlt : m.np - size - 1 < m.sp := by
    rw [Int64.lt_iff_toInt_lt, h.toInt_malloc hnonneg]
    exact hfull
  unfold malloc
  rw [if_neg hneg]
  simp only
  rw [if_pos hlt]

/-- What a store holds after a block was reserved at an address: its size in the word before it and
zeros in its words, up to where the heap started. -/
structure Reserves (m : Machine) (size address : Int64) (store : Array Value) : Prop where
  start : address.toInt = m.np.toInt - size.toInt
  length : store.size = m.store.size
  header : store[(address.toInt - 1).toNat]? = some (.ofInt size)
  zeros : ∀ i : Nat, address.toInt ≤ i → (i : Int) < m.np.toInt → store[i]? = some (.ofInt 0)
  rest : ∀ i : Nat, (i : Int) < address.toInt - 1 ∨ m.np.toInt ≤ i → store[i]? = m.store[i]?

/-- A block for which there is room is reserved below the heap. -/
theorem malloc_room (h : m.Contained) {size : Int64} (hnonneg : 0 ≤ size.toInt)
    (hroom : m.sp.toInt ≤ m.np.toInt - size.toInt - 1) :
    ∃ address store, malloc size m = .ok address { m with store, np := address - 1 } ∧
      Reserves m size address store := by
  have hlow := h.sp_nonneg
  have htop := h.np_le
  have hsize := h.size
  have hneg : ¬ size < 0 := by
    rw [Int64.lt_iff_toInt_lt, Int64.toInt_zero]
    omega
  have hnp := h.toInt_malloc hnonneg
  have hroom' : ¬ m.np - size - 1 < m.sp := by
    rw [Int64.lt_iff_toInt_lt, hnp]
    omega
  -- The size word of the new block is at `k`, and the block ends where the heap started.
  obtain ⟨k, hk⟩ : ∃ k : Nat, (k : Int) = m.np.toInt - size.toInt - 1 :=
    ⟨(m.np.toInt - size.toInt - 1).toNat, by omega⟩
  have hk' : m.np - size - 1 = Int64.ofNat k := (ofNat_of_toInt (hnp.trans hk.symm)).symm
  have hkint : (Int64.ofNat k).toInt = k := toInt_ofNat (by omega)
  have hindex : (Int64.ofNat k).toNatClampNeg = k := Int64.toNatClampNeg_ofNat_of_lt (by omega)
  have hin : m.inStore (Int64.ofNat k) := by
    rw [inStore_iff, hkint]
    omega
  have hnext : (Int64.ofNat (k + 1)).toInt = k + 1 := toInt_ofNat (by omega)
  have hspan : span (Int64.ofNat k + 1) (Int64.ofNat k + size + 1) = size.toInt.toNat := by
    have h₂ : (Int64.ofNat k + size).toInt = k + size.toInt := by
      rw [toInt_add_of_fits] <;> rw [hkint] <;> omega
    have hlast : (Int64.ofNat k + size + 1).toInt = k + size.toInt + 1 := by
      rw [toInt_add_of_fits] <;> rw [h₂, Int64.toInt_one] <;> omega
    unfold span
    rw [ofNat_succ]
    omega
  obtain ⟨store, hfill, hlength, hzeros, hsame⟩ :=
    fill_eq (m := m.setWord (Int64.ofNat k) (.ofInt size)) (a := k + 1) (.ofInt 0) size.toInt.toNat
      (by rw [setWord_size]; omega) (by rw [setWord_size]; omega)
  simp only [setWord, hindex, Array.size_setIfInBounds] at hlength hsame
  refine ⟨Int64.ofNat (k + 1), store, ?_, ?_⟩
  · unfold malloc
    rw [if_neg hneg]
    simp only
    rw [if_neg hroom', hk', if_pos hin, hspan, ofNat_succ, hfill, ← ofNat_succ,
      Int64.add_sub_cancel]
    rfl
  · refine ⟨by omega, hlength, ?_, fun i hi hlt => hzeros i (by omega) (by omega), fun i hi => ?_⟩
    · rw [show ((Int64.ofNat (k + 1)).toInt - 1).toNat = k by omega, hsame k (by omega),
        Array.getElem?_setIfInBounds_self_of_lt (by omega)]
    · rw [hsame i (by omega), Array.getElem?_setIfInBounds_ne (by omega)]

/-! ## Releasing -/

/-- Releasing at an address is refused and changes nothing: the address is outside the heap or the
word before it is not a size.  The least address has no word before it, and the machine crashes. -/
def Refuses (m : Machine) (address : Int64) : Prop :=
  free address m = .error (.fault (.freeOutsideHeap address m.np m.store.size)) m ∨
  free address m = .error (.fault (.corruptBlock address (m.word (address - 1)))) m ∨
  address = Int64.minValue ∧ free address m = .error (.crash ⟨Int64.maxValue⟩) m

/-- The part of a release that gives the lowest block back. -/
def giveBack (m : Machine) (address size : Int64) : EStateM.Result Interrupt Machine Unit :=
  match fill .undefined (span m.np (address + size)) m.np m with
  | .ok _ m' => .ok () { m' with np := m'.np + (size + 1) }
  | .error e m' => .error e m'

/-- An address that is not outside the heap has a word before it, unless it is the least one. -/
theorem inStore_pred (hnp : 0 ≤ m.np.toInt) (hsize : m.store.size < 2 ^ 63) {address : Int64}
    (hinside : ¬ (address - 1 < m.np ∨ Int64.ofNat m.store.size < address))
    (hout : ¬ m.inStore (address - 1)) : address = Int64.minValue := by
  have hlow := address.le_toInt
  have hhigh := address.toInt_lt
  rw [not_or, Int64.lt_iff_toInt_lt, Int64.lt_iff_toInt_lt, toInt_ofNat hsize] at hinside
  rw [inStore_iff] at hout
  refine Decidable.byContradiction fun hne => ?_
  have hleast : address.toInt ≠ -2 ^ 63 := fun heq => hne (Int64.toInt_inj.mp (by rw [heq]; rfl))
  have hpred : (address - 1).toInt = address.toInt - 1 := by
    rw [toInt_sub_of_fits] <;> simp only [Int64.toInt_one] <;> omega
  omega

/-- What is released behind the size of a block that ends in the store is left where it is, unless
it is the lowest block. -/
theorem free_of_isBlockSize {address : Int64}
    (hinside : ¬ (address - 1 < m.np ∨ Int64.ofNat m.store.size < address))
    (hin : m.inStore (address - 1))
    (hblock : m.isBlockSize address (m.word (address - 1)) = true) :
    free address m =
      if address ≠ m.np + 1 then .ok () m
      else m.giveBack address (m.word (address - 1)).int := by
  unfold free
  rw [if_neg hinside, if_pos hin]
  exact if_neg (by simp [hblock])

/-- A release is refused, leaves a block where it is, or gives back the lowest block. -/
theorem free_cases (hnp : 0 ≤ m.np.toInt) (hsize : m.store.size < 2 ^ 63) (address : Int64) :
    m.Refuses address ∨ (address ≠ m.np + 1 ∧ free address m = .ok () m) ∨
    (address = m.np + 1 ∧ m.isBlockSize address (m.word (address - 1)) = true ∧
      free address m = m.giveBack address (m.word (address - 1)).int) := by
  by_cases hinside : address - 1 < m.np ∨ Int64.ofNat m.store.size < address
  · exact .inl (.inl (if_pos hinside))
  by_cases hin : m.inStore (address - 1)
  · by_cases hblock : m.isBlockSize address (m.word (address - 1)) = true
    · have hfree := free_of_isBlockSize hinside hin hblock
      by_cases hother : address ≠ m.np + 1
      · exact .inr (.inl ⟨hother, hfree.trans (if_pos hother)⟩)
      · exact .inr (.inr ⟨Decidable.not_not.mp hother, hblock, hfree.trans (if_neg hother)⟩)
    · exact .inl (.inr (.inl ((if_neg hinside).trans
        ((if_pos hin).trans (if_pos (by simpa using hblock))))))
  · have hleast := inStore_pred hnp hsize hinside hin
    refine .inl (.inr (.inr ⟨hleast, ((if_neg hinside).trans (if_neg hin)).trans ?_⟩))
    rw [hleast]
    rfl

/-- Only the release of the lowest block changes anything. -/
theorem free_other (h : m.Contained) {address : Int64} (hother : address ≠ m.np + 1) :
    free address m = .ok () m ∨ m.Refuses address := by
  rcases free_cases h.np_nonneg h.size address with hrefused | ⟨-, hfree⟩ | ⟨hlowest, -⟩
  · exact .inr hrefused
  · exact .inl hfree
  · exact absurd hlowest hother

/-- Without blocks, nothing can be released. -/
theorem free_empty (h : m.Contained) (hnone : m.np.toInt = m.store.size) :
    m.Refuses (m.np + 1) := by
  have hout : ¬ m.inStore (m.np + 1 - 1) := by
    rw [inStore_iff, Int64.add_sub_cancel]
    omega
  by_cases hinside : m.np + 1 - 1 < m.np ∨ Int64.ofNat m.store.size < m.np + 1
  · exact .inl (if_pos hinside)
  · have hleast := inStore_pred h.np_nonneg h.size hinside hout
    refine .inr (.inr ⟨hleast, ((if_neg hinside).trans (if_neg hout)).trans ?_⟩)
    rw [hleast]
    rfl

/-- A block is found at an address: the word before it is an integer, the size of a block that ends
in the store. -/
structure BlockAt (m : Machine) (a : Nat) (size : Int64) : Prop where
  kind : (m.word (Int64.ofNat a)).kind = .int
  value : (m.word (Int64.ofNat a)).int = size
  nonneg : 0 ≤ size.toInt
  fits : a + 1 + size.toInt ≤ m.store.size

/-- A block is found behind an integer that counts its words. -/
theorem blockAt_of_header {a : Nat} {size : Int64} (hsize : m.store.size < 2 ^ 63)
    (hheader : m.store[a]? = some (.ofInt size)) (hnonneg : 0 ≤ size.toInt)
    (hfits : a + 1 + size.toInt ≤ m.store.size) : m.BlockAt a size := by
  have hword : m.word (Int64.ofNat a) = .ofInt size := by
    rw [word, Int64.toNatClampNeg_ofNat_of_lt (by omega), Array.getD_eq_getD_getElem?, hheader,
      Option.getD_some]
  exact ⟨by rw [hword]; rfl, by rw [hword]; rfl, hnonneg, hfits⟩

private theorem BlockAt.isBlockSize {a : Nat} {size : Int64} (hb : m.BlockAt a size)
    (hsize : m.store.size < 2 ^ 63) :
    m.isBlockSize (Int64.ofNat (a + 1)) (m.word (Int64.ofNat a)) = true := by
  have hnonneg := hb.nonneg
  have hfits := hb.fits
  have hend : (Int64.ofNat (a + 1) + size).toInt = a + 1 + size.toInt := by
    rw [toInt_add_of_fits] <;> rw [toInt_ofNat (by omega)] <;> omega
  simp only [Machine.isBlockSize, hb.kind, hb.value, Bool.and_eq_true, decide_eq_true_eq,
    Int64.le_iff_toInt_le, Int64.toInt_zero, hend, toInt_ofNat hsize]
  exact ⟨⟨by decide, hnonneg⟩, by omega⟩

/-- A block is left where it is, unless it is the lowest one. -/
theorem BlockAt.free_eq (h : m.Contained) {a : Nat} {size : Int64} (hb : m.BlockAt a size)
    (hheap : m.np.toInt ≤ a) :
    free (Int64.ofNat (a + 1)) m =
      if Int64.ofNat (a + 1) ≠ m.np + 1 then .ok () m
      else m.giveBack (Int64.ofNat (a + 1)) size := by
  have hsize := h.size
  have hnonneg := hb.nonneg
  have hfits := hb.fits
  have hint : (Int64.ofNat a).toInt = a := toInt_ofNat (by omega)
  have hint' : (Int64.ofNat (a + 1)).toInt = a + 1 := toInt_ofNat (by omega)
  have hpred : Int64.ofNat (a + 1) - 1 = Int64.ofNat a := by
    rw [← ofNat_succ, Int64.add_sub_cancel]
  have hinside : ¬ (Int64.ofNat a < m.np ∨ Int64.ofNat m.store.size < Int64.ofNat (a + 1)) := by
    rw [Int64.lt_iff_toInt_lt, Int64.lt_iff_toInt_lt, hint, hint', toInt_ofNat hsize]
    omega
  have hin : m.inStore (Int64.ofNat a) := by
    rw [inStore_iff, hint]
    omega
  obtain rfl := hb.value
  have hfree : free (Int64.ofNat (a + 1)) m = _ :=
    free_of_isBlockSize (hpred.symm ▸ hinside) (hpred.symm ▸ hin)
      (hpred.symm ▸ hb.isBlockSize hsize)
  rwa [hpred] at hfree

/-- Releasing a block other than the lowest leaves it where it is. -/
theorem free_inner (h : m.Contained) {a : Nat} {size : Int64} (hb : m.BlockAt a size)
    (hheap : m.np.toInt < a) : free (Int64.ofNat (a + 1)) m = .ok () m := by
  have hsize := h.size
  have hnp := h.np_nonneg
  have hnonneg := hb.nonneg
  have hfits := hb.fits
  have hother : Int64.ofNat (a + 1) ≠ m.np + 1 := by
    intro heq
    have hnext : (m.np + 1).toInt = m.np.toInt + 1 := by
      rw [toInt_add_of_fits] <;> rw [Int64.toInt_one] <;> omega
    have := congrArg Int64.toInt heq
    rw [toInt_ofNat (by omega), hnext] at this
    omega
  rw [hb.free_eq h (by omega), if_pos hother]

/-- Releasing the lowest block gives back its words, and the word with its size. -/
theorem free_lowest (h : m.Contained) {a : Nat} {size : Int64} (hb : m.BlockAt a size)
    (hheap : m.np = Int64.ofNat a) :
    ∃ store, free (Int64.ofNat (a + 1)) m =
        .ok () { m with store, np := Int64.ofNat (a + 1 + size.toInt.toNat) } ∧
      store.size = m.store.size ∧
      (∀ i, a ≤ i → i < a + 1 + size.toInt.toNat → store[i]? = some .undefined) ∧
      ∀ i, i < a ∨ a + 1 + size.toInt.toNat ≤ i → store[i]? = m.store[i]? := by
  have hsize := h.size
  have hnonneg := hb.nonneg
  have hfits := hb.fits
  have hint : (Int64.ofNat a).toInt = a := toInt_ofNat (by omega)
  have hint' : (Int64.ofNat (a + 1)).toInt = a + 1 := toInt_ofNat (by omega)
  have hspan : span (Int64.ofNat a) (Int64.ofNat (a + 1) + size) = size.toInt.toNat + 1 := by
    have hsum : (Int64.ofNat (a + 1) + size).toInt = a + 1 + size.toInt := by
      rw [toInt_add_of_fits] <;> rw [hint'] <;> omega
    rw [span, hsum, hint]
    omega
  have hnext : Int64.ofNat a + (size + 1) = Int64.ofNat (a + 1 + size.toInt.toNat) := by
    have hn : size = Int64.ofNat size.toInt.toNat := (ofNat_of_toInt (by omega)).symm
    rw [hn, ofNat_succ, ← Int64.ofNat_add, ← hn]
    congr 1
    omega
  obtain ⟨store, hfill, hlength, hcleared, hsame⟩ :=
    fill_eq (m := m) (a := a) .undefined (size.toInt.toNat + 1) (by omega) hsize
  refine ⟨store, ?_, hlength, fun i hi hlt => hcleared i hi (by omega),
    fun i hi => hsame i (by omega)⟩
  rw [hb.free_eq h (Int.le_of_eq (by rw [hheap, hint])), if_neg (by rw [hheap, ofNat_succ]; simp),
    giveBack, hheap, hspan, hfill]
  simp only [hheap, hnext]

end Machine

/-! ## Rows of blocks -/

/-- From an address on, the store is a row of blocks. -/
inductive Tiled (store : Array Value) : Nat → Prop where
  | nil : Tiled store store.size
  | block {a : Nat} {n : Int64} : store[a]? = some (.ofInt n) → 0 ≤ n.toInt →
      Tiled store (a + 1 + n.toInt.toNat) → Tiled store a

/-- An address is that of a word of a block in the row of blocks from another address on. -/
inductive Payload (store : Array Value) : Nat → Nat → Prop where
  | here {a p : Nat} {n : Int64} : store[a]? = some (.ofInt n) → a < p → p ≤ a + n.toInt.toNat →
      Payload store a p
  | later {a p : Nat} {n : Int64} : store[a]? = some (.ofInt n) →
      Payload store (a + 1 + n.toInt.toNat) p → Payload store a p

/-- A row of blocks starts in the store or at its end. -/
theorem Tiled.le_size {store : Array Value} {a : Nat} (h : Tiled store a) : a ≤ store.size := by
  induction h with
  | nil => exact Nat.le_refl _
  | block _ _ _ ih => omega

/-- The words of a block lie behind the start of the row. -/
theorem Payload.lt {store : Array Value} {a p : Nat} (h : Payload store a p) : a < p := by
  induction h with
  | here _ hlt _ => exact hlt
  | later _ _ ih => omega

/-- The words below a row of blocks do not matter to it. -/
theorem Tiled.congr {store store' : Array Value} {a : Nat} (h : Tiled store a)
    (hsize : store'.size = store.size) (hsame : ∀ i, a ≤ i → store'[i]? = store[i]?) :
    Tiled store' a := by
  induction h with
  | nil => exact hsize ▸ .nil
  | @block a n hn hnonneg _ ih =>
    refine .block ((hsame a (Nat.le_refl _)).trans hn) hnonneg (ih fun i hi => hsame i ?_)
    omega

/-- What is stored into a block does not change the row. -/
theorem Tiled.set_payload {store : Array Value} {a p : Nat} (h : Tiled store a)
    (hp : Payload store a p) (v : Value) : Tiled (store.setIfInBounds p v) a := by
  induction hp with
  | @here a p n hn hlt hle =>
    cases h with
    | nil => simp at hn
    | @block _ n' hn' hnonneg hrest =>
      obtain rfl : n = n' := (congrArg Value.int (Option.some.inj (hn.symm.trans hn')) :)
      have hother : (store.setIfInBounds p v)[a]? = some (.ofInt n) := by
        rw [Array.getElem?_setIfInBounds_ne (by omega), hn]
      refine .block hother hnonneg (hrest.congr (by simp) fun i hi => ?_)
      rw [Array.getElem?_setIfInBounds_ne (by omega)]
  | @later a p n hn hpay ih =>
    have hlt := hpay.lt
    cases h with
    | nil => simp at hn
    | @block _ n' hn' hnonneg hrest =>
      obtain rfl : n = n' := (congrArg Value.int (Option.some.inj (hn.symm.trans hn')) :)
      have hother : (store.setIfInBounds p v)[a]? = some (.ofInt n) := by
        rw [Array.getElem?_setIfInBounds_ne (by omega), hn]
      exact .block hother hnonneg (ih hrest)

end PCode
