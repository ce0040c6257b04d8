import PCode.Proofs.Machine.Heap

/-!
# The heap as a stack of blocks

Blocks are reserved and released in any order while the stack grows and shrinks
from the other side.  As long as nobody stores into a size word, the heap is the
row of the blocks that were reserved and not given back, newest first.

Main definitions and results:

- `Access`: what can be done to the stack, the heap and the store.
- `Accessed`: what a machine can become by accesses, with its live blocks.
- `Row`: blocks stand one after another up to the end of the store.
- `Accessed.stacks`: after any accesses, the live blocks are a row from the heap pointer on.
- `heap_is_stack_of_blocks`: the heap is their stack, and reserving and releasing treat it so.
-/

namespace PCode

/-! ## Accesses -/

/-- A block that was reserved and not given back. -/
structure Allocation where
  /-- address of its first word -/
  address : Int64
  /-- number of its words -/
  size : Int64
  /-- where the heap started before it was reserved -/
  before : Int64
  deriving DecidableEq, Inhabited, Repr

/-- The address of the word that holds the size of a block. -/
def Allocation.header (b : Allocation) : Int64 := b.address - 1

section

variable {α : Type} {x : Instr α} {m m' : Machine}

/-- The machine after a part of an instruction, whether it succeeded or not. -/
def Machine.outcome (x : Instr α) (m : Machine) : Machine :=
  match x m with
  | .ok _ m' => m'
  | .error _ m' => m'

private theorem Machine.outcome_ok {a : α} (h : x m = .ok a m') : outcome x m = m' := by
  rw [outcome, h]

private theorem Machine.outcome_error {e : Interrupt} (h : x m = .error e m') :
    outcome x m = m' := by
  rw [outcome, h]

end

/-- An access to the stack, the heap or the store. -/
inductive Access where
  | malloc (size : Int64)
  | free (address : Int64)
  | push (value : Value)
  | pop
  | store (address : Int64) (value : Value)

namespace Access

/-- The machine after an access, whether it succeeded or not. -/
def after : Access → Machine → Machine
  | malloc size => Machine.outcome (Machine.malloc size)
  | free address => Machine.outcome (Machine.free address)
  | push value => Machine.outcome (Machine.push value)
  | pop => Machine.outcome Machine.pop
  | store address value => Machine.outcome (Machine.storeAt address value)

/-- The live blocks after an access.  A reserved block becomes the newest; the newest block is given
back when it is released. -/
def live : Access → Machine → List Allocation → List Allocation
  | malloc size, m, blocks =>
    match Machine.malloc size m with
    | .ok address _ => ⟨address, size, m.np⟩ :: blocks
    | .error _ _ => blocks
  | free _, _, [] => []
  | free address, m, newest :: older =>
    match Machine.free address m with
    | .ok _ _ => if address = newest.address then older else newest :: older
    | .error _ _ => newest :: older
  | _, _, blocks => blocks

/-- An access does not store into the size of a block. -/
def Spares : Access → List Allocation → Prop
  | store address _, blocks => ∀ b ∈ blocks, address ≠ b.header
  | _, _ => True

end Access

/-- The machines that come from a first one by accesses that spare the sizes of the blocks, with the
blocks that are live. -/
inductive Accessed (start : Machine) : Machine → List Allocation → Prop where
  | start : Accessed start start []
  | step {m : Machine} {blocks : List Allocation} (x : Access) : Accessed start m blocks →
      x.Spares blocks → Accessed start (x.after m) (x.live m blocks)

/-! ## Rows -/

/-- Blocks stand one after another from an address up to the end of the store, each after a word
with its size and each ending where the heap started before it. -/
def Row (store : Array Value) : Nat → List Allocation → Prop
  | a, [] => a = store.size
  | a, b :: older =>
    store[a]? = some (.ofInt b.size) ∧ 0 ≤ b.size.toInt ∧ b.address = Int64.ofNat (a + 1) ∧
      b.before = Int64.ofNat (a + 1 + b.size.toInt.toNat) ∧
      Row store (a + 1 + b.size.toInt.toNat) older

namespace Row

variable {store store' : Array Value} {a : Nat} {b : Allocation} {blocks : List Allocation}

private theorem le_size (h : Row store a blocks) : a ≤ store.size := by
  induction blocks generalizing a with
  | nil => exact Nat.le_of_eq h
  | cons b older ih =>
    have := ih h.2.2.2.2
    omega

/-- Where a block of a row stands. -/
theorem of_mem (h : Row store a blocks) (hb : b ∈ blocks) :
    ∃ k, a ≤ k ∧ k + 1 + b.size.toInt.toNat ≤ store.size ∧ b.address = Int64.ofNat (k + 1) ∧
      store[k]? = some (.ofInt b.size) ∧ 0 ≤ b.size.toInt := by
  induction blocks generalizing a with
  | nil => cases hb
  | cons c older ih =>
    obtain ⟨hword, hnonneg, haddress, -, hrest⟩ := h
    rcases List.mem_cons.mp hb with rfl | hb
    · exact ⟨a, Nat.le_refl _, hrest.le_size, haddress, hword, hnonneg⟩
    · obtain ⟨k, hk, hrest⟩ := ih hrest hb
      exact ⟨k, by omega, hrest⟩

private theorem header_eq {k : Nat} (hb : b.address = Int64.ofNat (k + 1)) :
    b.header = Int64.ofNat k := by
  rw [Allocation.header, hb, ← ofNat_succ, Int64.add_sub_cancel]

/-- Only the size words of its blocks matter to a row. -/
theorem congr (h : Row store a blocks) (hbound : store.size < 2 ^ 63)
    (hsize : store'.size = store.size)
    (hsame : ∀ b ∈ blocks, store'[b.header.toNatClampNeg]? = store[b.header.toNatClampNeg]?) :
    Row store' a blocks := by
  induction blocks generalizing a with
  | nil => exact h.trans hsize.symm
  | cons b older ih =>
    obtain ⟨hword, hnonneg, haddress, hbefore, hrest⟩ := h
    have hle := hrest.le_size
    have hindex : b.header.toNatClampNeg = a := by
      rw [header_eq haddress, Int64.toNatClampNeg_ofNat_of_lt (by omega)]
    refine ⟨?_, hnonneg, haddress, hbefore,
      ih hrest fun c hc => hsame c (List.mem_cons_of_mem _ hc)⟩
    rw [← hword, ← hindex]
    exact hsame b List.mem_cons_self

/-- What is stored elsewhere than in a size word does not matter to a row. -/
theorem set (h : Row store a blocks) (hbound : store.size < 2 ^ 63) {x : Int64} (hx : 0 ≤ x.toInt)
    (hspares : ∀ b ∈ blocks, x ≠ b.header) (v : Value) :
    Row (store.setIfInBounds x.toNatClampNeg v) a blocks := by
  refine h.congr hbound (by simp) fun b hb => ?_
  obtain ⟨k, -, hk, haddress, -, -⟩ := h.of_mem hb
  have hheader : b.header.toInt = k := by rw [header_eq haddress, toInt_ofNat (by omega)]
  have hne : x.toNatClampNeg ≠ b.header.toNatClampNeg := by
    intro heq
    rw [toNatClampNeg_eq, toNatClampNeg_eq] at heq
    exact hspares b hb (Int64.toInt_inj.mp (by omega))
  rw [Array.getElem?_setIfInBounds_ne hne]

/-- What is stored below a row does not matter to it. -/
theorem set_below (h : Row store a blocks) (hbound : store.size < 2 ^ 63) {x : Int64}
    (hx : 0 ≤ x.toInt) (hlt : x.toInt < a) (v : Value) :
    Row (store.setIfInBounds x.toNatClampNeg v) a blocks := by
  refine h.set hbound hx (fun b hb heq => ?_) v
  obtain ⟨k, hk, hfits, haddress, -, -⟩ := h.of_mem hb
  rw [heq, header_eq haddress, toInt_ofNat (by omega)] at hlt
  omega

end Row

/-! ## The invariant -/

namespace Machine

/-- The live blocks are a row from the heap pointer on, above the stack. -/
structure Stacks (m : Machine) (blocks : List Allocation) : Prop where
  sound : m.Sound
  row : Row m.store m.np.toNatClampNeg blocks

private theorem reset_stacks {m : Machine} (h : m.Fits) : m.reset.Stacks [] := by
  refine ⟨reset_sound h, ?_⟩
  have hnp : m.reset.np.toNatClampNeg = m.store.size := Int64.toNatClampNeg_ofNat_of_lt h.size
  exact hnp.trans (reset_size h).symm

/-- What a store holds after the newest block was given back. -/
structure Releases (m : Machine) (b : Allocation) (store : Array Value) : Prop where
  length : store.size = m.store.size
  cleared : ∀ i : Nat, m.np.toInt ≤ i → (i : Int) < b.before.toInt → store[i]? = some .undefined
  rest : ∀ i : Nat, (i : Int) < m.np.toInt ∨ b.before.toInt ≤ i → store[i]? = m.store[i]?

namespace Stacks

variable {m : Machine} {blocks : List Allocation}

private theorem np_eq (h : m.Stacks blocks) : m.np = Int64.ofNat m.np.toNatClampNeg := by
  have hbase := h.sound.base
  have hgap := h.sound.gap
  exact (ofNat_of_toInt (by rw [toNatClampNeg_eq]; omega)).symm

private theorem push (h : m.Stacks blocks) (v : Value) :
    (outcome (Machine.push v) m).Stacks blocks := by
  have hbase := h.sound.base
  have hgap := h.sound.gap
  have htop := h.sound.top
  have hsize := h.sound.size
  by_cases hroom : 0 < m.room
  · rw [outcome_ok (push_eq h.sound hroom v)]
    unfold room at hroom
    have hsp : (m.sp + 1).toInt = m.sp.toInt + 1 := by
      rw [toInt_add_of_fits] <;> rw [Int64.toInt_one] <;> omega
    refine ⟨⟨?_, ?_, ?_, ?_⟩, ?_⟩
    · simp only [hsp, setWord]
      omega
    · simp only [hsp, setWord]
      omega
    · rw [setWord_size]
      exact htop
    · rwa [setWord_size]
    · exact h.row.set_below hsize (by omega) (by rw [toNatClampNeg_eq]; omega) v
  · have hfull : m.np ≤ m.sp := by
      unfold room at hroom
      rw [Int64.le_iff_toInt_le]
      omega
    rwa [outcome_error (if_pos hfull)]

private theorem pop (h : m.Stacks blocks) : (outcome Machine.pop m).Stacks blocks := by
  have hbase := h.sound.base
  have hgap := h.sound.gap
  have htop := h.sound.top
  have hsize := h.sound.size
  by_cases hsome : (m.image.typedConstants.size : Int) < m.sp.toInt
  · rw [outcome_ok (pop_eq h.sound hsome)]
    have hsp : (m.sp - 1).toInt = m.sp.toInt - 1 := by
      rw [toInt_sub_of_fits] <;> rw [Int64.toInt_one] <;> omega
    refine ⟨⟨?_, ?_, ?_, ?_⟩, ?_⟩
    · simp only [setWord, hsp]
      omega
    · simp only [setWord, hsp]
      omega
    · rw [setWord_size]
      exact htop
    · rwa [setWord_size]
    · exact h.row.set_below hsize (by omega) (by rw [toNatClampNeg_eq]; omega) _
  · have hempty : m.sp ≤ m.stackBase := by
      rw [Int64.le_iff_toInt_le, stackBase, toInt_ofNat (by omega)]
      omega
    rwa [outcome_error (if_pos hempty)]

private theorem store (h : m.Stacks blocks) {a : Int64} (v : Value)
    (hspares : ∀ b ∈ blocks, a ≠ b.header) : (outcome (storeAt a v) m).Stacks blocks := by
  have hsize := h.sound.size
  cases hfault : m.addressFault? a with
  | some cause =>
    rwa [outcome_error (storeAt_of_fault hfault v)]
  | none =>
    have ha := (addressFault?_eq_none_iff hsize).mp hfault
    rw [outcome_ok (storeAt_of_none hfault v)]
    refine ⟨⟨h.sound.base, h.sound.gap, ?_, ?_⟩, h.row.set hsize ha.1 hspares v⟩
    · rw [setWord_size]
      exact h.sound.top
    · rwa [setWord_size]

/-- A block that was reserved stands before the others. -/
theorem reserve (h : m.Stacks blocks) {size address : Int64} {store : Array Value}
    (hnonneg : 0 ≤ size.toInt) (hroom : m.sp.toInt ≤ m.np.toInt - size.toInt - 1)
    (hres : Reserves m size address store) :
    Stacks { m with store, np := address - 1 } (⟨address, size, m.np⟩ :: blocks) := by
  have hbase := h.sound.base
  have htop := h.sound.top
  have hbound := h.sound.size
  have hstart := hres.start
  have hnp : (address - 1).toInt = address.toInt - 1 := by
    rw [toInt_sub_of_fits] <;> rw [Int64.toInt_one] <;> omega
  have hindex : (address - 1).toNatClampNeg + 1 = address.toInt.toNat := by
    rw [toNatClampNeg_eq]
    omega
  have hend : (address - 1).toNatClampNeg + 1 + size.toInt.toNat = m.np.toNatClampNeg := by
    rw [hindex, toNatClampNeg_eq]
    omega
  refine ⟨⟨hbase, ?_, ?_, ?_⟩, ?_, hnonneg, ?_, ?_, ?_⟩
  · simp only [hnp]
    omega
  · simp only [hnp, hres.length]
    omega
  · simpa only [hres.length] using hbound
  · rw [toNatClampNeg_eq, hnp]
    exact hres.header
  · simp only [hindex]
    exact (ofNat_of_toInt (by omega)).symm
  · simp only [hend]
    exact h.np_eq
  · simp only [hend]
    refine h.row.congr hbound hres.length fun b hb => hres.rest _ (.inr ?_)
    obtain ⟨k, hk, hfits, haddress, -, -⟩ := h.row.of_mem hb
    rw [Row.header_eq haddress, Int64.toNatClampNeg_ofNat_of_lt (by omega)]
    rw [toNatClampNeg_eq] at hk
    omega

private theorem malloc (h : m.Stacks blocks) (size : Int64) :
    (outcome (Machine.malloc size) m).Stacks ((Access.malloc size).live m blocks) := by
  rcases Int.lt_or_le size.toInt 0 with hneg | hnonneg
  · have hmalloc := malloc_negative m hneg
    simp only [outcome_error hmalloc, Access.live, hmalloc]
    exact h
  rcases Int.lt_or_le (m.np.toInt - size.toInt - 1) m.sp.toInt with hfull | hroom
  · have hmalloc := malloc_full h.sound.contained hnonneg hfull
    simp only [outcome_error hmalloc, Access.live, hmalloc]
    exact h
  obtain ⟨address, store, hmalloc, hres⟩ := malloc_room h.sound.contained hnonneg hroom
  simp only [outcome_ok hmalloc, Access.live, hmalloc]
  exact h.reserve hnonneg hroom hres

/-- Releasing the newest block gives its words back, and the heap starts again where it did before
the block was reserved. -/
theorem free_newest {b : Allocation} {older : List Allocation} (h : m.Stacks (b :: older)) :
    ∃ store, Machine.free b.address m = .ok () { m with store, np := b.before } ∧
      Releases m b store ∧ Stacks { m with store, np := b.before } older := by
  have hgap := h.sound.gap
  have hbase := h.sound.base
  have hbound := h.sound.size
  obtain ⟨hword, hnonneg, haddress, hbefore, hrest⟩ := h.row
  have hfits := hrest.le_size
  have hblock := blockAt_of_header hbound hword hnonneg (by omega)
  obtain ⟨store, hfree, hlength, hcleared, hsame⟩ := free_lowest h.sound.contained hblock h.np_eq
  have hnp : (m.np.toNatClampNeg : Int) = m.np.toInt := by
    rw [toNatClampNeg_eq]
    omega
  have hbefore' : b.before.toInt = m.np.toInt + 1 + b.size.toInt := by
    rw [hbefore, toInt_ofNat (by omega)]
    omega
  refine ⟨store, ?_, ⟨hlength, fun i hi hlt => hcleared i (by omega) (by omega),
    fun i hi => hsame i (by omega)⟩, ⟨h.sound.base, ?_, ?_, ?_⟩, ?_⟩
  · rw [haddress, hbefore]
    exact hfree
  · simp only [hbefore']
    omega
  · simp only [hbefore', hlength]
    omega
  · simpa only [hlength] using hbound
  · have hindex : b.before.toNatClampNeg = m.np.toNatClampNeg + 1 + b.size.toInt.toNat := by
      rw [toNatClampNeg_eq, hbefore']
      omega
    simp only [hindex]
    refine hrest.congr hbound hlength fun c hc => hsame _ (.inr ?_)
    obtain ⟨k, hk, hend, hc', -, -⟩ := hrest.of_mem hc
    rwa [Row.header_eq hc', Int64.toNatClampNeg_ofNat_of_lt (by omega)]

/-- Releasing another block leaves it where it is. -/
theorem free_older {b c : Allocation} {older : List Allocation} (h : m.Stacks (b :: older))
    (hc : c ∈ older) : Machine.free c.address m = .ok () m := by
  obtain ⟨-, -, -, -, hrest⟩ := h.row
  obtain ⟨k, hk, hfits, haddress, hword, hnonneg⟩ := hrest.of_mem hc
  rw [toNatClampNeg_eq] at hk
  rw [haddress]
  exact free_inner h.sound.contained
    (blockAt_of_header h.sound.size hword hnonneg (by omega)) (by omega)

/-- The newest block starts one word after the start of the heap. -/
theorem address_newest {b : Allocation} {older : List Allocation} (h : m.Stacks (b :: older)) :
    b.address = m.np + 1 := by
  rw [h.np_eq, ofNat_succ]
  exact h.row.2.2.1

/-- Releasing where no block starts changes nothing. -/
theorem free_elsewhere (h : m.Stacks blocks) (address : Int64)
    (hnone : ∀ b ∈ blocks, b.address ≠ address) :
    Machine.free address m = .ok () m ∨ m.Refuses address := by
  by_cases hlowest : address = m.np + 1
  · cases blocks with
    | nil =>
      have hrow : m.np.toNatClampNeg = m.store.size := h.row
      have hbase := h.sound.base
      have hgap := h.sound.gap
      rw [toNatClampNeg_eq] at hrow
      rw [hlowest]
      exact .inr (free_empty h.sound.contained (by omega))
    | cons b older =>
      exact absurd (h.address_newest.trans hlowest.symm) (hnone b List.mem_cons_self)
  · exact free_other h.sound.contained hlowest

private theorem free (h : m.Stacks blocks) (address : Int64) :
    (outcome (Machine.free address) m).Stacks ((Access.free address).live m blocks) := by
  have hrefused (h' : m.Refuses address) : ∃ e, Machine.free address m = .error e m := by
    rcases h' with h' | h' | ⟨-, h'⟩ <;> exact ⟨_, h'⟩
  cases blocks with
  | nil =>
    rcases h.free_elsewhere address (by simp) with hfree | href
    · rwa [outcome_ok hfree]
    · obtain ⟨e, hfree⟩ := hrefused href
      rwa [outcome_error hfree]
  | cons b older =>
    by_cases hnewest : address = b.address
    · obtain ⟨store, hfree, -, hstacks⟩ := h.free_newest
      subst hnewest
      simp only [outcome_ok hfree, Access.live, hfree, if_true]
      exact hstacks
    · rcases free_other h.sound.contained fun heq => hnewest (heq.trans h.address_newest.symm) with
        hfree | href
      · simp only [outcome_ok hfree, Access.live, hfree, if_neg hnewest]
        exact h
      · obtain ⟨e, hfree⟩ := hrefused href
        simp only [outcome_error hfree, Access.live, hfree]
        exact h

end Stacks

end Machine

/-- After any accesses, the live blocks are a row from the heap pointer on. -/
theorem Accessed.stacks {start m : Machine} {blocks : List Allocation} (hstart : start.Stacks [])
    (h : Accessed start m blocks) : m.Stacks blocks := by
  induction h with
  | start => exact hstart
  | step x _ hspares ih =>
    cases x with
    | malloc size => exact ih.malloc size
    | free address => exact ih.free address
    | push v => exact ih.push v
    | pop => exact ih.pop
    | store a v => exact ih.store v hspares

/-! ## The heap as a stack -/

/-- The heap is the stack of its live blocks, and reserving and releasing treat it as one. -/
structure OrderedHeap (m : Machine) (blocks : List Allocation) : Prop where
  /-- the words from the heap pointer to the end of the store are the blocks, newest first -/
  row : Row m.store m.np.toNatClampNeg blocks
  gap : 0 ≤ m.sp.toInt ∧ m.sp.toInt ≤ m.np.toInt ∧ m.np.toInt ≤ m.store.size
  refuse_negative : ∀ size : Int64, size.toInt < 0 →
    ∃ cause, cause.kind = .invalidAddress ∧ Machine.malloc size m = .error (.fault cause) m
  refuse_full : ∀ size : Int64, 0 ≤ size.toInt → m.np.toInt - size.toInt - 1 < m.sp.toInt →
    ∃ cause, cause.kind = .outOfMemory ∧ Machine.malloc size m = .error (.fault cause) m
  /-- a block lies with its size between the stack and the blocks before it -/
  reserve : ∀ size : Int64, 0 ≤ size.toInt → m.sp.toInt ≤ m.np.toInt - size.toInt - 1 →
    ∃ address store, Machine.malloc size m = .ok address { m with store, np := address - 1 } ∧
      m.Reserves size address store ∧ m.sp.toInt < address.toInt ∧
      ∀ b ∈ blocks, address.toInt + size.toInt ≤ b.header.toInt
  release_newest : ∀ newest older, blocks = newest :: older →
    ∃ store, Machine.free newest.address m = .ok () { m with store, np := newest.before } ∧
      m.Releases newest store
  release_older : ∀ b ∈ blocks.tail, Machine.free b.address m = .ok () m
  release_elsewhere : ∀ address, (∀ b ∈ blocks, b.address ≠ address) →
    Machine.free address m = .ok () m ∨ m.Refuses address

/-- After a reset and any accesses that spare the sizes of the blocks, the heap is the stack of the
blocks that were reserved and not given back. -/
theorem heap_is_stack_of_blocks {start m : Machine} {blocks : List Allocation}
    (hfits : start.Fits) (h : Accessed start.reset m blocks) : OrderedHeap m blocks := by
  have hstacks := h.stacks (Machine.reset_stacks hfits)
  have hbase := hstacks.sound.base
  have hgap := hstacks.sound.gap
  have hbound := hstacks.sound.size
  refine ⟨hstacks.row, ⟨by omega, hgap, hstacks.sound.top⟩,
    fun size hneg => ⟨_, rfl, Machine.malloc_negative m hneg⟩,
    fun size hnonneg hfull => ⟨_, rfl, Machine.malloc_full hstacks.sound.contained hnonneg hfull⟩,
    fun size hnonneg hroom => ?_, ?_, fun b hb => ?_,
    fun address hnone => hstacks.free_elsewhere address hnone⟩
  · obtain ⟨address, store, hmalloc, hres⟩ :=
      Machine.malloc_room hstacks.sound.contained hnonneg hroom
    have hstart := hres.start
    refine ⟨address, store, hmalloc, hres, by omega, fun b hb => ?_⟩
    obtain ⟨k, hk, hfits, haddress, -, -⟩ := hstacks.row.of_mem hb
    rw [Row.header_eq haddress, toInt_ofNat (by omega)]
    rw [toNatClampNeg_eq] at hk
    omega
  · rintro newest older rfl
    obtain ⟨store, hfree, hrel, -⟩ := hstacks.free_newest
    exact ⟨store, hfree, hrel⟩
  · cases blocks with
    | nil => cases hb
    | cons newest older => exact hstacks.free_older hb

/-- A machine with a store of twelve words. -/
def twelveWords : Machine := { (default : Machine) with store := Array.replicate 12 .undefined }

/-- Two blocks are reserved, with a push between, and a word that looks like a size is stored into
the newer one. -/
def twoBlocks : Machine :=
  (Access.store 7 (.ofInt 3)).after ((Access.malloc 2).after ((Access.push .nil).after
    ((Access.malloc 3).after twelveWords.reset)))

/-- Both blocks lie in order, whatever was stored into the newer one. -/
theorem heap_is_stack_of_blocks_two :
    twelveWords.Fits ∧ Accessed twelveWords.reset twoBlocks [⟨6, 2, 8⟩, ⟨9, 3, 12⟩] ∧
      OrderedHeap twoBlocks [⟨6, 2, 8⟩, ⟨9, 3, 12⟩] := by
  have hfits : twelveWords.Fits := ⟨by decide, by decide⟩
  have haccessed : Accessed twelveWords.reset twoBlocks [⟨6, 2, 8⟩, ⟨9, 3, 12⟩] := by
    have hstart : Accessed twelveWords.reset twelveWords.reset [] := .start
    have hfirst := Accessed.step (.malloc 3) hstart trivial
    have hsecond := Accessed.step (.malloc 2) (Accessed.step (.push .nil) hfirst trivial) trivial
    have hspares : (Access.store 7 (.ofInt 3)).Spares [⟨6, 2, 8⟩, ⟨9, 3, 12⟩] := by
      simp only [Access.Spares]
      decide
    exact Accessed.step (.store 7 (.ofInt 3)) hsecond hspares
  exact ⟨hfits, haccessed, heap_is_stack_of_blocks hfits haccessed⟩

end PCode
