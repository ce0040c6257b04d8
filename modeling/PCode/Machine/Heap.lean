import PCode.Machine.Basic

/-!
# The heap

The heap is a stack of blocks that grows down from the top of the store.  Each
block is preceded by a word with its size.  Releasing the lowest block gives
its words back; releasing any other block leaves it where it is.
-/

namespace PCode.Machine

/-- Reserve a block of words, all zero; the result is the address of the first. -/
def malloc (size : Int64) : Instr Int64 := fun m =>
  if size < 0 then .error (.fault (.negativeAllocation size)) m
  else
    let np := m.np - size - 1
    if np < m.sp then .error (.fault (.outOfMemory size m.sp m.np)) m
    else if m.inStore np then
      match fill (.ofInt 0) (span (np + 1) (np + size + 1)) (np + 1)
          (m.setWord np (.ofInt size)) with
      | .ok _ m => .ok (np + 1) { m with np := np }
      | .error e m => .error e m
    else .error (.crash ⟨np⟩) m

/-- Whether a word can be the size of a block at an address. -/
def isBlockSize (m : Machine) (address : Int64) (word : Value) : Bool :=
  word.kind == .int && 0 ≤ word.int && address + word.int ≤ Int64.ofNat m.store.size

/-- Release the block at an address. -/
def free (address : Int64) : Instr Unit := fun m =>
  if address - 1 < m.np ∨ Int64.ofNat m.store.size < address then
    .error (.fault (.freeOutsideHeap address m.np m.store.size)) m
  else if m.inStore (address - 1) then
    let sizeWord := m.word (address - 1)
    if !m.isBlockSize address sizeWord then
      .error (.fault (.corruptBlock address sizeWord)) m
    else if address ≠ m.np + 1 then .ok () m
    else
      match fill .undefined (span m.np (address + sizeWord.int)) m.np m with
      | .ok _ m => .ok () { m with np := m.np + (sizeWord.int + 1) }
      | .error e m => .error e m
  else .error (.crash ⟨address - 1⟩) m

end PCode.Machine
