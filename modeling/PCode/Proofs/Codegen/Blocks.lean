import PCode.Proofs.Codegen.Layout

/-!
# The blocks of a program

How the blocks of a program lie in its image: one after another, each with the
code of its subprogram, so that an address in a block determines the block.

Main definitions and results:

- `Ledger.Placed`: the blocks of a ledger lie apart, at their addresses.
- `Ledger.placed_program`: so do those of a program.
- `Image.Holds.codeAt_block`: the code of every block stands at its entry.
-/

namespace PCode

/-! ## Placement -/

namespace Ledger

/-- The blocks of a ledger lie apart, each with its code at its entry. -/
structure Placed (l : Ledger) : Prop where
  code : ∀ b ∈ l.blocks, b.code <+: l.items.drop b.entry
  order : l.blocks.Pairwise fun b b' => b.exit < b'.entry
  ends : ∀ b ∈ l.blocks, b.exit < l.start
  start : l.start ≤ l.items.length
  typed : ∀ b ∈ l.blocks, b.typed ≤ l.typed.length ∧ b.header.typedWords <+: l.typed.drop b.typed
  entered : ∀ id t, (id, t) ∈ l.entered ↔
    ∃ b ∈ l.blocks, ∃ sym, b.header.symbol = some sym ∧ sym.id = id ∧ b.entry = t

private theorem placed_empty (natives : Registry) : ({ natives } : Ledger).Placed where
  code b hb := by simp at hb
  order := .nil
  ends b hb := by simp at hb
  start := Nat.le_refl _
  typed b hb := by simp at hb
  entered id t := by simp

/-- A block starts inside the code. -/
theorem Placed.entry_le {l : Ledger} (h : l.Placed) {b : Block} (hb : b ∈ l.blocks) :
    b.entry ≤ l.items.length := by
  have h1 := h.ends b hb
  have h2 := h.start
  have h3 := b.entry_le_exit
  omega

private theorem Placed.add {l : Ledger} (h : l.Placed) (items : List Item) :
    (l.add items).Placed where
  code b hb := by
    rw [add_items, List.drop_append_of_le_length (h.entry_le hb)]
    exact (h.code b hb).trans (List.prefix_append _ _)
  order := h.order
  ends := h.ends
  start := Nat.le_trans h.start (by simp)
  typed := h.typed
  entered := h.entered

private theorem Placed.addBlock {l : Ledger} (h : l.Placed) (hd : SubprogramHeader) :
    (l.addBlock hd).Placed := by
  have hexit := (l.nextBlock hd).exit_eq
  have hentry : (l.nextBlock hd).entry = l.items.length := rfl
  have hitems := l.addBlock_items hd
  have htyped := l.addBlock_typed hd
  have hblocks := l.addBlock_blocks hd
  have hstart := l.addBlock_start hd
  constructor
  · intro b hb
    rw [hblocks, List.mem_append, List.mem_singleton] at hb
    rw [hitems]
    rcases hb with hb | rfl
    · rw [List.drop_append_of_le_length (h.entry_le hb)]
      exact (h.code b hb).trans (List.prefix_append _ _)
    · simp only [hentry, List.drop_left, List.prefix_rfl]
  · rw [hblocks, List.pairwise_append]
    refine ⟨h.order, List.pairwise_singleton _ _, fun b hb b' hb' => ?_⟩
    obtain rfl := List.mem_singleton.mp hb'
    have h1 := h.ends b hb
    have h2 := h.start
    omega
  · intro b hb
    rw [hblocks, List.mem_append, List.mem_singleton] at hb
    rw [hstart, hitems, List.length_append]
    rcases hb with hb | rfl
    · have h1 := h.ends b hb
      have h2 := h.start
      omega
    · omega
  · exact Nat.le_of_eq hstart
  · intro b hb
    rw [hblocks, List.mem_append, List.mem_singleton] at hb
    rw [htyped]
    rcases hb with hb | rfl
    · obtain ⟨hle, hpre⟩ := h.typed b hb
      refine ⟨by simp; omega, ?_⟩
      rw [List.drop_append_of_le_length hle]
      exact hpre.trans (List.prefix_append _ _)
    · refine ⟨by simp [nextBlock], ?_⟩
      simp [nextBlock]
  · intro id t
    rw [hblocks, addBlock_entered, List.mem_append, h.entered]
    constructor
    · rintro (hnew | ⟨b, hb, hsym⟩)
      · obtain ⟨sym, hsym, heq⟩ :
          ∃ sym, hd.symbol = some sym ∧ (sym.id, l.items.length) = (id, t) := by
          simpa using hnew
        obtain ⟨rfl, rfl⟩ := Prod.mk.inj heq
        exact ⟨l.nextBlock hd, by simp, sym, hsym, rfl, rfl⟩
      · exact ⟨b, List.mem_append_left _ hb, hsym⟩
    · rintro ⟨b, hb, sym, hsym, rfl, rfl⟩
      rcases List.mem_append.mp hb with hb | hb
      · exact .inr ⟨b, hb, sym, hsym, rfl, rfl⟩
      · obtain rfl := List.mem_singleton.mp hb
        refine .inl ?_
        rw [show hd.symbol = some sym from hsym]
        simp [hentry]

mutual

private theorem Placed.addSubprogram {l : Ledger} (h : l.Placed) :
    ∀ s : Subprogram, (l.addSubprogram s).Placed
  | .mk hd nested => by
    rw [Ledger.addSubprogram]
    exact (h.addSubprograms nested).addBlock hd

private theorem Placed.addSubprograms {l : Ledger} (h : l.Placed) :
    ∀ subs : List Subprogram, (l.addSubprograms subs).Placed
  | [] => by
    rw [Ledger.addSubprograms]
    exact h
  | s :: rest => by
    rw [Ledger.addSubprograms]
    exact (h.addSubprogram s).addSubprograms rest

end

/-- The blocks of a program lie apart. -/
theorem placed_program (natives : Registry) (main : Subprogram) :
    (program natives main).Placed :=
  ((placed_empty natives).addSubprogram main).add _

/-- An address in a block determines the block. -/
theorem Placed.block_unique {l : Ledger} (h : l.Placed) {b b' : Block} (hb : b ∈ l.blocks)
    (hb' : b' ∈ l.blocks) {a : Nat} (ha : b.entry ≤ a ∧ a ≤ b.exit)
    (ha' : b'.entry ≤ a ∧ a ≤ b'.exit) : b = b' := by
  obtain ⟨i, hi, rfl⟩ := List.getElem_of_mem hb
  obtain ⟨j, hj, rfl⟩ := List.getElem_of_mem hb'
  have horder := List.pairwise_iff_getElem.mp h.order
  rcases Nat.lt_trichotomy i j with hij | rfl | hji
  · have := horder i j hi hj hij
    omega
  · rfl
  · have := horder j i hj hi hji
    omega

end Ledger

/-! ## Blocks in an image -/

namespace Image

variable {im : Image} {l : Ledger}

/-- The items of a ledger that an image holds stand in its code from the first address on. -/
theorem Holds.codeAt (h : im.Holds l) : CodeAt im.code (l.finalLinking im) 0 l.items := by
  intro a it hit
  rw [Nat.zero_add]
  exact h.stands a it hit

/-- The code of every block stands at its entry. -/
theorem Holds.codeAt_block (h : im.Holds l) (hp : l.Placed) {b : Block} (hb : b ∈ l.blocks) :
    CodeAt im.code (l.finalLinking im) b.entry b.code := by
  obtain ⟨rest, hrest⟩ := hp.code b hb
  have hall := h.codeAt
  rw [← List.take_append_drop b.entry l.items, ← hrest, codeAt_append, codeAt_append,
    List.length_take, Nat.min_eq_left (hp.entry_le hb), Nat.zero_add] at hall
  exact hall.2.1

/-- The code of every block begins with what comes before its body. -/
theorem Holds.codeAt_prologue (h : im.Holds l) (hp : l.Placed) {b : Block} (hb : b ∈ l.blocks) :
    CodeAt im.code (l.finalLinking im) b.entry (b.header.prologue b.typed) := by
  have hblock := h.codeAt_block hp hb
  unfold Block.code SubprogramHeader.code at hblock
  exact (codeAt_append.mp (codeAt_append.mp hblock).1).1

/-- The words of the typed constants of every block are among those of the image. -/
theorem Holds.typedWords_at (h : im.Holds l) (hp : l.Placed) {b : Block} (hb : b ∈ l.blocks) :
    b.typed + b.header.typedWords.length ≤ im.typedConstants.size ∧
      ∀ j < b.header.typedWords.length,
        im.typedConstants[b.typed + j]? = b.header.typedWords[j]? := by
  obtain ⟨hbelow, hprefix⟩ := hp.typed b hb
  have hlength : l.typed.length = im.typedConstants.size := by
    rw [← h.typed, Array.length_toList]
  have hle := hprefix.length_le
  rw [List.length_drop] at hle
  refine ⟨by omega, fun j hj => ?_⟩
  rw [← Array.getElem?_toList, h.typed, ← List.getElem?_drop,
    List.prefix_iff_getElem?.mp hprefix j hj, List.getElem?_eq_getElem hj]

/-- The last instruction of every block is its return. -/
theorem Holds.return_at_exit (h : im.Holds l) (hp : l.Placed) {b : Block} (hb : b ∈ l.blocks) :
    ∃ w, im.code[b.exit]? = some w ∧ w.opcode = Opcode.rtn.byte := by
  have hblock := h.codeAt_block hp hb
  unfold Block.code SubprogramHeader.code at hblock
  obtain ⟨-, hreturn⟩ := codeAt_append.mp hblock
  obtain ⟨⟨w, hw, hstands⟩, -⟩ := codeAt_cons.mp hreturn
  refine ⟨w, by rwa [List.length_append, ← Nat.add_assoc] at hw, ?_⟩
  unfold Gen.returnItem at hstands
  split at hstands
  · exact hstands.1
  · exact hstands.elim

end Image

/-- In a program an exit jump leads to the return of the block that it is in. -/
theorem Ledger.Placed.leaves_eq {l : Ledger} (h : l.Placed) {im : Image} {b : Block}
    (hb : b ∈ l.blocks) {a t : Nat} (ha : b.entry ≤ a ∧ a ≤ b.exit)
    (ht : (l.finalLinking im).leaves a t) : t = b.exit := by
  obtain ⟨b', hb', h1, h2, rfl⟩ := ht
  rw [h.block_unique hb hb' ha ⟨h1, h2⟩]

end PCode
