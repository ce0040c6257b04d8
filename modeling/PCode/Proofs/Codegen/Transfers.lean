import PCode.Proofs.Codegen.Callees
import PCode.Proofs.Codegen.Pieces

/-!
# Control transfers and constants of a compiled program

The code of a compiled program is a row of blocks, one for each subprogram, that
of a subprogram after those of the subprograms in it, and three instructions at
the end that call the program and stop.  Jumps stay in their block, exits lead
to its return, calls lead to the entry of what is called, and constants are
those that were asked for.

Main definitions and results:

- `Subprogram.postorder`: the subprograms of a program in the order of their code.
- `Block.Row`: blocks lie one after another.
- `Image.Wired`: how the code of a program hangs together.
- `compiled_program_wired`: so does the code of every compiled program.
-/

namespace PCode

open Gen

/-! ## Rows of blocks -/

mutual

/-- The subprograms of a program in the order of their code. -/
def Subprogram.postorder : Subprogram → List SubprogramHeader
  | .mk h nested => Subprogram.postorderOfAll nested ++ [h]

/-- The subprograms of programs in the order of their code. -/
def Subprogram.postorderOfAll : List Subprogram → List SubprogramHeader
  | [] => []
  | s :: rest => s.postorder ++ Subprogram.postorderOfAll rest

end

/-- Blocks lie one after another, from an address up to another. -/
def Block.Row : Nat → List Block → Nat → Prop
  | a, [], z => a = z
  | a, b :: rest, z => b.entry = a ∧ Block.Row (b.exit + 1) rest z

private theorem Block.Row.concat {a z : Nat} {blocks : List Block} {b : Block}
    (h : Block.Row a blocks z) (hb : b.entry = z) : Block.Row a (blocks ++ [b]) (b.exit + 1) := by
  induction blocks generalizing a with
  | nil => exact ⟨hb.trans h.symm, rfl⟩
  | cons b' rest ih => exact ⟨h.1, ih h.2⟩

namespace Ledger

mutual

/-- The blocks of a subprogram are those of its tree, in their order. -/
theorem headers_addSubprogram (l : Ledger) : ∀ s : Subprogram,
    (l.addSubprogram s).blocks.map Block.header = l.blocks.map Block.header ++ s.postorder
  | .mk h nested => by
    rw [addSubprogram, addBlock_blocks, List.map_append, headers_addSubprograms l nested,
      Subprogram.postorder, List.append_assoc]
    rfl

private theorem headers_addSubprograms (l : Ledger) : ∀ subs : List Subprogram,
    (l.addSubprograms subs).blocks.map Block.header =
      l.blocks.map Block.header ++ Subprogram.postorderOfAll subs
  | [] => by simp [addSubprograms, Subprogram.postorderOfAll]
  | s :: rest => by
    rw [addSubprograms, headers_addSubprograms _ rest, headers_addSubprogram l s,
      Subprogram.postorderOfAll, List.append_assoc]

end

mutual

/-- The blocks of a subprogram lie one after another. -/
theorem row_addSubprogram {l : Ledger} (h : Block.Row 0 l.blocks l.items.length) :
    ∀ s : Subprogram, Block.Row 0 (l.addSubprogram s).blocks (l.addSubprogram s).items.length
  | .mk hd nested => by
    have hrow := row_addSubprograms h nested
    rw [addSubprogram, addBlock_blocks, addBlock_items, List.length_append]
    have hexit := ((l.addSubprograms nested).nextBlock hd).exit_eq
    exact hexit ▸ hrow.concat rfl

private theorem row_addSubprograms {l : Ledger} (h : Block.Row 0 l.blocks l.items.length) :
    ∀ subs : List Subprogram,
      Block.Row 0 (l.addSubprograms subs).blocks (l.addSubprograms subs).items.length
  | [] => by
    rw [addSubprograms]
    exact h
  | s :: rest => by
    rw [addSubprograms]
    exact row_addSubprograms (row_addSubprogram h s) rest

end

end Ledger

/-! ## Requested constants -/

section

variable {items : List Item} {pool : Array Value}

/-- Constants are only added at the end of a pool. -/
theorem exists_foldl_pool (items : List Item) (pool : Array Value) :
    ∃ more, items.foldl Item.pool pool = pool ++ more := by
  induction items generalizing pool with
  | nil => exact ⟨#[], by simp⟩
  | cons it rest ih =>
    obtain ⟨first, hfirst⟩ : ∃ first, it.pool pool = pool ++ first := by
      cases it with
      | const code v =>
        simp only [Item.pool, intern]
        split
        · exact ⟨#[], by simp⟩
        · exact ⟨#[v], by simp⟩
      | _ => exact ⟨#[], by simp [Item.pool]⟩
    obtain ⟨more, hmore⟩ := ih (it.pool pool)
    exact ⟨first ++ more, by rw [List.foldl_cons, hmore, hfirst, Array.append_assoc]⟩

/-- Every constant of a pool was requested by an item. -/
theorem requested_of_mem_foldl {c : Value} (h : c ∈ items.foldl Item.pool pool) :
    c ∈ pool ∨ ∃ code, Item.const code c ∈ items := by
  induction items generalizing pool with
  | nil => exact .inl h
  | cons it rest ih =>
    rcases ih h with hin | ⟨code, hin⟩
    · cases it with
      | const code v =>
        simp only [Item.pool, intern] at hin
        split at hin
        · exact .inl hin
        · rcases Array.mem_push.mp hin with hin | rfl
          · exact .inl hin
          · exact .inr ⟨code, List.mem_cons_self⟩
      | _ => exact .inl hin
    · exact .inr ⟨code, List.mem_cons_of_mem _ hin⟩

/-- A requested constant is in the pool afterwards. -/
theorem poolIndex?_intern (pool : Array Value) (v : Value) :
    ∃ i, poolIndex? (intern pool v) v = some i := by
  cases hold : poolIndex? pool v with
  | some i => exact ⟨i, by simp [intern, hold]⟩
  | none =>
    refine ⟨pool.size, ?_⟩
    unfold poolIndex? at hold
    simp [intern, poolIndex?, hold, Array.findIdx?_push, Value.same_refl]

/-- The constant in the pool that stands for a requested one was itself requested, by the same
item or an earlier one, and is the same. -/
theorem requested_before {a : Nat} {code : TypeCode} {v : Value}
    (h : items[a]? = some (.const code v)) :
    ∃ i c, poolIndex? (poolOf items) v = some i ∧ (poolOf items)[i]? = some c ∧ c.same v ∧
      ∃ a' code', a' ≤ a ∧ items[a']? = some (.const code' c) := by
  obtain ⟨hlt, hit⟩ := List.getElem?_eq_some_iff.mp h
  have htake : items.take (a + 1) = items.take a ++ [.const code v] := by
    rw [List.take_succ_eq_append_getElem hlt, hit]
  obtain ⟨more, hmore⟩ := exists_foldl_pool (items.drop (a + 1)) (poolOf (items.take (a + 1)))
  have hall : poolOf items = poolOf (items.take (a + 1)) ++ more := by
    rw [← hmore, poolOf, poolOf, ← List.foldl_append, List.take_append_drop]
  obtain ⟨i, hi⟩ := poolIndex?_intern (poolOf (items.take a)) v
  have hindex : poolIndex? (poolOf (items.take (a + 1))) v = some i := by
    rw [htake, poolOf_concat]
    exact hi
  obtain ⟨c, hc, -, hsame⟩ := find?_of_poolIndex? hindex
  have hmem : c ∈ poolOf (items.take (a + 1)) := Array.mem_of_getElem? hc
  refine ⟨i, c, hall ▸ poolIndex?_append hindex, ?_, hsame, ?_⟩
  · obtain ⟨hsize, hget⟩ := Array.getElem?_eq_some_iff.mp hc
    rw [hall, Array.getElem?_append_left hsize, hc]
  · rcases requested_of_mem_foldl hmem with hnone | ⟨code', hin⟩
    · simp at hnone
    · obtain ⟨a', ha'⟩ := List.mem_iff_getElem?.mp hin
      have hlt' : a' < a + 1 := by
        have := (List.getElem?_eq_some_iff.mp ha').1
        rw [List.length_take] at this
        omega
      rw [List.getElem?_take_of_lt hlt'] at ha'
      exact ⟨a', code', by omega, ha'⟩

end

/-! ## Items of a block -/

private theorem Opcode.byte_inj {o o' : Opcode} (h : o.byte = o'.byte) : o = o' := by
  have hsome := congrArg Opcode.ofByte? h
  rw [ofByte?_byte, ofByte?_byte] at hsome
  exact Option.some.inj hsome

namespace Item

/-- The operation that an item becomes. -/
def opcode? : Item → Option Opcode
  | op o _ _ | jump o _ => some o
  | const .. => some .ldc
  | leave => some .ujp
  | call .. => some .cup
  | refused => none

private theorem Stands.opcode?_eq {it : Item} {k : Linking} {a : Nat} {w : Word}
    (h : it.Stands k a w) {o : Opcode} (ho : w.opcode = o.byte) : it.opcode? = some o := by
  have hreads : ∃ o', it.opcode? = some o' ∧ w.opcode = o'.byte := by
    cases it with
    | op | jump => exact ⟨_, rfl, h.1⟩
    | const code v =>
      obtain ⟨i, -, hw⟩ := h
      exact ⟨_, rfl, hw.1⟩
    | leave =>
      obtain ⟨t, hw, -⟩ := h
      exact ⟨_, rfl, hw.1⟩
    | call words sym =>
      obtain ⟨t, hw, -⟩ := h
      exact ⟨_, rfl, hw.1⟩
    | refused => exact h.elim
  obtain ⟨o', hsome, hbyte⟩ := hreads
  rw [hsome, Opcode.byte_inj (hbyte.symm.trans ho)]

variable {callees : List Symbol} {it : Item}

/-- No item of a body returns. -/
theorem Inner.opcode?_ne_rtn (h : it.Inner callees) : it.opcode? ≠ some .rtn := by
  intro hrtn
  cases it with
  | op o x y =>
    obtain rfl := Option.some.inj hrtn
    rcases h.1 with h | h | h <;> cases h
  | jump o d =>
    obtain rfl := Option.some.inj hrtn
    rcases h with h | h | h <;> cases h
  | _ => cases hrtn

/-- What jumps in a body is a jump or an exit. -/
theorem Inner.jumps (h : it.Inner callees) {o : Opcode} (ho : it.opcode? = some o)
    (hjump : o = .ujp ∨ o = .fjp ∨ o = .tjp) : (∃ d, it = .jump o d) ∨ it = .leave := by
  cases it with
  | op o' x y =>
    obtain rfl := Option.some.inj ho
    rcases hjump with rfl | rfl | rfl <;> rcases h.1 with h | h | h <;> cases h
  | jump o' d =>
    obtain rfl := Option.some.inj ho
    exact .inl ⟨d, rfl⟩
  | leave => exact .inr rfl
  | const | call =>
    cases ho
    rcases hjump with h | h | h <;> cases h
  | refused => cases ho

/-- What calls in a body is a call. -/
theorem Inner.calls (h : it.Inner callees) (ho : it.opcode? = some .cup) :
    ∃ words sym, it = .call words sym ∧ sym ∈ callees := by
  cases it with
  | op o x y =>
    obtain rfl := Option.some.inj ho
    rcases h.1 with h | h | h <;> cases h
  | jump o d =>
    obtain rfl := Option.some.inj ho
    rcases h with h | h | h <;> cases h
  | call words sym => exact ⟨words, sym, rfl, h⟩
  | _ => cases ho

/-- What loads a constant in a body requests it, or loads a truth value or a character. -/
theorem Inner.loads (h : it.Inner callees) (ho : it.opcode? = some .ldc) :
    (∃ code v, it = .const code v) ∨ ∃ x y, it = .op .ldc x y ∧
      (x = operandOfCode TypeCode.boolean.byte ∨ x = operandOfCode TypeCode.char.byte) := by
  cases it with
  | op o x y =>
    obtain rfl := Option.some.inj ho
    exact .inr ⟨x, y, rfl, h.2 rfl⟩
  | jump o d =>
    obtain rfl := Option.some.inj ho
    rcases h with h | h | h <;> cases h
  | const code v => exact .inl ⟨code, v, rfl⟩
  | _ => cases ho

end Item

private theorem Gen.straight_initialiseAllCode (base : Nat) (tcs : List TypedConst) :
    AllStraight [] (initialiseAllCode base tcs) := by
  have hwords (tc : TypedConst) (base i : Nat) (codes : List UInt8) :
      AllStraight [] (initialiseWordsCode tc base i codes) := by
    induction codes generalizing i with
    | nil => simp [initialiseWordsCode]
    | cons code rest ih => simp [initialiseWordsCode, Item.Straight, Opcode.arity?, ih]
  induction tcs generalizing base with
  | nil => simp [initialiseAllCode]
  | cons tc rest ih =>
    refine AllStraight.followed ?_ (ih _)
    unfold initialiseCode
    split
    · split
      · exact hwords tc base 0 _
      · exact straight_refused
    · exact straight_refused

namespace Block

/-- The items of a block between its entry and its return. -/
def inside (b : Block) : List Item :=
  initialiseAllCode b.typed b.header.typedConsts ++ stmtsCode b.header.body

/-- A block is its entry, what is inside, and its return. -/
theorem code_eq (b : Block) :
    b.code = .op .ent 0 b.header.frameSize :: (b.inside ++ [returnItem b.header]) := by
  simp [code, SubprogramHeader.code, SubprogramHeader.prologue, inside]

/-- The return of a block stands behind what is inside. -/
theorem exit_eq_inside (b : Block) : b.exit = b.entry + 1 + b.inside.length := by
  simp [exit, body, SubprogramHeader.prologue, inside]
  omega

/-- The code inside a block is that of a body. -/
theorem inner_inside (b : Block) : AllInner b.header.callees b.inside := by
  have hwords := (straight_initialiseAllCode b.typed b.header.typedConsts).inner
  exact hwords.append (inner_stmtsCode b.header.body)

private theorem within_inside (b : Block) : Within 0 0 b.inside :=
  (straight_initialiseAllCode b.typed b.header.typedConsts).within.append
    ((within_stmtsCode b.header.body).mono _ _)

private theorem calls_inside (b : Block) {sym : Symbol} (h : sym ∈ b.header.callees) :
    Calls sym b.inside :=
  .right _ (calls_stmtsCode b.header.body h)

/-- An item of a block is its entry, its return, or inside. -/
theorem cases_code (b : Block) {i : Nat} {it : Item} (h : b.code[i]? = some it) :
    (i = 0 ∧ it = .op .ent 0 b.header.frameSize) ∨
      (b.entry + i = b.exit ∧ it = returnItem b.header) ∨
      ∃ j, i = j + 1 ∧ j < b.inside.length ∧ b.inside[j]? = some it := by
  rw [code_eq] at h
  have hexit := b.exit_eq_inside
  cases i with
  | zero => exact .inl ⟨rfl, (Option.some.inj h).symm⟩
  | succ j =>
    refine .inr ?_
    rw [List.getElem?_cons_succ] at h
    rcases Nat.lt_trichotomy j b.inside.length with hlt | rfl | hgt
    · rw [List.getElem?_append_left hlt] at h
      exact .inr ⟨j, rfl, hlt, h⟩
    · rw [List.getElem?_append_right (Nat.le_refl _), Nat.sub_self] at h
      exact .inl ⟨by omega, (Option.some.inj h).symm⟩
    · have hlt := (List.getElem?_eq_some_iff.mp h).1
      rw [List.length_append, List.length_singleton] at hlt
      omega

end Block

/-! ## How the code of a program hangs together -/

/-- An address is the entry of a subprogram with a given symbol. -/
def Block.EntryOf (blocks : List Block) (sym : Symbol) (t : Nat) : Prop :=
  ∃ b ∈ blocks, ∃ sym', b.header.symbol = some sym' ∧ sym'.id = sym.id ∧ b.entry = t

/-- The code of a call, in a statement or an expression of a block, stands at an address. -/
def Block.CallsAt (b : Block) (a : Nat) (callee : Ident) (args : List Arg) : Prop :=
  (∃ pos, (a, .call pos callee args) ∈ b.statements) ∨
    ∃ pos mode, ⟨a, mode, .call pos callee args⟩ ∈ b.expressions

/-- A word of an image that belongs to a block. -/
structure Block.HasWord (b : Block) (im : Image) (a : Nat) (w : Word) : Prop where
  low : b.entry ≤ a
  high : a ≤ b.exit
  word : im.code[a]? = some w

/-- The word at an address of an image is an instruction. -/
def Image.Has (im : Image) (a : Nat) (o : Opcode) (x y : Int) : Prop :=
  ∃ w, im.code[a]? = some w ∧ w.Reads o x y

/-- How the code of a program hangs together: its blocks end where it starts. -/
structure Image.Wired (im : Image) (main : Subprogram) (blocks : List Block) (start : Nat) :
    Prop where
  /-- there is a block for each subprogram -/
  nodes : blocks.map Block.header = main.postorder
  row : Block.Row 0 blocks start
  size : im.code.size = start + 3
  begins : im.start = Int64.ofNat start
  /-- the last instructions call the last block, that of the program, and stop -/
  launch : im.Has start .mst 0 0 ∧ im.Has (start + 2) .stp 0 0 ∧
    ∃ b, blocks.getLast? = some b ∧ im.Has (start + 1) .cup 0 b.entry
  entry : ∀ b ∈ blocks, im.Has b.entry .ent 0 b.header.frameSize.toInt
  /-- a block has one return, at its end -/
  leave : ∀ b ∈ blocks, ∀ a w, b.HasWord im a w → (w.opcode = Opcode.rtn.byte ↔ a = b.exit)
  jump : ∀ b ∈ blocks, ∀ a w, b.HasWord im a w →
    (∃ o ∈ [Opcode.ujp, .fjp, .tjp], w.opcode = o.byte) →
      b.entry < w.operand2 ∧ w.operand2 ≤ b.exit
  exits : ∀ b ∈ blocks, ∀ a pos, (a, .exit pos) ∈ b.statements → im.Has a .ujp 0 b.exit
  /-- every call instruction is that of a call in the tree -/
  cup : ∀ b ∈ blocks, ∀ a w, b.HasWord im a w → w.opcode = Opcode.cup.byte →
    ∃ words sym, b.code[a - b.entry]? = some (.call words sym) ∧ sym ∈ b.header.callees ∧
      Block.EntryOf blocks sym w.operand2
  /-- every call in the tree has its call instruction -/
  call : ∀ b ∈ blocks, ∀ a callee args, b.CallsAt a callee args → callee.symbol.kind ≠ .native →
    ∃ words : Int64, ∃ t : Nat,
      im.Has (a + 1 + (argsCode args).length) .cup words.toInt t ∧
        Block.EntryOf blocks callee.symbol t
  /-- what is called has a subprogram -/
  callee : ∀ h ∈ main.postorder, ∀ sym ∈ h.callees, ∃ h' ∈ main.postorder, ∃ sym',
    h'.symbol = some sym' ∧ sym'.id = sym.id
  /-- a constant from the pool is the one that was requested, or an earlier one that is the same -/
  constant : ∀ b ∈ blocks, ∀ a w, b.HasWord im a w → w.opcode = Opcode.ldc.byte →
    ∀ code ∈ [TypeCode.integer, .real, .string, .pointer], w.operand1 = code.byte.toNat →
      ∃ v c, b.code[a - b.entry]? = some (.const code v) ∧ im.constants[w.operand2]? = some c ∧
        c.same v ∧ ∃ b' ∈ blocks, ∃ a' code', b'.entry ≤ a' ∧ a' ≤ a ∧
          b'.code[a' - b'.entry]? = some (.const code' c)

/-! ## Compiled programs -/

/-- An address in a row belongs to one of its blocks. -/
theorem Block.Row.exists_mem {a z n : Nat} {blocks : List Block} (h : Block.Row a blocks z)
    (hlow : a ≤ n) (hhigh : n < z) : ∃ b ∈ blocks, b.entry ≤ n ∧ n ≤ b.exit := by
  induction blocks generalizing a with
  | nil =>
    have : a = z := h
    omega
  | cons b rest ih =>
    obtain ⟨hentry, hrest⟩ := h
    by_cases hin : n ≤ b.exit
    · exact ⟨b, List.mem_cons_self, by omega, hin⟩
    · obtain ⟨b', hb', hin'⟩ := ih hrest (by omega)
      exact ⟨b', List.mem_cons_of_mem _ hb', hin'⟩

namespace Ledger.Placed

variable {l : Ledger} {b : Block} {a : Nat}

/-- The items of a block are the items at its addresses. -/
theorem getElem?_items (h : l.Placed) (hb : b ∈ l.blocks) (hlow : b.entry ≤ a)
    (hhigh : a ≤ b.exit) : l.items[a]? = b.code[a - b.entry]? := by
  obtain ⟨rest, hrest⟩ := h.code b hb
  have hexit := b.exit_eq
  have hitem : l.items[a]? = (l.items.drop b.entry)[a - b.entry]? := by
    rw [List.getElem?_drop, Nat.add_sub_cancel' hlow]
  rw [hitem, ← hrest, List.getElem?_append_left (by omega)]

/-- A word of a block is the instruction of an item of the block. -/
theorem item_of_word (h : l.Placed) {im : Image} (hholds : im.Holds l) (hb : b ∈ l.blocks)
    {w : Word} (hw : b.HasWord im a w) :
    ∃ it, b.code[a - b.entry]? = some it ∧ it.Stands (l.finalLinking im) a w := by
  have hexit := b.exit_eq
  have hlow := hw.low
  have hhigh := hw.high
  have hlt : a - b.entry < b.code.length := by omega
  have hit := List.getElem?_eq_getElem hlt
  obtain ⟨w', hw', hstands⟩ := hholds.codeAt_block h hb _ _ hit
  rw [Nat.add_sub_cancel' hw.low, hw.word] at hw'
  obtain rfl := Option.some.inj hw'
  rw [Nat.add_sub_cancel' hw.low] at hstands
  exact ⟨_, hit, hstands⟩

/-- The targets of calls are entries. -/
theorem entryOf (h : l.Placed) {im : Image} {sym : Symbol} {t : Nat}
    (ht : (l.finalLinking im).calls sym.id a t) : Block.EntryOf l.blocks sym t := by
  obtain ⟨b, hb, sym', hsym, hid, hentry⟩ := (h.entered sym.id t).mp ht
  exact ⟨b, hb, sym', hsym, hid, hentry⟩

end Ledger.Placed

/-- The code of a call of a subprogram ends with its call instruction. -/
theorem codeAt_callCode {code : Array Word} {k : Linking} {a : Nat} {callee : Ident}
    {args : List Arg} (h : CodeAt code k a (callCode callee args))
    (hkind : callee.symbol.kind ≠ .native) :
    ∃ (words : Int64) (t : Nat) (w : Word), code[a + 1 + (argsCode args).length]? = some w ∧
      w.Reads .cup words.toInt t ∧ k.calls callee.symbol.id (a + 1 + (argsCode args).length) t := by
  unfold callCode invokeCode at h
  cases htype : callee.symbol.type with
  | subprogram params result =>
    cases hkind' : callee.symbol.kind with
    | native => exact absurd hkind' hkind
    | subprogram =>
      simp only [htype, hkind'] at h
      have hcall := (codeAt_append.mp (codeAt_cons.mp h).2).2
      split at hcall
      · obtain ⟨⟨w, hw, t, hreads, ht⟩, -⟩ := codeAt_cons.mp hcall
        exact ⟨_, t, w, hw, hreads, ht⟩
      · exact absurd hcall not_codeAt_refused
    | _ =>
      simp only [htype, hkind'] at h
      exact absurd h not_codeAt_refused
  | _ =>
    simp only [htype] at h
    exact absurd h not_codeAt_refused

/-- The code of a call in a block stands at its address. -/
theorem codeAt_callsAt {im : Image} {l : Ledger} {b : Block} {a : Nat} {callee : Ident}
    {args : List Arg} (h : im.Holds l) (hp : l.Placed) (hb : b ∈ l.blocks)
    (hcall : b.CallsAt a callee args) :
    CodeAt im.code (l.finalLinking im) a (callCode callee args) := by
  rcases hcall with ⟨pos, hmem⟩ | ⟨pos, mode, hmem⟩
  · have hcode := (codeAt_statement h hp hb hmem).1
    simp only [stmtCode] at hcode
    split at hcode
    · split at hcode
      · exact hcode
      · exact absurd hcode not_codeAt_refused
    · exact hcode
  · have hcode := codeAt_expression h hp hb hmem
    simp only [exprCode] at hcode
    cases mode with
    | value => exact hcode
    | address => exact absurd hcode not_codeAt_refused

section

variable {im : Image} {l : Ledger} {b : Block} {a : Nat} {w : Word}

/-- A word of a block that neither enters nor returns is the instruction of an item inside. -/
theorem inside_of_word (h : im.Holds l) (hp : l.Placed) (hb : b ∈ l.blocks)
    (hw : b.HasWord im a w) {o : Opcode} (ho : w.opcode = o.byte) (hent : o ≠ .ent)
    (hrtn : o ≠ .rtn) :
    ∃ it j, a = b.entry + 1 + j ∧ b.inside[j]? = some it ∧ b.code[a - b.entry]? = some it ∧
      it.Stands (l.finalLinking im) a w ∧ it.opcode? = some o ∧ it.Inner b.header.callees := by
  have hlow := hw.low
  obtain ⟨it, hit, hstands⟩ := hp.item_of_word h hb hw
  have hopcode := hstands.opcode?_eq ho
  rcases b.cases_code hit with ⟨-, rfl⟩ | ⟨-, rfl⟩ | ⟨j, hj, hlt, hinside⟩
  · exact absurd (Option.some.inj hopcode).symm hent
  · unfold returnItem at hopcode
    split at hopcode
    · exact absurd (Option.some.inj hopcode).symm hrtn
    · cases hopcode
  · exact ⟨it, j, by omega, hinside, hit, hstands, hopcode,
      b.inner_inside it (List.mem_of_getElem? hinside)⟩

private theorem opcode_eq_rtn_iff (h : im.Holds l) (hp : l.Placed) (hb : b ∈ l.blocks)
    (hw : b.HasWord im a w) : w.opcode = Opcode.rtn.byte ↔ a = b.exit := by
  have hlow := hw.low
  constructor
  · intro ho
    obtain ⟨it, hit, hstands⟩ := hp.item_of_word h hb hw
    have hopcode := hstands.opcode?_eq ho
    rcases b.cases_code hit with ⟨-, rfl⟩ | ⟨hexit, -⟩ | ⟨j, -, -, hinside⟩
    · cases hopcode
    · omega
    · exact absurd hopcode (b.inner_inside it (List.mem_of_getElem? hinside)).opcode?_ne_rtn
  · rintro rfl
    obtain ⟨w', hw', ho⟩ := h.return_at_exit hp hb
    obtain rfl := Option.some.inj (hw.word.symm.trans hw')
    exact ho

/-- A jump leads to an address of its own block, behind the entry. -/
theorem jump_in_block (h : im.Holds l) (hp : l.Placed) (hb : b ∈ l.blocks)
    (hw : b.HasWord im a w) (ho : ∃ o ∈ [Opcode.ujp, .fjp, .tjp], w.opcode = o.byte) :
    b.entry < w.operand2 ∧ w.operand2 ≤ b.exit := by
  obtain ⟨o, ho, hbyte⟩ := ho
  have hjump : o = .ujp ∨ o = .fjp ∨ o = .tjp := by simpa using ho
  obtain ⟨it, j, rfl, hinside, -, hstands, hopcode, hinner⟩ := inside_of_word h hp hb hw hbyte
    (by rcases hjump with rfl | rfl | rfl <;> decide)
    (by rcases hjump with rfl | rfl | rfl <;> decide)
  have hexit := b.exit_eq_inside
  rcases hinner.jumps hopcode hjump with ⟨d, rfl⟩ | rfl
  · have htarget : (w.operand2 : Int) = (b.entry + 1 + j : Nat) + d := hstands.2.2
    have hwithin := b.within_inside j o d hinside
    omega
  · obtain ⟨t, hreads, ht⟩ := hstands
    have htarget : (w.operand2 : Int) = t := hreads.2.2
    obtain rfl := hp.leaves_eq hb ⟨hw.low, hw.high⟩ ht
    omega

private theorem call_of_cup (h : im.Holds l) (hp : l.Placed) (hb : b ∈ l.blocks)
    (hw : b.HasWord im a w) (ho : w.opcode = Opcode.cup.byte) :
    ∃ words sym, b.code[a - b.entry]? = some (.call words sym) ∧ sym ∈ b.header.callees ∧
      Block.EntryOf l.blocks sym w.operand2 := by
  obtain ⟨it, j, -, -, hit, hstands, hopcode, hinner⟩ :=
    inside_of_word h hp hb hw ho (by decide) (by decide)
  obtain ⟨words, sym, rfl, hsym⟩ := hinner.calls hopcode
  obtain ⟨t, hreads, ht⟩ := hstands
  obtain rfl : w.operand2 = t := by
    have := hreads.2.2
    omega
  exact ⟨words, sym, hit, hsym, hp.entryOf ht⟩

/-- What a block calls has a block. -/
theorem block_of_callee (h : im.Holds l) (hp : l.Placed) (hb : b ∈ l.blocks) {sym : Symbol}
    (hsym : sym ∈ b.header.callees) : ∃ t, Block.EntryOf l.blocks sym t := by
  have hcode := h.codeAt_block hp hb
  rw [b.code_eq, codeAt_cons, codeAt_append] at hcode
  have hinside := hcode.2.1
  rcases b.calls_inside hsym with hit | ⟨words, hit⟩
  · obtain ⟨j, hj⟩ := List.mem_iff_getElem?.mp hit
    obtain ⟨w, -, hstands⟩ := hinside j _ hj
    exact hstands.elim
  · obtain ⟨j, hj⟩ := List.mem_iff_getElem?.mp hit
    obtain ⟨w, -, t, -, ht⟩ := hinside j _ hj
    exact ⟨t, hp.entryOf ht⟩

private theorem constant_of_ldc (h : im.Holds l) (hp : l.Placed) (hb : b ∈ l.blocks)
    (hw : b.HasWord im a w) (ho : w.opcode = Opcode.ldc.byte) {code : TypeCode}
    (hcode : code ∈ [TypeCode.integer, .real, .string, .pointer])
    (hword : w.operand1 = code.byte.toNat) :
    ∃ v c, b.code[a - b.entry]? = some (.const code v) ∧ im.constants[w.operand2]? = some c ∧
      c.same v ∧ ∃ a' code', a' ≤ a ∧ l.items[a']? = some (.const code' c) := by
  obtain ⟨it, j, -, -, hit, hstands, hopcode, hinner⟩ :=
    inside_of_word h hp hb hw ho (by decide) (by decide)
  rcases hinner.loads hopcode with ⟨code', v, rfl⟩ | ⟨x, y, rfl, hx⟩
  · obtain ⟨i, hi, hreads⟩ := hstands
    have hsame : code.byte.toNat = code'.byte.toNat := by
      have := hreads.2.1
      omega
    obtain rfl : code = code' := by
      cases code <;> cases code' <;> first | rfl | cases hsame
    obtain rfl : w.operand2 = i := by
      have := hreads.2.2
      omega
    have hitem : l.items[a]? = some (.const code v) :=
      (hp.getElem?_items hb hw.low hw.high).trans hit
    obtain ⟨i', c, hi', hc, hcv, hbefore⟩ := requested_before hitem
    rw [← h.requested] at hi' hc
    obtain rfl : w.operand2 = i' := Option.some.inj (hi.symm.trans hi')
    exact ⟨v, c, hit, hc, hcv, hbefore⟩
  · have hoperand := hstands.2.1
    rw [hword] at hoperand
    rcases hx with rfl | rfl <;>
      simp only [List.mem_cons, List.not_mem_nil, or_false] at hcode <;>
      rcases hcode with rfl | rfl | rfl | rfl <;> cases hoperand

end

/-- The last block of a program is that of the program itself. -/
theorem Ledger.getLast?_program (natives : Registry) (main : Subprogram) :
    ∃ b, (Ledger.program natives main).blocks.getLast? = some b ∧
      b.entry = Ledger.mainEntry natives main := by
  cases main with
  | mk h nested =>
    refine ⟨(({ natives } : Ledger).addSubprograms nested).nextBlock h, ?_, rfl⟩
    rw [program, add_blocks, addSubprogram, addBlock_blocks, List.getLast?_concat]

/-- The instructions after the blocks of a program call it and stop. -/
theorem Image.Holds.launch {natives : Registry} {main : Subprogram} {im : Image}
    (h : im.Holds (Ledger.program natives main)) {start : Nat}
    (hstart : start = (({ natives } : Ledger).addSubprogram main).items.length) :
    im.Has start .mst 0 0 ∧ im.Has (start + 2) .stp 0 0 ∧
      im.Has (start + 1) .cup 0 (Ledger.mainEntry natives main) := by
  have hcode := h.codeAt
  rw [Ledger.program, Ledger.add_items, codeAt_append, Nat.zero_add, ← hstart, codeAt_cons,
    codeAt_cons, codeAt_cons] at hcode
  obtain ⟨-, hmark, hcall, hstop, -⟩ := hcode
  refine ⟨hmark, hstop, ?_⟩
  obtain ⟨w, hw, hreads⟩ := hcall
  have hp := Ledger.placed_program natives main
  obtain ⟨b, hlast, hentry⟩ := Ledger.getLast?_program natives main
  have hlt : Ledger.mainEntry natives main < 2 ^ 63 := by
    have hbound := h.bound
    have hle := hp.entry_le (List.mem_of_getLast? hlast)
    have hsize := h.size
    omega
  refine ⟨w, hw, ?_⟩
  rwa [Item.Stands, Int64.toInt_ofNat_of_lt hlt] at hreads

section

variable {natives : Registry} {main : Subprogram} {im : Image}

/-- In every compiled program, whether its types fit or not, the code is a row of blocks, one for
each subprogram, with the start of the program after them: jumps stay in their block, exits lead to
its return, calls lead to the entry of a subprogram with the called symbol, so that calling one
that has no subprogram cannot be compiled, and constants are those that were requested. -/
theorem compiled_program_wired (h : compile natives (some main) = .image im)
    (hsize : im.code.size < 2 ^ 63) : ∃ blocks start, im.Wired main blocks start := by
  obtain ⟨hholds, -, hstart⟩ := compile_holds h hsize
  have hp := Ledger.placed_program natives main
  have hempty : Block.Row 0 ({ natives } : Ledger).blocks ({ natives } : Ledger).items.length := rfl
  have hrow := Ledger.row_addSubprogram hempty main
  have hnodes : (Ledger.program natives main).blocks.map Block.header = main.postorder :=
    Ledger.headers_addSubprogram { natives } main
  have hmem {hd : SubprogramHeader} : hd ∈ main.postorder ↔
      ∃ b ∈ (Ledger.program natives main).blocks, b.header = hd := by
    rw [← hnodes, List.mem_map]
  refine ⟨(Ledger.program natives main).blocks, _,
    { nodes := hnodes, row := hrow, begins := hstart, size := ?_, launch := ?_, entry := ?_,
      leave := fun b hb a w hw => opcode_eq_rtn_iff hholds hp hb hw
      jump := fun b hb a w hw => jump_in_block hholds hp hb hw
      cup := fun b hb a w hw => call_of_cup hholds hp hb hw
      exits := ?_, call := ?_, callee := ?_, constant := ?_ }⟩
  · rw [hholds.size, Ledger.program, Ledger.add_items, List.length_append]
    rfl
  · obtain ⟨hmark, hstop, hcall⟩ := hholds.launch rfl
    obtain ⟨b, hlast, hentry⟩ := Ledger.getLast?_program natives main
    exact ⟨hmark, hstop, b, hlast, hentry ▸ hcall⟩
  · intro b hb
    have hcode := hholds.codeAt_block hp hb
    rw [b.code_eq, codeAt_cons] at hcode
    exact hcode.1
  · intro b hb a pos hexit
    obtain ⟨hcode, hlow, hhigh⟩ := codeAt_statement hholds hp hb hexit
    simp only [stmtCode] at hcode hhigh
    obtain ⟨⟨w, hw, t, hreads, ht⟩, -⟩ := codeAt_cons.mp hcode
    rw [List.length_singleton] at hhigh
    obtain rfl := hp.leaves_eq hb ⟨hlow, by omega⟩ ht
    exact ⟨w, hw, hreads⟩
  · intro b hb a callee args hcall hkind
    obtain ⟨words, t, w, hw, hreads, ht⟩ :=
      codeAt_callCode (codeAt_callsAt hholds hp hb hcall) hkind
    exact ⟨words, t, ⟨w, hw, hreads⟩, hp.entryOf ht⟩
  · intro hd hhd sym hsym
    obtain ⟨b, hb, rfl⟩ := hmem.mp hhd
    obtain ⟨t, b', hb', sym', hsym', hid, -⟩ := block_of_callee hholds hp hb hsym
    exact ⟨b'.header, hmem.mpr ⟨b', hb', rfl⟩, sym', hsym', hid⟩
  · intro b hb a w hw ho code hcode hword
    obtain ⟨v, c, hit, hc, hcv, a', code', hle, hitem⟩ :=
      constant_of_ldc hholds hp hb hw ho hcode hword
    have hbefore : a' < (({ natives } : Ledger).addSubprogram main).items.length := by
      have hend := hp.ends b hb
      have hhigh := hw.high
      have hfinish : (Ledger.program natives main).start = _ :=
        Ledger.start_addSubprogram { natives } main
      omega
    obtain ⟨b', hb', hlow', hhigh'⟩ := hrow.exists_mem (Nat.zero_le _) hbefore
    refine ⟨v, c, hit, hc, hcv, b', hb', a', code', hlow', hle, ?_⟩
    rw [← hp.getElem?_items hb' hlow' hhigh', hitem]

end

/-- A procedure without parameters. -/
def plainProcedure (id : Nat) (name : String) : Symbol :=
  { id, name, kind := .subprogram, type := .subprogram [] .missing, address := 0, byRef := false }

/-- A procedure or program with a given body. -/
def plainHeader (symbol : Option Symbol) (body : List Stmt) : SubprogramHeader :=
  { kind := if symbol.isSome then .procedure else .program
    symbol, result := .missing, paramWords := 0, varWords := 0, body }

/-- A call of a procedure around. -/
def plainCall (symbol : Symbol) (level : Int64) : Stmt := .call {} ⟨symbol, level⟩ []

/-- A program with two procedures that call each other, the first of which may exit. -/
def mutualCalls : Subprogram :=
  .mk (plainHeader none [plainCall (plainProcedure 1 "p") 0])
    [ .mk (plainHeader (some (plainProcedure 1 "p"))
        [ .whileDo {} (.bool {} true) (.exit {}), plainCall (plainProcedure 2 "q") 1 ]) []
    , .mk (plainHeader (some (plainProcedure 2 "q")) [plainCall (plainProcedure 1 "p") 1]) [] ]

/-- Two procedures that call each other are wired. -/
theorem compiled_program_wired_mutual :
    (compile .empty (some mutualCalls)).isImage = true ∧
      (compile .empty (some mutualCalls)).result.code.size = 19 ∧
      ∃ blocks start,
        (compile .empty (some mutualCalls)).result.Wired mutualCalls blocks start := by
  have himage : (compile .empty (some mutualCalls)).isImage = true := by decide +kernel
  have hsize : (compile .empty (some mutualCalls)).result.code.size = 19 := by decide +kernel
  exact ⟨himage, hsize,
    compiled_program_wired (Compilation.eq_image himage) (hsize ▸ by decide)⟩

end PCode
