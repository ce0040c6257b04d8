import PCode.Proofs.Codegen.Item
import PCode.Proofs.Image

/-!
# Items in an image

When a word of an image is the instruction that an item asks for.  The targets
of exit jumps and calls depend on the rest of the program, which is a parameter
here.

Main definitions:

- `Item.Stands`: a word of an image is the instruction that an item asks for.
- `CodeAt`: a list of items stands at an address.
- `Segment`: a list of items is a part of another, at an address of its own.
-/

namespace PCode

/-! ## Items -/

/-- What the targets of open instructions depend on. -/
structure Linking where
  constants : Array Value
  /-- whether the exit jump at an address may have a target -/
  leaves : Nat → Nat → Prop
  /-- whether the call at an address, of the symbol with a number, may have a target -/
  calls : Nat → Nat → Nat → Prop

/-- The word at an address is the instruction that an item asks for. -/
def Item.Stands (k : Linking) (a : Nat) (w : Word) : Item → Prop
  | .op o x y => w.Reads o x.toInt y.toInt
  | .const code v => ∃ i, poolIndex? k.constants v = some i ∧ w.Reads .ldc code.byte.toNat i
  | .jump o d => w.Reads o 0 (a + d)
  | .leave => ∃ t : Nat, w.Reads .ujp 0 t ∧ k.leaves a t
  | .call words sym => ∃ t : Nat, w.Reads .cup words.toInt t ∧ k.calls sym.id a t
  | .refused => False

/-- One linking gives at least the targets of another, and the same constants. -/
structure Linking.Le (k k' : Linking) : Prop where
  constants : ∀ v i, poolIndex? k.constants v = some i → poolIndex? k'.constants v = some i
  leaves : ∀ a t, k.leaves a t → k'.leaves a t
  calls : ∀ id a t, k.calls id a t → k'.calls id a t

/-- An item goes on standing where the targets at its own address stay possible. -/
theorem Item.Stands.imp {k k' : Linking} {a : Nat} {w : Word} {it : Item}
    (h : it.Stands k a w)
    (hconstants : ∀ v i, poolIndex? k.constants v = some i → poolIndex? k'.constants v = some i)
    (hleaves : ∀ t, k.leaves a t → k'.leaves a t)
    (hcalls : ∀ id t, k.calls id a t → k'.calls id a t) : it.Stands k' a w := by
  cases it with
  | op | jump | refused => exact h
  | const code v =>
    obtain ⟨i, hi, hw⟩ := h
    exact ⟨i, hconstants _ _ hi, hw⟩
  | leave =>
    obtain ⟨t, hw, ht⟩ := h
    exact ⟨t, hw, hleaves _ ht⟩
  | call words sym =>
    obtain ⟨t, hw, ht⟩ := h
    exact ⟨t, hw, hcalls _ _ ht⟩

/-- An item stands where it stood when more is linked. -/
theorem Item.Stands.mono {k k' : Linking} {a : Nat} {w : Word} {it : Item}
    (h : it.Stands k a w) (hk : k.Le k') : it.Stands k' a w :=
  h.imp hk.constants (hk.leaves a) fun id => hk.calls id a

/-! ## Requested constants -/

/-- The pool after an item was emitted. -/
def Item.pool (constants : Array Value) : Item → Array Value
  | .const _ v => intern constants v
  | _ => constants

/-- The pool after items were emitted one after another. -/
def poolOf (items : List Item) : Array Value := items.foldl Item.pool #[]

/-- The pool of constants grows by that of the last item. -/
theorem poolOf_concat (items : List Item) (it : Item) :
    poolOf (items ++ [it]) = it.pool (poolOf items) := by
  simp [poolOf]

/-- Replacing an item that requests no constant by another keeps the pool. -/
theorem poolOf_set {items : List Item} {a : Nat} {it it' : Item} (ha : items[a]? = some it)
    (hold : ∀ pool, it.pool pool = pool) (hnew : ∀ pool, it'.pool pool = pool) :
    poolOf (items.set a it') = poolOf items := by
  obtain ⟨hlt, hit⟩ := List.getElem?_eq_some_iff.mp ha
  have hsplit : items = items.take a ++ it :: items.drop (a + 1) := by
    rw [← hit, List.getElem_cons_drop, List.take_append_drop]
  rw [List.set_eq_take_append_cons_drop, if_pos hlt]
  conv => rhs; rw [hsplit]
  simp only [poolOf, List.foldl_append, List.foldl_cons, hold, hnew]

/-! ## Code at an address -/

/-- A list of items stands at an address. -/
def CodeAt (code : Array Word) (k : Linking) (a : Nat) (items : List Item) : Prop :=
  ∀ i (it : Item), items[i]? = some it → ∃ w, code[a + i]? = some w ∧ it.Stands k (a + i) w

section

variable {code : Array Word} {k : Linking} {a : Nat}

/-- Empty code stands at every address. -/
theorem codeAt_nil : CodeAt code k a [] := by
  intro i it h
  simp at h

/-- Code stands at an address if its first item does and the rest stands at the next one. -/
theorem codeAt_cons {it : Item} {items : List Item} :
    CodeAt code k a (it :: items) ↔
      (∃ w, code[a]? = some w ∧ it.Stands k a w) ∧ CodeAt code k (a + 1) items := by
  constructor
  · intro h
    refine ⟨h 0 it rfl, fun i it' hi => ?_⟩
    have := h (i + 1) it' (by simpa using hi)
    rwa [show a + 1 + i = a + (i + 1) by omega]
  · rintro ⟨hfirst, hrest⟩ i it' hi
    cases i with
    | zero =>
      obtain rfl : it = it' := by simpa using hi
      exact hfirst
    | succ i =>
      have := hrest i it' (by simpa using hi)
      rwa [show a + 1 + i = a + (i + 1) by omega] at this

/-- Two pieces of code stand one behind the other. -/
theorem codeAt_append {is js : List Item} :
    CodeAt code k a (is ++ js) ↔ CodeAt code k a is ∧ CodeAt code k (a + is.length) js := by
  induction is generalizing a with
  | nil => simp [codeAt_nil]
  | cons it is ih =>
    rw [List.cons_append, codeAt_cons, codeAt_cons, ih, and_assoc, List.length_cons,
      show a + 1 + is.length = a + (is.length + 1) by omega]

/-- What cannot be lowered stands nowhere. -/
theorem not_codeAt_refused : ¬ CodeAt code k a [.refused] := by
  intro h
  obtain ⟨w, -, hw⟩ := h 0 _ rfl
  exact hw

/-- The code that sets a counter is its parts one after another. -/
theorem codeAt_setCounterCode {counter : Ident} {c : UInt8} {value : List Item}
    (h : CodeAt code k a (Gen.setCounterCode counter c value)) :
    CodeAt code k a (Gen.identAddressCode counter) ∧ CodeAt code k (a + 1) value ∧
      CodeAt code k (a + 1 + value.length) [.op .sti (operandOfCode c) 0] := by
  unfold Gen.setCounterCode at h
  obtain ⟨hboth, hstore⟩ := codeAt_append.mp h
  obtain ⟨haddress, hvalue⟩ := codeAt_append.mp hboth
  simp only [List.length_append, ← Nat.add_assoc] at hstore
  exact ⟨haddress, hvalue, hstore⟩

/-- The code of a loop is its parts one after another. -/
theorem codeAt_loopCode {test body : List Item} {out : Opcode}
    (h : CodeAt code k a (Gen.loopCode test out body)) :
    CodeAt code k a test ∧ CodeAt code k (a + test.length) [.jump out (body.length + 2)] ∧
      CodeAt code k (a + test.length + 1) body ∧
      CodeAt code k (a + test.length + 1 + body.length)
        [.jump .ujp (-(test.length + (body.length + 1) : Nat))] := by
  unfold Gen.loopCode at h
  obtain ⟨htest, hrest⟩ := codeAt_append.mp h
  obtain ⟨hout, hrest⟩ := codeAt_cons.mp hrest
  obtain ⟨hbody, hback⟩ := codeAt_append.mp hrest
  exact ⟨htest, codeAt_cons.mpr ⟨hout, codeAt_nil⟩, hbody, hback⟩

end

/-! ## Parts of code -/

/-- Code at an address is a part of code at another. -/
def Segment (a : Nat) (items : List Item) (a' : Nat) (items' : List Item) : Prop :=
  ∃ before after, items = before ++ items' ++ after ∧ a' = a + before.length

namespace Segment

variable {a a' : Nat} {items items' : List Item}

/-- Code is a segment of itself. -/
theorem refl (a : Nat) (items : List Item) : Segment a items a items :=
  ⟨[], [], by simp, by simp⟩

/-- The first part of code is a segment of it. -/
theorem left (a : Nat) (items after : List Item) : Segment a (items ++ after) a items :=
  ⟨[], after, by simp, by simp⟩

/-- The last part of code is a segment of it. -/
theorem right (a : Nat) (before items : List Item) :
    Segment a (before ++ items) (a + before.length) items :=
  ⟨before, [], by simp, rfl⟩

/-- A segment of a segment is a segment. -/
theorem trans {a'' : Nat} {items'' : List Item} (h₁ : Segment a items a' items')
    (h₂ : Segment a' items' a'' items'') : Segment a items a'' items'' := by
  obtain ⟨before₁, after₁, rfl, rfl⟩ := h₁
  obtain ⟨before₂, after₂, rfl, rfl⟩ := h₂
  exact ⟨before₁ ++ before₂, after₂ ++ after₁, by simp, by simp [Nat.add_assoc]⟩

/-- Where code stands, its segments stand. -/
theorem codeAt {code : Array Word} {k : Linking} (h : Segment a items a' items')
    (hcode : CodeAt code k a items) : CodeAt code k a' items' := by
  obtain ⟨before, after, rfl, rfl⟩ := h
  exact (codeAt_append.mp (codeAt_append.mp hcode).1).2

/-- The items of a segment are items of the code. -/
theorem subset (h : Segment a items a' items') : items' ⊆ items := by
  obtain ⟨before, after, rfl, -⟩ := h
  intro it hit
  simp [hit]

/-- The addresses of a segment are addresses of the code. -/
theorem range (h : Segment a items a' items') :
    a ≤ a' ∧ a' + items'.length ≤ a + items.length := by
  obtain ⟨before, after, rfl, rfl⟩ := h
  simp only [List.length_append]
  omega

/-- The test is a part of the code of a loop. -/
theorem loop_test (a : Nat) (test body : List Item) (out : Opcode) :
    Segment a (Gen.loopCode test out body) a test :=
  .left ..

/-- The body is a part of the code of a loop. -/
theorem loop_body (a : Nat) (test body : List Item) (out : Opcode) :
    Segment a (Gen.loopCode test out body) (a + test.length + 1) body :=
  ⟨test ++ [.jump out (body.length + 2)], [.jump .ujp (-(test.length + (body.length + 1) : Nat))],
    by simp [Gen.loopCode], by simp [Nat.add_assoc]⟩

/-- The test is a part of the code of a conditional. -/
theorem cond_test (a : Nat) (test yes : List Item) (no : Option (List Item)) :
    Segment a (Gen.condCode test yes no) a test := by
  cases no <;> exact .left ..

/-- The first alternative is a part of the code of a conditional. -/
theorem cond_yes (a : Nat) (test yes : List Item) (no : Option (List Item)) :
    Segment a (Gen.condCode test yes no) (a + test.length + 1) yes := by
  cases no with
  | none =>
      exact ⟨test ++ [.jump .fjp (yes.length + 1)], [], by simp [Gen.condCode], by simp; omega⟩
  | some no =>
    exact ⟨test ++ [.jump .fjp (yes.length + 2)], .jump .ujp (no.length + 1) :: no,
      by simp [Gen.condCode], by simp; omega⟩

/-- The second alternative is a part of the code of a conditional. -/
theorem cond_no (a : Nat) (test yes no : List Item) :
    Segment a (Gen.condCode test yes (some no)) (a + test.length + 1 + yes.length + 1) no :=
  ⟨test ++ .jump .fjp (yes.length + 2) :: (yes ++ [.jump .ujp (no.length + 1)]), [],
    by simp [Gen.condCode], by simp; omega⟩

end Segment

end PCode
