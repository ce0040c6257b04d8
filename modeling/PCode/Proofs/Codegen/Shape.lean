import PCode.Proofs.Codegen.Item
import PCode.Proofs.Tree.Scoped

/-!
# The shape of the stack

While the code of a subprogram runs, the words above its frame are operands and
the marks of calls whose arguments are being evaluated.  What they are depends
on the place in the code only: every jump leaves and lands where there are none.
So a shape can be given to every place by going through the code from left to
right, and its height is the number of words above the frame.

Main definitions and results:

- `Item.after`: what an item makes of a shape.
- `Item.Admits`: the shapes that an item can stand at.
- `Moves`: items without jumps lead from one shape to another.
- `Settles`: items lead from the empty shape to itself, and so do their jumps.
-/

namespace PCode

/-! ## Shapes -/

/-- Something on the stack above a frame: an operand, or the mark of a call that is being prepared,
with the number of scopes between the call and the declaration of what it calls. -/
inductive Slot where
  | word
  | mark (level : Nat)
  deriving DecidableEq, Repr

/-- The number of words of a slot. -/
def Slot.size : Slot → Nat
  | word => 1
  | mark _ => markSize

/-- What is on the stack above a frame, the top first. -/
abbrev Shape := List Slot

namespace Shape

/-- The number of words of a shape. -/
def height (s : Shape) : Nat := (s.map Slot.size).sum

/-- A number of operands. -/
def words (n : Nat) : Shape := List.replicate n .word

/-- An empty shape has no words. -/
@[simp]
theorem height_nil : height [] = 0 := rfl

/-- The height of a shape is that of its slots. -/
@[simp]
theorem height_cons (x : Slot) (s : Shape) : height (x :: s) = x.size + height s := by
  simp [height]

/-- Shapes on top of each other add up their heights. -/
@[simp]
theorem height_append (s t : Shape) : height (s ++ t) = height s + height t := by
  simp [height]

/-- A number of words is as high as the number says. -/
@[simp]
theorem height_words (n : Nat) : height (words n) = n := by
  simp [height, words, Slot.size]

/-- No words are the empty shape. -/
@[simp]
theorem words_zero : words 0 = [] := rfl

/-- One word is a slot. -/
@[simp]
theorem words_one : words 1 = [.word] := rfl

/-- Words on top of words. -/
theorem words_add (m n : Nat) : words (m + n) = words m ++ words n := by
  simp [words, List.replicate_append_replicate]

/-- One operand more can be counted from either end. -/
theorem words_append_word (n : Nat) (s : Shape) : words n ++ .word :: s = words (n + 1) ++ s := by
  rw [words_add, words_one, List.append_assoc]
  rfl

/-- Words on top are dropped. -/
@[simp]
theorem drop_words (n : Nat) (s : Shape) : (words n ++ s).drop n = s := by
  rw [List.drop_append_of_le_length (by simp [words])]
  simp [words]

end Shape

/-! ## What instructions do to a shape -/

/-- The numbers of words that an instruction on operands pops and pushes. -/
def Opcode.arity? : Opcode → Option (Nat × Nat)
  | equ | neq | grt | geq | les | leq | adi | sbi | mpi | dvi | mod | adr | sbr | mpr | dvr
  | ior | and | xor | ixa => some (2, 1)
  | ngi | abi | sqi | inc | dec | ngr | abr | sqr | not | trc | rnd | chr | ord | ldi => some (1, 1)
  | lda | ldc | lva | lvb | lvc | lvi | lvr => some (0, 1)
  | sti => some (2, 0)
  | flt | flo => some (0, 0)
  | cup | csp | ent | mst | rtn | inn | uni | int | dif | cmp | sgs | ujp | xjp | fjp | tjp | stp
  | lvs => none

namespace Item

open Shape

/-- The number of words that a call leaves. -/
def results (isFunction : Bool) : Nat := if isFunction then 1 else 0

/-- What an item makes of a shape. -/
def after (natives : Registry) : Item → Shape → Shape
  | op o x y, s =>
    if o = .mst then .mark x.toNatClampNeg :: s
    else if o = .csp then
      words (results ((natives.at? y.toNatClampNeg).any (·.isFunction))) ++
        s.drop x.toNatClampNeg
    else
      match o.arity? with
      | some (popped, pushed) => words pushed ++ s.drop popped
      | none => s
  | const .., s => .word :: s
  | jump o _, s => if o = .ujp then s else s.drop 1
  | call n sym, s => words (results (!sym.resultType.isVoid)) ++ s.drop (n.toNatClampNeg + 1)
  | leave, s | refused, s => s

/-- The shapes that an item can stand at, given which calls are meant with the mark of a level. -/
def Admits (natives : Registry) (calls : Symbol → Nat → Prop) : Item → Shape → Prop
  | op o x y, s =>
    o = .mst ∨ ((o = .ent ∨ o = .rtn) ∧ s = []) ∨
      (o = .csp ∧ ∃ native rest, natives.at? y.toNatClampNeg = some native ∧
        s = words x.toNatClampNeg ++ rest) ∨
      ∃ popped pushed rest, o.arity? = some (popped, pushed) ∧ s = words popped ++ rest
  | const .., _ => True
  | jump o _, s => (o = .ujp ∧ s = []) ∨ ((o = .fjp ∨ o = .tjp) ∧ s = [.word])
  | leave, s => s = []
  | call n sym, s =>
    ∃ level rest, s = words n.toNatClampNeg ++ .mark level :: rest ∧ calls sym level
  | refused, _ => False

/-- Whether an item is a jump over a distance. -/
def isJump : Item → Bool
  | jump .. => true
  | _ => false

/-- What is known of the items of accepted code: none is refused, operands are not negative, and
what a subprogram returns has at most one word. -/
def Sensible (calls : Symbol → Nat → Prop) : Item → Prop
  | op _ x y => 0 ≤ x.toInt ∧ 0 ≤ y.toInt
  | call _ sym => ∀ level, calls sym level → sym.resultType.isVoid = false → sym.resultType.size = 1
  | refused => False
  | const .. | jump .. | leave => True

end Item

/-- What a list of items makes of a shape. -/
def shapeAfter (natives : Registry) (s : Shape) (items : List Item) : Shape :=
  items.foldl (fun s it => it.after natives s) s

/-- Each item of a list can stand at the shape that the items before it leave. -/
def Flows (natives : Registry) (calls : Symbol → Nat → Prop) : Shape → List Item → Prop
  | _, [] => True
  | s, it :: rest => it.Admits natives calls s ∧ Flows natives calls (it.after natives s) rest

section

variable {natives : Registry} {calls : Symbol → Nat → Prop}

/-- After empty code the shape is the same. -/
@[simp]
theorem shapeAfter_nil (s : Shape) : shapeAfter natives s [] = s := rfl

/-- Items change the shape one after another. -/
@[simp]
theorem shapeAfter_cons (s : Shape) (it : Item) (items : List Item) :
    shapeAfter natives s (it :: items) = shapeAfter natives (it.after natives s) items := rfl

/-- Code changes the shape piece by piece. -/
theorem shapeAfter_append (s : Shape) (is js : List Item) :
    shapeAfter natives s (is ++ js) = shapeAfter natives (shapeAfter natives s is) js :=
  List.foldl_append

private theorem flows_append {s : Shape} {is js : List Item} :
    Flows natives calls s (is ++ js) ↔
      Flows natives calls s is ∧ Flows natives calls (shapeAfter natives s is) js := by
  induction is generalizing s with
  | nil => simp [Flows]
  | cons it is ih =>
    rw [List.cons_append, Flows, Flows, ih, and_assoc, shapeAfter_cons]

/-- The item at a place can stand at the shape that the items before it leave. -/
theorem Flows.admits {s : Shape} {items : List Item} {i : Nat} {it : Item}
    (h : Flows natives calls s items) (hi : items[i]? = some it) :
    it.Admits natives calls (shapeAfter natives s (items.take i)) := by
  obtain ⟨hlt, rfl⟩ := List.getElem?_eq_some_iff.mp hi
  rw [← List.take_append_drop i items, flows_append, List.drop_eq_getElem_cons hlt] at h
  exact h.2.1

/-- One item more. -/
theorem shapeAfter_take_succ {s : Shape} {items : List Item} {i : Nat} {it : Item}
    (hi : items[i]? = some it) :
    shapeAfter natives s (items.take (i + 1)) =
      it.after natives (shapeAfter natives s (items.take i)) := by
  rw [List.take_add_one, hi, shapeAfter_append]
  rfl

/-! ## Straight code -/

/-- Items without jumps lead from one shape to another. -/
structure Moves (natives : Registry) (calls : Symbol → Nat → Prop) (s : Shape)
    (items : List Item) (s' : Shape) : Prop where
  flows : Flows natives calls s items
  shape : shapeAfter natives s items = s'
  straight : ∀ it ∈ items, it.isJump = false

/-- Empty code leaves the shape as it is. -/
theorem moves_nil (s : Shape) : Moves natives calls s [] s :=
  ⟨trivial, rfl, fun it h => by simp at h⟩

/-- Two pieces of code move the shape one after the other. -/
theorem Moves.append {s₀ s₁ s₂ : Shape} {is js : List Item}
    (h₁ : Moves natives calls s₀ is s₁) (h₂ : Moves natives calls s₁ js s₂) :
    Moves natives calls s₀ (is ++ js) s₂ := by
  obtain ⟨f₁, rfl, t₁⟩ := h₁
  obtain ⟨f₂, rfl, t₂⟩ := h₂
  refine ⟨flows_append.mpr ⟨f₁, f₂⟩, shapeAfter_append .., fun it hit => ?_⟩
  rcases List.mem_append.mp hit with hit | hit
  · exact t₁ it hit
  · exact t₂ it hit

/-- An item moves the shape before others do. -/
theorem Moves.cons {s₀ s₁ s₂ : Shape} {it : Item} {items : List Item}
    (h₁ : Moves natives calls s₀ [it] s₁) (h₂ : Moves natives calls s₁ items s₂) :
    Moves natives calls s₀ (it :: items) s₂ :=
  h₁.append h₂

/-- An item that is admitted and no jump moves the shape. -/
theorem moves_single {s : Shape} {it : Item} (hadmits : it.Admits natives calls s)
    (hjump : it.isJump = false) : Moves natives calls s [it] (it.after natives s) :=
  ⟨⟨hadmits, trivial⟩, rfl, fun it' h => by rwa [List.mem_singleton.mp h]⟩

/-- An instruction replaces the words that it pops by those that it pushes. -/
theorem moves_op {o : Opcode} {x y : Int64} {popped pushed : Nat}
    (h : o.arity? = some (popped, pushed)) (s : Shape) :
    Moves natives calls (Shape.words popped ++ s) [.op o x y] (Shape.words pushed ++ s) := by
  have hmst : o ≠ .mst := by rintro rfl; cases h
  have hcsp : o ≠ .csp := by rintro rfl; cases h
  have hafter :
      (Item.op o x y).after natives (Shape.words popped ++ s) = Shape.words pushed ++ s := by
    simp only [Item.after, if_neg hmst, if_neg hcsp, h, Shape.drop_words]
  rw [← hafter]
  exact moves_single (.inr (.inr (.inr ⟨_, _, _, h, rfl⟩))) rfl

/-- The load of a constant pushes a word. -/
theorem moves_const (code : TypeCode) (v : Value) (s : Shape) :
    Moves natives calls s [.const code v] (.word :: s) :=
  moves_single trivial rfl

/-- A mark is pushed for a call. -/
theorem moves_mst (level y : Int64) (s : Shape) :
    Moves natives calls s [.op .mst level y] (.mark level.toNatClampNeg :: s) :=
  moves_single (.inl rfl) rfl

/-- The call of a native procedure replaces its arguments by its result, if it has one. -/
theorem moves_csp {count index : Int64} {native : Native}
    (h : natives.at? index.toNatClampNeg = some native) (s : Shape) :
    Moves natives calls (Shape.words count.toNatClampNeg ++ s) [.op .csp count index]
      (Shape.words (Item.results native.isFunction) ++ s) := by
  have hafter : (Item.op .csp count index).after natives (Shape.words count.toNatClampNeg ++ s) =
      Shape.words (Item.results native.isFunction) ++ s := by
    simp [Item.after, h]
  rw [← hafter]
  exact moves_single (.inr (.inr (.inl ⟨rfl, native, s, h, rfl⟩))) rfl

/-- A call replaces the arguments and their mark by the result, if there is one. -/
theorem moves_call {n : Int64} {sym : Symbol} {level : Nat} (h : calls sym level) (s : Shape) :
    Moves natives calls (Shape.words n.toNatClampNeg ++ .mark level :: s) [.call n sym]
      (Shape.words (Item.results (!sym.resultType.isVoid)) ++ s) := by
  have hafter : (Item.call n sym).after natives (Shape.words n.toNatClampNeg ++ .mark level :: s) =
      Shape.words (Item.results (!sym.resultType.isVoid)) ++ s := by
    rw [Item.after, ← List.drop_drop, Shape.drop_words]
    rfl
  rw [← hafter]
  exact moves_single ⟨level, s, rfl, h⟩ rfl

end

/-! ## Code with jumps -/

/-- Items lead from one shape to another, if no jump is taken. -/
structure Goes (natives : Registry) (calls : Symbol → Nat → Prop) (s : Shape)
    (items : List Item) (s' : Shape) : Prop where
  flows : Flows natives calls s items
  shape : shapeAfter natives s items = s'

/-- The jumps of a part of some code, which starts at a place in it, land at the empty shape. -/
def Lands (natives : Registry) (whole : List Item) (place : Nat) (items : List Item) : Prop :=
  ∀ i o d, items[i]? = some (.jump o d) → ∃ j : Nat, (j : Int) = (place + i : Nat) + d ∧
    j ≤ whole.length ∧ shapeAfter natives [] (whole.take j) = []

/-- Items lead from the empty shape to itself, and so do their jumps. -/
structure Settles (natives : Registry) (calls : Symbol → Nat → Prop) (items : List Item) :
    Prop where
  goes : Goes natives calls [] items []
  lands : Lands natives items 0 items

section

variable {natives : Registry} {calls : Symbol → Nat → Prop}

/-- Two pieces of code take the shape on one after the other. -/
theorem Goes.append {s₀ s₁ s₂ : Shape} {is js : List Item}
    (h₁ : Goes natives calls s₀ is s₁) (h₂ : Goes natives calls s₁ js s₂) :
    Goes natives calls s₀ (is ++ js) s₂ := by
  obtain ⟨f₁, rfl⟩ := h₁
  obtain ⟨f₂, rfl⟩ := h₂
  exact ⟨flows_append.mpr ⟨f₁, f₂⟩, shapeAfter_append ..⟩

/-- Code without jumps takes the shape on. -/
theorem Moves.goes {s s' : Shape} {items : List Item} (h : Moves natives calls s items s') :
    Goes natives calls s items s' :=
  ⟨h.flows, h.shape⟩

/-- A branch pops the word that it tests. -/
theorem goes_branch {o : Opcode} (ho : o = .fjp ∨ o = .tjp) (d : Int) :
    Goes natives calls [.word] [.jump o d] [] := by
  refine ⟨⟨.inr ⟨ho, rfl⟩, trivial⟩, ?_⟩
  rcases ho with rfl | rfl <;> rfl

/-- A jump is made when nothing is on the frame. -/
theorem goes_ujp (d : Int) : Goes natives calls [] [.jump .ujp d] [] :=
  ⟨⟨.inl ⟨rfl, rfl⟩, trivial⟩, rfl⟩

/-- Jumps land well in a piece of code if they do in its parts. -/
theorem lands_append {whole is js : List Item} {place : Nat} :
    Lands natives whole place (is ++ js) ↔
      Lands natives whole place is ∧ Lands natives whole (place + is.length) js := by
  constructor
  · intro h
    refine ⟨fun i o d hi => h i o d ?_, fun i o d hi => ?_⟩
    · rw [List.getElem?_append_left (List.getElem?_eq_some_iff.mp hi).1, hi]
    · rw [Nat.add_assoc]
      refine h (is.length + i) o d ?_
      rw [List.getElem?_append_right (Nat.le_add_right ..), Nat.add_sub_cancel_left, hi]
  · rintro ⟨h₁, h₂⟩ i o d hi
    by_cases hlt : i < is.length
    · rw [List.getElem?_append_left hlt] at hi
      exact h₁ i o d hi
    · have hle := Nat.le_of_not_lt hlt
      rw [List.getElem?_append_right hle] at hi
      have h := h₂ _ o d hi
      rwa [Nat.add_assoc, Nat.add_sub_cancel' hle] at h

/-- Code without jumps has none that could land badly. -/
theorem lands_of_straight {items : List Item} (h : ∀ it ∈ items, it.isJump = false)
    (whole : List Item) (place : Nat) : Lands natives whole place items := by
  intro i o d hi
  have hjump := h _ (List.mem_of_getElem? hi)
  simp [Item.isJump] at hjump

/-- A jump lands where some of the code has led to the empty shape. -/
theorem lands_jump {whole before after : List Item} {o : Opcode} {d : Int} {place : Nat}
    (hshape : shapeAfter natives [] before = []) (hwhole : whole = before ++ after)
    (hd : (before.length : Int) = place + d) : Lands natives whole place [.jump o d] := by
  subst hwhole
  intro i o' d' hi
  obtain ⟨rfl, rfl⟩ : i = 0 ∧ d = d' := by
    cases i with
    | zero =>
      simp only [List.getElem?_cons_zero, Option.some.injEq, Item.jump.injEq] at hi
      exact ⟨rfl, hi.2⟩
    | succ i => simp at hi
  exact ⟨before.length, by simpa using hd, by simp, by simpa using hshape⟩

/-- Code that settles does so as a part of other code. -/
theorem Settles.lands_within {whole items before after : List Item} {place : Nat}
    (h : Settles natives calls items) (hshape : shapeAfter natives [] before = [])
    (hwhole : whole = before ++ items ++ after) (hplace : place = before.length) :
    Lands natives whole place items := by
  subst hwhole hplace
  intro i o d hi
  obtain ⟨j, hj, hle, hempty⟩ := h.lands i o d hi
  refine ⟨before.length + j, by omega, by simp; omega, ?_⟩
  rw [List.append_assoc, List.take_length_add_append, List.take_append_of_le_length hle,
    shapeAfter_append, hshape, hempty]

/-- Code that leaves nothing on the frame settles. -/
theorem Moves.settles {items : List Item} (h : Moves natives calls [] items []) :
    Settles natives calls items :=
  ⟨h.goes, lands_of_straight h.straight _ _⟩

/-- An exit jump settles. -/
theorem settles_leave : Settles natives calls [.leave] :=
  ⟨⟨⟨rfl, trivial⟩, rfl⟩, lands_of_straight (by simp [Item.isJump]) _ _⟩

/-- Two pieces of code that settle do so together. -/
theorem Settles.append {is js : List Item} (h₁ : Settles natives calls is)
    (h₂ : Settles natives calls js) : Settles natives calls (is ++ js) := by
  refine ⟨h₁.goes.append h₂.goes, lands_append.mpr ⟨?_, ?_⟩⟩
  · exact h₁.lands_within (shapeAfter_nil []) rfl rfl
  · exact h₂.lands_within h₁.goes.shape (List.append_nil _).symm (Nat.zero_add _)

end

end PCode
