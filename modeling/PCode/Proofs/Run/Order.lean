import PCode.Proofs.Run.Activations
import PCode.Proofs.Run.Natives

/-!
# The order of the stack

While a compiled program runs, its stack holds the frames of the live
activations with the words between them that the code asks for.  Each
instruction keeps it so: an instruction on operands changes what is above the
newest frame, a call makes a mark a frame, the entry instruction gives the frame
its variables, and a return takes it away.

Main definitions and results:

- `Compiled`: a program that was built through scopes, with its image.
- `Ordered`: the stack of a machine is that of some live activations.
- `Underway`: the machine goes on in order, waits for a line, or is stopped.
- `Permitted`: the words that a program may store to.
- `Inside.executes_operands`, `Inside.executes_native`, `Inside.executes_mark`,
  `Inside.executes_call`, `Entering.executes`, `Inside.executes_return`: what the kinds of
  instructions do to a stack in order.
-/

namespace PCode

open Machine

/-! ## Compiled programs -/

/-- A program that was built through scopes over standard procedures, and the image that it was
compiled to. -/
structure Compiled (natives : Registry) (src : Scoped) (im : Image) : Prop where
  program : src.Program natives
  holds : im.Holds (Ledger.program natives src.tree)
  start : im.start = Int64.ofNat (src.launch natives)
  standard : ∀ index native, natives.at? index = some native → native ∈ Library.natives
  few : natives.size < 2 ^ 63

/-- The item at an address of a block, with its word and the shapes before and after it. -/
structure Located (natives : Registry) (src : Scoped) (im : Image) (q : Level) (t : List Level)
    (p : Nat) (it : Item) (w : Word) : Prop where
  item : q.block.code[p - q.block.entry]? = some it
  word : im.code[p]? = some w
  stands : it.Stands ((Ledger.program natives src.tree).finalLinking im) p w
  admits : it.Admits natives (Scopes.Calls ((q :: t).map Level.scope)) (q.block.shapeAt natives p)
  next : q.block.shapeAt natives (p + 1) = it.after natives (q.block.shapeAt natives p)

namespace Compiled

variable {natives : Registry} {src : Scoped} {im : Image} {q : Level} {t : List Level} {p : Nat}

/-- The blocks of a compiled program lie in order. -/
theorem placed (_ : Compiled natives src im) : (Ledger.program natives src.tree).Placed :=
  Ledger.placed_program natives src.tree

/-- There is an item at every address of a block. -/
theorem located (hc : Compiled natives src im) (hq : q :: t ∈ src.sites natives)
    (hlow : q.block.entry ≤ p) (hhigh : p ≤ q.block.exit) :
    ∃ it w, Located natives src im q t p it w := by
  have hexit := q.block.exit_eq
  have hlt : p - q.block.entry < q.block.code.length := by omega
  have hitem := List.getElem?_eq_getElem hlt
  obtain ⟨w, hword, hstands⟩ :=
    hc.holds.codeAt_block hc.placed (Scoped.mem_blocks hq) _ _ hitem
  rw [Nat.add_sub_cancel' hlow] at hword hstands
  have hsettles := hc.program.settles hq hc.holds hc.few
  refine ⟨_, w, hitem, hword, hstands, hsettles.goes.flows.admits hitem, ?_⟩
  unfold Block.shapeAt
  rw [show p + 1 - q.block.entry = p - q.block.entry + 1 by omega, shapeAfter_take_succ hitem]

/-- Addresses of blocks are addresses of words. -/
theorem exit_lt (hc : Compiled natives src im) (hq : q :: t ∈ src.sites natives) :
    q.block.exit + 1 < 2 ^ 63 := by
  have hends := hc.placed.ends _ (Scoped.mem_blocks hq)
  have hstart := hc.placed.start
  have hsize := hc.holds.size
  have hbound := hc.holds.bound
  omega

/-- A frame is not larger than an operand can say. -/
theorem frameSize_lt (hc : Compiled natives src im) (hq : q :: t ∈ src.sites natives) :
    q.frameSize < 2 ^ 62 := by
  have hcode := hc.holds.codeAt_block hc.placed (Scoped.mem_blocks hq)
  rw [q.block.code_eq, codeAt_cons] at hcode
  obtain ⟨⟨w, -, -, -, hsize⟩, -⟩ := hcode
  have hmax := w.operand2_le
  simp only [maxOperand2] at hmax
  unfold Level.frameSize
  rw [toNatClampNeg_eq, ← hsize]
  omega

/-- In a compiled program, nothing is above the frame where a block returns. -/
theorem shapeAt_exit (hc : Compiled natives src im) (hq : q :: t ∈ src.sites natives) :
    q.block.shapeAt natives q.block.exit = [] := by
  obtain ⟨nested, hfits⟩ := (hc.program.nested_cons hq).fits
  exact Block.shapeAt_exit (hc.program.surroundings hq hc.holds hc.few) hfits.body
    (hc.program.accepted hq hc.holds)

end Compiled

/-! ## Order -/

/-- A machine is at an address in the code of the newest activation, with a given shape above its
frame. -/
structure Inside (natives : Registry) (src : Scoped) (m : Machine) (a : Activation)
    (rest : List Activation) (s : Shape) (p : Nat) : Prop where
  live : Live natives src m.image.typedConstants.size (a :: rest)
  mp : m.mp = Int64.ofNat a.base
  pc : m.pc = Int64.ofNat p
  low : a.level.block.entry < p
  high : p ≤ a.level.block.exit
  keeps : ∃ heap, Keeps m (a.top + Shape.height s) heap (guards natives (a :: rest) s)

/-- A machine is at the entry of the newest activation, with the arguments above its mark. -/
structure Entering (natives : Registry) (src : Scoped) (m : Machine) (a : Activation)
    (rest : List Activation) : Prop where
  live : Live natives src m.image.typedConstants.size (a :: rest)
  mp : m.mp = Int64.ofNat a.base
  pc : m.pc = Int64.ofNat a.level.block.entry
  keeps : ∃ arguments heap,
    Keeps m (a.base + markSize + arguments) heap (guards natives (a :: rest) [])

/-- The stack of a machine is that of some live activations.  Without any, the machine is at the
instructions that call the program. -/
inductive Ordered (natives : Registry) (src : Scoped) (m : Machine) : List Activation → Prop where
  | idle {heap : Nat} : m.mp = 0 →
      m.pc = Int64.ofNat (src.launch natives) ∨ m.pc = Int64.ofNat (src.launch natives + 2) →
      Keeps m m.image.typedConstants.size heap [] → Ordered natives src m []
  | launching {heap : Nat} : m.mp = 0 → m.pc = Int64.ofNat (src.launch natives + 1) →
      Keeps m (m.image.typedConstants.size + markSize) heap
        (linkWords m.image.typedConstants.size 0 0) → Ordered natives src m []
  | entering {a : Activation} {rest : List Activation} : Entering natives src m a rest →
      Ordered natives src m (a :: rest)
  | inside {a : Activation} {rest : List Activation} {p : Nat} :
      Inside natives src m a rest (a.level.block.shapeAt natives p) p →
      Ordered natives src m (a :: rest)

/-- A machine waits for a line in the code of the newest activation, where its result is expected on
top of the stack. -/
inductive Awaiting (natives : Registry) (src : Scoped) (m : Machine) : List Activation → Prop where
  | inside {a : Activation} {rest : List Activation} {p : Nat} {s : Shape} :
      a.level.block.shapeAt natives p = .word :: s → Inside natives src m a rest s p →
      Awaiting natives src m (a :: rest)

/-- A machine is stopped, or its stack is in order while it runs or waits for a line. -/
inductive Underway (natives : Registry) (src : Scoped) (m : Machine) (acts : List Activation) :
    Prop where
  | stopped : m.state = .stopped → Underway natives src m acts
  | running : m.state = .running → m.reader = none → Ordered natives src m acts →
      Underway natives src m acts
  | waiting : m.state = .suspended → m.reader = some (.native Library.lineArrived) →
      Awaiting natives src m acts → Underway natives src m acts

/-- A running machine that waits for no line. -/
structure Machine.Active (m : Machine) : Prop where
  state : m.state = .running
  reader : m.reader = none

/-- A machine with the registers, the image and the state of another, apart from the top of the
stack and the address of the next instruction. -/
structure Machine.Abreast (m m' : Machine) : Prop where
  image : m'.image = m.image
  mp : m'.mp = m.mp
  state : m'.state = m.state
  reader : m'.reader = m.reader

namespace Machine

variable {m m' b : Machine} {top heap n : Nat} {kept : List (Nat × Value)}

/-- Fetching an instruction keeps guarded words. -/
theorem Keeps.fetched (h : Keeps m top heap kept) (w : Word) : Keeps (m.fetched w) top heap kept :=
  h.transfer rfl rfl rfl rfl

/-- Fetching an instruction moves on to the next address. -/
theorem fetched_pc {p : Nat} (h : m.pc = Int64.ofNat p) (w : Word) :
    (m.fetched w).pc = Int64.ofNat (p + 1) := by
  rw [← ofNat_succ, ← h]
  rfl

/-- Machines that agree in all that operands do not touch are abreast. -/
theorem Abreast.of_still (h : m'.still = m.still) : Abreast m m' where
  image := (congrArg Machine.image h :)
  mp := (congrArg Machine.mp h :)
  state := (congrArg Machine.state h :)
  reader := (congrArg Machine.reader h :)

/-- Machines stay abreast step by step. -/
theorem Abreast.trans {m₁ m₂ : Machine} (h₁ : Abreast m m₁) (h₂ : Abreast m₁ m₂) :
    Abreast m m₂ where
  image := h₂.image.trans h₁.image
  mp := h₂.mp.trans h₁.mp
  state := h₂.state.trans h₁.state
  reader := h₂.reader.trans h₁.reader

/-- A machine abreast of an active one is active. -/
theorem Abreast.active (h : Abreast m m') (hm : m.Active) : m'.Active :=
  ⟨h.state.trans hm.state, h.reader.trans hm.reader⟩

/-- Fetching an instruction leaves a machine abreast. -/
theorem abreast_fetched (m : Machine) (w : Word) : Abreast m (m.fetched w) :=
  ⟨rfl, rfl, rfl, rfl⟩

private theorem Operands.jump (h : Operands b top heap kept n m) (target : Int64) :
    Operands { b with pc := target } top heap kept n { m with pc := target } where
  keeps := h.keeps.transfer rfl rfl rfl rfl
  base := h.base
  below := h.below
  still := (congrArg (fun m : Machine => { m with pc := target }) h.still :)

/-- A word that reads as an instruction is executed as that. -/
theorem execute_of_reads {w : Word} {o : Opcode} {x y : Int} (h : w.Reads o x y) :
    execute w = perform o w.operand1 w.operand2 := by
  unfold execute
  rw [h.1, Opcode.ofByte?_byte]

end Machine

/-! ## Stores -/

/-- A word that a program may store to while some activations are live: a declared word of one of
their frames, a typed constant below the stack, or a word of a block. -/
def Permitted (words : Nat) (acts : List Activation) (m : Machine) (x : Int64) : Prop :=
  (∃ c ∈ acts, c.level.scope.Declares (x.toInt - c.base)) ∨ (0 ≤ x.toInt ∧ x.toInt < words) ∨
    Payload m.store m.np.toNatClampNeg x.toNatClampNeg

/-- The stores that an instruction makes: the machine at the time and the address. -/
def Machine.stores (m : Machine) (w : Word) : List (Machine × Int64) :=
  match Opcode.ofByte? w.opcode with
  | some .sti => m.indirectStores
  | some .csp => storesAmong (m.callAccesses w.operand1 w.operand2)
  | _ => []

private theorem Machine.stores_of_reads {m : Machine} {w : Word} {o : Opcode} {x y : Int}
    (h : w.Reads o x y) : m.stores w =
      match o with
      | .sti => m.indirectStores
      | .csp => storesAmong (m.callAccesses w.operand1 w.operand2)
      | _ => [] := by
  unfold stores
  rw [h.1, Opcode.ofByte?_byte]
  cases o <;> rfl

section

variable {natives : Registry} {src : Scoped} {im : Image} {m m' : Machine} {a : Activation}
  {rest : List Activation} {s : Shape} {p n : Nat} {w : Word}

/-- Storing to a permitted word does no harm. -/
theorem Live.clear_of_permitted {words : Nat} {x : Int64} (hp : src.Program natives)
    (h : Live natives src words (a :: rest)) (s : Shape)
    (hx : Permitted words (a :: rest) m x) :
    Clear (a.top + Shape.height s) (guards natives (a :: rest) s) m x := by
  have hbase := h.words_le
  have htop : a.base ≤ a.top := Nat.le_add_right ..
  rcases hx with ⟨c, hc, hdeclares⟩ | ⟨hlow, hhigh⟩ | hpayload
  · have hsite := h.chain_mem hc
    rw [c.chain_eq] at hsite
    obtain ⟨hsize, hfive⟩ := hp.frameSize_eq hsite
    have hrange := Scope.declares_range (hp.built hsite _ (.head _)) hdeclares
    have hmark : markSize = 5 := rfl
    have hcsize : c.top = c.base + c.level.frameSize := rfl
    have hle : c.top ≤ a.top := by
      rcases List.mem_cons.mp hc with rfl | hc
      · exact Nat.le_refl _
      · exact Nat.le_trans (h.top_le c hc) htop
    have hword : x.toInt.toNat = c.base ∨
        c.base + markSize ≤ x.toInt.toNat ∧ x.toInt.toNat < c.top := by omega
    refine .inl ⟨by omega, fun q hq heq => ?_⟩
    exact h.clear hp hc hword s q hq (by omega)
  · refine .inl ⟨by omega, fun q hq => ?_⟩
    have := h.le_guards s q hq
    omega
  · exact .inr hpayload

/-! ## New activations -/

/-- The activation of a subprogram that is called over a shape. -/
def Activation.opening (a : Activation) (q : Level) (level : Nat) (s : Shape) (back : Nat) :
    Activation :=
  ⟨⟨q, a.top + Shape.height s⟩, a.frames.drop level, back⟩

private theorem Activation.under_opening {q : Level} {level back : Nat}
    (h : a.level.block.shapeAt natives back = Shape.words q.results ++ s) :
    (a.opening q level s back).under natives (a :: rest) = s := by
  have hdrop : (a.level.block.shapeAt natives back).drop q.results = s := by
    rw [h, Shape.drop_words]
  exact hdrop

private theorem Activation.staticLink_opening {q : Level} {level back : Nat}
    (h : level < a.frames.length) :
    (a.opening q level s back).staticLink = (a.frames[level]).base := by
  rw [staticLink, opening, List.head?_drop, List.getElem?_eq_getElem h]
  rfl

/-- What is called in the scopes around the newest activation can be live. -/
theorem Live.opening {q : Level} {level back words : Nat} (h : Live natives src words (a :: rest))
    (hq : q :: a.chain.drop level ∈ src.sites natives) (hlow : a.level.block.entry < back)
    (hhigh : back ≤ a.level.block.exit)
    (hnext : a.level.block.shapeAt natives back = Shape.words q.results ++ s) :
    Live natives src words (a.opening q level s back :: a :: rest) := by
  refine .call h ?_ ⟨hlow, hhigh, ?_, ?_, level, rfl⟩
  · rw [Activation.chain_eq, Activation.opening, List.map_drop]
    exact hq
  · rw [Activation.under_opening hnext]
    exact hnext
  · rw [Activation.under_opening hnext]
    rfl

/-- The words that activations rely on while a call is prepared: the links of its mark, and those
below it. -/
theorem mem_guards_mark {level : Nat} {x : Nat × Value} (h : level < a.frames.length) :
    x ∈ guards natives (a :: rest) (Shape.words n ++ .mark level :: s) ↔
      x = (a.top + Shape.height s + markStaticLink,
        .ofInt (Int64.ofNat (a.frames[level]).base)) ∨
      x = (a.top + Shape.height s + markDynamicLink, .ofInt (Int64.ofNat a.base)) ∨
      x ∈ guards natives (a :: rest) s := by
  rw [guards_words, guards, Activation.pendingWords, List.getElem?_eq_getElem h]
  simp only [Option.map_some, Option.toList_some, List.cons_append, List.nil_append, List.mem_cons,
    guards]

/-! ## Inside a subprogram -/

/-- What an instruction makes of a machine: the image is the same, and the stack is in order for
some activations, unless the machine is stopped. -/
def Continues (natives : Registry) (src : Scoped) (m : Machine) (acts : List Activation)
    (m' : Machine) : Prop :=
  m'.image = m.image ∧ Underway natives src m' acts

namespace Inside

/-- The chain of the active frame is one of the program. -/
theorem chain_mem (h : Inside natives src m a rest s p) :
    a.level :: a.outer.map Frame.level ∈ src.sites natives :=
  h.live.chain_mem (.head _)

/-- Operands on top of the shape are operands of the next instruction. -/
theorem operands (hp : src.Program natives) (h : Inside natives src m a rest (Shape.words n ++ s) p)
    (w : Word) : ∃ heap, Operands (m.fetched w) (a.top + Shape.height s) heap
      (guards natives (a :: rest) s) n (m.fetched w) := by
  obtain ⟨heap, hkeeps⟩ := h.keeps
  rw [guards_words, Shape.height_append, Shape.height_words, Nat.add_comm n, ← Nat.add_assoc]
    at hkeeps
  have hwords := h.live.words_le
  have htop : a.base ≤ a.top := Nat.le_add_right ..
  have hbase : m.image.typedConstants.size ≤ a.top + Shape.height s := by omega
  exact ⟨heap, hkeeps.fetched w, hbase, h.live.guards_below hp s, rfl⟩

/-- The machine is at an address of the block, with a shape above the same frame. -/
theorem moved {s₀ : Shape} {p' heap : Nat} (h : Inside natives src m a rest s₀ p)
    (himage : m'.image = m.image) (hmp : m'.mp = m.mp) (hpc : m'.pc = Int64.ofNat p')
    (hlow : a.level.block.entry < p') (hhigh : p' ≤ a.level.block.exit)
    (hkeeps : Keeps m' (a.top + Shape.height s) heap (guards natives (a :: rest) s)) :
    Inside natives src m' a rest s p' where
  live := by
    rw [himage]
    exact h.live
  mp := hmp.trans h.mp
  pc := hpc
  low := hlow
  high := hhigh
  keeps := ⟨heap, hkeeps⟩

/-- A machine goes on at an address of the block with operands on top of a shape. -/
theorem onward {b : Machine} {s₀ : Shape} {p' heap : Nat} (h : Inside natives src m a rest s₀ p)
    (hactive : m.Active) (hb : Abreast m b)
    (ho : Operands b (a.top + Shape.height s) heap (guards natives (a :: rest) s) n m')
    (hpc : b.pc = Int64.ofNat p') (hlow : a.level.block.entry < p')
    (hhigh : p' ≤ a.level.block.exit)
    (hshape : a.level.block.shapeAt natives p' = Shape.words n ++ s) :
    Continues natives src m (a :: rest) m' := by
  have habreast := hb.trans (.of_still ho.still)
  have hactive' := habreast.active hactive
  refine ⟨habreast.image, .running hactive'.state hactive'.reader (.inside (p := p') ?_)⟩
  have hkeeps : Keeps m' (a.top + Shape.height (Shape.words n ++ s)) heap
      (guards natives (a :: rest) (Shape.words n ++ s)) := by
    rw [guards_words, Shape.height_append, Shape.height_words, Nat.add_comm n, ← Nat.add_assoc]
    exact ho.keeps
  rw [← hshape] at hkeeps
  exact h.moved habreast.image habreast.mp ((congrArg Machine.pc ho.still :).trans hpc) hlow hhigh
    hkeeps

/-- A machine goes on after a native procedure, or waits for the line that is its result. -/
theorem served {b : Machine} {s₀ : Shape} {p' : Nat} (h : Inside natives src m a rest s₀ p)
    (hb : Abreast m b)
    (hs : Served b (a.top + Shape.height s) (guards natives (a :: rest) s) n m')
    (hpc : b.pc = Int64.ofNat p') (hlow : a.level.block.entry < p')
    (hhigh : p' ≤ a.level.block.exit)
    (hshape : a.level.block.shapeAt natives p' = Shape.words n ++ s) :
    Continues natives src m (a :: rest) m' := by
  have himage := hs.image.trans hb.image
  rcases hs.outcome with hstopped | ⟨hpc', hmp, heap, ⟨hstate, hreader, hkeeps⟩ | hwaits⟩
  · exact ⟨himage, .stopped hstopped⟩
  · have hkeeps' : Keeps m' (a.top + Shape.height (Shape.words n ++ s)) heap
        (guards natives (a :: rest) (Shape.words n ++ s)) := by
      rwa [guards_words, Shape.height_append, Shape.height_words, Nat.add_comm n, ← Nat.add_assoc]
    rw [← hshape] at hkeeps'
    refine ⟨himage, .running hstate hreader (.inside (p := p') ?_)⟩
    exact h.moved himage (hmp.trans hb.mp) (hpc'.trans hpc) hlow hhigh hkeeps'
  · obtain ⟨hstate, hreader, rfl, hkeeps⟩ := hwaits
    refine ⟨himage, .waiting hstate hreader (.inside hshape ?_)⟩
    exact h.moved himage (hmp.trans hb.mp) (hpc'.trans hpc) hlow hhigh hkeeps

/-- An instruction on operands replaces them by its results. -/
theorem executes_operands (hp : src.Program natives) {o : Opcode} {popped pushed : Nat} {x y : Int}
    (h : Inside natives src m a rest (Shape.words popped ++ s) p) (hactive : m.Active)
    (hlt : p < a.level.block.exit) (hw : w.Reads o x y) (harity : o.arity? = some (popped, pushed))
    (hnext : a.level.block.shapeAt natives (p + 1) = Shape.words pushed ++ s)
    (hstores : ∀ q ∈ (m.fetched w).stores w,
      Permitted m.image.typedConstants.size (a :: rest) q.1 q.2) :
    Meets (execute w) (m.fetched w) fun _ => Continues natives src m (a :: rest) := by
  obtain ⟨heap, hoperands⟩ := h.operands hp w
  rw [execute_of_reads hw]
  rw [stores_of_reads hw] at hstores
  refine (meets_operands harity _ _ hoperands ?_).mono fun _ m' ho => ?_
  · rintro rfl q hq
    exact h.live.clear_of_permitted hp s (hstores q hq)
  · have hlow := h.low
    exact h.onward hactive (abreast_fetched m w) ho (fetched_pc h.pc w) (by omega) hlt hnext

/-- A native procedure replaces its arguments by its result. -/
theorem executes_native (hc : Compiled natives src im) {count : Nat} {native : Native} {x y : Int}
    (himage : m.image = im) (h : Inside natives src m a rest (Shape.words count ++ s) p)
    (hactive : m.Active) (hlt : p < a.level.block.exit) (hw : w.Reads .csp x y)
    (hcount : w.operand1 = count) (hnative : natives.at? w.operand2 = some native)
    (hnext : a.level.block.shapeAt natives (p + 1) =
      Shape.words (Item.results native.isFunction) ++ s)
    (hstores : ∀ q ∈ (m.fetched w).stores w,
      Permitted m.image.typedConstants.size (a :: rest) q.1 q.2) :
    Meets (execute w) (m.fetched w) fun _ => Continues natives src m (a :: rest) := by
  obtain ⟨heap, hoperands⟩ := h.operands hc.program w
  have hknown : (m.fetched w).image.natives.at? w.operand2 = some native := by
    rw [(abreast_fetched m w).image, himage, hc.holds.natives, Ledger.program_natives]
    exact hnative
  rw [stores_of_reads hw, hcount] at hstores
  rw [execute_of_reads hw, hcount]
  refine (meets_callNative hoperands.keeps hoperands.base hoperands.below hknown
    (Library.tame_or_readLn (fun _ => trivial) (hc.standard _ _ hnative)) hactive.state
    hactive.reader fun q hq => h.live.clear_of_permitted hc.program s (hstores q hq)).mono
      fun _ m' hserved => ?_
  have hlow := h.low
  exact h.served (abreast_fetched m w) hserved (fetched_pc h.pc w) (by omega) hlt hnext

/-- A mark is put on top of the shape. -/
theorem executes_mark (hp : src.Program natives) (h : Inside natives src m a rest s p)
    (hactive : m.Active) (hlt : p < a.level.block.exit) {x y : Int} (hw : w.Reads .mst x y)
    (hnext : a.level.block.shapeAt natives (p + 1) = .mark w.operand1 :: s) :
    Meets (execute w) (m.fetched w) fun _ => Continues natives src m (a :: rest) := by
  obtain ⟨heap, hkeeps⟩ := h.keeps
  have hfetched := hkeeps.fetched w
  have hlow := h.low
  have hwords := h.live.words_le
  have htop : a.base ≤ a.top := Nat.le_add_right ..
  rw [execute_of_reads hw]
  refine (meets_markStack hfetched w.operand1).mono fun _ m' ⟨hstill, link, hlink, hmarked⟩ => ?_
  have hheight : Shape.height (.mark w.operand1 :: s) = Shape.height s + markSize := by
    rw [Shape.height_cons, Nat.add_comm]
    rfl
  have hmarked' : Keeps m' (a.top + Shape.height (.mark w.operand1 :: s)) heap
      (guards natives (a :: rest) (.mark w.operand1 :: s)) := by
    rw [hheight, ← Nat.add_assoc]
    refine hmarked.subset fun q hq => ?_
    simp only [guards, Activation.pendingWords, List.append_assoc, List.cons_append,
      List.mem_append, List.mem_cons] at hq ⊢
    rcases hq with hq | rfl | hq
    · obtain ⟨f, hf, rfl⟩ : ∃ f, a.frames[w.operand1]? = some f ∧
          (a.top + Shape.height s + markStaticLink, Value.ofInt (Int64.ofNat f.base)) = q := by
        simpa using hq
      have houter := hfetched.outerFrame_eq h.live (.head _) hf
      have hframe : frame w.operand1 (m.fetched w) =
          outerFrame w.operand1 (Int64.ofNat a.base) (m.fetched w) := by
        rw [← h.mp]
        rfl
      rw [hframe, houter] at hlink
      obtain rfl : Int64.ofNat f.base = link := (EStateM.Result.ok.inj hlink).1
      exact .inl rfl
    · exact .inr (.inl (by rw [(abreast_fetched m w).mp, h.mp]))
    · exact .inr (.inr hq)
  refine h.onward (n := 0) hactive (abreast_fetched m w)
    ⟨hmarked', ?_, h.live.guards_below hp _, hstill⟩ (fetched_pc h.pc w) (by omega) hlt hnext
  rw [(abreast_fetched m w).image]
  omega

/-- A jump leads to another address of the block where nothing is above the frame. -/
theorem executes_jump (hp : src.Program natives) (h : Inside natives src m a rest [] p)
    (hactive : m.Active) {x y : Int} (hw : w.Reads .ujp x y)
    (hlow : a.level.block.entry < w.operand2)
    (hhigh : w.operand2 ≤ a.level.block.exit)
    (hshape : a.level.block.shapeAt natives w.operand2 = []) :
    Meets (execute w) (m.fetched w) fun _ => Continues natives src m (a :: rest) := by
  obtain ⟨heap, hoperands⟩ := operands (n := 0) (s := []) hp h w
  rw [execute_of_reads hw]
  refine meets_of_eq (a := ()) rfl ?_
  exact h.onward (b := { m.fetched w with pc := Int64.ofNat w.operand2 }) hactive
    ⟨rfl, rfl, rfl, rfl⟩ (hoperands.jump _) rfl hlow hhigh hshape

/-- A branch pops a word and leads on, or to another address of the block. -/
theorem executes_branch (hp : src.Program natives) (h : Inside natives src m a rest [.word] p)
    (hactive : m.Active) (hlt : p < a.level.block.exit)
    (hnext : a.level.block.shapeAt natives (p + 1) = []) {o : Opcode} {x y : Int}
    (ho : o = .fjp ∨ o = .tjp) (hw : w.Reads o x y) (hlow : a.level.block.entry < w.operand2)
    (hhigh : w.operand2 ≤ a.level.block.exit)
    (hshape : a.level.block.shapeAt natives w.operand2 = []) :
    Meets (execute w) (m.fetched w) fun _ => Continues natives src m (a :: rest) := by
  obtain ⟨heap, hoperands⟩ := operands (n := 1) (s := []) hp h w
  have hbranch : ∃ truth, execute w = jumpIf truth w.operand2 := by
    rw [execute_of_reads hw]
    rcases ho with rfl | rfl
    · exact ⟨false, rfl⟩
    · exact ⟨true, rfl⟩
  obtain ⟨truth, hexecute⟩ := hbranch
  have hbelow := h.low
  rw [hexecute]
  refine (hoperands.jumpIf truth w.operand2).mono fun _ m' ⟨m₁, hpopped, hm'⟩ => ?_
  rcases hm' with rfl | rfl
  · exact h.onward hactive (abreast_fetched m w) hpopped (fetched_pc h.pc w) (by omega) hlt hnext
  · exact h.onward (b := { m.fetched w with pc := Int64.ofNat w.operand2 }) hactive
      ⟨rfl, rfl, rfl, rfl⟩ (hpopped.jump _) rfl hlow hhigh hshape

/-- A call makes the mark below its arguments the frame of a new activation. -/
theorem executes_call (hp : src.Program natives) {level : Nat} {q : Level} {x y : Int}
    (h : Inside natives src m a rest (Shape.words n ++ .mark level :: s) p)
    (hactive : m.Active) (hlt : p < a.level.block.exit) (hlevel : level < a.frames.length)
    (hq : q :: a.chain.drop level ∈ src.sites natives) (hw : w.Reads .cup x y)
    (hcount : w.operand1 = n) (hentry : w.operand2 = q.block.entry)
    (hnext : a.level.block.shapeAt natives (p + 1) = Shape.words q.results ++ s) :
    Meets (execute w) (m.fetched w) fun _ =>
      Continues natives src m (a.opening q level s (p + 1) :: a :: rest) := by
  have hlow := h.low
  have hwords := h.live.words_le
  have htop : a.base ≤ a.top := Nat.le_add_right ..
  have hlive := h.live.opening hq (by omega) hlt hnext
  have hfour : markReturnAddress = 4 := rfl
  obtain ⟨heap, hkeeps⟩ := h.keeps
  have hfetched := hkeeps.fetched w
  rw [Shape.height_append, Shape.height_words, Shape.height_cons, Slot.size,
    show a.top + (n + (markSize + Shape.height s)) = a.top + Shape.height s + markSize + n by omega]
    at hfetched
  rw [execute_of_reads hw, hcount, hentry]
  refine (meets_callUser hfetched ?_ ?_ q.block.entry).mono fun _ m' hcall => ?_
  · rw [(abreast_fetched m w).image]
    omega
  · intro x hx heq
    rcases (mem_guards_mark hlevel).mp hx with rfl | rfl | hx
    · simp only [markStaticLink] at heq
      omega
    · simp only [markDynamicLink] at heq
      omega
    · have := h.live.guards_below hp s x hx
      omega
  obtain ⟨hcalled, hm'⟩ := hcall
  have himage : m'.image = m.image := by rw [hm']; rfl
  have hactive' : m'.Active := by
    rw [hm']
    exact ⟨hactive.state, hactive.reader⟩
  refine ⟨himage, .running hactive'.state hactive'.reader (.entering ⟨?_, ?_, ?_, n, heap, ?_⟩)⟩
  · rw [himage]
    exact hlive
  · rw [hm']
    rfl
  · rw [hm']
    rfl
  · refine hcalled.subset fun x hx => ?_
    rw [guards, Activation.under_opening hnext, Activation.pendingWords, List.nil_append,
      List.mem_append, Activation.markWords, linkWords, Activation.staticLink_opening hlevel] at hx
    rw [List.mem_cons, mem_guards_mark hlevel, fetched_pc h.pc w]
    rcases hx with hx | hx
    · simp only [List.mem_cons, List.not_mem_nil, or_false] at hx
      rcases hx with rfl | rfl | rfl
      · exact .inl rfl
      · exact .inr (.inl rfl)
      · exact .inr (.inr (.inl rfl))
    · exact .inr (.inr (.inr hx))

/-- A return takes the newest frame away, and leaves the result. -/
theorem executes_return (hc : Compiled natives src im) (h : Inside natives src m a rest [] p)
    (hactive : m.Active) {code : UInt8} {x y : Int} (hw : w.Reads .rtn x y)
    (hcode : Gen.returnCode? a.level.block.header = some code)
    (hoperand : w.operand1 = code.toNat) :
    Meets (execute w) (m.fetched w) fun _ => Continues natives src m rest := by
  obtain ⟨heap, hkeeps⟩ := h.keeps
  have hresults := hc.program.results_eq h.chain_mem hcode
  have hsize := h.live.markSize_le hc.program (.head _)
  have htop : a.top = a.base + a.level.frameSize := rfl
  rw [execute_of_reads hw, perform, hoperand, UInt8.ofNat_toNat]
  have hdynamic : (a.base + markDynamicLink, Value.ofInt (Int64.ofNat (markPointer rest))) ∈
      guards natives (a :: rest) [] := by
    simp [guards, Activation.markWords, linkWords]
  have hreturn : (a.base + markReturnAddress, Value.ofInt (Int64.ofNat a.back)) ∈
      guards natives (a :: rest) [] := by
    simp [guards, Activation.markWords, linkWords]
  have hkept : ∀ q ∈ guards natives rest (a.under natives rest),
      q ∈ guards natives (a :: rest) [] ∧ q.1 < a.base :=
    fun q hq => ⟨by simp [guards, hq], h.live.guards_lt hc.program q hq⟩
  refine (meets_leave (hkeeps.fetched w) h.mp ?_ hdynamic hreturn h.live.words_le hkept code).mono
    fun _ m' hleave => ?_
  · rw [Shape.height_nil]
    omega
  obtain ⟨hleft, hm'⟩ := hleave
  have himage : m'.image = m.image := by rw [hm']; rfl
  have hactive' : m'.Active := by
    rw [hm']
    exact ⟨hactive.state, hactive.reader⟩
  have hmp : m'.mp = Int64.ofNat (markPointer rest) := by rw [hm']
  have hpc : m'.pc = Int64.ofNat a.back := by rw [hm']
  rw [← hresults] at hleft
  refine ⟨himage, .running hactive'.state hactive'.reader ?_⟩
  cases hlive : h.live with
  | main hchain hbase hback =>
    -- The program itself leaves no word.
    have hroot : a.level = src.root natives := (List.cons.inj hchain).1
    have hzero : a.level.results = 0 := by
      have hsymbol : a.level.block.header.symbol = none := by
        rw [hroot]
        exact src.root_symbol natives ▸ hc.program.symbol
      rw [Level.results, hsymbol]
    rw [hzero, hbase, ← himage] at hleft
    exact .idle hmp (.inr (hback ▸ hpc)) hleft
  | @call _ c rest hrest hchain hcalled =>
    refine .inside (p := a.back) ⟨?_, hmp, hpc, hcalled.low, hcalled.high, heap, ?_⟩
    · rw [himage]
      exact hrest
    · rw [hcalled.shape, guards_words, Shape.height_append, Shape.height_words,
        Nat.add_comm a.level.results, ← Nat.add_assoc, ← hcalled.base]
      exact hleft

end Inside

/-- The entry instruction makes room for the frame of a new activation. -/
theorem Entering.executes (hc : Compiled natives src im) (h : Entering natives src m a rest)
    (hactive : m.Active) {x : Int} (hw : w.Reads .ent x a.level.block.header.frameSize.toInt)
    (hregister : w.operand1 = 0)
    (hnext : a.level.block.shapeAt natives (a.level.block.entry + 1) = []) :
    Meets (execute w) (m.fetched w) fun _ => Continues natives src m (a :: rest) := by
  obtain ⟨arguments, heap, hkeeps⟩ := h.keeps
  have hsite := h.live.chain_mem (.head _)
  rw [a.chain_eq] at hsite
  have hsize := hc.frameSize_lt hsite
  have hwords := h.live.words_le
  have hamount : w.operand2 = a.level.frameSize := by
    have hoperand := hw.2.2
    rw [Level.frameSize, toNatClampNeg_eq]
    omega
  have hexit := a.level.block.exit_eq_inside
  have hbelow := h.live.guards_below hc.program []
  rw [Shape.height_nil, Nat.add_zero] at hbelow
  rw [execute_of_reads hw, perform, hregister, hamount]
  refine (meets_enter (hkeeps.fetched w) h.mp ?_ (by omega) hsize hbelow).mono
    fun _ m' ⟨hentered, hstill⟩ => ?_
  · rw [(abreast_fetched m w).image]
    omega
  have habreast := (abreast_fetched m w).trans (.of_still hstill)
  have hactive' := habreast.active hactive
  refine ⟨habreast.image, .running hactive'.state hactive'.reader
    (.inside (p := a.level.block.entry + 1) ⟨?_, habreast.mp.trans h.mp, ?_, ?_, ?_, heap, ?_⟩)⟩
  · rw [habreast.image]
    exact h.live
  · exact (congrArg Machine.pc hstill :).trans (fetched_pc h.pc w)
  · omega
  · omega
  · rw [hnext, Shape.height_nil, Nat.add_zero]
    exact hentered

end

end PCode
