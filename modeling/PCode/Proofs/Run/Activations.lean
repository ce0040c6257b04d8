import PCode.Proofs.Codegen.Chains
import PCode.Proofs.Codegen.Transfers
import PCode.Proofs.Machine.Instructions

/-!
# Activations

A subprogram that was called and has not returned is active.  An activation has
a frame, and knows the frames of the subprograms around it, in which the
variables are that its body may name: the callee of a call finds them among
those of the caller.  This module says where the frames of all live activations
lie on the stack, and which words must not change as long as they are live.

Main definitions and results:

- `Activation`, `Live`: the activations that can be live, the newest first.
- `guards`: the words of marks that the activations rely on.
- `Live.clear`: variables of live frames are none of these words.
- `Live.frame_eq`: following static links leads to the frames around an activation.
-/

namespace PCode

/-! ## Frames -/

/-- The frame of an activation: the subprogram and the address of the first word. -/
structure Frame where
  level : Level
  base : Nat
  deriving Inhabited

/-- The number of words of the frames of a subprogram. -/
def Level.frameSize (q : Level) : Nat := q.block.header.frameSize.toNatClampNeg

/-- A call that has not returned: its frame, the frames of the subprograms around it from the
innermost on, and the address where its caller goes on. -/
structure Activation where
  frame : Frame
  outer : List Frame
  back : Nat
  deriving Inhabited

namespace Activation

/-- The frames whose variables an activation can name. -/
def frames (a : Activation) : List Frame := a.frame :: a.outer

/-- Where the subprogram of an activation lies in the program. -/
def level (a : Activation) : Level := a.frame.level

/-- The base of the frame of an activation. -/
def base (a : Activation) : Nat := a.frame.base

/-- The end of the frame. -/
def top (a : Activation) : Nat := a.base + a.level.frameSize

/-- The subprogram with those around it. -/
def chain (a : Activation) : List Level := a.frames.map Frame.level

/-- The base of the innermost frame around the own one, or zero. -/
def staticLink (a : Activation) : Nat := (a.outer.head?.map Frame.base).getD 0

/-- The chain of an activation starts with its own level. -/
theorem chain_eq (a : Activation) : a.chain = a.level :: a.outer.map Frame.level := rfl

/-- A chain has a level for each frame. -/
theorem length_chain (a : Activation) : a.chain.length = a.frames.length := List.length_map _

end Activation

/-- The mark pointer while some activations are live. -/
def markPointer : List Activation → Nat
  | [] => 0
  | a :: _ => a.base

/-- What a caller has on the stack above its frame and below the mark of its callee. -/
def Activation.under (natives : Registry) (a : Activation) : List Activation → Shape
  | [] => []
  | c :: _ => (c.level.block.shapeAt natives a.back).drop a.level.results

/-! ## Guarded words -/

/-- The links of a mark at an address. -/
def linkWords (place static dynamic : Nat) : List (Nat × Value) :=
  [(place + markStaticLink, .ofInt (Int64.ofNat static)),
    (place + markDynamicLink, .ofInt (Int64.ofNat dynamic))]

namespace Activation

/-- The words that an activation needs to return and to find the frames around it. -/
def markWords (a : Activation) (dynamic : Nat) : List (Nat × Value) :=
  (a.base + markReturnAddress, .ofInt (Int64.ofNat a.back)) :: linkWords a.base a.staticLink dynamic

/-- The links in the marks of the calls that an activation is preparing. -/
def pendingWords (a : Activation) : Shape → List (Nat × Value)
  | [] => []
  | .word :: s => a.pendingWords s
  | .mark level :: s =>
    (a.frames[level]?.map fun f =>
      (a.top + Shape.height s + markStaticLink, Value.ofInt (Int64.ofNat f.base))).toList ++
      (a.top + Shape.height s + markDynamicLink, .ofInt (Int64.ofNat a.base)) :: a.pendingWords s

/-- Operands on top are no marks. -/
@[simp]
theorem pendingWords_words (a : Activation) (n : Nat) (s : Shape) :
    a.pendingWords (Shape.words n ++ s) = a.pendingWords s := by
  induction n with
  | zero => rfl
  | succ n ih => exact ih

private theorem pendingWords_range {a : Activation} {s : Shape} {p : Nat × Value}
    (hp : p ∈ a.pendingWords s) : a.top ≤ p.1 ∧ p.1 < a.top + Shape.height s := by
  induction s with
  | nil => simp [pendingWords] at hp
  | cons x s ih =>
    rw [Shape.height_cons]
    cases x with
    | word =>
      have := ih hp
      omega
    | mark level =>
      have hfive : Slot.size (.mark level) = 5 := rfl
      rw [pendingWords, List.mem_append, List.mem_cons] at hp
      rcases hp with hp | rfl | hp
      · obtain ⟨f, -, rfl⟩ : ∃ f, a.frames[level]? = some f ∧
            (a.top + Shape.height s + markStaticLink, Value.ofInt (Int64.ofNat f.base)) = p := by
          simpa using hp
        simp only [markStaticLink]
        omega
      · simp only [markDynamicLink]
        omega
      · have := ih hp
        omega

private theorem markWords_cases {a : Activation} {dynamic : Nat} {p : Nat × Value}
    (hp : p ∈ a.markWords dynamic) : p.1 = a.base + 1 ∨ p.1 = a.base + 2 ∨ p.1 = a.base + 4 := by
  simp only [markWords, linkWords, List.mem_cons, List.not_mem_nil, or_false] at hp
  rcases hp with rfl | rfl | rfl
  · exact .inr (.inr rfl)
  · exact .inl rfl
  · exact .inr (.inl rfl)

end Activation

/-- The words of the stack that live activations rely on, given what is on the stack above the
frame of the newest. -/
def guards (natives : Registry) : List Activation → Shape → List (Nat × Value)
  | [], _ => []
  | a :: rest, s =>
    a.pendingWords s ++
      (a.markWords (markPointer rest) ++ guards natives rest (a.under natives rest))

/-- Operands on top are not guarded. -/
@[simp]
theorem guards_words (natives : Registry) (a : Activation) (rest : List Activation) (n : Nat)
    (s : Shape) :
    guards natives (a :: rest) (Shape.words n ++ s) = guards natives (a :: rest) s := by
  simp [guards]

/-! ## Live activations -/

/-- The address at which a program is started. -/
def Scoped.launch (natives : Registry) (src : Scoped) : Nat :=
  (({ natives } : Ledger).addSubprogram src.tree).items.length

/-- An activation was called by another: it returns to a place in the code of its caller, where its
results are on top of what was there, and its frame is above that. -/
structure Activation.CalledBy (natives : Registry) (a c : Activation) : Prop where
  low : c.level.block.entry < a.back
  high : a.back ≤ c.level.block.exit
  shape : c.level.block.shapeAt natives a.back =
    Shape.words a.level.results ++ a.under natives [c]
  base : a.base = c.top + Shape.height (a.under natives [c])
  /-- the frames around the callee are among those of the caller -/
  outer : ∃ level, a.outer = c.frames.drop level

/-- The activations that can be live in a program, the newest first, when a number of words is below
the stack. -/
inductive Live (natives : Registry) (src : Scoped) (words : Nat) : List Activation → Prop where
  | none : Live natives src words []
  | main {a : Activation} : a.chain = [src.root natives] → a.base = words →
      a.back = src.launch natives + 2 → Live natives src words [a]
  | call {a c : Activation} {rest : List Activation} : Live natives src words (c :: rest) →
      a.chain ∈ src.sites natives → a.CalledBy natives c → Live natives src words (a :: c :: rest)

namespace Live

variable {natives : Registry} {src : Scoped} {words : Nat} {a c : Activation}
  {acts rest : List Activation}

private theorem tail (h : Live natives src words (a :: rest)) : Live natives src words rest := by
  cases h with
  | main => exact .none
  | call h => exact h

/-- The chain of a live activation is one of the program. -/
theorem chain_mem (h : Live natives src words acts) (hc : c ∈ acts) :
    c.chain ∈ src.sites natives := by
  induction h with
  | none => simp at hc
  | main hchain =>
    rw [List.mem_singleton.mp hc, hchain]
    exact src.root_mem_sites natives
  | call _ hchain _ ih =>
    rcases List.mem_cons.mp hc with rfl | hc
    · exact hchain
    · exact ih hc

end Live

/-! ## Sizes of frames -/

namespace Scoped.Program

variable {natives : Registry} {src : Scoped} {q : Level} {t : List Level}

/-- A frame has the words that its scope asks for. -/
theorem frameSize_eq (hp : Program natives src) (h : q :: t ∈ src.sites natives) :
    (q.frameSize : Int) = q.scope.words ∧ markSize ≤ q.frameSize := by
  obtain ⟨nested, hfits⟩ := (hp.nested_cons h).fits
  have hlaid := Scope.laid_of_built hfits.built
  have hmark := hlaid.mark
  have hsize : q.block.header.frameSize.toInt = q.scope.words := by
    rw [SubprogramHeader.frameSize, hfits.params, hfits.vars]
    exact hlaid.size
  unfold Level.frameSize
  rw [toNatClampNeg_eq, hsize]
  omega

end Scoped.Program

namespace Live

variable {natives : Registry} {src : Scoped} {words : Nat} {a c : Activation}
  {acts rest : List Activation}

/-- The frame of a live activation has room for its mark. -/
theorem markSize_le (hp : src.Program natives) (h : Live natives src words acts) (hc : c ∈ acts) :
    markSize ≤ c.level.frameSize :=
  (hp.frameSize_eq (c.chain_eq ▸ h.chain_mem hc)).2

/-- Older frames end below newer ones. -/
theorem top_le (h : Live natives src words (a :: rest)) :
    ∀ c ∈ rest, c.top ≤ a.base := by
  induction rest generalizing a with
  | nil => simp
  | cons c rest ih =>
    cases h with
    | call hlive _ hcalled =>
      have hbase := hcalled.base
      have hc : c.base ≤ c.top := Nat.le_add_right ..
      intro c' hc'
      rcases List.mem_cons.mp hc' with rfl | hc'
      · omega
      · have := ih hlive c' hc'
        omega

/-- The frames lie above the typed constants. -/
theorem words_le (h : Live natives src words (a :: rest)) : words ≤ a.base := by
  induction rest generalizing a with
  | nil =>
    cases h with
    | main _ hbase => omega
  | cons c rest ih =>
    cases h with
    | call hlive _ hcalled =>
      have hbase := hcalled.base
      have hc := ih hlive
      have htop : c.base ≤ c.top := Nat.le_add_right ..
      omega

/-! ## Where guarded words are -/

/-- The words that the callers rely on lie below the newest frame. -/
theorem guards_lt (hp : src.Program natives) (h : Live natives src words (a :: rest)) :
    ∀ p ∈ guards natives rest (a.under natives rest), p.1 < a.base := by
  induction rest generalizing a with
  | nil => simp [guards]
  | cons c rest ih =>
    cases h with
    | call hlive hchain hcalled =>
      intro p hmem
      have hbase := hcalled.base
      have hsize := hlive.markSize_le hp (.head _)
      have htop : c.top = c.base + c.level.frameSize := rfl
      have hfive : markSize = 5 := rfl
      rw [guards, List.mem_append, List.mem_append] at hmem
      rcases hmem with hmem | hmem | hmem
      · have := (Activation.pendingWords_range hmem).2
        exact hbase ▸ this
      · have := Activation.markWords_cases hmem
        omega
      · have := ih hlive p hmem
        omega

/-- The words that live activations rely on lie below what is above the newest frame. -/
theorem guards_below (hp : src.Program natives) (h : Live natives src words (a :: rest))
    (s : Shape) :
    ∀ p ∈ guards natives (a :: rest) s, p.1 < a.top + Shape.height s := by
  intro p hmem
  have hsize := h.markSize_le hp (.head _)
  have htop : a.top = a.base + a.level.frameSize := rfl
  have hfive : markSize = 5 := rfl
  rw [guards, List.mem_append, List.mem_append] at hmem
  rcases hmem with hmem | hmem | hmem
  · exact (Activation.pendingWords_range hmem).2
  · have := Activation.markWords_cases hmem
    omega
  · have := h.guards_lt hp p hmem
    omega

/-- The words that live activations rely on lie above the typed constants. -/
theorem le_guards (h : Live natives src words acts) (s : Shape) :
    ∀ p ∈ guards natives acts s, words ≤ p.1 := by
  induction acts generalizing s with
  | nil => simp [guards]
  | cons a rest ih =>
    intro p hmem
    have hbase := h.words_le
    have htop : a.base ≤ a.top := Nat.le_add_right ..
    rw [guards, List.mem_append, List.mem_append] at hmem
    rcases hmem with hmem | hmem | hmem
    · have := (Activation.pendingWords_range hmem).1
      omega
    · have := Activation.markWords_cases hmem
      omega
    · exact ih h.tail _ p hmem

/-- The result of a live frame and the words above its mark are not guarded. -/
theorem clear (hp : src.Program natives) (h : Live natives src words acts) (hc : c ∈ acts) {x : Nat}
    (hx : x = c.base ∨ c.base + markSize ≤ x ∧ x < c.top) (s : Shape) :
    ∀ p ∈ guards natives acts s, p.1 ≠ x := by
  have hfive : markSize = 5 := rfl
  induction acts generalizing s with
  | nil => simp at hc
  | cons a rest ih =>
    intro p hmem
    have hsize := h.markSize_le hp (.head _)
    have htop : a.top = a.base + a.level.frameSize := rfl
    rw [guards, List.mem_append, List.mem_append] at hmem
    rcases List.mem_cons.mp hc with rfl | hc
    · rcases hmem with hmem | hmem | hmem
      · have := (Activation.pendingWords_range hmem).1
        omega
      · have := Activation.markWords_cases hmem
        omega
      · have := h.guards_lt hp p hmem
        omega
    · have hbelow := h.top_le c hc
      have hcsize : c.base + markSize ≤ c.top :=
        Nat.add_le_add_left (h.tail.markSize_le hp hc) _
      rcases hmem with hmem | hmem | hmem
      · have := (Activation.pendingWords_range hmem).1
        omega
      · have := Activation.markWords_cases hmem
        omega
      · exact ih h.tail hc _ p hmem

/-! ## Links -/

/-- The mark of every live activation is guarded. -/
theorem markWords_mem (hc : c ∈ acts) (s : Shape) :
    ∃ dynamic, ∀ p ∈ c.markWords dynamic, p ∈ guards natives acts s := by
  induction acts generalizing s with
  | nil => simp at hc
  | cons a rest ih =>
    rcases List.mem_cons.mp hc with rfl | hc
    · exact ⟨markPointer rest, fun p hp => by simp [guards, hp]⟩
    · obtain ⟨dynamic, hmem⟩ := ih hc (a.under natives rest)
      exact ⟨dynamic, fun p hp => by simp [guards, hmem p hp]⟩

/-- Each frame that an activation can name is that of a live activation, which can name the frames
further out. -/
theorem exists_frames_eq_drop (h : Live natives src words acts) (hc : c ∈ acts) {k : Nat}
    (hk : k < c.frames.length) : ∃ d ∈ acts, d.frames = c.frames.drop k := by
  induction acts generalizing c k with
  | nil => simp at hc
  | cons a rest ih =>
    rcases List.mem_cons.mp hc with rfl | hc
    · cases k with
      | zero => exact ⟨c, .head _, rfl⟩
      | succ k =>
        cases h with
        | main hchain =>
          have hlength := c.length_chain
          rw [hchain, List.length_singleton] at hlength
          omega
        | call hlive _ hcalled =>
          obtain ⟨level, houter⟩ := hcalled.outer
          have hdrop : c.frames.drop (k + 1) = c.outer.drop k := rfl
          have hlength : c.frames.length = c.outer.length + 1 := rfl
          rw [houter, List.length_drop] at hlength
          rw [hdrop, houter, List.drop_drop]
          obtain ⟨d, hd, heq⟩ := ih hlive (.head _) (k := level + k) (by omega)
          exact ⟨d, .tail _ hd, heq⟩
    · obtain ⟨d, hd, heq⟩ := ih h.tail hc hk
      exact ⟨d, .tail _ hd, heq⟩

end Live

namespace Machine

variable {natives : Registry} {src : Scoped} {words top heap : Nat} {m : Machine} {c : Activation}
  {acts : List Activation} {s : Shape}

/-- Following static links from a live frame leads to the frames around it. -/
theorem Keeps.outerFrame_eq (hlive : Live natives src words acts)
    (h : Keeps m top heap (guards natives acts s)) (hc : c ∈ acts) {k : Nat} {f : Frame}
    (hk : c.frames[k]? = some f) :
    outerFrame k (Int64.ofNat c.base) m = .ok (Int64.ofNat f.base) m := by
  induction k generalizing c with
  | zero =>
    obtain rfl : c.frame = f := Option.some.inj hk
    rfl
  | succ k ih =>
    have hlt : 1 < c.frames.length := by
      have := (List.getElem?_eq_some_iff.mp hk).1
      omega
    obtain ⟨d, hd, hframes⟩ := hlive.exists_frames_eq_drop hc hlt
    have houter : d.frame :: d.outer = c.outer := hframes
    have hstatic : c.staticLink = d.base := by
      rw [Activation.staticLink, ← houter]
      rfl
    obtain ⟨dynamic, hmark⟩ : ∃ dynamic, ∀ p ∈ c.markWords dynamic, p ∈ guards natives acts s :=
      Live.markWords_mem hc s
    have hload : load (Int64.ofNat c.base + Int64.ofNat markStaticLink) m =
        .ok (.ofInt (Int64.ofNat d.base)) m := by
      rw [← Int64.ofNat_add, ← hstatic]
      exact load_guarded h (hmark _ (by simp [Activation.markWords, linkWords]))
    have hrest := ih hd (by rw [hframes, List.getElem?_drop, Nat.add_comm, hk])
    simp only [outerFrame, bind, EStateM.bind, hload, Value.toInt_ofInt]
    exact hrest

end Machine

end PCode
