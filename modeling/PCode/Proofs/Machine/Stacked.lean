import PCode.Proofs.Image
import PCode.Proofs.Machine.Access
import PCode.Proofs.Semantics.Expr

/-!
# Words above the stack of a machine

While an expression is evaluated, a machine differs from what it was before only
by the words on top of its stack.  This module says so, and how the parts of an
instruction move between such machines.

Main definitions and results:

- `Machine.Stacked`: a machine at an address with some more words on its stack.
- `Machine.Stacked.push`, `Machine.Stacked.pop`: one word more, and one less.
- `Machine.Reaches`: some number of steps lead from one machine to another.
- `Machine.Stacked.step`: one instruction.
-/

namespace PCode.Machine

/-- What an instruction that works on the stack leaves alone: everything but the store and its top,
the place in the code, and what is recorded of the run. -/
def core (m : Machine) : Machine :=
  { m with pc := 0, ipc := 0, sp := 0, store := #[], profile := none, dumps := #[] }

/-- A machine that is another one moved to an address, with some words pushed.  Below the stack
pointer of the other and from its heap on, the store is the same. -/
structure Stacked (b : Machine) (a : Nat) (ws : List Value) (m : Machine) : Prop where
  pc : m.pc = Int64.ofNat a
  sp : m.sp.toInt = b.sp.toInt + ws.length
  room : (ws.length : Int) ≤ b.room
  size : m.store.size = b.store.size
  words : ∀ (i : Nat) (v : Value), ws[i]? = some v → m.store[b.sp.toNatClampNeg + i]? = some v
  kept : ∀ i : Nat, i < b.sp.toNatClampNeg ∨ b.np.toNatClampNeg ≤ i → m.store[i]? = b.store[i]?
  rest : m.core = b.core

namespace Stacked

variable {b m : Machine} {a : Nat} {ws : List Value}

/-- Words on the stack leave the heap pointer as it is. -/
theorem np (h : Stacked b a ws m) : m.np = b.np :=
  (congrArg Machine.np h.rest :)

/-- Words on the stack leave the mark pointer as it is. -/
theorem mp (h : Stacked b a ws m) : m.mp = b.mp :=
  (congrArg Machine.mp h.rest :)

/-- Words on the stack leave the image as it is. -/
theorem image (h : Stacked b a ws m) : m.image = b.image :=
  (congrArg Machine.image h.rest :)

/-- Words on the stack leave the state as it is. -/
theorem state (h : Stacked b a ws m) : m.state = b.state :=
  (congrArg Machine.state h.rest :)

/-- A machine with words on the stack of a sound one is sound. -/
theorem sound (h : Stacked b a ws m) (hb : b.Sound) : m.Sound where
  base := by
    have := hb.base
    rw [h.image, h.sp]
    omega
  gap := by
    have := h.room
    unfold Machine.room at this
    rw [h.np, h.sp]
    omega
  top := by
    rw [h.np, h.size]
    exact hb.top
  size := h.size ▸ hb.size

/-- A machine is itself with nothing pushed. -/
theorem refl (hb : b.Sound) (hpc : b.pc = Int64.ofNat a) : Stacked b a [] b where
  pc := hpc
  sp := by simp
  room := by
    have := hb.gap
    unfold Machine.room
    simpa using this
  size := rfl
  words i v hv := by simp at hv
  kept _ _ := rfl
  rest := rfl

/-- The stack pointer as an index into the store. -/
theorem top (h : Stacked b a ws m) (hb : b.Sound) :
    m.sp.toNatClampNeg = b.sp.toNatClampNeg + ws.length := by
  have := hb.base
  have := h.sp
  simp only [toNatClampNeg_eq]
  omega

/-- A word for which there is room is pushed. -/
theorem push (h : Stacked b a ws m) (hb : b.Sound) (hroom : (ws.length : Int) < b.room)
    (v : Value) : ∃ m', Machine.push v m = .ok () m' ∧ Stacked b a (ws ++ [v]) m' := by
  have hsp := h.sp
  have htop := h.top hb
  have hm := h.sound hb
  have h1 := hb.base
  have h2 := hb.top
  have h3 := hb.size
  unfold Machine.room at hroom
  have hadd : (m.sp + 1).toInt = m.sp.toInt + 1 := by
    rw [toInt_add_of_fits] <;> simp only [Int64.toInt_one] <;> omega
  refine ⟨_, push_eq hm (by unfold Machine.room; rw [h.np]; omega) v, ?_⟩
  constructor
  · exact h.pc
  · simp only [hadd, List.length_append, List.length_singleton]
    omega
  · unfold Machine.room
    simp only [List.length_append, List.length_singleton]
    omega
  · simpa [setWord] using h.size
  · intro i w hi
    simp only [setWord, htop, Array.getElem?_setIfInBounds]
    by_cases hlt : i < ws.length
    · rw [List.getElem?_append_left hlt] at hi
      rw [if_neg (by omega)]
      exact h.words i w hi
    · have hlen := (List.getElem?_eq_some_iff.mp hi).1
      simp only [List.length_append, List.length_singleton] at hlen
      obtain rfl : i = ws.length := by omega
      obtain rfl : v = w := by simpa using hi
      have hin : b.sp.toNatClampNeg + ws.length < m.store.size := by
        rw [h.size, toNatClampNeg_eq]
        omega
      rw [if_pos rfl, if_pos hin]
  · intro i hi
    have hne : m.sp.toNatClampNeg ≠ i := by
      rw [htop]
      simp only [toNatClampNeg_eq] at hi ⊢
      omega
    simp only [setWord, Array.getElem?_setIfInBounds, if_neg hne]
    exact h.kept i hi
  · exact h.rest

/-- The word at the top of the stack. -/
theorem word_top {v : Value} (h : Stacked b a (ws ++ [v]) m) (hb : b.Sound) :
    (m.sp - 1).toNatClampNeg = b.sp.toNatClampNeg + ws.length ∧ m.word (m.sp - 1) = v := by
  have hsp := h.sp
  have h1 := hb.base
  have h2 := hb.top
  have h3 := hb.size
  simp only [List.length_append, List.length_singleton] at hsp
  have hroom := h.room
  unfold Machine.room at hroom
  simp only [List.length_append, List.length_singleton] at hroom
  have hsub : (m.sp - 1).toInt = m.sp.toInt - 1 := by
    rw [toInt_sub_of_fits] <;> simp only [Int64.toInt_one] <;> omega
  have hidx : (m.sp - 1).toNatClampNeg = b.sp.toNatClampNeg + ws.length := by
    simp only [toNatClampNeg_eq]
    omega
  have hword := h.words ws.length v (by simp)
  refine ⟨hidx, ?_⟩
  rw [word, hidx, Array.getD_eq_getD_getElem?, hword, Option.getD_some]

/-- The last word that was pushed is popped. -/
theorem pop {v : Value} (h : Stacked b a (ws ++ [v]) m) (hb : b.Sound) :
    ∃ m', Machine.pop m = .ok v m' ∧ Stacked b a ws m' := by
  have hm := h.sound hb
  have hsp := h.sp
  have h1 := hb.base
  have h2 := hb.top
  have h3 := hb.size
  have hroom := h.room
  unfold Machine.room at hroom
  simp only [List.length_append, List.length_singleton] at hsp hroom
  obtain ⟨hidx, hword⟩ := h.word_top hb
  have hsub : (m.sp - 1).toInt = m.sp.toInt - 1 := by
    rw [toInt_sub_of_fits] <;> simp only [Int64.toInt_one] <;> omega
  have hpop := pop_eq hm (by rw [h.image]; omega)
  rw [hword] at hpop
  refine ⟨_, hpop, ?_⟩
  constructor
  · exact h.pc
  · simp only [setWord, hsub]
    omega
  · unfold Machine.room
    omega
  · simpa [setWord] using h.size
  · intro i w hi
    have hlt := (List.getElem?_eq_some_iff.mp hi).1
    simp only [setWord, hidx, Array.getElem?_setIfInBounds]
    rw [if_neg (by omega)]
    exact h.words i w (by rw [List.getElem?_append_left hlt, hi])
  · intro i hi
    have hne : (m.sp - 1).toNatClampNeg ≠ i := by
      rw [hidx]
      simp only [toNatClampNeg_eq] at hi ⊢
      omega
    simp only [setWord, Array.getElem?_setIfInBounds, if_neg hne]
    exact h.kept i hi
  · exact h.rest

/-- What can be accessed before anything is pushed still can be, and is the same. -/
theorem addressFault? (h : Stacked b a ws m) (hb : b.Sound) {x : Int64}
    (hx : b.addressFault? x = none) : m.addressFault? x = none ∧ m.word x = b.word x := by
  have hsp := h.sp
  have hx' := (addressFault?_eq_none_iff hb.size).mp hx
  have hgap := hb.gap
  refine ⟨(addressFault?_eq_none_iff (h.size ▸ hb.size)).mpr ?_, ?_⟩
  · rw [h.size, h.np, hsp]
    omega
  · have hkept := h.kept x.toNatClampNeg (by simp only [toNatClampNeg_eq]; omega)
    rw [word, word, Array.getD_eq_getD_getElem?, Array.getD_eq_getD_getElem?, hkept]

private theorem load (h : Stacked b a ws m) (hb : b.Sound) {x : Int64}
    (hx : b.addressFault? x = none) :
    Machine.load x m = .ok (b.word x) m := by
  obtain ⟨hfault, hword⟩ := h.addressFault? hb hx
  unfold Machine.load
  rw [hfault]
  exact congrArg (EStateM.Result.ok · m) hword

end Stacked

/-! ## Parts of instructions -/

/-- What a memory gives is what the machine can access. -/
theorem addressFault?_of_read {b : Machine} (hb : b.Sound) {x : Int64} {v : Value}
    (h : b.memory.read x = some v) : b.addressFault? x = none ∧ b.word x = v := by
  unfold Memory.read at h
  split at h
  · rename_i hacc
    obtain ⟨h0, h1, h2⟩ : 0 ≤ x ∧ x < Int64.ofNat b.store.size ∧ (x < b.sp ∨ b.np ≤ x) := hacc
    rw [Int64.le_iff_toInt_le, Int64.toInt_zero] at h0
    rw [Int64.lt_iff_toInt_lt, Int64.toInt_ofNat_of_lt hb.size] at h1
    rw [Int64.lt_iff_toInt_lt, Int64.le_iff_toInt_le] at h2
    refine ⟨(addressFault?_eq_none_iff hb.size).mpr ⟨h0, h1, ?_⟩, Option.some.inj h⟩
    omega
  · cases h

namespace Stacked

variable {b m : Machine} {a : Nat} {ws : List Value}

/-- An operator with one operand replaces the last word. -/
theorem unary {v : Value} (f : Value → Value) (h : Stacked b a (ws ++ [v]) m) (hb : b.Sound) :
    ∃ m', Machine.unary f m = .ok () m' ∧ Stacked b a (ws ++ [f v]) m' := by
  obtain ⟨m₁, h₁, k₁⟩ := h.pop hb
  have hroom := h.room
  simp only [List.length_append, List.length_singleton] at hroom
  obtain ⟨m₂, h₂, k₂⟩ := k₁.push hb (by omega) (f v)
  exact ⟨m₂, (bind_eq h₁).trans h₂, k₂⟩

/-- Two operands can be popped, and any word pushed in their place. -/
theorem replace_two {v w : Value} (h : Stacked b a (ws ++ [v, w]) m) (hb : b.Sound) (r : Value) :
    ∃ m₁ m₂ m₃, Machine.pop m = .ok w m₁ ∧ Machine.pop m₁ = .ok v m₂ ∧
      Machine.push r m₂ = .ok () m₃ ∧ Stacked b a (ws ++ [r]) m₃ := by
  rw [show ws ++ [v, w] = (ws ++ [v]) ++ [w] by simp] at h
  obtain ⟨m₁, h₁, k₁⟩ := h.pop hb
  obtain ⟨m₂, h₂, k₂⟩ := k₁.pop hb
  have hroom := k₁.room
  simp only [List.length_append, List.length_singleton] at hroom
  obtain ⟨m₃, h₃, k₃⟩ := k₂.push hb (by omega) r
  exact ⟨m₁, m₂, m₃, h₁, h₂, h₃, k₃⟩

/-- An operator with two operands replaces the last two words. -/
theorem binary {v w : Value} (f : Value → Value → Value) (h : Stacked b a (ws ++ [v, w]) m)
    (hb : b.Sound) : ∃ m', Machine.binary f m = .ok () m' ∧ Stacked b a (ws ++ [f v w]) m' := by
  obtain ⟨m₁, m₂, m₃, h₁, h₂, h₃, hstacked⟩ := h.replace_two hb (f v w)
  exact ⟨m₃, (bind_eq h₁).trans ((bind_eq h₂).trans h₃), hstacked⟩

/-- An operator that can fail replaces the last two words when it does not. -/
theorem binaryE {v w r : Value} {f : Value → Value → Except Fault Value}
    (h : Stacked b a (ws ++ [v, w]) m) (hb : b.Sound) (hf : f v w = .ok r) :
    ∃ m', Machine.binaryE f m = .ok () m' ∧ Stacked b a (ws ++ [r]) m' := by
  obtain ⟨m₁, m₂, m₃, h₁, h₂, h₃, hstacked⟩ := h.replace_two hb r
  refine ⟨m₃, (bind_eq h₁).trans ((bind_eq h₂).trans ?_), hstacked⟩
  simp only [hf]
  exact h₃

/-- A word that could be read before anything was pushed can be loaded. -/
theorem load_of_read (h : Stacked b a ws m) (hb : b.Sound) {x : Int64} {v : Value}
    (hx : b.memory.read x = some v) : Machine.load x m = .ok v m := by
  obtain ⟨hfault, hword⟩ := addressFault?_of_read hb hx
  rw [h.load hb hfault, hword]

/-- The static links are followed as in the memory. -/
theorem outerFrame (h : Stacked b a ws m) (hb : b.Sound) {n : Nat} {base r : Int64}
    (hr : b.memory.outer n base = some r) : Machine.outerFrame n base m = .ok r m := by
  induction n generalizing base with
  | zero =>
    obtain rfl := Option.some.inj hr
    rfl
  | succ n ih =>
    simp only [Memory.outer, Option.bind_eq_bind, Option.bind_eq_some_iff] at hr
    obtain ⟨link, hlink, hrest⟩ := hr
    exact (bind_eq (h.load_of_read hb hlink)).trans (ih hrest)

/-- A frame that could be found before anything was pushed is found. -/
theorem frame (h : Stacked b a ws m) (hb : b.Sound) {level : Int64} {r : Int64}
    (hr : b.memory.frame level = some r) :
    Machine.frame level.toNatClampNeg m = .ok r m := by
  unfold Machine.frame
  rw [h.mp]
  exact h.outerFrame hb hr

/-- The machine moves to another address. -/
theorem jump (h : Stacked b a ws m) (t : Nat) :
    ∃ m', Machine.jump (Int64.ofNat t) m = .ok () m' ∧ Stacked b t ws m' := by
  exact ⟨_, rfl, rfl, h.sp, h.room, h.size, h.words, h.kept, h.rest⟩

end Stacked

end PCode.Machine
