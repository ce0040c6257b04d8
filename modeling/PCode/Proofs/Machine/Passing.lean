import PCode.Proofs.Machine.Effects
import PCode.Proofs.Run.Moves

/-!
# Passing through code

A machine passes through a stretch of code when all that it executes in its frame
on the way lies in the stretch; calls that it makes on the way are executed in
frames of their own.  So a run can be cut into stretches, and one that never leaves
a stretch never comes to an address outside.

Main definitions and results:

- `Machine.Passes`: a machine comes to another one through a stretch of code.
- `Machine.PassesIn.trans`: stretches one after another.
- `Machine.Goes`: every machine at an address with some words passes to one at another.
- `Machine.Evaluates`: the code of an expression runs to its end and leaves a word.
- `Machine.without`: a machine with some operands taken off.
-/

namespace PCode

/-- A variable is at an address where it can be assigned, which does not move it. -/
structure Memory.Assignable (mem : Memory) (id : Ident) (p : Value) : Prop where
  address : mem.addressOf id = some p
  assign : ∀ v, ∃ mem', mem.write p.toInt v = some mem' ∧ mem'.addressOf id = some p

/-- What has been assigned to a variable is its word. -/
theorem Memory.wordOf_of_write {mem mem' : Memory} {id : Ident} {p v : Value}
    (hsize : mem.store.size < 2 ^ 63) (hwrite : mem.write p.toInt v = some mem')
    (haddress : mem'.addressOf id = some p) : mem'.wordOf id 0 = some v := by
  unfold Memory.write at hwrite
  split at hwrite
  · rename_i hacc
    obtain rfl := Option.some.inj hwrite
    obtain ⟨hlow, hhigh, hgap⟩ := hacc
    have hacc' : ({ mem with store := mem.store.setIfInBounds p.toInt.toNatClampNeg v } :
        Memory).accessible p.toInt := ⟨hlow, by simpa using hhigh, hgap⟩
    have hindex : p.toInt.toNatClampNeg < mem.store.size := by
      rw [Int64.lt_iff_toInt_lt, Int64.toInt_ofNat_of_lt hsize] at hhigh
      rw [Int64.le_iff_toInt_le, Int64.toInt_zero] at hlow
      rw [toNatClampNeg_eq]
      omega
    rw [Memory.wordOf, haddress]
    change Memory.read _ (p.toInt + 0) = some v
    rw [Int64.add_zero, Memory.read, if_pos hacc']
    simp [hindex]
  · cases hwrite

/-- A variable of the active frame that can be read can be assigned. -/
theorem Memory.assignable_of_direct {mem : Memory} {id : Ident} {v : Value} (hlevel : id.level = 0)
    (href : id.symbol.byRef = false) (hword : mem.wordOf id 0 = some v) :
    mem.Assignable id (.ofAddress (mem.mp + id.symbol.address)) := by
  have haddress (mem' : Memory) :
      mem'.addressOf id = some (.ofAddress (mem'.mp + id.symbol.address)) := by
    simp only [Memory.addressOf, Memory.place, Memory.frame, hlevel, href]
    rfl
  refine ⟨haddress mem, fun w => ?_⟩
  rw [Memory.wordOf, haddress] at hword
  change mem.read (_ + 0) = some v at hword
  rw [Int64.add_zero, Memory.read] at hword
  split at hword
  · rename_i hacc
    exact ⟨_, if_pos hacc, haddress _⟩
  · cases hword

namespace Machine

variable {m m₁ m₂ m' : Machine} {lo hi lo' hi' n k : Nat}

/-! ## Stretches -/

/-- More steps go on from where the first ones lead. -/
theorem stepSingly_append (h : stepSingly n m = .ok () m₁) (k : Nat) :
    stepSingly (n + k) m = stepSingly k m₁ := by
  induction n generalizing m with
  | zero =>
    cases h
    rw [Nat.zero_add]
  | succ n ih =>
    rw [Nat.add_right_comm]
    simp only [stepSingly, bind, EStateM.bind] at h ⊢
    cases hstep : stepOnce m with
    | ok u m₀ =>
      rw [hstep] at h
      exact ih h
    | error c m₀ =>
      rw [hstep] at h
      cases h

/-- One single step is a step. -/
theorem stepSingly_one : stepSingly 1 m = stepOnce m := by
  simp only [stepSingly, bind, EStateM.bind]
  cases stepOnce m <;> rfl

private theorem image_of_stepSingly (h : stepSingly n m = .ok () m') : m'.image = m.image := by
  induction n generalizing m with
  | zero =>
    cases h
    rfl
  | succ n ih =>
    simp only [stepSingly, bind, EStateM.bind] at h
    cases hstep : stepOnce m with
    | ok u m₁ =>
      rw [hstep] at h
      exact (ih h).trans (image_of_move (a := .execute) hstep)
    | error c m₁ =>
      rw [hstep] at h
      cases h

/-- In a number of steps a machine comes to a running one with the same frame, and on the way the
code that is executed in this frame lies between two addresses. -/
structure PassesIn (lo hi n : Nat) (m m' : Machine) : Prop where
  run : stepSingly n m = .ok () m'
  mp : m'.mp = m.mp
  running : m'.state = .running
  within : ∀ i < n, ∀ mᵢ, stepSingly i m = .ok () mᵢ → mᵢ.mp = m.mp →
    (lo : Int) ≤ mᵢ.pc.toInt ∧ mᵢ.pc.toInt < hi

/-- A machine comes to another one through the code between two addresses. -/
def Passes (lo hi : Nat) (m m' : Machine) : Prop := ∃ n, PassesIn lo hi n m m'

namespace PassesIn

private theorem step (h : stepOnce m = .ok () m') (hmp : m'.mp = m.mp)
    (hrunning : m'.state = .running)
    (hlo : (lo : Int) ≤ m.pc.toInt) (hhi : m.pc.toInt < hi) : PassesIn lo hi 1 m m' := by
  refine ⟨stepSingly_one.trans h, hmp, hrunning, fun i hi mᵢ hrun _ => ?_⟩
  obtain rfl : i = 0 := by omega
  cases hrun
  exact ⟨hlo, hhi⟩

/-- Steps inside some code go on inside it. -/
theorem trans (h₁ : PassesIn lo hi n m m₁) (h₂ : PassesIn lo hi k m₁ m₂) :
    PassesIn lo hi (n + k) m m₂ := by
  refine ⟨(stepSingly_append h₁.run k).trans h₂.run, h₂.mp.trans h₁.mp, h₂.running,
    fun i hi mᵢ hrun hmp => ?_⟩
  by_cases hlt : i < n
  · exact h₁.within i hlt mᵢ hrun hmp
  · obtain ⟨j, rfl⟩ := Nat.exists_eq_add_of_le (Nat.le_of_not_lt hlt)
    rw [stepSingly_append h₁.run] at hrun
    exact h₂.within j (by omega) mᵢ hrun (hmp.trans h₁.mp.symm)

/-- Steps inside some code are inside more code. -/
theorem mono (h : PassesIn lo hi n m m') (hlo : lo' ≤ lo) (hhi : hi ≤ hi') :
    PassesIn lo' hi' n m m' := by
  refine ⟨h.run, h.mp, h.running, fun i hi mᵢ hrun hmp => ?_⟩
  have hwithin := h.within i hi mᵢ hrun hmp
  omega

private theorem image (h : PassesIn lo hi n m m') : m'.image = m.image := image_of_stepSingly h.run

end PassesIn

namespace Passes

/-- A machine that passes through some code goes on in it. -/
theorem trans (h₁ : Passes lo hi m m₁) (h₂ : Passes lo hi m₁ m₂) : Passes lo hi m m₂ := by
  obtain ⟨n, h₁⟩ := h₁
  obtain ⟨k, h₂⟩ := h₂
  exact ⟨n + k, h₁.trans h₂⟩

/-- A machine that passes through some code passes through more code. -/
theorem mono (h : Passes lo hi m m') (hlo : lo' ≤ lo) (hhi : hi ≤ hi') : Passes lo' hi' m m' := by
  obtain ⟨n, h⟩ := h
  exact ⟨n, h.mono hlo hhi⟩

/-- Passing through code keeps the frame. -/
theorem mp (h : Passes lo hi m m') : m'.mp = m.mp := by
  obtain ⟨n, h⟩ := h
  exact h.mp

/-- A machine that has passed through code is running. -/
theorem running (h : Passes lo hi m m') : m'.state = .running := by
  obtain ⟨n, h⟩ := h
  exact h.running

/-- Passing through code keeps the image. -/
theorem image (h : Passes lo hi m m') : m'.image = m.image := by
  obtain ⟨n, h⟩ := h
  exact h.image

end Passes

/-! ## Instructions -/

section

variable {b b' b₁ b₂ : Machine} {a a' a₁ a₂ : Nat} {ws ws' ws₁ ws₂ : List Value}

/-- Every machine at an address of a base with some words pushed passes to one at an address of a
base with some words pushed. -/
def Goes (lo hi : Nat) (b : Machine) (a : Nat) (ws : List Value) (b' : Machine) (a' : Nat)
    (ws' : List Value) : Prop :=
  ∀ m, Stacked b a ws m → ∃ m', Passes lo hi m m' ∧ Stacked b' a' ws' m'

/-- A machine that has gone on inside some code goes on from there. -/
theorem Goes.trans (h₁ : Goes lo hi b a ws b₁ a₁ ws₁) (h₂ : Goes lo hi b₁ a₁ ws₁ b₂ a₂ ws₂) :
    Goes lo hi b a ws b₂ a₂ ws₂ := by
  intro m h
  obtain ⟨m₁, p₁, k₁⟩ := h₁ m h
  obtain ⟨m₂, p₂, k₂⟩ := h₂ m₁ k₁
  exact ⟨m₂, p₁.trans p₂, k₂⟩

/-- A step in a stretch passes through it. -/
theorem Steps.passes {k : Linking} {it : Item} (h : Steps b a ws b' a' ws') (hb : b.Ready)
    (hit : At b k a it) (hlo : lo ≤ a) (hhi : a < hi) (hmp : b'.mp = b.mp)
    (hstate : b'.state = b.state) (hm : Stacked b a ws m) :
    ∃ m', stepOnce m = .ok () m' ∧ Passes lo hi m m' ∧ Stacked b' a' ws' m' := by
  obtain ⟨m', hstep, hm'⟩ := h m hm
  obtain ⟨w, hcode, -⟩ := hit
  have hlt := (Array.getElem?_eq_some_iff.mp hcode).1
  have hbound := hb.bound
  have hpc : m.pc.toInt = a := by rw [hm.pc, Int64.toInt_ofNat_of_lt (by omega)]
  refine ⟨m', hstep, ⟨1, .step hstep ?_ ?_ (by omega) (by omega)⟩, hm'⟩
  · rw [hm'.mp, hm.mp, hmp]
  · rw [hm'.state, hstate, hb.running]

/-- A step at an address inside some code goes on inside it. -/
theorem Steps.goes {k : Linking} {it : Item} (h : Steps b a ws b' a' ws') (hb : b.Ready)
    (hit : At b k a it) (hlo : lo ≤ a) (hhi : a < hi) (hmp : b'.mp = b.mp)
    (hstate : b'.state = b.state) : Goes lo hi b a ws b' a' ws' := by
  intro m hm
  obtain ⟨m', -, hpasses, hm'⟩ := h.passes hb hit hlo hhi hmp hstate hm
  exact ⟨m', hpasses, hm'⟩

end

/-! ## Operands -/

/-- The machine with some words taken off its stack. -/
def without (m : Machine) (n : Nat) : Machine := { m with sp := m.sp - Int64.ofNat n }

private theorem without_zero (m : Machine) : m.without 0 = m := by
  change { m with sp := m.sp - 0 } = m
  rw [Int64.sub_zero]

section

variable {b : Machine} {a : Nat} {ws : List Value}

private theorem Stacked.sp_without (h : Stacked b a ws m) (hb : b.Sound) :
    (m.without ws.length).sp = b.sp := by
  have hsp := h.sp
  have hroom := h.room
  have hbase := hb.base
  have htop := hb.top
  have hsize := hb.size
  unfold Machine.room at hroom
  have hlength : (Int64.ofNat ws.length).toInt = ws.length := toInt_ofNat (by omega)
  refine Int64.toInt_inj.mp ?_
  change (m.sp - Int64.ofNat ws.length).toInt = b.sp.toInt
  rw [toInt_sub_of_fits (by omega) (by omega)]
  omega

/-- Words that are pushed do not change what is read below them. -/
theorem Stacked.read_without (h : Stacked b a ws m) (hb : b.Sound) (x : Int64) :
    (m.without ws.length).memory.read x = b.memory.read x := by
  have hacc : (m.without ws.length).memory.accessible x ↔ b.memory.accessible x := by
    simp only [Memory.accessible, memory, h.sp_without hb]
    simp only [without, h.size, h.np]
  by_cases hx : b.memory.accessible x
  · rw [Memory.read, Memory.read, if_pos (hacc.mpr hx), if_pos hx]
    have hread : b.memory.read x = some (b.word x) := if_pos hx
    obtain ⟨-, hword⟩ := h.addressFault? hb (addressFault?_of_read hb hread).1
    exact congrArg some hword
  · rw [Memory.read, Memory.read, if_neg fun hx' => hx (hacc.mp hx'), if_neg hx]

private theorem Stacked.outer_without (h : Stacked b a ws m) (hb : b.Sound) (level : Nat)
    (base : Int64) : (m.without ws.length).memory.outer level base = b.memory.outer level base := by
  induction level generalizing base with
  | zero => rfl
  | succ level ih => simp only [Memory.outer, h.read_without hb, ih]

/-- Words that are pushed do not change a variable. -/
theorem Stacked.wordOf_without (h : Stacked b a ws m) (hb : b.Sound) (id : Ident) (i : Nat) :
    (m.without ws.length).memory.wordOf id i = b.memory.wordOf id i := by
  have hmp : (m.without ws.length).memory.mp = b.memory.mp := h.mp
  simp only [Memory.wordOf, Memory.addressOf, Memory.place, Memory.frame, hmp,
    h.outer_without hb, h.read_without hb]

/-- A machine with nothing on its stack shows the variables of the one it started from. -/
theorem Stacked.wordOf (h : Stacked b a [] m) (hb : b.Sound) (id : Ident) (i : Nat) :
    m.memory.wordOf id i = b.memory.wordOf id i := by
  have hword := h.wordOf_without hb id i
  rwa [List.length_nil, without_zero] at hword

/-- A machine at an address whose stack holds nothing of its own. -/
theorem Stacked.ready (h : Stacked b a [] m) (hb : b.Ready) : m.Ready where
  sound := h.sound hb.sound
  running := h.state.trans hb.running
  bound := by
    rw [h.image]
    exact hb.bound

/-- A machine with nothing on its stack has the room of the one it started from. -/
theorem Stacked.room_eq (h : Stacked b a [] m) : m.room = b.room := by
  have hsp := h.sp
  rw [Machine.room, Machine.room, h.np]
  simp only [List.length_nil] at hsp
  omega

end

/-- The code between two addresses runs to its end and leaves a word above the operands that were
there. -/
structure Evaluates (lo hi : Nat) (m : Machine) (v : Value) (m' : Machine) : Prop where
  passes : m.Passes lo hi m'
  pc : m'.pc = Int64.ofNat hi
  sp : m'.sp.toInt = m.sp.toInt + 1
  word : m'.store[m.sp.toNatClampNeg]? = some v
  below : ∀ i, i + 1 = m.sp.toNatClampNeg → m'.store[i]? = m.store[i]?
  sound : m'.Sound

/-- What is left by an expression that is evaluated above one operand. -/
theorem Evaluates.stacked {b : Machine} {a : Nat} {w v : Value} (hb : b.Ready)
    (h : Stacked b a [w] m) (heval : m.Evaluates lo hi v m') :
    (m'.without 2).Ready ∧ Stacked (m'.without 2) hi [w, v] m' ∧ (m'.without 2).sp = b.sp := by
  have himage : m'.image = b.image := heval.passes.image.trans h.image
  have hbase := hb.sound.base
  have hsp : m.sp.toInt = b.sp.toInt + 1 := h.sp
  have hsp' := heval.sp
  have hgap := heval.sound.gap
  have hhigh := heval.sound.top
  have hsize := heval.sound.size
  have hcut : (m'.without 2).sp = b.sp := by
    refine Int64.toInt_inj.mp ?_
    change (m'.sp - 2).toInt = b.sp.toInt
    rw [toInt_sub_of_fits (by simp; omega) (by simp; omega)]
    simp
    omega
  have htop : m.sp.toNatClampNeg = b.sp.toNatClampNeg + 1 := h.top hb.sound
  refine ⟨⟨⟨?_, ?_, hhigh, hsize⟩, heval.passes.running, ?_⟩,
    ⟨heval.pc, ?_, ?_, rfl, ?_, fun _ _ => rfl, rfl⟩, hcut⟩
  · rw [hcut]
    change (m'.image.typedConstants.size : Int) ≤ b.sp.toInt
    rw [himage]
    exact hbase
  · rw [hcut]
    change b.sp.toInt ≤ m'.np.toInt
    omega
  · change m'.image.code.size < 2 ^ 63
    rw [himage]
    exact hb.bound
  · rw [hcut]
    change m'.sp.toInt = b.sp.toInt + 2
    omega
  · rw [room, hcut]
    change (2 : Int) ≤ m'.np.toInt - b.sp.toInt
    omega
  · intro i u hi
    rw [hcut]
    match i with
    | 0 =>
      obtain rfl := Option.some.inj hi
      exact (heval.below _ htop.symm).trans (h.words 0 w rfl)
    | 1 =>
      obtain rfl := Option.some.inj hi
      have hword := heval.word
      rwa [htop] at hword
    | _ + 2 => cases hi

/-- An expression whose code pushes a word is evaluated. -/
theorem Evaluates.of_goes {b : Machine} {ws : List Value} {v : Value} (hb : b.Ready)
    (hgoes : Goes lo hi b lo ws b hi (ws ++ [v])) (h : Stacked b lo ws m) :
    ∃ m', m.Evaluates lo hi v m' ∧ Stacked b hi (ws ++ [v]) m' := by
  obtain ⟨m', hpasses, hm'⟩ := hgoes m h
  have hsp := h.sp
  have hsp' := hm'.sp
  have htop := h.top hb.sound
  simp only [List.length_append, List.length_singleton] at hsp'
  refine ⟨m', ⟨hpasses, hm'.pc, by omega, ?_, fun i hi => ?_, hm'.sound hb.sound⟩, hm'⟩
  · rw [htop]
    exact hm'.words ws.length v (by simp)
  · by_cases hlow : i < b.sp.toNatClampNeg
    · rw [hm'.kept i (.inl hlow), h.kept i (.inl hlow)]
    · -- the word on top is one of those that were pushed
      obtain ⟨j, rfl⟩ := Nat.exists_eq_add_of_le (Nat.le_of_not_lt hlow)
      have hj : j < ws.length := by omega
      rw [h.words j ws[j] (List.getElem?_eq_getElem hj)]
      refine hm'.words j ws[j] ?_
      rw [List.getElem?_append_left hj, List.getElem?_eq_getElem hj]

/-- The word on top of a stack is a word pushed on the machine without it. -/
theorem stacked_without {a : Nat} (hm : m.Ready) (hpc : m.pc = Int64.ofNat a)
    (hsp : (m.image.typedConstants.size : Int) < m.sp.toInt) :
    (m.without 1).Ready ∧ ∃ w, Stacked (m.without 1) a [w] m := by
  have hgap := hm.sound.gap
  have htop := hm.sound.top
  have hsize := hm.sound.size
  have hcut : (m.without 1).sp.toInt = m.sp.toInt - 1 := by
    change (m.sp - 1).toInt = _
    rw [toInt_sub_of_fits (by simp; omega) (by simp; omega)]
    rfl
  have hindex : (m.without 1).sp.toNatClampNeg < m.store.size := by
    rw [toNatClampNeg_eq]
    omega
  refine ⟨⟨⟨?_, ?_, htop, hsize⟩, hm.running, hm.bound⟩,
    m.store[(m.without 1).sp.toNatClampNeg], ⟨hpc, ?_, ?_, rfl, ?_, fun _ _ => rfl, rfl⟩⟩
  · change (m.image.typedConstants.size : Int) ≤ _
    omega
  · change _ ≤ m.np.toInt
    omega
  · rw [hcut]
    simp
  · change (1 : Int) ≤ m.np.toInt - _
    omega
  · intro i v hi
    match i with
    | 0 =>
      obtain rfl := Option.some.inj hi
      exact Array.getElem?_eq_getElem hindex
    | _ + 1 => cases hi

/-! ## Checked runs -/

instance (m : Machine) : Decidable m.Sound :=
  decidable_of_iff ((m.image.typedConstants.size : Int) ≤ m.sp.toInt ∧ m.sp.toInt ≤ m.np.toInt ∧
      m.np.toInt ≤ m.store.size ∧ m.store.size < 2 ^ 63)
    ⟨fun ⟨hbase, hgap, htop, hsize⟩ => ⟨hbase, hgap, htop, hsize⟩,
      fun h => ⟨h.base, h.gap, h.top, h.size⟩⟩

/-- Whether every machine before each of some steps passes a check. -/
def checkSteps (P : Machine → Bool) : Nat → Machine → Bool
  | 0, _ => true
  | n + 1, m => P m &&
    match stepOnce m with
    | .ok _ m' => checkSteps P n m'
    | .error .. => true

private theorem of_checkSteps {P : Machine → Bool} {i : Nat} (hcheck : checkSteps P n m = true)
    (hi : i < n) (hrun : stepSingly i m = .ok () m') : P m' = true := by
  induction n generalizing m i with
  | zero => exact absurd hi (Nat.not_lt_zero i)
  | succ n ih =>
    simp only [checkSteps, Bool.and_eq_true] at hcheck
    cases i with
    | zero =>
      cases hrun
      exact hcheck.1
    | succ i =>
      simp only [stepSingly, bind, EStateM.bind] at hrun
      cases hstep : stepOnce m with
      | ok u m₁ =>
        rw [hstep] at hcheck hrun
        exact ih hcheck.2 (Nat.lt_of_succ_lt_succ hi) hrun
      | error c m₁ =>
        rw [hstep] at hrun
        cases hrun

/-- Whether all that a machine executes in its frame during some steps lies between two
addresses. -/
def stays (m : Machine) (lo hi n : Nat) : Bool :=
  checkSteps (fun mᵢ => mᵢ.mp ≠ m.mp ∨ (lo : Int) ≤ mᵢ.pc.toInt ∧ mᵢ.pc.toInt < (hi : Int)) n m

/-- A run whose addresses were checked one by one stays inside the code. -/
theorem passesIn_of_stays (hrun : stepSingly n m = .ok () m') (hmp : m'.mp = m.mp)
    (hrunning : m'.state = .running) (hstays : m.stays lo hi n = true) :
    PassesIn lo hi n m m' := by
  refine ⟨hrun, hmp, hrunning, fun i hi mᵢ hrunᵢ hmpᵢ => ?_⟩
  simpa [hmpᵢ] using of_checkSteps hstays hi hrunᵢ

/-- What is checked during a run that ends holds of every running machine that it comes to. -/
theorem Passes.check {P : Machine → Bool} (h : m.Passes lo hi m')
    (hend : (m.after n).any (·.state ≠ .running) = true) (hcheck : checkSteps P n m = true) :
    P m' = true := by
  obtain ⟨k, hk⟩ := h
  obtain ⟨i, hi, hafter⟩ := Reaches.before_end ⟨k, hk.run⟩ hend hk.running
  exact of_checkSteps hcheck hi (after_eq_some_iff.mp hafter)

end Machine

end PCode
