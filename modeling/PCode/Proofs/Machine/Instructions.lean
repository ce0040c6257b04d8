import PCode.Proofs.Codegen.Shape
import PCode.Proofs.Machine.Keeps

/-!
# What single instructions keep

One lemma for each kind of instruction: what it does to the top of the stack, to
the guarded words and to the registers.  Instructions on operands differ only in
how many words they pop and push.

Main definitions and results:

- `Machine.Operands`: some operands are on the stack above what is guarded.
- `Machine.meets_operands`: the instructions on operands.
- `Machine.meets_markStack`, `Machine.meets_callUser`, `Machine.meets_enter`,
  `Machine.meets_leave`: the instructions of a call.
-/

namespace PCode.Machine

/-! ## Operands -/

/-- A machine that differs from another in its stack only, which has some operands above an
address; below it, words are guarded. -/
structure Operands (b : Machine) (top heap : Nat) (guards : List (Nat × Value)) (n : Nat)
    (m : Machine) : Prop where
  keeps : Keeps m (top + n) heap guards
  base : b.image.typedConstants.size ≤ top
  below : ∀ p ∈ guards, p.1 < top
  still : m.still = b.still

section

variable {b m : Machine} {top heap n : Nat} {guards : List (Nat × Value)}

private theorem Operands.image (h : Operands b top heap guards n m) : m.image = b.image :=
  (congrArg Machine.image h.still :)

private theorem Operands.push (h : Operands b top heap guards n m) (v : Value) :
    Meets (Machine.push v) m fun _ => Operands b top heap guards (n + 1) := by
  refine (tries_push h.keeps v).meets.mono fun _ m' ⟨hkeeps, hstill⟩ => ?_
  exact ⟨hkeeps.subset fun p hp => .tail _ hp, h.base, h.below, hstill.trans h.still⟩

private theorem Operands.pop (h : Operands b top heap guards (n + 1) m) :
    Meets Machine.pop m fun _ => Operands b top heap guards n := by
  have hbase := h.base
  have hkeeps : Keeps m (top + n + 1) heap guards := h.keeps
  have hpop : Meets Machine.pop m _ := meets_pop hkeeps (by rw [h.image]; omega)
    fun p hp => by have := h.below p hp; omega
  exact hpop.mono fun _ m' ⟨hkeeps, hstill, _⟩ => ⟨hkeeps, h.base, h.below, hstill.trans h.still⟩

/-! ## Operand patterns -/

private theorem Operands.unary (h : Operands b top heap guards (n + 1) m) (f : Value → Value) :
    Meets (Machine.unary f) m fun _ => Operands b top heap guards (n + 1) :=
  h.pop.seq fun _ _ h₁ => h₁.push _

private theorem Operands.binary (h : Operands b top heap guards (n + 2) m)
    (f : Value → Value → Value) :
    Meets (Machine.binary f) m fun _ => Operands b top heap guards (n + 1) :=
  h.pop.seq fun _ _ h₁ => h₁.pop.seq fun _ _ h₂ => h₂.push _

private theorem Operands.binaryE (h : Operands b top heap guards (n + 2) m)
    {f : Value → Value → Except Fault Value} (hf : ∀ x y e, f x y = .error e → e.Benign) :
    Meets (Machine.binaryE f) m fun _ => Operands b top heap guards (n + 1) := by
  refine h.pop.seq fun y _ h₁ => h₁.pop.seq fun x _ h₂ => ?_
  cases hr : f x y with
  | ok r => exact h₂.push r
  | error e => exact meets_raise (hf x y e hr)

private theorem Operands.indexAddress (h : Operands b top heap guards (n + 2) m) (stride : Nat) :
    Meets (Machine.indexAddress stride) m fun _ => Operands b top heap guards (n + 1) :=
  h.pop.seq fun _ _ h₁ => h₁.pop.seq fun _ _ h₂ => h₂.push _

private theorem Operands.loadIndirect (h : Operands b top heap guards (n + 1) m) :
    Meets Machine.loadIndirect m fun _ => Operands b top heap guards (n + 1) := by
  refine h.pop.seq fun a m₁ h₁ => (tries_load m₁ a.toInt).meets.seq fun v m₂ heq => ?_
  subst heq
  exact h₁.push v

/-- Following static links changes nothing. -/
theorem meets_outerFrame (level : Nat) (base : Int64) (m : Machine) :
    Meets (outerFrame level base) m fun _ m' => m' = m := by
  induction level generalizing base with
  | zero => exact meets_pure rfl
  | succ level ih =>
    refine (tries_load m _).meets.seq fun link m' heq => ?_
    subst heq
    exact ih _

private theorem meets_frame (level : Nat) (m : Machine) :
    Meets (frame level) m fun _ m' => m' = m :=
  meets_outerFrame level m.mp m

private theorem Operands.loadAddress (h : Operands b top heap guards n m) (level offset : Nat) :
    Meets (Machine.loadAddress level offset) m fun _ => Operands b top heap guards (n + 1) := by
  refine (meets_frame level m).seq fun base m' heq => ?_
  subst heq
  exact h.push _

private theorem Operands.loadValue (h : Operands b top heap guards n m) (level offset : Nat) :
    Meets (Machine.loadValue level offset) m fun _ => Operands b top heap guards (n + 1) := by
  refine (meets_frame level m).seq fun base m₁ heq => ?_
  subst heq
  refine (tries_load _ _).meets.seq fun v m₂ heq => ?_
  subst heq
  exact h.push v

private theorem Operands.loadConstant (h : Operands b top heap guards n m) (code : UInt8)
    (operand : Nat) :
    Meets (Machine.loadConstant code operand) m fun _ => Operands b top heap guards (n + 1) := by
  unfold Machine.loadConstant
  split
  case h_7 => exact meets_raise trivial
  case h_1 => exact h.push _
  case h_2 => exact h.push _
  all_goals
    refine Meets.bind (meets_of_eq rfl ?_)
    simp only
    split
    · exact h.push _
    · exact meets_raise trivial

/-! ## Stores -/

/-- A word can be stored without harm: it is below an address and not guarded, or it is a word of
a block. -/
def Clear (top : Nat) (guards : List (Nat × Value)) (m : Machine) (a : Int64) : Prop :=
  (a.toInt < top ∧ ∀ p ∈ guards, (p.1 : Int) ≠ a.toInt) ∨
    Payload m.store m.np.toNatClampNeg a.toNatClampNeg

/-- The store of a word, if the machine allows it: the machine at the time and the address. -/
def storesAt (a : Int64) (m : Machine) : List (Machine × Int64) :=
  if (m.addressFault? a).isNone then [(m, a)] else []

/-- The store of the instruction that stores the top word. -/
def indirectStores (m : Machine) : List (Machine × Int64) :=
  match pop m with
  | .ok _ m₁ =>
    match pop m₁ with
    | .ok a m₂ => storesAt a.toInt m₂
    | .error .. => []
  | .error .. => []

/-- A store that is clear of the guarded words keeps them. -/
theorem Keeps.storeAt (h : Keeps m top heap guards) {a : Int64} (v : Value)
    (hclear : ∀ p ∈ storesAt a m, Clear top guards p.1 p.2) :
    Tries (Machine.storeAt a v) m fun _ m' => Keeps m' top heap guards ∧ m'.still = m.still := by
  refine tries_storeAt h v fun hfault => ?_
  have hmem : (m, a) ∈ storesAt a m := by simp [storesAt, hfault]
  have hnp : m.np.toNatClampNeg = heap := by rw [toNatClampNeg_eq, h.toInt_np, Int.toNat_natCast]
  rcases hclear _ hmem with ⟨hlt, hfree⟩ | hpay
  · exact .inl ⟨hlt, hfree⟩
  · exact .inr (by rwa [hnp] at hpay)

private theorem Operands.storeIndirect (h : Operands b top heap guards 2 m)
    (hclear : ∀ p ∈ m.indirectStores, Clear top guards p.1 p.2) :
    Meets Machine.storeIndirect m fun _ => Operands b top heap guards 0 := by
  refine h.pop.with_eq.seq fun v m₁ ⟨h₁, heq₁⟩ => h₁.pop.with_eq.seq fun a m₂ ⟨h₂, heq₂⟩ => ?_
  simp only [indirectStores, heq₁, heq₂] at hclear
  refine (h₂.keeps.storeAt v hclear).meets.mono fun _ m₃ ⟨hkeeps, hstill⟩ => ?_
  exact ⟨hkeeps, h₂.base, h₂.below, hstill.trans h₂.still⟩

/-! ## All instructions on operands -/

/-- A division has one fault. -/
theorem benign_of_divide {c : Prop} [Decidable c] {cause e : Fault} {r : Value}
    (h : (if c then .error cause else .ok r : Except Fault Value) = .error e)
    (hcause : cause.Benign) : e.Benign := by
  split at h
  · obtain rfl := Except.error.inj h
    exact hcause
  · cases h

/-- An instruction on operands pops and pushes as many words as it should. -/
theorem meets_operands {o : Opcode} {popped pushed : Nat}
    (harity : o.arity? = some (popped, pushed))
    (x y : Nat) (h : Operands b top heap guards popped m)
    (hclear : o = .sti → ∀ p ∈ m.indirectStores, Clear top guards p.1 p.2) :
    Meets (perform o x y) m fun _ => Operands b top heap guards pushed := by
  cases o <;> simp only [Opcode.arity?, Option.some.injEq, Prod.mk.injEq, reduceCtorEq]
    at harity <;>
    obtain ⟨rfl, rfl⟩ := harity
  case dvi => exact h.binaryE fun _ _ _ he => benign_of_divide he trivial
  case mod => exact h.binaryE fun _ _ _ he => benign_of_divide he trivial
  case dvr => exact h.binaryE fun _ _ _ he => benign_of_divide he trivial
  case flt => exact h
  case flo => exact h
  case lda => exact h.loadAddress x y
  case ldc => exact h.loadConstant _ y
  case ldi => exact h.loadIndirect
  case lva => exact h.loadValue x y
  case lvb => exact h.loadValue x y
  case lvc => exact h.loadValue x y
  case lvi => exact h.loadValue x y
  case lvr => exact h.loadValue x y
  case sti => exact h.storeIndirect (hclear rfl)
  case ixa => exact h.indexAddress y
  all_goals first
    | exact h.binary _
    | exact h.unary _

/-! ## Jumps and arguments -/

/-- Popping the arguments of a native procedure takes all operands. -/
theorem Operands.popArguments (h : Operands b top heap guards n m) (popped : List Value) :
    Meets (Machine.popArguments n popped) m fun _ => Operands b top heap guards 0 := by
  induction n generalizing m popped with
  | zero => exact h
  | succ n ih => exact h.pop.seq fun v _ h₁ => ih h₁ _

/-- A branch pops a word, and leads to its target or on. -/
theorem Operands.jumpIf (h : Operands b top heap guards 1 m) (truth : Bool) (target : Nat) :
    Meets (Machine.jumpIf truth target) m fun _ m' => ∃ m₁, Operands b top heap guards 0 m₁ ∧
      (m' = m₁ ∨ m' = { m₁ with pc := Int64.ofNat target }) := by
  refine h.pop.seq fun v m₁ h₁ => ?_
  split
  · exact ⟨m₁, h₁, .inr rfl⟩
  · exact ⟨m₁, h₁, .inl rfl⟩

/-! ## Calls -/

/-- A mark keeps the frame that a number of static links lead to, and the active frame. -/
theorem meets_markStack (h : Keeps m top heap guards) (level : Nat) :
    Meets (markStack level) m fun _ m' => m'.still = m.still ∧ ∃ link, frame level m = .ok link m ∧
      Keeps m' (top + markSize) heap
        ((top + markStaticLink, .ofInt link) :: (top + markDynamicLink, .ofInt m.mp) ::
          guards) := by
  refine (meets_frame level m).with_eq.seq fun link m₀ ⟨heq, hlink⟩ => ?_
  subst heq
  refine Meets.bind (meets_of_eq rfl ?_)
  refine (tries_push h _).meets.seq fun _ m₁ ⟨h₁, s₁⟩ =>
    (tries_push h₁ _).meets.seq fun _ m₂ ⟨h₂, s₂⟩ => ?_
  refine (tries_push h₂ _).meets.seq fun _ m₃ ⟨h₃, s₃⟩ =>
    (tries_push h₃ _).meets.seq fun _ m₄ ⟨h₄, s₄⟩ => ?_
  refine (tries_push h₄ _).meets.seq fun _ m₅ ⟨h₅, s₅⟩ => meets_pure ⟨?_, link, hlink, ?_⟩
  · rw [s₅, s₄, s₃, s₂, s₁]
  · refine h₅.subset fun p hp => ?_
    simp only [markStaticLink, markDynamicLink, List.mem_cons] at hp ⊢
    grind

/-- A call makes the mark below its arguments the base of the active frame. -/
theorem meets_callUser {base args : Nat} (h : Keeps m (base + markSize + args) heap guards)
    (hbase : m.image.typedConstants.size ≤ base)
    (hfree : ∀ p ∈ guards, p.1 ≠ base + markReturnAddress) (target : Nat) :
    Meets (callUser args target) m fun _ m' =>
      Keeps m' (base + markSize + args) heap ((base + markReturnAddress, .ofInt m.pc) :: guards) ∧
      m' = { m with store := m'.store, mp := Int64.ofNat base, pc := Int64.ofNat target,
                    profile := m'.profile } := by
  have hgap := h.gap
  have hheap := h.heap_le
  have hsize := h.size
  have hmark : markSize = 5 := rfl
  have hreturn : markReturnAddress = 4 := rfl
  have hnew : m.sp - Int64.ofNat args - Int64.ofNat markSize = Int64.ofNat base := by
    rw [h.sp, Int64.ofNat_add, Int64.add_sub_cancel, Int64.ofNat_add, Int64.add_sub_cancel]
  have hstack : ¬ Int64.ofNat base < m.stackBase := by
    rw [Int64.lt_iff_toInt_lt, stackBase, toInt_ofNat (by omega), toInt_ofNat (by omega)]
    omega
  have hslot : Int64.ofNat base + Int64.ofNat markReturnAddress =
      Int64.ofNat (base + markReturnAddress) := (Int64.ofNat_add _ _).symm
  have hindex : (Int64.ofNat (base + markReturnAddress)).toNatClampNeg = base + markReturnAddress :=
    Int64.toNatClampNeg_ofNat_of_lt (by omega)
  have hin : ({ m with mp := Int64.ofNat base } : Machine).inStore
      (Int64.ofNat (base + markReturnAddress)) := by
    rw [inStore_iff, toInt_ofNat (by omega)]
    simp only
    omega
  have hlt : base + markReturnAddress < base + markSize + args := by omega
  have hkeeps := (h.overwrite hlt hfree (.ofInt m.pc)).guard hlt
    (Array.getElem?_setIfInBounds_self_of_lt (by omega))
  unfold Meets callUser
  simp only [hnew, hslot]
  rw [if_neg hstack, if_pos hin]
  exact ⟨hkeeps.transfer rfl (by simp only [setWord, hindex]) rfl rfl, rfl⟩

/-- The entry instruction moves the top of the stack to the end of the frame. -/
theorem meets_enter {base amount : Nat} (h : Keeps m top heap guards)
    (hmp : m.mp = Int64.ofNat base)
    (hbase : m.image.typedConstants.size ≤ base + amount) (hlow : base ≤ top)
    (hamount : amount < 2 ^ 62) (hbelow : ∀ p ∈ guards, p.1 < base + amount) :
    Meets (enter 0 amount) m fun _ m' => Keeps m' (base + amount) heap guards ∧
      m'.still = m.still := by
  have hgap := h.gap
  have hheap := h.heap_le
  have hsize := h.size
  have hnew : m.mp + Int64.ofNat amount = Int64.ofNat (base + amount) := by
    rw [hmp, Int64.ofNat_add]
  have hint : (Int64.ofNat (base + amount)).toInt = (base + amount : Nat) := toInt_ofNat (by omega)
  unfold Meets enter
  simp only [hnew]
  by_cases hlarge : m.np < Int64.ofNat (base + amount)
  · rw [if_pos hlarge]
    trivial
  · rw [if_neg hlarge]
    rw [Int64.lt_iff_toInt_lt, h.toInt_np, hint] at hlarge
    have hspan : span m.sp (Int64.ofNat (base + amount)) = base + amount - top := by
      rw [span, hint, h.toInt_sp]
      omega
    obtain ⟨store, hfill, hsize', -, hsame⟩ := fill_eq (m := m) (a := top) (.ofInt 0)
      (base + amount - top) (by omega) (by omega)
    rw [← h.sp, ← hspan] at hfill
    rw [hfill]
    exact ⟨h.restack hbase (by omega) hbelow hsize' fun i hi => hsame i (by omega), rfl⟩

/-- A word of the stack can be read. -/
theorem load_stack (h : Keeps m top heap guards) {a : Nat} (ha : a < top) :
    ∃ v, load (Int64.ofNat a) m = .ok v m := by
  have hgap := h.gap
  have hheap := h.heap_le
  have hsize := h.size
  have hfault : m.addressFault? (Int64.ofNat a) = none := by
    rw [addressFault?_eq_none_iff (by omega), toInt_ofNat (by omega), h.toInt_sp]
    omega
  exact ⟨_, by unfold load; rw [hfault]⟩

/-- The return instruction goes back to what the mark keeps, and cuts the stack back to the mark,
or to one word above it. -/
theorem meets_leave {base back : Nat} {link : Int64} {kept : List (Nat × Value)}
    (h : Keeps m top heap guards) (hmp : m.mp = Int64.ofNat base) (hmark : base + markSize ≤ top)
    (hlink : (base + markDynamicLink, .ofInt link) ∈ guards)
    (hback : (base + markReturnAddress, .ofInt (Int64.ofNat back)) ∈ guards)
    (hbase : m.image.typedConstants.size ≤ base) (hkept : ∀ p ∈ kept, p ∈ guards ∧ p.1 < base)
    (code : UInt8) :
    Meets (leave code) m fun _ m' =>
      Keeps m' (base + if code = TypeCode.void.byte then 0 else 1) heap kept ∧
      m' = { m with store := m'.store, sp := m'.sp, ep := m'.ep, mp := link,
                    pc := Int64.ofNat back } := by
  have hgap := h.gap
  have hheap := h.heap_le
  have hsize := h.size
  have hfive : markSize = 5 := rfl
  obtain ⟨extreme, hextreme⟩ := load_stack h (a := base + markExtremePointer)
    (by simp only [markExtremePointer]; omega)
  have hslot : ∀ k, m.mp + Int64.ofNat k = Int64.ofNat (base + k) := fun k => by
    rw [hmp, Int64.ofNat_add]
  obtain ⟨up, hup⟩ : ∃ up : Nat, up = if code = TypeCode.void.byte then 0 else 1 := ⟨_, rfl⟩
  have hle : up ≤ 1 := by
    rw [hup]
    split <;> omega
  have htop : (if code = TypeCode.void.byte then m.mp else m.mp + 1) = Int64.ofNat (base + up) := by
    rw [hup, hmp]
    split
    · rfl
    · exact (Int64.ofNat_add base 1).symm
  rw [← hup]
  have hload₁ : load (m.mp + Int64.ofNat markDynamicLink) m = .ok (.ofInt link) m := by
    rw [hslot]
    exact load_guarded h hlink
  have hload₂ : load (m.mp + Int64.ofNat markExtremePointer) m = .ok extreme m := by
    rw [hslot, hextreme]
  have hload₃ :
      load (m.mp + Int64.ofNat markReturnAddress) m = .ok (.ofInt (Int64.ofNat back)) m := by
    rw [hslot]
    exact load_guarded h hback
  have hspan : span (Int64.ofNat (base + up)) m.sp = top - (base + up) := by
    rw [span, h.toInt_sp, toInt_ofNat (by omega)]
    omega
  obtain ⟨store, hfill, hsize', -, hsame⟩ := fill_eq (a := base + up) .undefined (top - (base + up))
    (m := { m with mp := link, ep := extreme.toInt, pc := Int64.ofNat back })
    (by simp only; omega) (by simp only; omega)
  have hlower : Keeps m top heap kept := h.subset fun p hp => (hkept p hp).1
  have hkeeps : Keeps { m with store, sp := Int64.ofNat (base + up) } (base + up) heap kept :=
    hlower.restack (by omega) (by omega) (fun p hp => by have := (hkept p hp).2; omega) hsize'
      fun i hi => hsame i (by omega)
  refine Meets.bind (meets_of_eq rfl ?_)
  refine Meets.bind (meets_of_eq hload₁ (Meets.bind (meets_of_eq hload₂ ?_)))
  refine Meets.bind (meets_of_eq hload₃ ?_)
  refine Meets.bind (meets_of_eq rfl ?_)
  simp only [htop]
  refine Meets.bind (meets_of_eq rfl (Meets.bind (meets_of_eq (by rw [hspan]; exact hfill) ?_)))
  exact ⟨hkeeps.transfer rfl rfl rfl rfl, rfl⟩

end

end PCode.Machine
