import PCode.Proofs.Machine.Leads

/-!
# Integer arithmetic

Division and remainder of two integers on the stack, and the negation and
absolute value of one.  Integers have 64 bits.  A quotient is truncated toward
zero and a remainder has the sign of the dividend, so that both together give
back the dividend.  Where the exact result has no 64-bit integer, it wraps: this
happens for the least integer alone.

Main definitions and results:

- `Machine.IntsOnTop`: integers on top of a stack.
- `Machine.Replaced`: a machine whose topmost words were replaced by others.
- `Machine.Computes`, `Machine.DividesByZero`: what an opcode does on integers.
- `integer_division_exact`: division, remainder, negation and absolute value.
-/

namespace PCode.Machine

/-! ## The top of a stack -/

/-- Integers on top of a stack, the last of them at the very top, with room for a word in their
place. -/
structure IntsOnTop (m : Machine) (is : List Int64) : Prop where
  base : (m.image.typedConstants.size : Int) + is.length ≤ m.sp.toInt
  top : m.sp.toInt ≤ m.store.size
  room : m.sp.toInt - is.length < m.np.toInt
  words : ∀ (j : Nat) (i : Int64), is[j]? = some i →
    ∃ v : Value, m.store[m.sp.toNatClampNeg - is.length + j]? = some v ∧ v.kind = .int ∧ v.int = i

/-- A machine whose topmost words were replaced by others.  All else is the same, but for what is
recorded of the run. -/
structure Replaced (m : Machine) (n : Nat) (ws : List Value) (m' : Machine) : Prop where
  pc : m'.pc = m.pc
  sp : m'.sp.toInt = m.sp.toInt - n + ws.length
  size : m'.store.size = m.store.size
  words : ∀ (j : Nat) (v : Value), ws[j]? = some v →
    m'.store[m.sp.toNatClampNeg - n + j]? = some v
  kept : ∀ i : Nat, (i : Int) < m.sp.toInt - n ∨ m.sp.toInt ≤ i → m'.store[i]? = m.store[i]?
  rest : m'.core = m.core

variable {m m₁ : Machine} {n : Nat}

private theorem replaced_none (m : Machine) : Replaced m 0 [] m where
  pc := rfl
  sp := by simp
  size := rfl
  words j v hv := by simp at hv
  kept _ _ := rfl
  rest := rfl

namespace Replaced

private theorem pop (h : Replaced m n [] m₁) {v : Value}
    (hbase : (m.image.typedConstants.size : Int) + n < m.sp.toInt)
    (htop : m.sp.toInt ≤ m.store.size)
    (hv : m.store[m.sp.toNatClampNeg - (n + 1)]? = some v) :
    ∃ m₂, Machine.pop m₁ = .ok v m₂ ∧ Replaced m (n + 1) [] m₂ := by
  have hsp : m₁.sp.toInt = m.sp.toInt - n := by simpa using h.sp
  have hhigh := m.sp.toInt_lt
  have himage : m₁.image = m.image := (congrArg Machine.image h.rest :)
  have hsub : (m₁.sp - 1).toInt = m₁.sp.toInt - 1 := by
    rw [toInt_sub_of_fits] <;> simp only [Int64.toInt_one] <;> omega
  have hindex : (m₁.sp - 1).toNatClampNeg = m.sp.toNatClampNeg - (n + 1) := by
    simp only [toNatClampNeg_eq]
    omega
  have hword : m₁.word (m₁.sp - 1) = v := by
    rw [word, hindex, Array.getD_eq_getD_getElem?,
      h.kept _ (by simp only [toNatClampNeg_eq]; omega), hv, Option.getD_some]
  have hpop := pop_of_lt (m := m₁) (by rw [himage]; omega) (by rw [h.size]; omega)
  rw [hword] at hpop
  refine ⟨_, hpop, h.pc, ?_, ?_, ?_, ?_, ?_⟩
  · simp only [setWord, hsub, List.length_nil]
    omega
  · rw [setWord_size]
    exact h.size
  · intro j w hw
    simp at hw
  · intro i hi
    have hne : m.sp.toNatClampNeg - (n + 1) ≠ i := by
      simp only [toNatClampNeg_eq]
      omega
    simp only [setWord, hindex, Array.getElem?_setIfInBounds_ne hne]
    exact h.kept i (by omega)
  · exact h.rest

private theorem push (h : Replaced m n [] m₁) (hbase : (n : Int) ≤ m.sp.toInt)
    (hsome : 0 < n) (htop : m.sp.toInt ≤ m.store.size) (hroom : m.sp.toInt - n < m.np.toInt)
    (v : Value) : ∃ m₂, Machine.push v m₁ = .ok () m₂ ∧ Replaced m n [v] m₂ := by
  have hsp : m₁.sp.toInt = m.sp.toInt - n := by simpa using h.sp
  have hhigh := m.sp.toInt_lt
  have hnp : m₁.np = m.np := (congrArg Machine.np h.rest :)
  have hadd : (m₁.sp + 1).toInt = m₁.sp.toInt + 1 := by
    rw [toInt_add_of_fits] <;> simp only [Int64.toInt_one] <;> omega
  have hindex : m₁.sp.toNatClampNeg = m.sp.toNatClampNeg - n := by
    simp only [toNatClampNeg_eq]
    omega
  have hpush := push_of_lt (m := m₁) (by omega) (by rw [h.size]; omega) (by rw [hnp]; omega) v
  refine ⟨_, hpush, h.pc, ?_, ?_, ?_, ?_, ?_⟩
  · simp only [hadd, List.length_singleton]
    omega
  · exact (setWord_size m₁ _ _).trans h.size
  · intro j w hw
    obtain ⟨hj, rfl⟩ := List.getElem?_eq_some_iff.mp hw
    obtain rfl : j = 0 := by simpa using hj
    have hlt : m.sp.toNatClampNeg - n < m₁.store.size := by
      rw [h.size]
      simp only [toNatClampNeg_eq]
      omega
    simp only [setWord, hindex, Nat.add_zero, Array.getElem?_setIfInBounds_self_of_lt hlt]
    rfl
  · intro i hi
    have hne : m.sp.toNatClampNeg - n ≠ i := by
      simp only [toNatClampNeg_eq]
      omega
    simp only [setWord, hindex, Array.getElem?_setIfInBounds_ne hne]
    exact h.kept i hi
  · exact h.rest

private theorem observe {ws : List Value} (h : Replaced m n ws m₁) :
    Replaced m n ws m₁.observe := by
  unfold Machine.observe
  split
  · exact ⟨h.pc, h.sp, h.size, h.words, h.kept, h.rest⟩
  · exact h

end Replaced

/-! ## Operands -/

namespace IntsOnTop

private theorem fetched {is : List Int64} (h : m.IntsOnTop is) (w : Word) :
    (m.fetched w).IntsOnTop is :=
  ⟨h.base, h.top, h.room, h.words⟩

private theorem toInt_of_kind {v : Value} {i : Int64} (h : v.kind = .int ∧ v.int = i) :
    v.toInt = i := by
  rw [Value.toInt, h.1]
  exact h.2

/-- One operand is popped. -/
theorem pop_one {a : Int64} (h : m.IntsOnTop [a]) :
    ∃ x m₁, pop m = .ok x m₁ ∧ x.toInt = a ∧ Replaced m 1 [] m₁ := by
  have hbase := h.base
  obtain ⟨x, hx, hint⟩ := h.words 0 a rfl
  simp only [List.length_singleton] at hbase hx
  obtain ⟨m₁, hpop, hm₁⟩ := (replaced_none m).pop (by omega) h.top hx
  exact ⟨x, m₁, hpop, toInt_of_kind hint, hm₁⟩

/-- Two operands are popped, the second first. -/
theorem pop_two {a b : Int64} (h : m.IntsOnTop [a, b]) :
    ∃ x y m₁ m₂, pop m = .ok y m₁ ∧ pop m₁ = .ok x m₂ ∧ x.toInt = a ∧ y.toInt = b ∧
      Replaced m 2 [] m₂ := by
  have hbase := h.base
  obtain ⟨x, hx, hxint⟩ := h.words 0 a rfl
  obtain ⟨y, hy, hyint⟩ := h.words 1 b rfl
  simp only [List.length_cons, List.length_nil, Nat.zero_add] at hbase hx hy
  have hindex : m.sp.toNatClampNeg - 2 + 1 = m.sp.toNatClampNeg - 1 := by
    simp only [toNatClampNeg_eq]
    omega
  rw [hindex] at hy
  obtain ⟨m₁, hpop₁, hm₁⟩ := (replaced_none m).pop (by omega) h.top hy
  obtain ⟨m₂, hpop₂, hm₂⟩ := hm₁.pop (by omega) h.top hx
  exact ⟨x, y, m₁, m₂, hpop₁, hpop₂, toInt_of_kind hxint, toInt_of_kind hyint, hm₂⟩

private theorem unary {a r : Int64} {f : Value → Value} (h : m.IntsOnTop [a])
    (hf : ∀ x, x.toInt = a → f x = .ofInt r) :
    ∃ m', Machine.unary f m = .ok () m' ∧ Replaced m 1 [.ofInt r] m' := by
  have hbase := h.base
  have hroom := h.room
  obtain ⟨x, m₁, hpop, hx, hm₁⟩ := h.pop_one
  obtain ⟨m₂, hpush, hm₂⟩ := hm₁.push (by simp at hbase; omega) (by decide) h.top hroom (.ofInt r)
  refine ⟨m₂, ?_, hm₂⟩
  rw [Machine.unary, bind_eq hpop, hf x hx]
  exact hpush

private theorem binaryE {a b r : Int64} {f : Value → Value → Except Fault Value}
    (h : m.IntsOnTop [a, b]) (hf : ∀ x y, x.toInt = a → y.toInt = b → f x y = .ok (.ofInt r)) :
    ∃ m', Machine.binaryE f m = .ok () m' ∧ Replaced m 2 [.ofInt r] m' := by
  have hbase := h.base
  have hroom := h.room
  obtain ⟨x, y, m₁, m₂, hpop₁, hpop₂, hx, hy, hm₂⟩ := h.pop_two
  obtain ⟨m₃, hpush, hm₃⟩ := hm₂.push (by simp at hbase; omega) (by decide) h.top hroom (.ofInt r)
  refine ⟨m₃, ?_, hm₃⟩
  rw [Machine.binaryE, bind_eq hpop₁, bind_eq hpop₂, hf x y hx hy]
  exact hpush

private theorem binaryE_error {a b : Int64} {f : Value → Value → Except Fault Value} {cause : Fault}
    (h : m.IntsOnTop [a, b]) (hf : ∀ x y, x.toInt = a → y.toInt = b → f x y = .error cause) :
    ∃ m', Machine.binaryE f m = .error (.fault cause) m' := by
  obtain ⟨x, y, m₁, m₂, hpop₁, hpop₂, hx, hy, -⟩ := h.pop_two
  refine ⟨m₂, ?_⟩
  rw [Machine.binaryE, bind_eq hpop₁, bind_eq hpop₂, hf x y hx hy]
  rfl

end IntsOnTop

/-! ## Steps -/

/-- A running machine that comes to an instruction with this opcode, with these integers on top of
its stack, puts one integer in their place and goes on. -/
def Computes (op : Opcode) (is : List Int64) (r : Int64) : Prop :=
  ∀ (m : Machine) (w : Word), m.state = .running → m.image.fetch? m.pc = some w →
    w.opcode = op.byte → m.IntsOnTop is →
    ∃ m', stepOnce m = .ok () m' ∧ Replaced (m.fetched w) is.length [.ofInt r] m'

/-- A running machine that comes to an instruction with this opcode, with these integers on top of
its stack, is stopped by a division by zero. -/
def DividesByZero (op : Opcode) (is : List Int64) : Prop :=
  ∀ (m : Machine) (w : Word), m.state = .running → m.image.fetch? m.pc = some w →
    w.opcode = op.byte → m.IntsOnTop is →
    ∃ m' e, stepOnce m = .ok () m' ∧ m'.state = .stopped ∧ m'.error = some e ∧
      e.fault.kind = .divideByZero

private theorem computes_of_perform {op : Opcode} {is : List Int64} {r : Int64}
    (h : ∀ (m : Machine) (o1 o2 : Nat), m.IntsOnTop is →
      ∃ m', perform op o1 o2 m = .ok () m' ∧ Replaced m is.length [.ofInt r] m') :
    Computes op is r := by
  intro m w hrun hfetch hop hints
  obtain ⟨m', hperform, hreplaced⟩ := h (m.fetched w) w.operand1 w.operand2 (hints.fetched w)
  refine ⟨m'.observe, ?_, hreplaced.observe⟩
  rw [stepOnce_eq hrun hfetch hop, hperform]
  rfl

private theorem dividesByZero_of_perform {op : Opcode} {is : List Int64} {cause : Fault}
    (hkind : cause.kind = .divideByZero)
    (h : ∀ (m : Machine) (o1 o2 : Nat), m.IntsOnTop is →
      ∃ m', perform op o1 o2 m = .error (.fault cause) m') :
    DividesByZero op is := by
  intro m w hrun hfetch hop hints
  obtain ⟨m', hperform⟩ := h (m.fetched w) w.operand1 w.operand2 (hints.fetched w)
  refine ⟨m'.failWith (m'.errorOf cause), m'.errorOf cause, ?_, failWith_state ..,
    failWith_error .., hkind⟩
  rw [stepOnce_eq hrun hfetch hop, hperform]
  rfl

/-! ## Operations on integers -/

private theorem computes_dvi {a b : Int64} (hb : b ≠ 0) : Computes .dvi [a, b] (a / b) :=
  computes_of_perform fun _ _ _ h => h.binaryE fun x y hx hy => by
    rw [Operator.divInt, hx, hy, if_neg hb]

private theorem computes_mod {a b : Int64} (hb : b ≠ 0) : Computes .mod [a, b] (a % b) :=
  computes_of_perform fun _ _ _ h => h.binaryE fun x y hx hy => by
    rw [Operator.modInt, hx, hy, if_neg hb]

private theorem dividesByZero_dvi (a : Int64) : DividesByZero .dvi [a, 0] :=
  dividesByZero_of_perform (show (Fault.integerDivision a).kind = _ from rfl) fun _ _ _ h =>
    h.binaryE_error fun x y hx hy => by rw [Operator.divInt, hx, hy, if_pos rfl]

private theorem dividesByZero_mod (a : Int64) : DividesByZero .mod [a, 0] :=
  dividesByZero_of_perform (show (Fault.modulo a).kind = _ from rfl) fun _ _ _ h =>
    h.binaryE_error fun x y hx hy => by rw [Operator.modInt, hx, hy, if_pos rfl]

private theorem computes_ngi (a : Int64) : Computes .ngi [a] (-a) :=
  computes_of_perform fun _ _ _ h => h.unary fun x hx => by rw [Operator.negInt, hx]

private theorem computes_abi (a : Int64) : Computes .abi [a] (if a < 0 then -a else a) :=
  computes_of_perform fun _ _ _ h => h.unary fun x hx => by rw [Operator.absInt, hx]

end PCode.Machine

namespace PCode

/-! ## Integers of 64 bits -/

/-- Quotient and remainder give back the dividend. -/
theorem div_mul_add_mod (a b : Int64) : a / b * b + a % b = a := by
  apply Int64.toInt_inj.mp
  rw [Int64.toInt_add, Int64.toInt_mul, Int64.toInt_div, Int64.toInt_mod, Int.bmod_mul_bmod,
    Int.bmod_add_bmod, Int.tdiv_mul_add_tmod]
  exact a.toInt_bmod

private theorem natAbs_mod_lt (a : Int64) {b : Int64} (hb : b ≠ 0) :
    (a % b).toInt.natAbs < b.toInt.natAbs := by
  have hb' : b.toInt ≠ 0 := fun h => hb (Int64.toInt_inj.mp h)
  rw [Int64.toInt_mod, Int.natAbs_tmod]
  exact Nat.mod_lt _ (Int.natAbs_pos.mpr hb')

/-- A remainder is zero or has the sign of the dividend. -/
theorem sign_mod (a b : Int64) : a % b = 0 ∨ (a % b).toInt.sign = a.toInt.sign := by
  have hsign := Int.sign_tmod a.toInt b.toInt
  rw [← Int64.toInt_mod] at hsign
  split at hsign
  · exact .inl (Int64.toInt_inj.mp (Int.sign_eq_zero_iff_zero.mp hsign))
  · exact .inr hsign

/-- The quotient is exact, except that of the least integer by minus one. -/
theorem div_exact (a b : Int64) :
    if a.toInt = -2 ^ 63 ∧ b.toInt = -1 then (a / b).toInt = -2 ^ 63 ∧ a % b = 0
    else (a / b).toInt = a.toInt.tdiv b.toInt := by
  split
  · rename_i h
    obtain rfl : a = Int64.minValue := Int64.toInt_inj.mp h.1
    obtain rfl : b = -1 := Int64.toInt_inj.mp h.2
    decide
  · rename_i h
    by_cases ha : a = Int64.minValue
    · refine Int64.toInt_div_of_ne_right a b fun hb => h ?_
      rw [ha, hb]
      decide
    · exact Int64.toInt_div_of_ne_left a b ha

/-- The negation is exact, except that of the least integer. -/
theorem toInt_neg_eq (a : Int64) :
    (-a).toInt = if a.toInt = -2 ^ 63 then a.toInt else -a.toInt := by
  have hlow := a.le_toInt
  have hhigh := a.toInt_lt
  rw [Int64.toInt_neg]
  split
  · rename_i h
    rw [h]
    rfl
  · rw [Int.bmod_eq_of_le] <;> omega

/-- The absolute value is exact, except that of the least integer. -/
theorem toInt_abs_eq (a : Int64) :
    (if a < 0 then -a else a).toInt =
      if a.toInt = -2 ^ 63 then a.toInt else a.toInt.natAbs := by
  by_cases hneg : a < 0
  · rw [if_pos hneg, toInt_neg_eq]
    rw [Int64.lt_iff_toInt_lt, Int64.toInt_zero] at hneg
    split <;> omega
  · rw [if_neg hneg]
    rw [Int64.lt_iff_toInt_lt, Int64.toInt_zero] at hneg
    split <;> omega

open Machine in
/-- Integer division and remainder stop the machine exactly if the divisor is zero.  Otherwise they
leave a quotient and a remainder that give back the dividend: the remainder is smaller than the
divisor and zero or of the sign of the dividend, and the quotient is exact and truncated toward
zero, but for the least integer divided by minus one, where it wraps to the least integer.  Negation
and absolute value are exact but for the least integer, which they leave as it is. -/
theorem integer_division_exact (a b : Int64) :
    (b = 0 → DividesByZero .dvi [a, b] ∧ DividesByZero .mod [a, b]) ∧
    (b ≠ 0 → ∃ q r : Int64, Computes .dvi [a, b] q ∧ Computes .mod [a, b] r ∧
      q * b + r = a ∧ r.toInt.natAbs < b.toInt.natAbs ∧
      (r = 0 ∨ r.toInt.sign = a.toInt.sign) ∧
      (if a.toInt = -2 ^ 63 ∧ b.toInt = -1 then q.toInt = -2 ^ 63 ∧ r = 0
        else q.toInt = a.toInt.tdiv b.toInt)) ∧
    (∃ n : Int64, Computes .ngi [a] n ∧
      n.toInt = if a.toInt = -2 ^ 63 then a.toInt else -a.toInt) ∧
    ∃ n : Int64, Computes .abi [a] n ∧
      n.toInt = if a.toInt = -2 ^ 63 then a.toInt else a.toInt.natAbs := by
  refine ⟨?_, fun hb => ⟨a / b, a % b, computes_dvi hb, computes_mod hb, div_mul_add_mod a b,
    natAbs_mod_lt a hb, sign_mod a b, div_exact a b⟩, ⟨-a, computes_ngi a, toInt_neg_eq a⟩,
    _, computes_abi a, toInt_abs_eq a⟩
  rintro rfl
  exact ⟨dividesByZero_dvi a, dividesByZero_mod a⟩

/-- A machine that is about to divide the least integer by minus one. -/
def dividing : Machine :=
  { (default : Machine) with
    image := { code := #[Word.pack Opcode.dvi.byte 0 0] }
    store := #[.ofInt Int64.minValue, .ofInt (-1)]
    sp := 2
    np := 2
    state := .running }

/-- The least integer divided by minus one is itself. -/
theorem integer_division_exact_least :
    dividing.IntsOnTop [Int64.minValue, -1] ∧
    ∃ m', dividing.stepOnce = .ok () m' ∧ m'.state = .running ∧ m'.sp.toInt = 1 ∧
      m'.store[0]? = some (.ofInt Int64.minValue) := by
  have hints : dividing.IntsOnTop [Int64.minValue, -1] := by
    refine ⟨by decide, by decide, by decide, fun j i hi => ?_⟩
    match j, hi with
    | 0, hi => exact ⟨.ofInt Int64.minValue, rfl, rfl, Option.some.inj hi⟩
    | 1, hi => exact ⟨.ofInt (-1), rfl, rfl, Option.some.inj hi⟩
  obtain ⟨q, r, hdvi, -, -, -, -, hexact⟩ :=
    (integer_division_exact Int64.minValue (-1)).2.1 (by decide)
  rw [if_pos (by decide)] at hexact
  obtain rfl : q = Int64.minValue := Int64.toInt_inj.mp hexact.1
  obtain ⟨m', hstep, hreplaced⟩ := hdvi dividing _ rfl rfl (by decide) hints
  exact ⟨hints, m', hstep, (congrArg Machine.state hreplaced.rest :), hreplaced.sp,
    hreplaced.words 0 _ rfl⟩

end PCode
