import PCode.Proofs.Codegen.Pieces
import PCode.Proofs.Machine.Passing
import PCode.Proofs.Simulation.CompiledExpr
import PCode.Proofs.Simulation.Stmt

/-!
# Counted loops

A counted loop stores the first value in its counter, and before each round
compares the counter with the last value, which it computes anew; after the
round it moves the counter by one through the store.  The bounds and the body
can be any code here, as long as they run to their end and leave the counter
alone, so that the loop's own instructions decide how often the body is
executed.  A counter wraps around, so a loop up to the largest number or down to
the smallest one has no end.

Main definitions and results:

- `CountedLoop`: a counted loop at an address, with the addresses of its parts.
- `CountedLoop.Regular`: what the bounds and the body are asked for.
- `CountedLoop.Rounds`: the rounds of a loop, with the machines that enter its body.
- `CountedLoop.exists_rounds`: as many rounds as the counter does not pass the last value.
-/

namespace PCode

open Gen

/-! ## Counters -/

/-- The integer in a word, unless the word is a real or a string. -/
def Value.integer? (v : Value) : Option Int :=
  if v.kind = .real ∨ v.kind = .string then none else some v.int.toInt

/-- The integer in a variable. -/
def Machine.integerOf (m : Machine) (id : Ident) : Option Int :=
  (m.memory.wordOf id 0).bind Value.integer?

/-- A counter after some steps, which wrap around. -/
def countAfter (down : Bool) (i : Int) (n : Nat) : Int :=
  (if down then i - n else i + n).bmod (2 ^ 64)

section

variable {down : Bool} {x y : Value} {i j : Int}

private theorem integer?_eq_some_iff :
    x.integer? = some i ↔ (x.kind ≠ .real ∧ x.kind ≠ .string) ∧ x.int.toInt = i := by
  unfold Value.integer?
  split
  · rename_i h
    rcases h with h | h <;> simp [h]
  · rename_i h
    obtain ⟨hreal, hstring⟩ := not_or.mp h
    simp [hreal, hstring]

private theorem integer?_bounds (h : x.integer? = some i) : -2 ^ 63 ≤ i ∧ i < 2 ^ 63 := by
  obtain ⟨-, rfl⟩ := integer?_eq_some_iff.mp h
  exact ⟨x.int.le_toInt, x.int.toInt_lt⟩

private theorem truthy_passed (hx : x.integer? = some i) (hy : y.integer? = some j) :
    (passed down x y).truthy = true ↔ if down then i < j else j < i := by
  obtain ⟨⟨hreal, hstring⟩, rfl⟩ := integer?_eq_some_iff.mp hx
  obtain ⟨⟨hreal', hstring'⟩, rfl⟩ := integer?_eq_some_iff.mp hy
  have hcompare : x.compare y = Value.compareInt x.int y.int := by
    simp [Value.compare, hreal, hstring, hreal', hstring']
  have htruthy (t : Bool) : (Value.ofBool t).truthy = t := by cases t <;> rfl
  cases down with
  | true =>
    simp only [passed, if_true, Operator.less, hcompare, htruthy, Value.compareInt,
      Int64.lt_iff_toInt_lt]
    split
    · simp_all
    · split <;> simp_all
  | false =>
    simp only [passed, Bool.false_eq_true, if_false, Operator.greater, hcompare, htruthy,
      Value.compareInt, Int64.lt_iff_toInt_lt]
    split
    · simp_all; omega
    · split <;> simp_all

private theorem integer?_counted (hx : x.integer? = some i) :
    (counted down x).integer? = some (countAfter down i 1) := by
  obtain ⟨⟨hreal, hstring⟩, rfl⟩ := integer?_eq_some_iff.mp hx
  have hcounted : (counted down x).kind ≠ .real ∧ (counted down x).kind ≠ .string ∧
      (counted down x).int = x.int + if down then -1 else 1 := by
    unfold counted Operator.stepBy
    cases hkind : x.kind <;> simp_all
  refine integer?_eq_some_iff.mpr ⟨⟨hcounted.1, hcounted.2.1⟩, ?_⟩
  rw [hcounted.2.2, Int64.toInt_add, countAfter]
  cases down <;> rfl

private theorem countAfter_up {n : Nat} (hlow : -2 ^ 63 ≤ i + n) (hhigh : i + n < 2 ^ 63) :
    countAfter false i n = i + n :=
  Int.bmod_eq_of_le (by simp; omega) (by simp; omega)

private theorem countAfter_down {n : Nat} (hlow : -2 ^ 63 ≤ i - n) (hhigh : i - n < 2 ^ 63) :
    countAfter true i n = i - n :=
  Int.bmod_eq_of_le (by simp; omega) (by simp; omega)

private theorem countAfter_zero (hlow : -2 ^ 63 ≤ i) (hhigh : i < 2 ^ 63) :
    countAfter down i 0 = i := by
  cases down with
  | true => rw [countAfter_down (by omega) (by omega), Int.natCast_zero, Int.sub_zero]
  | false => rw [countAfter_up (by omega) (by omega), Int.natCast_zero, Int.add_zero]

/-- A counter stays in 64 bits. -/
theorem countAfter_bounds (down : Bool) (i : Int) (n : Nat) :
    -2 ^ 63 ≤ countAfter down i n ∧ countAfter down i n < 2 ^ 63 := by
  have hlow := Int.le_bmod (x := if down then i - n else i + n) (m := 2 ^ 64) (by omega)
  have hhigh := Int.bmod_lt (x := if down then i - n else i + n) (m := 2 ^ 64) (by omega)
  unfold countAfter
  omega

private theorem countAfter_succ (n : Nat) :
    countAfter down (countAfter down i n) 1 = countAfter down i (n + 1) := by
  cases down with
  | true =>
    simp only [countAfter, if_true, Int.bmod_sub_bmod]
    congr 1
    omega
  | false =>
    simp only [countAfter, Bool.false_eq_true, if_false, Int.bmod_add_bmod]
    congr 1
    omega

end

/-! ## Parts of a loop -/

/-- A counted loop whose code stands at an address. -/
structure CountedLoop where
  start : Nat
  pos : Pos
  counter : Ident
  first : Expr
  last : Expr
  down : Bool
  body : Stmt

namespace CountedLoop

/-- The loop as a statement. -/
def stmt (l : CountedLoop) : Stmt := .forTo l.pos l.counter l.first l.last l.down l.body

/-- Where the first value has been computed. -/
def firstEnd (l : CountedLoop) : Nat := l.start + 1 + (exprCode .value l.first).length

/-- Where a round begins, with its test. -/
def top (l : CountedLoop) : Nat := l.firstEnd + 1

/-- Where the last value is computed. -/
def lastStart (l : CountedLoop) : Nat := l.top + (identValueCode l.counter).length

/-- Where the last value has been computed. -/
def lastEnd (l : CountedLoop) : Nat := l.lastStart + (exprCode .value l.last).length

/-- The branch out of the loop. -/
def branch (l : CountedLoop) : Nat := l.lastEnd + 1

/-- Where the body begins. -/
def bodyStart (l : CountedLoop) : Nat := l.branch + 1

/-- Where the body has ended. -/
def bodyEnd (l : CountedLoop) : Nat := l.bodyStart + (stmtCode l.body).length

/-- The jump back to the test. -/
def back (l : CountedLoop) : Nat := l.bodyEnd + 1 + (identValueCode l.counter).length + 2

/-- The address behind the loop. -/
def exit (l : CountedLoop) : Nat := l.start + (stmtCode l.stmt).length

/-- A counter has passed the last value. -/
def Past (l : CountedLoop) (i b : Int) : Prop := if l.down then i < b else b < i

instance (l : CountedLoop) (i b : Int) : Decidable (l.Past i b) :=
  inferInstanceAs (Decidable (if l.down then i < b else b < i))

/-- The instructions of a loop that belong neither to its bounds nor to its body. -/
structure Stands (l : CountedLoop) (code : Array Word) (k : Linking) : Prop where
  simple : ∃ c, l.counter.symbol.type.code? = some c
  address : CodeAt code k l.start (identAddressCode l.counter)
  set : ∃ x, CodeAt code k l.firstEnd [.op .sti x 0]
  value : CodeAt code k l.top (identValueCode l.counter)
  test : ∃ x, CodeAt code k l.lastEnd [.op (if l.down then .les else .grt) x 0]
  leave : CodeAt code k l.branch [.jump .tjp ((l.exit : Int) - l.branch)]
  address' : CodeAt code k l.bodyEnd (identAddressCode l.counter)
  value' : CodeAt code k (l.bodyEnd + 1) (identValueCode l.counter)
  move : ∃ x, CodeAt code k (l.bodyEnd + 1 + (identValueCode l.counter).length)
    [.op (if l.down then .dec else .inc) x 0]
  set' : ∃ x, CodeAt code k (l.bodyEnd + 1 + (identValueCode l.counter).length + 1)
    [.op .sti x 0]
  again : CodeAt code k l.back [.jump .ujp ((l.top : Int) - l.back)]
  exit_eq : l.exit = l.back + 1

variable {l : CountedLoop} {code : Array Word} {k : Linking}

/-- Where the code of the loop stands, its instructions do. -/
theorem stands (h : CodeAt code k l.start (stmtCode l.stmt)) : l.Stands code k := by
  cases hsimple : l.counter.symbol.type.code? with
  | none =>
    simp only [stmt, stmtCode, hsimple] at h
    exact absurd h not_codeAt_refused
  | some c =>
    have hexit : l.exit = l.back + 1 := by
      simp only [exit, stmt, stmtCode, hsimple, back, bodyEnd, bodyStart, branch, lastEnd,
        lastStart, top, firstEnd, loopCode, setCounterCode, testCounterCode, stepCounterCode,
        identAddressCode, List.length_append, List.length_cons, List.length_nil]
      omega
    have htop :
        l.start + (setCounterCode l.counter c (exprCode .value l.first)).length = l.top := by
      simp [setCounterCode, identAddressCode, top, firstEnd]
      omega
    have hlastEnd : l.top + (identValueCode l.counter ++ exprCode .value l.last).length =
        l.lastEnd := by
      simp [lastEnd, lastStart]
      omega
    have hbranch : l.top + (testCounterCode l.counter c (exprCode .value l.last) l.down).length =
        l.branch := by
      rw [branch, ← hlastEnd]
      simp [testCounterCode]
      omega
    have hback : l.bodyEnd + (stepCounterCode l.counter c l.down).length = l.back := by
      simp [stepCounterCode, setCounterCode, identAddressCode, back]
      omega
    simp only [stmt, stmtCode, hsimple] at h
    obtain ⟨hset, hloop⟩ := codeAt_append.mp h
    obtain ⟨haddress, -, hsti⟩ := codeAt_setCounterCode hset
    rw [htop] at hloop
    obtain ⟨htest, hleave, hbody, hagain⟩ := codeAt_loopCode hloop
    rw [hbranch] at hleave hbody hagain
    obtain ⟨hboth, hcompare⟩ := codeAt_append.mp htest
    rw [hlastEnd] at hcompare
    obtain ⟨hvalue, -⟩ := codeAt_append.mp hboth
    obtain ⟨-, hstep⟩ := codeAt_append.mp hbody
    obtain ⟨haddress', hmoved, hsti'⟩ := codeAt_setCounterCode hstep
    obtain ⟨hvalue', hmove⟩ := codeAt_append.mp hmoved
    have hlength : l.branch + 1 +
        (stmtCode l.body ++ stepCounterCode l.counter c l.down).length = l.back := by
      rw [List.length_append, ← Nat.add_assoc]
      exact hback
    rw [show ((stmtCode l.body ++ stepCounterCode l.counter c l.down).length + 2 : Int) =
      l.exit - l.branch by omega] at hleave
    rw [hlength, show (-((testCounterCode l.counter c (exprCode .value l.last) l.down).length +
      ((stmtCode l.body ++ stepCounterCode l.counter c l.down).length + 1) : Nat) : Int) =
      l.top - l.back by omega] at hagain
    rw [List.length_append] at hsti'
    exact ⟨⟨c, hsimple⟩, haddress, ⟨_, hsti⟩, hvalue, ⟨_, hcompare⟩, hleave, haddress', hvalue',
      ⟨_, hmove⟩, ⟨_, hsti'⟩, hagain, hexit⟩

/-- The addresses of a loop from its beginning to its end. -/
theorem Stands.order (h : l.Stands code k) :
    l.start + 1 ≤ l.firstEnd ∧ l.top = l.firstEnd + 1 ∧
      l.lastStart = l.top + (identValueCode l.counter).length ∧ l.lastStart ≤ l.lastEnd ∧
      l.branch = l.lastEnd + 1 ∧ l.bodyStart = l.branch + 1 ∧ l.bodyStart ≤ l.bodyEnd ∧
      l.back = l.bodyEnd + 1 + (identValueCode l.counter).length + 2 ∧ l.exit = l.back + 1 :=
  ⟨Nat.le_add_right .., rfl, rfl, Nat.le_add_right .., rfl, rfl, Nat.le_add_right .., rfl,
    h.exit_eq⟩

end CountedLoop

/-! ## The value of a counter -/

/-- An instruction stands in the code of every machine with the same image. -/
theorem Machine.at_of_codeAt {m b : Machine} {k : Linking} {a : Nat} {it : Item}
    (himage : b.image = m.image) (h : CodeAt m.image.code k a [it]) : At b k a it := by
  rw [← himage] at h
  exact (codeAt_cons.mp h).1

/-- The value of a variable of a simple type is pushed. -/
theorem Machine.goes_identValue {b : Machine} {k : Linking} {id : Ident} {c : UInt8} {v : Value}
    {a lo hi : Nat} {ws : List Value} (hb : b.Ready) (hsimple : id.symbol.type.code? = some c)
    (hcode : CodeAt b.image.code k a (identValueCode id)) (hword : b.memory.wordOf id 0 = some v)
    (hroom : (ws.length : Int) < b.room) (hlo : lo ≤ a)
    (hhi : a + (identValueCode id).length ≤ hi) :
    Goes lo hi b a ws b (a + (identValueCode id).length) (ws ++ [v]) := by
  obtain ⟨p, haddress, hread⟩ := Option.bind_eq_some_iff.mp hword
  obtain ⟨r, hframe, hplace⟩ := frame_of_addressOf haddress
  change b.memory.read (p.toInt + 0) = some v at hread
  rw [Int64.add_zero] at hread
  by_cases hkind : id.symbol.kind = .subprogram ∨ id.symbol.kind = .native
  · simp only [identValueCode, hkind, if_true] at hcode
    exact absurd hcode not_codeAt_refused
  · cases href : id.symbol.byRef with
    | true =>
      simp only [identValueCode, hkind, if_false, href, if_true, hsimple] at hcode hhi hplace ⊢
      obtain ⟨hlva, hrest⟩ := codeAt_cons.mp hcode
      obtain ⟨hldi, -⟩ := codeAt_cons.mp hrest
      simp only [List.length_cons, List.length_nil] at hhi
      have h₁ : Goes lo hi b a ws b _ (ws ++ [p]) :=
        (steps_loadValue hb (.inl rfl) hlva hframe hplace hroom).goes hb hlva hlo (by omega) rfl rfl
      have h₂ : Goes lo hi b _ (ws ++ [p]) b _ (ws ++ [v]) :=
        (steps_ldi hb hldi hread).goes hb hldi (by omega) (by omega) rfl rfl
      exact h₁.trans h₂
    | false =>
      simp only [identValueCode, hkind, if_false, href, Bool.false_eq_true, hsimple]
        at hcode hhi hplace ⊢
      subst hplace
      cases hload : loadOpcode? c with
      | none =>
        simp only [hload] at hcode
        exact absurd hcode not_codeAt_refused
      | some op =>
        simp only [hload, List.length_cons, List.length_nil] at hcode hhi ⊢
        have hit := (codeAt_cons.mp hcode).1
        exact (steps_loadValue hb (loadOpcode?_cases hload) hit hframe hread hroom).goes hb hit hlo
          (by omega) rfl rfl

/-- The value of a variable of a simple type is evaluated above an operand, and changes no
variable. -/
theorem Machine.evaluates_identValue {m : Machine} {k : Linking} {id : Ident} {c : UInt8} {i : Int}
    {a : Nat} (hm : m.Ready) (hpc : m.pc = Int64.ofNat a)
    (hsp : (m.image.typedConstants.size : Int) < m.sp.toInt) (hroom : 1 ≤ m.room)
    (hsimple : id.symbol.type.code? = some c)
    (hcode : CodeAt m.image.code k a (identValueCode id))
    (hinteger : (m.without 1).integerOf id = some i) :
    ∃ x m', m.Evaluates a (a + (identValueCode id).length) x m' ∧ x.integer? = some i ∧
      ∀ id', (m'.without 2).integerOf id' = (m.without 1).integerOf id' := by
  obtain ⟨x, hword, hx⟩ := Option.bind_eq_some_iff.mp hinteger
  obtain ⟨hb, w, hstacked⟩ := stacked_without hm hpc hsp
  have hroom' : ([w].length : Int) < (m.without 1).room := by
    have hpushed := hstacked.sp
    change (1 : Int) < m.np.toInt - (m.without 1).sp.toInt
    unfold room at hroom
    simp only [List.length_singleton] at hpushed
    omega
  obtain ⟨m', heval, hm'⟩ := Evaluates.of_goes hb
    (goes_identValue hb hsimple hcode hword hroom' (Nat.le_refl a) (Nat.le_refl _)) hstacked
  refine ⟨x, m', heval, hx, fun id' => ?_⟩
  exact congrArg (·.bind Value.integer?) (hm'.wordOf_without hb.sound id' 0)

namespace CountedLoop

open Machine

/-! ## What is asked of the bounds and the body -/

/-- On its way through the loop a machine finds the numbers that bound it, and a body that runs to
its end; neither changes the counter.  The counter is where it can be assigned, and there is room
to do so. -/
structure Regular (l : CountedLoop) (m : Machine) (p : Value) (a b : Int) : Prop where
  first : ∀ m₁, m.Passes l.start l.exit m₁ → m₁.pc = Int64.ofNat (l.start + 1) →
    ∃ x m₂, m₁.Evaluates (l.start + 1) l.firstEnd x m₂ ∧ x.integer? = some a ∧
      (m₂.without 2).memory.Assignable l.counter p
  last : ∀ m₁, m.Passes l.start l.exit m₁ → m₁.pc = Int64.ofNat l.lastStart →
    ∃ y m₂, m₁.Evaluates l.lastStart l.lastEnd y m₂ ∧ y.integer? = some b ∧
      (m₂.without 2).integerOf l.counter = (m₁.without 1).integerOf l.counter
  body : ∀ m₀ m₁, m.Passes l.start l.exit m₀ → m₀.pc = Int64.ofNat l.branch →
    stepOnce m₀ = .ok () m₁ → m₁.pc = Int64.ofNat l.bodyStart →
    ∃ m₂ q, m₁.Passes l.bodyStart l.bodyEnd m₂ ∧ m₂.pc = Int64.ofNat l.bodyEnd ∧ m₂.Sound ∧
      2 ≤ m₂.room ∧ m₂.integerOf l.counter = m₁.integerOf l.counter ∧
      m₂.memory.Assignable l.counter q

/-- A machine that is about to test a counter. -/
structure AtTest (l : CountedLoop) (m : Machine) (i : Int) : Prop where
  ready : m.Ready
  pc : m.pc = Int64.ofNat l.top
  room : 2 ≤ m.room
  integer : m.integerOf l.counter = some i

section

variable {l : CountedLoop} {m m₀ m₁ m' : Machine} {k : Linking} {p q : Value} {a b i : Int}

private theorem exists_word (h : m.integerOf l.counter = some i) :
    ∃ x, m.memory.wordOf l.counter 0 = some x ∧ x.integer? = some i :=
  Option.bind_eq_some_iff.mp h

/-- An integer that is stored in the counter is found there. -/
theorem goes_set {c : Machine} {x : Value} {n lo hi : Nat} {z : Int64} (hc : c.Ready)
    (hcode : CodeAt c.image.code k n [.op .sti z 0]) (hassign : c.memory.Assignable l.counter p)
    (hx : x.integer? = some i) (hlo : lo ≤ n) (hhi : n < hi) :
    ∃ c', Goes lo hi c n [p, x] c' (n + 1) [] ∧ c'.Ready ∧ c'.room = c.room ∧
      c'.image = c.image ∧ c'.integerOf l.counter = some i := by
  obtain ⟨mem, hwrite, haddress⟩ := hassign.assign x
  obtain ⟨hmem, hsize⟩ := Memory.write_eq hwrite
  have hit := (codeAt_cons.mp hcode).1
  have hsti : Steps c n ([] ++ [p, x]) { c with store := mem.store } (n + 1) [] :=
    steps_sti hc hit hwrite
  have hcont : Continues c { c with store := mem.store } := ⟨rfl, hsize, .inl rfl⟩
  refine ⟨{ c with store := mem.store }, hsti.goes hc hit hlo hhi rfl rfl, hcont.ready hc, rfl, rfl,
    ?_⟩
  have hword := Memory.wordOf_of_write hc.sound.size hwrite haddress
  rw [hmem] at hword
  exact (congrArg (·.bind Value.integer?) hword).trans hx

/-- A machine at the test whose base holds the counter. -/
theorem AtTest.of_stacked {c : Machine} (hc : c.Ready) (hroom : 2 ≤ c.room)
    (hinteger : c.integerOf l.counter = some i) (h : Stacked c l.top [] m) : l.AtTest m i where
  ready := h.ready hc
  pc := h.pc
  room := by
    rw [h.room_eq]
    exact hroom
  integer := by
    rw [integerOf, h.wordOf hc.sound]
    exact hinteger

/-! ## The instructions of a loop -/

/-- The counter is set to the first value. -/
theorem passes_set (hstands : l.Stands m.image.code k) (hregular : l.Regular m p a b)
    (hm : m.Ready) (hpc : m.pc = Int64.ofNat l.start) (hroom : 1 ≤ m.room)
    (haddress : m.memory.addressOf l.counter = some p) :
    ∃ m₁, m.Passes l.start l.top m₁ ∧ l.AtTest m₁ a := by
  have horder := hstands.order
  have hload : Goes l.start l.top m l.start [] m _ ([] ++ [p]) :=
    (steps_identAddressCode hm hstands.address haddress
      (by simp only [List.length_nil]; omega)).goes hm (at_of_codeAt rfl hstands.address)
      (Nat.le_refl _) (by omega) rfl rfl
  obtain ⟨m₁, hpasses₁, hm₁⟩ := hload m (.refl hm.sound hpc)
  obtain ⟨x, m₂, heval, hx, hassign⟩ :=
    hregular.first m₁ (hpasses₁.mono (Nat.le_refl _) (by omega)) hm₁.pc
  obtain ⟨hc, hm₂, -⟩ := heval.stacked hm hm₁
  have himage : (m₂.without 2).image = m.image := heval.passes.image.trans hm₁.image
  obtain ⟨z, hsti⟩ := hstands.set
  obtain ⟨c, hset, hc', hroom', -, hinteger⟩ := goes_set hc (himage ▸ hsti) hassign hx
    (show l.start ≤ l.firstEnd by omega) (show l.firstEnd < l.top by omega)
  obtain ⟨m₃, hpasses₃, hm₃⟩ := hset m₂ hm₂
  have hpasses₂ : m₁.Passes l.start l.top m₂ := heval.passes.mono (by omega) (by omega)
  exact ⟨m₃, (hpasses₁.trans hpasses₂).trans hpasses₃,
    .of_stacked hc' (hroom' ▸ hm₂.room) hinteger hm₃⟩

/-- The counter is compared with the last value, and the loop is left if it has passed it. -/
theorem passes_test (hstands : l.Stands m.image.code k) (hregular : l.Regular m₀ p a b)
    (hpasses : m₀.Passes l.start l.exit m) (h : l.AtTest m i) :
    ∃ m₁ m₂, m.Passes l.top l.bodyStart m₁ ∧ m₁.pc = Int64.ofNat l.branch ∧
      stepOnce m₁ = .ok () m₂ ∧ m.Passes l.top l.bodyStart m₂ ∧
      m₂.pc = Int64.ofNat (if l.Past i b then l.exit else l.bodyStart) ∧
      m₂.integerOf l.counter = some i := by
  have horder := hstands.order
  obtain ⟨c, hsimple⟩ := hstands.simple
  obtain ⟨x, hword, hx⟩ := exists_word h.integer
  have hroom := h.room
  have hload : Goes l.top l.bodyStart m l.top [] m l.lastStart ([] ++ [x]) :=
    goes_identValue h.ready hsimple hstands.value hword (by simp only [List.length_nil]; omega)
      (Nat.le_refl _) (by omega)
  obtain ⟨m₁, hpasses₁, hm₁⟩ := hload m (.refl h.ready.sound h.pc)
  obtain ⟨y, m₂, heval, hy, hsame⟩ := hregular.last m₁
    (hpasses.trans (hpasses₁.mono (by omega) (by omega))) hm₁.pc
  obtain ⟨hc, hm₂, -⟩ := heval.stacked h.ready hm₁
  have himage : (m₂.without 2).image = m.image := heval.passes.image.trans hm₁.image
  obtain ⟨z, htest⟩ := hstands.test
  have hbinary : Operator.binary? (if l.down then .les else .grt) x y =
      some (passed l.down x y) := by
    cases l.down <;> rfl
  have hit := at_of_codeAt himage htest
  have hcompare : Goes l.top l.bodyStart _ _ ([] ++ [x, y]) _ _ ([] ++ [passed l.down x y]) :=
    (steps_binary hc hbinary hit).goes hc hit (by omega) (by omega) rfl rfl
  obtain ⟨m₃, hpasses₃, hm₃⟩ := hcompare m₂ hm₂
  have hbranch : Steps _ l.branch ([] ++ [passed l.down x y]) _ _ [] :=
    steps_branch true hc (at_of_codeAt himage hstands.leave) (t := l.exit) (by omega)
  obtain ⟨m₄, hstep, hpasses₄, hm₄⟩ := hbranch.passes hc (at_of_codeAt himage hstands.leave)
    (show l.top ≤ l.branch by omega) (show l.branch < l.bodyStart by omega) rfl rfl hm₃
  have hpasses₂ : m₁.Passes l.top l.bodyStart m₂ := heval.passes.mono (by omega) (by omega)
  have hto₃ := (hpasses₁.trans hpasses₂).trans hpasses₃
  refine ⟨m₃, m₄, hto₃, hm₃.pc, hstep, hto₃.trans hpasses₄, ?_, ?_⟩
  · have hpast : (passed l.down x y).truthy = true ↔ l.Past i b := truthy_passed hx hy
    rw [hm₄.pc]
    simp only [hpast]
    rfl
  · calc m₄.integerOf l.counter
      _ = (m₂.without 2).integerOf l.counter := by rw [integerOf, hm₄.wordOf hc.sound, integerOf]
      _ = (m₁.without 1).integerOf l.counter := hsame
      _ = m.integerOf l.counter := by
        rw [integerOf, integerOf]
        exact congrArg (·.bind Value.integer?) (hm₁.wordOf_without h.ready.sound l.counter 0)
      _ = some i := h.integer

/-- The counter is moved by one. -/
theorem passes_move (hstands : l.Stands m.image.code k) (hm : m.Ready)
    (hpc : m.pc = Int64.ofNat l.bodyEnd) (hroom : 2 ≤ m.room)
    (hinteger : m.integerOf l.counter = some i) (hassign : m.memory.Assignable l.counter q) :
    ∃ m', m.Passes l.bodyEnd l.exit m' ∧ l.AtTest m' (countAfter l.down i 1) := by
  have horder := hstands.order
  obtain ⟨c, hsimple⟩ := hstands.simple
  obtain ⟨x, hword, hx⟩ := exists_word hinteger
  have hload : Goes l.bodyEnd l.exit m l.bodyEnd [] m (l.bodyEnd + 1) [q] :=
    (steps_identAddressCode hm hstands.address' hassign.address
      (by simp only [List.length_nil]; omega)).goes hm (at_of_codeAt rfl hstands.address')
      (Nat.le_refl _) (by omega) rfl rfl
  have hvalue : Goes l.bodyEnd l.exit m _ [q] m _ ([q] ++ [x]) :=
    goes_identValue hm hsimple hstands.value' hword
      (by simp only [List.length_singleton]; omega) (by omega) (by omega)
  obtain ⟨z, hmove⟩ := hstands.move
  have hcounted : Goes l.bodyEnd l.exit m _ ([q] ++ [x]) m _ ([q] ++ [counted l.down x]) :=
    (steps_unary hm (by cases l.down <;> rfl) (at_of_codeAt rfl hmove)).goes hm
      (at_of_codeAt rfl hmove) (by omega) (by omega) rfl rfl
  obtain ⟨z', hsti⟩ := hstands.set'
  obtain ⟨c', hset, hc', hroom', himage, hinteger'⟩ := goes_set hm hsti hassign
    (integer?_counted hx)
    (show l.bodyEnd ≤ l.bodyEnd + 1 + (identValueCode l.counter).length + 1 by omega)
    (show l.bodyEnd + 1 + (identValueCode l.counter).length + 1 < l.exit by omega)
  have hagain : Goes l.bodyEnd l.exit c' l.back [] c' l.top [] :=
    (steps_jump hc' (at_of_codeAt himage hstands.again) (by omega)).goes hc'
      (at_of_codeAt himage hstands.again) (by omega) (by omega) rfl rfl
  obtain ⟨m', hpasses, hm'⟩ :=
    ((((hload.trans hvalue).trans hcounted).trans hset).trans hagain) m (.refl hm.sound hpc)
  exact ⟨m', hpasses, .of_stacked hc' (hroom' ▸ hroom) hinteger' hm'⟩

/-! ## Rounds -/

/-- From a machine at its beginning, the loop sets its counter and executes its body once from each
of some machines, and comes to a machine at its test. -/
inductive Rounds (l : CountedLoop) (m : Machine) : List Machine → Machine → Prop where
  | set {m₀ : Machine} : m.Passes l.start l.top m₀ → m₀.pc = Int64.ofNat l.top → Rounds l m [] m₀
  | round {es : List Machine} {m₁ e f m₂ : Machine} : Rounds l m es m₁ →
      m₁.Passes l.top l.bodyStart e → e.pc = Int64.ofNat l.bodyStart →
      e.Passes l.bodyStart l.bodyEnd f → f.pc = Int64.ofNat l.bodyEnd →
      f.Passes l.bodyEnd l.exit m₂ → m₂.pc = Int64.ofNat l.top → Rounds l m (es ++ [e]) m₂

/-- From a machine at its beginning, the loop executes its body once from each of some machines, and
then comes to a machine at its end. -/
def Runs (l : CountedLoop) (m : Machine) (es : List Machine) (m' : Machine) : Prop :=
  ∃ m₁, l.Rounds m es m₁ ∧ m₁.Passes l.top l.bodyStart m' ∧ m'.pc = Int64.ofNat l.exit

/-- Rounds stay in the loop, and each of them takes a step at least. -/
theorem Rounds.passes {es : List Machine} (hstands : l.Stands m.image.code k)
    (hbound : m.image.code.size < 2 ^ 63) (h : l.Rounds m es m') :
    ∃ n ≥ es.length, PassesIn l.start l.exit n m m' := by
  have horder := hstands.order
  obtain ⟨w, hcode, -⟩ := (codeAt_cons.mp hstands.address').1
  have hlt := (Array.getElem?_eq_some_iff.mp hcode).1
  induction h with
  | set hset _ =>
    obtain ⟨n, hn⟩ := hset
    exact ⟨n, Nat.zero_le n, hn.mono (Nat.le_refl _) (by omega)⟩
  | @round es m₁ e f m₂ hrounds htest hentry hbody hend hmove htop ih =>
    obtain ⟨n, hlength, hn⟩ := ih
    obtain ⟨k₁, htest⟩ := htest
    obtain ⟨k₂, hbody⟩ := hbody
    obtain ⟨k₃, hmove⟩ := hmove
    have h₁ : PassesIn l.start l.exit k₁ m₁ e := htest.mono (by omega) (by omega)
    have h₂ : PassesIn l.start l.exit k₂ e f := hbody.mono (by omega) (by omega)
    have h₃ : PassesIn l.start l.exit k₃ f m₂ := hmove.mono (by omega) (by omega)
    refine ⟨n + k₁ + k₂ + k₃, ?_, ((hn.trans h₁).trans h₂).trans h₃⟩
    have hmoves : k₃ ≠ 0 := by
      rintro rfl
      obtain ⟨-, rfl⟩ := EStateM.Result.ok.inj hmove.run
      have hsame := congrArg Int64.toInt (hend.symm.trans htop)
      rw [Int64.toInt_ofNat_of_lt (by omega), Int64.toInt_ofNat_of_lt (by omega)] at hsame
      omega
    simp only [List.length_append, List.length_singleton]
    omega

/-- The machines that enter the body are met on the way through the loop. -/
theorem Rounds.entered {es : List Machine} {e : Machine} (hstands : l.Stands m.image.code k)
    (hbound : m.image.code.size < 2 ^ 63) (h : l.Rounds m es m') (he : e ∈ es) :
    m.Passes l.start l.exit e ∧ e.pc = Int64.ofNat l.bodyStart := by
  have horder := hstands.order
  induction h with
  | set => cases he
  | round hrounds htest hentry _ _ _ _ ih =>
    rcases List.mem_append.mp he with he | he
    · exact ih he
    · obtain rfl := List.mem_singleton.mp he
      obtain ⟨r, -, hr⟩ := hrounds.passes hstands hbound
      exact ⟨.trans ⟨r, hr⟩ (htest.mono (by omega) (by omega)), hentry⟩

/-- A machine at the beginning of a loop whose bounds and body are regular. -/
structure Begins (l : CountedLoop) (m : Machine) (k : Linking) (p : Value) (a b : Int) : Prop where
  stands : l.Stands m.image.code k
  regular : l.Regular m p a b
  ready : m.Ready
  pc : m.pc = Int64.ofNat l.start
  room : 1 ≤ m.room
  address : m.memory.addressOf l.counter = some p

/-- As long as the counter does not pass the last value, there is another round. -/
theorem Begins.exists_rounds (h : l.Begins m k p a b) (n : Nat)
    (hpast : ∀ j < n, ¬ l.Past (countAfter l.down a j) b) :
    ∃ es m', l.Rounds m es m' ∧ l.AtTest m' (countAfter l.down a n) ∧
      es.map (·.integerOf l.counter) = (List.range n).map (some <| countAfter l.down a ·) := by
  induction n with
  | zero =>
    obtain ⟨m₁, hset, htest⟩ :=
      passes_set h.stands h.regular h.ready h.pc h.room h.address
    obtain ⟨x, -, hx⟩ := exists_word htest.integer
    obtain ⟨hlow, hhigh⟩ := integer?_bounds hx
    rw [countAfter_zero hlow hhigh]
    exact ⟨[], m₁, .set hset htest.pc, htest, rfl⟩
  | succ n ih =>
    obtain ⟨es, m₁, hrounds, htest, hes⟩ := ih fun j hj => hpast j (Nat.lt_succ_of_lt hj)
    have horder := h.stands.order
    obtain ⟨r, -, hr⟩ := hrounds.passes h.stands h.ready.bound
    have hpasses₁ : m.Passes l.start l.exit m₁ := ⟨r, hr⟩
    have himage₁ := hpasses₁.image
    obtain ⟨d, e, hbranch, hpc, hstep, hentry, hepc, he⟩ :=
      passes_test (himage₁ ▸ h.stands) h.regular hpasses₁ htest
    rw [if_neg (hpast n (Nat.lt_succ_self n))] at hepc
    obtain ⟨f, q, hbody, hfpc, hfsound, hfroom, hf, hassign⟩ :=
      h.regular.body d e (hpasses₁.trans (hbranch.mono (by omega) (by omega))) hpc hstep hepc
    have himage : f.image = m.image := hbody.image.trans (hentry.image.trans himage₁)
    obtain ⟨m₂, hmove, htest₂⟩ := passes_move (himage ▸ h.stands)
      ⟨hfsound, hbody.running, himage ▸ h.ready.bound⟩ hfpc hfroom (hf.trans he) hassign
    rw [countAfter_succ] at htest₂
    refine ⟨es ++ [e], m₂, .round hrounds hentry hepc hbody hfpc hmove htest₂.pc, htest₂, ?_⟩
    rw [List.map_append, List.range_succ, List.map_append, hes, List.map_singleton,
      List.map_singleton, he]

/-- The loop is left when the counter passes the last value. -/
theorem Begins.exists_runs (h : l.Begins m k p a b) {n : Nat} {count : Nat → Int}
    (hcount : ∀ j ≤ n, countAfter l.down a j = count j) (hpast : ∀ j < n, ¬ l.Past (count j) b)
    (hend : l.Past (count n) b) :
    ∃ es m', l.Runs m es m' ∧
      es.map (·.integerOf l.counter) = (List.range n).map (fun j => some (count j)) ∧
      m'.integerOf l.counter = some (count n) := by
  obtain ⟨es, m₁, hrounds, htest, hes⟩ := h.exists_rounds n fun j hj => by
    rw [hcount j (Nat.le_of_lt hj)]
    exact hpast j hj
  rw [hcount n (Nat.le_refl n)] at htest
  obtain ⟨r, -, hr⟩ := hrounds.passes h.stands h.ready.bound
  have hpasses₁ : m.Passes l.start l.exit m₁ := ⟨r, hr⟩
  obtain ⟨d, m', -, -, -, hpasses, hpc, hm'⟩ :=
    passes_test (hpasses₁.image ▸ h.stands) h.regular hpasses₁ htest
  rw [if_pos hend] at hpc
  refine ⟨es, m', ⟨m₁, hrounds, hpasses, hpc⟩, hes.trans (List.map_congr_left fun j hj => ?_), hm'⟩
  rw [hcount j (Nat.le_of_lt (List.mem_range.mp hj))]

/-- A loop whose counter never passes the last value never comes to its end. -/
theorem Begins.not_at_exit (h : l.Begins m k p a b)
    (hpast : ∀ j, ¬ l.Past (countAfter l.down a j) b) {n : Nat}
    (hrun : stepSingly n m = .ok () m') (hmp : m'.mp = m.mp) : m'.pc ≠ Int64.ofNat l.exit := by
  obtain ⟨es, m₁, hrounds, -, hes⟩ := h.exists_rounds (n + 1) fun j _ => hpast j
  have hlength : es.length = n + 1 := by simpa using congrArg List.length hes
  obtain ⟨r, hr, hpasses⟩ := hrounds.passes h.stands h.ready.bound
  have hwithin := hpasses.within n (by omega) m' hrun hmp
  intro hexit
  have horder := h.stands.order
  obtain ⟨w, hcode, -⟩ := (codeAt_cons.mp h.stands.again).1
  have hlt := (Array.getElem?_eq_some_iff.mp hcode).1
  have hbound := h.ready.bound
  rw [hexit, Int64.toInt_ofNat_of_lt (by omega)] at hwithin
  omega

/-- The first value of a loop is a number of 64 bits. -/
theorem Begins.bounds (h : l.Begins m k p a b) : -2 ^ 63 ≤ a ∧ a < 2 ^ 63 := by
  obtain ⟨m₁, -, htest⟩ := passes_set h.stands h.regular h.ready h.pc h.room h.address
  obtain ⟨x, -, hx⟩ := exists_word htest.integer
  exact integer?_bounds hx

/-- A loop that counts up to a number below the largest one. -/
theorem Begins.runs_up (h : l.Begins m k p a b) (hdown : l.down = false) (hb : b < 2 ^ 63 - 1) :
    ∃ es m', l.Runs m es m' ∧
      es.map (·.integerOf l.counter) =
        (List.range (b - a + 1).toNat).map (fun j : Nat => some (a + j)) ∧
      m'.integerOf l.counter = some (max a (b + 1)) := by
  obtain ⟨hlow, hhigh⟩ := h.bounds
  rw [show max a (b + 1) = a + (b - a + 1).toNat by omega]
  refine h.exists_runs (fun j hj => ?_) (fun j hj => ?_) ?_
  · rw [hdown]
    exact countAfter_up (by omega) (by omega)
  · simp only [Past, hdown, Bool.false_eq_true, if_false]
    omega
  · simp only [Past, hdown, Bool.false_eq_true, if_false]
    omega

/-- A loop that counts down to a number above the smallest one. -/
theorem Begins.runs_down (h : l.Begins m k p a b) (hdown : l.down = true) (hb : -2 ^ 63 < b) :
    ∃ es m', l.Runs m es m' ∧
      es.map (·.integerOf l.counter) =
        (List.range (a - b + 1).toNat).map (fun j : Nat => some (a - j)) ∧
      m'.integerOf l.counter = some (min a (b - 1)) := by
  obtain ⟨hlow, hhigh⟩ := h.bounds
  rw [show min a (b - 1) = a - (a - b + 1).toNat by omega]
  refine h.exists_runs (fun j hj => ?_) (fun j hj => ?_) ?_
  · rw [hdown]
    exact countAfter_down (by omega) (by omega)
  · simp only [Past, hdown, if_true]
    omega
  · simp only [Past, hdown, if_true]
    omega

/-- No number of 64 bits passes the largest or the smallest one. -/
theorem not_past_extreme (h : l.down = false ∧ b = 2 ^ 63 - 1 ∨ l.down = true ∧ b = -2 ^ 63)
    (j : Nat) : ¬ l.Past (countAfter l.down a j) b := by
  obtain ⟨hlow, hhigh⟩ := countAfter_bounds l.down a j
  rcases h with ⟨hdown, rfl⟩ | ⟨hdown, rfl⟩ <;> simp only [Past, hdown] at hlow hhigh ⊢ <;> simp <;>
    omega

end

end CountedLoop

/-! ## Compiled loops -/

/-- A counted loop of an accepted program executes its body for exactly the numbers between its
bounds, in their order, and ends with the counter behind the last of them, or at the first value if
there is none.  A loop up to the largest number or down to the smallest one goes on for ever, as its
counter wraps around.  The bounds and the body may be any code that runs to its end and leaves the
counter alone. -/
theorem counted_loop_runs {natives : Registry} {main : Subprogram} {im : Image}
    (hcompile : compile natives (some main) = .image im) (hbound : im.code.size < 2 ^ 63)
    {block : Block} (hblock : block ∈ (Ledger.program natives main).blocks) {l : CountedLoop}
    (hl : (l.start, l.stmt) ∈ block.statements) {m : Machine} (himage : m.image = im)
    (hrun : m.state = .running) (hsound : m.Sound) (hpc : m.pc = Int64.ofNat l.start)
    (hroom : 1 ≤ m.room) {p : Value} (haddress : m.memory.addressOf l.counter = some p)
    {a b : Int} (hregular : l.Regular m p a b) :
    (l.down = false → b < 2 ^ 63 - 1 → ∃ es m', l.Runs m es m' ∧
      es.map (·.integerOf l.counter) =
        (List.range (b - a + 1).toNat).map (fun j : Nat => some (a + j)) ∧
      m'.integerOf l.counter = some (max a (b + 1))) ∧
    (l.down = true → -2 ^ 63 < b → ∃ es m', l.Runs m es m' ∧
      es.map (·.integerOf l.counter) =
        (List.range (a - b + 1).toNat).map (fun j : Nat => some (a - j)) ∧
      m'.integerOf l.counter = some (min a (b - 1))) ∧
    (l.down = false ∧ b = 2 ^ 63 - 1 ∨ l.down = true ∧ b = -2 ^ 63 →
      (∀ n, ∃ es m', l.Rounds m es m' ∧
        es.map (·.integerOf l.counter) = (List.range n).map (some <| countAfter l.down a ·)) ∧
      ∀ n m', Machine.stepSingly n m = .ok () m' → m'.mp = m.mp →
        m'.pc ≠ Int64.ofNat l.exit) := by
  subst himage
  obtain ⟨hholds, -, -⟩ := compile_holds hcompile hbound
  obtain ⟨hcode, -, -⟩ :=
    codeAt_statement hholds (Ledger.placed_program natives main) hblock hl
  have hbegins := CountedLoop.Begins.mk (CountedLoop.stands hcode) hregular
    ⟨hsound, hrun, hbound⟩ hpc hroom haddress
  refine ⟨hbegins.runs_up, hbegins.runs_down, fun hextreme => ⟨fun n => ?_, fun n m' => ?_⟩⟩
  · obtain ⟨es, m', hrounds, -, hes⟩ :=
      hbegins.exists_rounds n fun j _ => CountedLoop.not_past_extreme hextreme j
    exact ⟨es, m', hrounds, hes⟩
  · exact hbegins.not_at_exit (CountedLoop.not_past_extreme hextreme)

/-! ## A loop between variables -/

/-- Between two variables, copy the counter to a third one. -/
def copyingLoop : CountedLoop where
  start := 1
  pos := {}
  counter := numberVar 5
  first := .ident {} (numberVar 6)
  last := .ident {} (numberVar 7)
  down := false
  body := .assign {} (.ident {} (numberVar 8)) (.ident {} (numberVar 5))

/-- A program with that loop. -/
def copyingProgram : Subprogram :=
  .mk
    { kind := .program, symbol := none, result := .missing, paramWords := 0, varWords := 4
      body := [copyingLoop.stmt] }
    []

/-- A machine at the loop, which is to count from 2 to 4. -/
def copyingMachine : Machine :=
  { (default : Machine) with
    image := (compile {} (some copyingProgram)).result
    store := #[.ofInt 0, .ofInt 0, .ofInt 0, .ofInt 0, .ofInt 99, .ofInt 0, .ofInt 2, .ofInt 4,
      .ofInt 0] ++ Array.replicate 4 .undefined
    pc := 1, sp := 9, mp := 0, np := 13
    state := .running }

private theorem compile_copying :
    compile {} (some copyingProgram) = .image copyingMachine.image := by
  dsimp only [copyingMachine]
  exact Compilation.eq_image (by decide +kernel)

/-- A body that runs in three steps and keeps the counter. -/
def copyingBody (m m' : Machine) : Bool :=
  m'.mp = m.mp ∧ m'.state = .running ∧ m'.pc = 11 ∧ m'.Sound ∧ 2 ≤ m'.room ∧
    m'.integerOf (numberVar 5) = m.integerOf (numberVar 5) ∧
    (m'.integerOf (numberVar 5)).isSome ∧ m.stays 8 11 3

/-- What is found on the way through the loop: the bounds before they are evaluated, and the body
behind the branch. -/
def copyingCheck (m : Machine) : Bool :=
  (m.pc = 2 → m.Sound ∧ 0 < m.sp.toInt ∧ 1 ≤ m.room ∧
    (m.without 1).integerOf (numberVar 6) = some 2 ∧
    (m.without 1).integerOf (numberVar 5) = some 0) ∧
  (m.pc = 5 → m.Sound ∧ 0 < m.sp.toInt ∧ 1 ≤ m.room ∧
    (m.without 1).integerOf (numberVar 7) = some 4) ∧
  (m.pc = 7 → (m.after 1).all fun m₁ => m₁.pc = 8 → (m₁.after 3).any (copyingBody m₁))

private theorem checked_copying {m : Machine} (h : copyingMachine.Passes 1 16 m) :
    copyingCheck m = true :=
  h.check (n := 60) (by decide +kernel) (by decide +kernel)

/-- A bound of the loop is evaluated wherever it is met. -/
theorem copying_evaluates {m : Machine} {b : Block} {address : Int64} {a : Nat} {i : Int}
    (hpasses : copyingMachine.Passes 1 16 m) (hpc : m.pc = Int64.ofNat a)
    (hblock : b ∈ (Ledger.program {} copyingProgram).blocks)
    (hexpr : ⟨a, .value, .ident {} (numberVar address)⟩ ∈ b.expressions)
    (hsound : m.Sound) (hsp : 0 < m.sp.toInt) (hroom : 1 ≤ m.room)
    (hinteger : (m.without 1).integerOf (numberVar address) = some i) :
    ∃ x m', m.Evaluates a (a + 1) x m' ∧ x.integer? = some i ∧
      ∀ id, (m'.without 2).integerOf id = (m.without 1).integerOf id := by
  have himage := hpasses.image
  have hbound : copyingMachine.image.code.size < 2 ^ 63 := by decide +kernel
  obtain ⟨hholds, -, -⟩ := compile_holds compile_copying hbound
  have hcode := codeAt_expression hholds (Ledger.placed_program {} copyingProgram) hblock hexpr
  have hsize : copyingMachine.image.typedConstants.size = 0 := by decide +kernel
  rw [← himage] at hbound hcode hsize
  refine Machine.evaluates_identValue ⟨hsound, hpasses.running, hbound⟩ hpc ?_ hroom rfl hcode
    hinteger
  rw [hsize]
  exact hsp

private theorem regular_copying : copyingLoop.Regular copyingMachine (.ofAddress 5) 2 4 where
  first m₁ hpasses hpc := by
    have hcheck := checked_copying hpasses
    simp only [copyingCheck, decide_eq_true_eq] at hcheck
    obtain ⟨hsound, hsp, hroom, hsix, hfive⟩ := hcheck.1 hpc
    obtain ⟨x, m₂, heval, hx, hsame⟩ := copying_evaluates hpasses hpc (List.mem_singleton_self _)
      (.tail _ (.tail _ (.tail _ (.tail _ (.head _))))) hsound hsp hroom hsix
    obtain ⟨w, hword, -⟩ := Option.bind_eq_some_iff.mp ((hsame (numberVar 5)).trans hfive)
    have hmp : (m₂.without 2).memory.mp = 0 := heval.passes.mp.trans hpasses.mp
    have hassign := Memory.assignable_of_direct rfl rfl hword
    rw [hmp] at hassign
    exact ⟨x, m₂, heval, hx, hassign⟩
  last m₁ hpasses hpc := by
    have hcheck := checked_copying hpasses
    simp only [copyingCheck, decide_eq_true_eq] at hcheck
    obtain ⟨hsound, hsp, hroom, hseven⟩ := hcheck.2.1 hpc
    obtain ⟨y, m₂, heval, hy, hsame⟩ := copying_evaluates hpasses hpc (List.mem_singleton_self _)
      (.tail _ (.tail _ (.tail _ (.tail _ (.tail _ (.head _)))))) hsound hsp hroom hseven
    exact ⟨y, m₂, heval, hy, hsame _⟩
  body m₀ m₁ hpasses hpc₀ hstep hpc := by
    have hcheck := checked_copying hpasses
    simp only [copyingCheck, decide_eq_true_eq] at hcheck
    have hbody := hcheck.2.2 hpc₀
    rw [Machine.after_eq_some_iff.mpr (Machine.stepSingly_one.trans hstep), Option.all_some,
      decide_eq_true_eq] at hbody
    obtain ⟨m₂, hafter, hm₂⟩ := Option.any_eq_true _ _ |>.mp (hbody hpc)
    simp only [copyingBody, decide_eq_true_eq] at hm₂
    obtain ⟨hmp, hrunning, hpc₂, hsound, hroom, hsame, hsome, hstays⟩ := hm₂
    obtain ⟨i, hi⟩ := Option.isSome_iff_exists.mp hsome
    obtain ⟨w, hword, -⟩ := Option.bind_eq_some_iff.mp hi
    exact ⟨m₂, _, ⟨3, Machine.passesIn_of_stays (Machine.after_eq_some_iff.mp hafter) hmp hrunning
      hstays⟩, hpc₂, hsound, hroom, hsame, Memory.assignable_of_direct rfl rfl hword⟩

/-- The loop copies its counter three times. -/
theorem counted_loop_runs_copying :
    ∃ es m', copyingLoop.Runs copyingMachine es m' ∧
      es.map (·.integerOf (numberVar 5)) = [some 2, some 3, some 4] ∧
      m'.integerOf (numberVar 5) = some 5 :=
  (counted_loop_runs compile_copying (by decide +kernel) (List.mem_singleton_self _) (.head _) rfl
    rfl (by decide +kernel) rfl (by decide +kernel) rfl regular_copying).1 rfl (by decide)

/-! ## A last value that changes the counter -/

/-- The symbol of the function. -/
def meddlingSymbol : Symbol :=
  { id := 0, name := "last", kind := .subprogram, type := .subprogram [] .integer, address := 0
    byRef := false }

/-- A variable one level out. -/
def outerNumber (address : Int64) : Ident := { numberVar address with level := 1 }

/-- A function that gives a variable around it, and copies another one to the counter. -/
def meddlingFunction : Subprogram :=
  .mk
    { kind := .function, symbol := some meddlingSymbol, result := .integer, paramWords := 0
      varWords := 0
      body :=
        [ .assign {} (.ident {} (outerNumber 5)) (.ident {} (outerNumber 8))
        , .assign {} (.ident {} (numberVar 0)) (.ident {} (outerNumber 7)) ] }
    []

/-- A loop up to what the function returns. -/
def meddledLoop : CountedLoop where
  start := 9
  pos := {}
  counter := numberVar 5
  first := .ident {} (numberVar 6)
  last := .call {} ⟨meddlingSymbol, 0⟩ []
  down := false
  body := .assign {} (.ident {} (numberVar 9)) (.ident {} (numberVar 5))

/-- A program with that loop and the function. -/
def meddledProgram : Subprogram :=
  .mk
    { kind := .program, symbol := none, result := .missing, paramWords := 0, varWords := 5
      body := [meddledLoop.stmt] }
    [meddlingFunction]

/-- A machine at the loop, which is to count from 1 to 3. -/
def meddledMachine : Machine :=
  { (default : Machine) with
    image := (compile {} (some meddledProgram)).result
    store := #[.ofInt 0, .ofInt 0, .ofInt 0, .ofInt 0, .ofInt 99, .ofInt 0, .ofInt 1, .ofInt 3,
      .ofInt 5, .ofInt 0] ++ Array.replicate 10 .undefined
    pc := 9, sp := 10, mp := 0, np := 20
    state := .running }

private theorem compile_meddled :
    compile {} (some meddledProgram) = .image meddledMachine.image := by
  dsimp only [meddledMachine]
  exact Compilation.eq_image (by decide +kernel)

/-- The integer on top of a stack. -/
def Machine.topInteger (m : Machine) : Option Int :=
  m.store[m.sp.toNatClampNeg - 1]?.bind Value.integer?

/-- The loop is to count from 1 to 3, and its body is entered with 5 only. -/
def meddledCheck (m : Machine) : Bool :=
  (m.pc = 11 → m.topInteger = some 1) ∧ (m.pc = 15 → m.topInteger = some 3) ∧
    (m.pc = 17 → m.integerOf (numberVar 5) = some 5)

private theorem checked_meddled {m : Machine} (h : meddledMachine.Passes 9 25 m) :
    meddledCheck m = true :=
  h.check (n := 60) (by decide +kernel) (by decide +kernel)

/-- The first value is 1 and the last value is 3 whenever it is computed, and the body does not
touch the counter.  But the counter has been pushed when the call changes it, so the body is not
executed for the numbers between. -/
theorem changed_counter_not_counted :
    compile {} (some meddledProgram) = .image meddledMachine.image ∧
      (∃ b ∈ (Ledger.program {} meddledProgram).blocks,
        (meddledLoop.start, meddledLoop.stmt) ∈ b.statements) ∧
      meddledMachine.state = .running ∧ meddledMachine.Sound ∧
      meddledMachine.pc = Int64.ofNat meddledLoop.start ∧ 10 ≤ meddledMachine.room ∧
      (∀ m, meddledMachine.Passes meddledLoop.start meddledLoop.exit m →
        m.pc = Int64.ofNat meddledLoop.firstEnd → m.topInteger = some 1) ∧
      (∀ m, meddledMachine.Passes meddledLoop.start meddledLoop.exit m →
        m.pc = Int64.ofNat meddledLoop.lastEnd → m.topInteger = some 3) ∧
      ¬ ∃ es m', meddledLoop.Runs meddledMachine es m' ∧
        es.map (·.integerOf meddledLoop.counter) = [some 1, some 2, some 3] := by
  have hstatement : ∃ b ∈ (Ledger.program {} meddledProgram).blocks,
      (meddledLoop.start, meddledLoop.stmt) ∈ b.statements :=
    ⟨_, .tail _ (.head _), .head _⟩
  refine ⟨compile_meddled, hstatement, rfl, by decide +kernel, rfl, by decide +kernel,
    fun m hpasses hpc => ?_, fun m hpasses hpc => ?_, ?_⟩
  · have hcheck := checked_meddled hpasses
    simp only [meddledCheck, decide_eq_true_eq] at hcheck
    exact hcheck.1 hpc
  · have hcheck := checked_meddled hpasses
    simp only [meddledCheck, decide_eq_true_eq] at hcheck
    exact hcheck.2.1 hpc
  · rintro ⟨es, m', ⟨m₁, hrounds, -⟩, hes⟩
    have hbound : meddledMachine.image.code.size < 2 ^ 63 := by decide +kernel
    obtain ⟨hholds, -, -⟩ := compile_holds compile_meddled hbound
    obtain ⟨b, hb, hs⟩ := hstatement
    obtain ⟨hcode, -, -⟩ :=
      codeAt_statement hholds (Ledger.placed_program {} meddledProgram) hb hs
    have hmem : some 1 ∈ es.map (·.integerOf meddledLoop.counter) := by
      rw [hes]
      exact List.mem_cons_self
    obtain ⟨e, he, hone⟩ := List.mem_map.mp hmem
    obtain ⟨hpasses, hpc⟩ := hrounds.entered (CountedLoop.stands hcode) hbound he
    have hcheck := checked_meddled hpasses
    simp only [meddledCheck, decide_eq_true_eq] at hcheck
    exact absurd (hone.symm.trans (hcheck.2.2 hpc)) (by decide)

end PCode
