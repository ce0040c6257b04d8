import PCode.Proofs.Codegen.Linking
import PCode.Proofs.Machine.Stacked

/-!
# What instructions lead to

One lemma for each instruction that expressions and statements are made of: from
a machine at the instruction, with some words pushed, a step leads to the next
address with the words that the instruction leaves.

Main definitions and results:

- `Machine.Reaches`: some number of steps lead from one machine to another.
- `Machine.Leads`: every machine at an address with some words reaches one at another.
- `Machine.Steps`: it does so in one step.
- `Machine.steps_op`: what the effect of an opcode says about a step.
-/

namespace PCode.Machine

/-! ## Runs -/

/-- Some number of steps lead from one machine to another. -/
def Reaches (m m' : Machine) : Prop := ∃ n, stepSingly n m = .ok () m'

private theorem Reaches.refl (m : Machine) : Reaches m m := ⟨0, rfl⟩

private theorem Reaches.head {m m₁ m₂ : Machine} (h₁ : stepOnce m = .ok () m₁)
    (h₂ : Reaches m₁ m₂) :
    Reaches m m₂ := by
  obtain ⟨n, hn⟩ := h₂
  refine ⟨n + 1, ?_⟩
  simp only [stepSingly, bind, EStateM.bind, h₁]
  exact hn

private theorem Reaches.trans {m m₁ m₂ : Machine} (h₁ : Reaches m m₁) (h₂ : Reaches m₁ m₂) :
    Reaches m m₂ := by
  obtain ⟨n, hn⟩ := h₁
  induction n generalizing m with
  | zero =>
    obtain ⟨-, rfl⟩ := EStateM.Result.ok.inj hn
    exact h₂
  | succ n ih =>
    simp only [stepSingly, bind, EStateM.bind] at hn
    cases hstep : stepOnce m with
    | ok u m' =>
      simp only [hstep] at hn
      exact (ih hn).head hstep
    | error c m' => simp [hstep] at hn

/-- The machine after some steps, unless they end in a crash. -/
def after (m : Machine) (n : Nat) : Option Machine :=
  match stepSingly n m with
  | .ok _ m' => some m'
  | .error .. => none

/-- The machine after some steps is that which they lead to. -/
theorem after_eq_some_iff {m m' : Machine} {n : Nat} :
    m.after n = some m' ↔ stepSingly n m = .ok () m' := by
  unfold after
  cases stepSingly n m <;> simp

private theorem stepSingly_add {m m' : Machine} {n k : Nat} (h : stepSingly (n + k) m = .ok () m') :
    ∃ m₁, stepSingly n m = .ok () m₁ ∧ stepSingly k m₁ = .ok () m' := by
  induction n generalizing m with
  | zero => exact ⟨m, rfl, by simpa using h⟩
  | succ n ih =>
    rw [Nat.add_right_comm] at h
    simp only [stepSingly, bind, EStateM.bind] at h ⊢
    cases hstep : stepOnce m with
    | ok u m₁ =>
      simp only [hstep] at h ⊢
      exact ih h
    | error c m₁ => simp [hstep] at h

/-- A machine that does not run stays as it is. -/
theorem stepSingly_of_not_running {m : Machine} (h : m.state ≠ .running) (n : Nat) :
    stepSingly n m = .ok () m := by
  induction n with
  | zero => rfl
  | succ n ih =>
    have hstep : stepOnce m = .ok () m := if_pos h
    simp only [stepSingly, bind, EStateM.bind, hstep]
    exact ih

/-- A running machine is reached before the run has ended. -/
theorem Reaches.before_end {m m' : Machine} {n : Nat} (h : Reaches m m')
    (hend : (m.after n).any (·.state ≠ .running) = true) (hrun : m'.state = .running) :
    ∃ i < n, m.after i = some m' := by
  obtain ⟨k, hk⟩ := h
  obtain ⟨mₙ, hn, hend⟩ : ∃ mₙ, m.after n = some mₙ ∧ mₙ.state ≠ .running := by
    cases hn : m.after n with
    | none => simp [hn] at hend
    | some mₙ => exact ⟨mₙ, rfl, by simpa [hn] using hend⟩
  simp only [after_eq_some_iff] at hn ⊢
  by_cases hlt : k < n
  · exact ⟨k, hlt, hk⟩
  · obtain ⟨j, rfl⟩ := Nat.exists_eq_add_of_le (Nat.le_of_not_lt hlt)
    obtain ⟨m₁, h₁, h₂⟩ := stepSingly_add hk
    obtain ⟨-, rfl⟩ := EStateM.Result.ok.inj (hn.symm.trans h₁)
    rw [stepSingly_of_not_running hend] at h₂
    obtain ⟨-, rfl⟩ := EStateM.Result.ok.inj h₂
    exact absurd hrun hend

/-- Every machine at an address of a base with some words pushed reaches one at an address of a
base with some words pushed. -/
def Leads (b : Machine) (a : Nat) (ws : List Value) (b' : Machine) (a' : Nat)
    (ws' : List Value) : Prop :=
  ∀ m, Stacked b a ws m → ∃ m', Reaches m m' ∧ Stacked b' a' ws' m'

/-- A machine leads to itself. -/
theorem Leads.refl (b : Machine) (a : Nat) (ws : List Value) : Leads b a ws b a ws :=
  fun m h => ⟨m, .refl m, h⟩

/-- Where a machine leads to, it leads on from there. -/
theorem Leads.trans {b₀ b₁ b₂ : Machine} {a₀ a₁ a₂ : Nat} {ws₀ ws₁ ws₂ : List Value}
    (h₁ : Leads b₀ a₀ ws₀ b₁ a₁ ws₁) (h₂ : Leads b₁ a₁ ws₁ b₂ a₂ ws₂) :
    Leads b₀ a₀ ws₀ b₂ a₂ ws₂ := by
  intro m h
  obtain ⟨m₁, r₁, k₁⟩ := h₁ m h
  obtain ⟨m₂, r₂, k₂⟩ := h₂ m₁ k₁
  exact ⟨m₂, r₁.trans r₂, k₂⟩

/-! ## Steps -/

/-- One step takes every machine at an address of a base with some words pushed to one at an address
of a base with some words pushed. -/
def Steps (b : Machine) (a : Nat) (ws : List Value) (b' : Machine) (a' : Nat)
    (ws' : List Value) : Prop :=
  ∀ m, Stacked b a ws m → ∃ m', stepOnce m = .ok () m' ∧ Stacked b' a' ws' m'

/-- A step leads on. -/
theorem Steps.leads {b b' : Machine} {a a' : Nat} {ws ws' : List Value}
    (h : Steps b a ws b' a' ws') : Leads b a ws b' a' ws' := by
  intro m hm
  obtain ⟨m', hstep, hm'⟩ := h m hm
  exact ⟨m', .head hstep (.refl m'), hm'⟩

/-- A machine that executes its code. -/
structure Ready (b : Machine) : Prop where
  sound : b.Sound
  running : b.state = .running
  bound : b.image.code.size < 2 ^ 63

/-- A step of a running machine is the effect of the opcode that it fetches. -/
theorem stepOnce_eq {m : Machine} {w : Word} {op : Opcode} (hrun : m.state = .running)
    (hfetch : m.image.fetch? m.pc = some w) (hop : w.opcode = op.byte) :
    stepOnce m = settle (perform op w.operand1 w.operand2 (m.fetched w)) := by
  have hexecute : execute w = perform op w.operand1 w.operand2 := by
    unfold execute
    rw [hop, Opcode.ofByte?_byte]
  rw [stepOnce_fetched hrun hfetch, hexecute]

private theorem Stacked.observe {b m : Machine} {a : Nat} {ws : List Value} (h : Stacked b a ws m) :
    Stacked b a ws m.observe := by
  unfold Machine.observe
  split
  · exact ⟨h.pc, h.sp, h.room, h.size, h.words, h.kept, h.rest⟩
  · exact h

/-- What the effect of an opcode does to stacked machines, a step does. -/
theorem steps_perform {b b' : Machine} {a a' : Nat} {ws ws' : List Value} {w : Word} {op : Opcode}
    (hb : b.Ready) (hcode : b.image.code[a]? = some w) (hop : w.opcode = op.byte)
    (hperform : ∀ m, Stacked b (a + 1) ws m →
      ∃ m', perform op w.operand1 w.operand2 m = .ok () m' ∧ Stacked b' a' ws' m') :
    Steps b a ws b' a' ws' := by
  intro m h
  have ha : a < 2 ^ 63 := by
    have h1 := (Array.getElem?_eq_some_iff.mp hcode).1
    have h2 := hb.bound
    omega
  have hfetch : m.image.fetch? m.pc = some w := by
    rw [h.image, h.pc, Image.fetch?_ofNat ha, hcode]
  have hnext : Stacked b (a + 1) ws (m.fetched w) := by
    refine ⟨?_, h.sp, h.room, h.size, h.words, h.kept, h.rest⟩
    simp [fetched, h.pc, Int64.ofNat_add]
  obtain ⟨m', hm', k⟩ := hperform _ hnext
  have hstep := stepOnce_eq (h.state.trans hb.running) hfetch hop
  rw [hm'] at hstep
  exact ⟨_, hstep, k.observe⟩

/-- Where the effect of an opcode leads, a machine comes in one step. -/
theorem leads_perform {b b' : Machine} {a a' : Nat} {ws ws' : List Value} {w : Word} {op : Opcode}
    (hb : b.Ready) (hcode : b.image.code[a]? = some w) (hop : w.opcode = op.byte)
    (hperform : ∀ m, Stacked b (a + 1) ws m →
      ∃ m', perform op w.operand1 w.operand2 m = .ok () m' ∧ Stacked b' a' ws' m') :
    Leads b a ws b' a' ws' :=
  (steps_perform hb hcode hop hperform).leads

/-! ## Operators -/

private theorem ok_of_toOption {α β : Type} {x : Except α β} {r : β} (h : x.toOption = some r) :
    x = .ok r := by
  cases x with
  | ok v => exact congrArg _ (Option.some.inj h)
  | error e => cases h

/-- An instruction that computes a word from two pops both and pushes it. -/
theorem perform_of_binary? {op : Opcode} {v w r : Value} (h : Operator.binary? op v w = some r) :
    (∃ f, (∀ x y, perform op x y = binary f) ∧ f v w = r) ∨
      ∃ f, (∀ x y, perform op x y = binaryE f) ∧ f v w = .ok r := by
  cases op <;> first
    | exact .inl ⟨_, fun _ _ => rfl, Option.some.inj h⟩
    | exact .inr ⟨_, fun _ _ => rfl, ok_of_toOption h⟩
    | cases h

/-! ## Instructions -/

/-- An item stands at an address of the code of a machine. -/
def At (b : Machine) (k : Linking) (a : Nat) (it : Item) : Prop :=
  ∃ w, b.image.code[a]? = some w ∧ it.Stands k a w

section

variable {b b' : Machine} {k : Linking} {a a' : Nat} {ws ws' : List Value}

/-- What an instruction with fixed operands does to stacked machines, a step does. -/
theorem steps_op {op : Opcode} {x y : Int64} (hb : b.Ready) (hit : At b k a (.op op x y))
    (hperform : 0 ≤ x.toInt → 0 ≤ y.toInt → ∀ m, Stacked b (a + 1) ws m →
      ∃ m', perform op x.toNatClampNeg y.toNatClampNeg m = .ok () m' ∧ Stacked b' a' ws' m') :
    Steps b a ws b' a' ws' := by
  obtain ⟨w, hcode, hop, hx, hy⟩ := hit
  have hx' : w.operand1 = x.toNatClampNeg := by
    rw [toNatClampNeg_eq]
    omega
  have hy' : w.operand2 = y.toNatClampNeg := by
    rw [toNatClampNeg_eq]
    omega
  refine steps_perform hb hcode hop fun m h => ?_
  rw [hx', hy']
  exact hperform (by omega) (by omega) m h

/-- Where an instruction with fixed operands leads, a machine comes in one step. -/
theorem leads_op {op : Opcode} {x y : Int64} (hb : b.Ready) (hit : At b k a (.op op x y))
    (hperform : 0 ≤ x.toInt → 0 ≤ y.toInt → ∀ m, Stacked b (a + 1) ws m →
      ∃ m', perform op x.toNatClampNeg y.toNatClampNeg m = .ok () m' ∧ Stacked b' a' ws' m') :
    Leads b a ws b' a' ws' :=
  (steps_op hb hit hperform).leads

/-- An operand that is not negative is the number that it counts. -/
theorem ofNat_toNatClampNeg {x : Int64} (hx : 0 ≤ x.toInt) : Int64.ofNat x.toNatClampNeg = x := by
  refine ofNat_of_toInt ?_
  rw [toNatClampNeg_eq]
  omega

/-- The address of a variable is pushed. -/
theorem steps_lda {level offset r : Int64} (hb : b.Ready)
    (hit : At b k a (.op .lda level offset)) (hframe : b.memory.frame level = some r)
    (hroom : (ws.length : Int) < b.room) :
    Steps b a ws b (a + 1) (ws ++ [.ofAddress (r + offset)]) := by
  refine steps_op hb hit fun _ hy m h => ?_
  obtain ⟨m', h₁, k₁⟩ := h.push hb.sound hroom (.ofAddress (r + offset))
  refine ⟨m', ?_, k₁⟩
  refine (bind_eq (h.frame hb.sound hframe)).trans ?_
  rw [ofNat_toNatClampNeg hy]
  exact h₁

/-- The word of a variable is pushed. -/
theorem steps_loadValue {op : Opcode} {level offset r : Int64} {v : Value} (hb : b.Ready)
    (hop : op = .lva ∨ op = .lvb ∨ op = .lvc ∨ op = .lvi ∨ op = .lvr)
    (hit : At b k a (.op op level offset)) (hframe : b.memory.frame level = some r)
    (hread : b.memory.read (r + offset) = some v) (hroom : (ws.length : Int) < b.room) :
    Steps b a ws b (a + 1) (ws ++ [v]) := by
  refine steps_op hb hit fun _ hy m h => ?_
  obtain ⟨m', h₁, k₁⟩ := h.push hb.sound hroom v
  refine ⟨m', ?_, k₁⟩
  have hload : loadValue level.toNatClampNeg offset.toNatClampNeg m = .ok () m' := by
    refine (bind_eq (h.frame hb.sound hframe)).trans ?_
    rw [ofNat_toNatClampNeg hy]
    exact (bind_eq (h.load_of_read hb.sound hread)).trans h₁
  rcases hop with rfl | rfl | rfl | rfl | rfl <;> exact hload

/-- The word of a variable is pushed in the end. -/
theorem leads_loadValue {op : Opcode} {level offset r : Int64} {v : Value} (hb : b.Ready)
    (hop : op = .lva ∨ op = .lvb ∨ op = .lvc ∨ op = .lvi ∨ op = .lvr)
    (hit : At b k a (.op op level offset)) (hframe : b.memory.frame level = some r)
    (hread : b.memory.read (r + offset) = some v) (hroom : (ws.length : Int) < b.room) :
    Leads b a ws b (a + 1) (ws ++ [v]) :=
  (steps_loadValue hb hop hit hframe hread hroom).leads

/-- An address is replaced by the word there. -/
theorem steps_ldi {x : Int64} {p v : Value} (hb : b.Ready) (hit : At b k a (.op .ldi x 0))
    (hread : b.memory.read p.toInt = some v) :
    Steps b a (ws ++ [p]) b (a + 1) (ws ++ [v]) := by
  refine steps_op hb hit fun _ _ m h => ?_
  obtain ⟨m₁, h₁, k₁⟩ := h.pop hb.sound
  have hroom := h.room
  simp only [List.length_append, List.length_singleton] at hroom
  obtain ⟨m₂, h₂, k₂⟩ := k₁.push hb.sound (by omega) v
  exact ⟨m₂, (bind_eq h₁).trans ((bind_eq (k₁.load_of_read hb.sound hread)).trans h₂), k₂⟩

/-- The address on top leads to the word at it. -/
theorem leads_ldi {x : Int64} {p v : Value} (hb : b.Ready) (hit : At b k a (.op .ldi x 0))
    (hread : b.memory.read p.toInt = some v) :
    Leads b a (ws ++ [p]) b (a + 1) (ws ++ [v]) :=
  (steps_ldi hb hit hread).leads

/-- The constant that stands for a value is pushed. -/
theorem steps_const {code : TypeCode} {v : Value} (hb : b.Ready)
    (hk : k.constants = b.image.constants)
    (hcode : code = .integer ∨ code = .real ∨ code = .string ∨ code = .pointer)
    (hit : At b k a (.const code v)) (hroom : (ws.length : Int) < b.room) :
    ∃ c, b.memory.literal v = some c ∧ c.same v ∧ Steps b a ws b (a + 1) (ws ++ [c]) := by
  obtain ⟨w, hw, i, hi, hop, hx, hy⟩ := hit
  rw [hk] at hi
  obtain ⟨c, hc, hfind, hsame⟩ := find?_of_poolIndex? hi
  refine ⟨c, hfind, hsame, steps_perform hb hw hop fun m h => ?_⟩
  obtain ⟨m', h₁, k₁⟩ := h.push hb.sound hroom c
  refine ⟨m', ?_, k₁⟩
  have hx' : w.operand1 = code.byte.toNat := by omega
  have hy' : w.operand2 = i := by omega
  have hbyte : TypeCode.ofByte? (UInt8.ofNat code.byte.toNat) = some code := by
    rw [UInt8.ofNat_toNat, TypeCode.ofByte?_byte]
  change loadConstant (UInt8.ofNat w.operand1) w.operand2 m = .ok () m'
  have hget : (get : Instr Machine) m = .ok m m := rfl
  have hconst : m.image.constants[i]? = some c := by rw [h.image, hc]
  unfold loadConstant
  rw [hx', hy', hbyte]
  rcases hcode with rfl | rfl | rfl | rfl <;>
    exact (bind_eq hget).trans (by simp only [hconst]; exact h₁)

/-- A constant that stands for the literal is pushed. -/
theorem leads_const {code : TypeCode} {v : Value} (hb : b.Ready)
    (hk : k.constants = b.image.constants)
    (hcode : code = .integer ∨ code = .real ∨ code = .string ∨ code = .pointer)
    (hit : At b k a (.const code v)) (hroom : (ws.length : Int) < b.room) :
    ∃ c, b.memory.literal v = some c ∧ c.same v ∧ Leads b a ws b (a + 1) (ws ++ [c]) := by
  obtain ⟨c, hfind, hsame, hsteps⟩ := steps_const hb hk hcode hit hroom
  exact ⟨c, hfind, hsame, hsteps.leads⟩

/-- A boolean is pushed. -/
theorem leads_bool {t : Bool} (hb : b.Ready)
    (hit : At b k a (.op .ldc (operandOfCode TypeCode.boolean.byte) (if t then 1 else 0)))
    (hroom : (ws.length : Int) < b.room) :
    Leads b a ws b (a + 1) (ws ++ [.ofBool t]) := by
  refine leads_op hb hit fun _ _ m h => ?_
  obtain ⟨m', h₁, k₁⟩ := h.push hb.sound hroom (.ofBool t)
  refine ⟨m', ?_, k₁⟩
  cases t <;> exact h₁

/-- A character is pushed. -/
theorem leads_char {code : Int64} (hb : b.Ready)
    (hit : At b k a (.op .ldc (operandOfCode TypeCode.char.byte) code))
    (hroom : (ws.length : Int) < b.room) :
    Leads b a ws b (a + 1) (ws ++ [.ofCharCode code]) := by
  refine leads_op hb hit fun _ hy m h => ?_
  obtain ⟨m', h₁, k₁⟩ := h.push hb.sound hroom (.ofCharCode code)
  refine ⟨m', ?_, k₁⟩
  rw [← ofNat_toNatClampNeg hy] at h₁
  exact h₁

/-- An operator with one operand replaces it. -/
theorem steps_unary {op : Opcode} {x y : Int64} {f : Value → Value} {v : Value} (hb : b.Ready)
    (hop : perform op x.toNatClampNeg y.toNatClampNeg = unary f)
    (hit : At b k a (.op op x y)) : Steps b a (ws ++ [v]) b (a + 1) (ws ++ [f v]) := by
  refine steps_op hb hit fun _ _ m h => ?_
  rw [hop]
  exact h.unary f hb.sound

/-- An instruction with one operand leads to its result. -/
theorem leads_unary {op : Opcode} {x y : Int64} {f : Value → Value} {v : Value} (hb : b.Ready)
    (hop : perform op x.toNatClampNeg y.toNatClampNeg = unary f)
    (hit : At b k a (.op op x y)) : Leads b a (ws ++ [v]) b (a + 1) (ws ++ [f v]) :=
  (steps_unary hb hop hit).leads

/-- An operator with two operands replaces them. -/
theorem steps_binary {op : Opcode} {x y : Int64} {v w r : Value} (hb : b.Ready)
    (hop : Operator.binary? op v w = some r) (hit : At b k a (.op op x y)) :
    Steps b a (ws ++ [v, w]) b (a + 1) (ws ++ [r]) := by
  refine steps_op hb hit fun _ _ m h => ?_
  rcases perform_of_binary? hop with ⟨f, hf, rfl⟩ | ⟨f, hf, hr⟩
  · rw [hf]
    exact h.binary f hb.sound
  · rw [hf]
    exact h.binaryE hb.sound hr

/-- An instruction with two operands leads to its result. -/
theorem leads_binary {op : Opcode} {x y : Int64} {v w r : Value} (hb : b.Ready)
    (hop : Operator.binary? op v w = some r) (hit : At b k a (.op op x y)) :
    Leads b a (ws ++ [v, w]) b (a + 1) (ws ++ [r]) :=
  (steps_binary hb hop hit).leads

/-- An address is moved by an index. -/
theorem leads_ixa {x stride : Int64} {p i : Value} (hb : b.Ready)
    (hit : At b k a (.op .ixa x stride)) :
    Leads b a (ws ++ [p, i]) b (a + 1) (ws ++ [.ofAddress (p.toInt + i.toInt * stride)]) := by
  refine leads_op hb hit fun _ hy m h => ?_
  obtain ⟨m', h₁, k₁⟩ := h.binary
    (fun p i => .ofAddress (p.toInt + i.toInt * Int64.ofNat stride.toNatClampNeg)) hb.sound
  rw [ofNat_toNatClampNeg hy] at k₁
  exact ⟨m', h₁, k₁⟩

end

end PCode.Machine
