import PCode.Proofs.Machine.Leads

/-!
# Code for expressions computes what they mean

A simulation over the structure of an expression: wherever the code of an
expression stands, running it pushes the words that the expression means.  The
words that it reads lie below the stack of the machine that starts, or in the
heap, so the words pushed on the way do not change them.

Main result: `Machine.leads_exprCode`.
-/

namespace PCode.Machine

open Gen

variable {b : Machine} {k : Linking}

/-! ## Identifiers -/

/-- What the address of an identifier is. -/
theorem frame_of_addressOf {mem : Memory} {id : Ident} {adr : Value}
    (h : mem.addressOf id = some adr) :
    ∃ r, mem.frame id.level = some r ∧
      if id.symbol.byRef then mem.read (r + id.symbol.address) = some adr
      else adr = .ofAddress (r + id.symbol.address) := by
  simp only [Memory.addressOf, Memory.place, Option.bind_eq_bind, Option.bind_eq_some_iff,
    Option.map_eq_some_iff] at h
  obtain ⟨place, ⟨r, hr, rfl⟩, hadr⟩ := h
  refine ⟨r, hr, ?_⟩
  split at hadr
  · rename_i href
    rwa [if_pos href]
  · rename_i href
    rw [if_neg href]
    exact (Option.some.inj hadr).symm

/-- The words of a list of results, one after another. -/
theorem mapM_range'_succ {f : Nat → Option Value} {i n : Nat} {vs : List Value}
    (h : (List.range' i (n + 1)).mapM f = some vs) :
    ∃ v rest, f i = some v ∧ (List.range' (i + 1) n).mapM f = some rest ∧ vs = v :: rest := by
  simp only [List.range'_succ, List.mapM_cons, Option.pure_def, Option.bind_eq_bind,
    Option.bind_eq_some_iff] at h
  obtain ⟨v, hv, rest, hrest, hvs⟩ := h
  exact ⟨v, rest, hv, hrest, (Option.some.inj hvs).symm⟩

/-- The address of an identifier is pushed. -/
theorem steps_identAddressCode {id : Ident} {adr : Value} {a : Nat} {ws : List Value}
    (hb : b.Ready) (hcode : CodeAt b.image.code k a (identAddressCode id))
    (hadr : b.memory.addressOf id = some adr) (hroom : (ws.length : Int) < b.room) :
    Steps b a ws b (a + 1) (ws ++ [adr]) := by
  obtain ⟨r, hr, hplace⟩ := frame_of_addressOf hadr
  have hit := (codeAt_cons.mp hcode).1
  cases href : id.symbol.byRef with
  | true =>
    simp only [href, if_true] at hplace hit
    exact steps_loadValue hb (.inl rfl) hit hr hplace hroom
  | false =>
    simp only [href, Bool.false_eq_true, if_false] at hplace hit
    subst hplace
    exact steps_lda hb hit hr hroom

private theorem leads_identAddressCode {id : Ident} {adr : Value} {a : Nat} {ws : List Value}
    (hb : b.Ready) (hcode : CodeAt b.image.code k a (identAddressCode id))
    (hadr : b.memory.addressOf id = some adr) (hroom : (ws.length : Int) < b.room) :
    Leads b a ws b (a + 1) (ws ++ [adr]) :=
  (steps_identAddressCode hb hcode hadr hroom).leads

/-- The words of a composite variable are pushed. -/
theorem leads_wordsDirectCode {id : Ident} (hb : b.Ready) (href : id.symbol.byRef = false)
    {count : Nat} : ∀ {i a : Nat} {ws vs : List Value},
      CodeAt b.image.code k a (wordsDirectCode id i count) →
      (List.range' i count).mapM (b.memory.wordOf id) = some vs →
      (ws.length + count : Int) ≤ b.room →
      Leads b a ws b (a + (wordsDirectCode id i count).length) (ws ++ vs) := by
  induction count with
  | zero =>
    intro i a ws vs _ hvs _
    obtain rfl : vs = [] := by simpa using hvs.symm
    simpa [wordsDirectCode] using Leads.refl b a ws
  | succ count ih =>
    intro i a ws vs hcode hvs hroom
    obtain ⟨v, rest, hv, hrest, rfl⟩ := mapM_range'_succ hvs
    obtain ⟨hit, htail⟩ := codeAt_cons.mp hcode
    simp only [Memory.wordOf, Option.bind_eq_bind, Option.bind_eq_some_iff] at hv
    obtain ⟨adr, hadr, hread⟩ := hv
    obtain ⟨r, hr, hplace⟩ := frame_of_addressOf hadr
    simp only [href, Bool.false_eq_true, if_false] at hplace
    subst hplace
    rw [Value.toInt_ofAddress, Int64.add_assoc] at hread
    have hfirst : Leads b a ws b (a + 1) (ws ++ [v]) :=
      leads_loadValue hb (by simp) hit hr hread (by omega)
    have hnext : Leads b (a + 1) (ws ++ [v]) b _ (ws ++ [v] ++ rest) :=
      ih htail hrest (by simp; omega)
    simpa [wordsDirectCode, Nat.add_assoc, Nat.add_comm] using hfirst.trans hnext

/-- One word of a composite parameter passed by reference is pushed. -/
theorem leads_wordByRefCode {id : Ident} {code : UInt8} {i a : Nat} {v : Value}
    {ws : List Value} (hb : b.Ready) (hk : k.constants = b.image.constants)
    (href : id.symbol.byRef = true) (hcode : CodeAt b.image.code k a (wordByRefCode id i code))
    (hv : b.memory.wordOf id i = some v)
    (hroom : (ws.length + (if 0 < i then 2 else 1) : Int) ≤ b.room) :
    Leads b a ws b (a + (wordByRefCode id i code).length) (ws ++ [v]) := by
  simp only [Memory.wordOf, Option.bind_eq_bind, Option.bind_eq_some_iff] at hv
  obtain ⟨adr, hadr, hread⟩ := hv
  obtain ⟨r, hr, hplace⟩ := frame_of_addressOf hadr
  simp only [href, if_true] at hplace
  unfold wordByRefCode at hcode ⊢
  obtain ⟨hit, htail⟩ := codeAt_cons.mp hcode
  by_cases hi : 0 < i
  · simp only [hi, if_true, List.cons_append, List.nil_append] at hcode htail hroom ⊢
    have hlva : Leads b a ws b (a + 1) (ws ++ [adr]) :=
      leads_loadValue hb (.inl rfl) hit hr hplace (by omega)
    obtain ⟨hconst, htail⟩ := codeAt_cons.mp htail
    obtain ⟨hadi, htail⟩ := codeAt_cons.mp htail
    obtain ⟨hldi, -⟩ := codeAt_cons.mp htail
    obtain ⟨c, -, hsame, hoffset⟩ := leads_const hb hk (.inl rfl) hconst
      (show ((ws ++ [adr]).length : Int) < b.room by simp; omega)
    have hadd : Leads b (a + 1 + 1) (ws ++ [adr, c]) b (a + 1 + 1 + 1)
        (ws ++ [Operator.addInt adr c]) := leads_binary hb rfl hadi
    have hload : Leads b (a + 1 + 1 + 1) (ws ++ [Operator.addInt adr c]) b (a + 1 + 1 + 1 + 1)
        (ws ++ [v]) := by
      refine leads_ldi hb hldi ?_
      rw [Operator.addInt, Value.toInt_ofInt, Value.toInt_of_same hsame]
      exact hread
    rw [List.append_assoc] at hoffset
    exact hlva.trans (hoffset.trans (hadd.trans hload))
  · simp only [hi, if_false, List.nil_append] at hcode htail hroom ⊢
    obtain rfl : i = 0 := by omega
    have hlva : Leads b a ws b (a + 1) (ws ++ [adr]) :=
      leads_loadValue hb (.inl rfl) hit hr hplace (by omega)
    obtain ⟨hldi, -⟩ := codeAt_cons.mp htail
    exact hlva.trans (leads_ldi hb hldi (by simpa using hread))

/-- The words of a composite parameter passed by reference are pushed. -/
theorem leads_wordsByRefCode {id : Ident} (hb : b.Ready) (hk : k.constants = b.image.constants)
    (href : id.symbol.byRef = true) {codes : List UInt8} : ∀ {i a : Nat} {ws vs : List Value},
      CodeAt b.image.code k a (wordsByRefCode id i codes) →
      (List.range' i codes.length).mapM (b.memory.wordOf id) = some vs →
      (ws.length + codes.length + (if 1 < i + codes.length then 1 else 0) : Int) ≤ b.room →
      Leads b a ws b (a + (wordsByRefCode id i codes).length) (ws ++ vs) := by
  induction codes with
  | nil =>
    intro i a ws vs _ hvs _
    obtain rfl : vs = [] := by simpa using hvs.symm
    simpa [wordsByRefCode] using Leads.refl b a ws
  | cons code codes ih =>
    intro i a ws vs hcode hvs hroom
    obtain ⟨v, rest, hv, hrest, rfl⟩ := mapM_range'_succ hvs
    obtain ⟨hfirst, htail⟩ := codeAt_append.mp hcode
    simp only [List.length_cons] at hroom
    have hword : Leads b a ws b (a + (wordByRefCode id i code).length) (ws ++ [v]) := by
      refine leads_wordByRefCode hb hk href hfirst hv ?_
      split <;> split at hroom <;> omega
    have hnext : Leads b (a + (wordByRefCode id i code).length) (ws ++ [v]) b
        (a + (wordByRefCode id i code).length + (wordsByRefCode id (i + 1) codes).length)
        (ws ++ [v] ++ rest) := by
      refine ih htail hrest ?_
      simp only [List.length_append, List.length_singleton]
      split <;> split at hroom <;> omega
    simpa [wordsByRefCode, Nat.add_assoc] using hword.trans hnext

/-- The instruction that loads a variable of a simple type pushes its word. -/
theorem loadOpcode?_cases {code : UInt8} {op : Opcode} (h : loadOpcode? code = some op) :
    op = .lva ∨ op = .lvb ∨ op = .lvc ∨ op = .lvi ∨ op = .lvr := by
  unfold loadOpcode? at h
  split at h <;> cases h <;> simp

/-- The value of an identifier is pushed. -/
theorem leads_identValueCode {id : Ident} {a : Nat} {ws vs : List Value} (hb : b.Ready)
    (hk : k.constants = b.image.constants) (hcode : CodeAt b.image.code k a (identValueCode id))
    (hvs : b.memory.valueOf id = some vs) (pos : Pos)
    (hroom : (ws.length + depth .value (.ident pos id) : Int) ≤ b.room) :
    Leads b a ws b (a + (identValueCode id).length) (ws ++ vs) := by
  simp only [Memory.valueOf, Option.bind_eq_some_iff, List.range_eq_range'] at hvs
  obtain ⟨count, hcount, hvs⟩ := hvs
  simp only [depth, hcount, Option.getD_some] at hroom
  unfold Ident.words? at hcount
  unfold identValueCode at hcode ⊢
  by_cases hkind : id.symbol.kind = .subprogram ∨ id.symbol.kind = .native
  · simp only [hkind, if_true] at hcode
    exact absurd hcode not_codeAt_refused
  · simp only [hkind, if_false] at hcode ⊢
    cases href : id.symbol.byRef with
    | true =>
      cases hsimple : id.symbol.type.code? with
      | some code =>
        simp only [href, hsimple, if_true, Option.isSome_some, Option.some.injEq] at hcode hcount ⊢
        subst hcount
        obtain ⟨v, rest, hv, hrest, rfl⟩ := mapM_range'_succ hvs
        obtain rfl : rest = [] := by simpa using hrest.symm
        exact leads_wordByRefCode hb hk href hcode hv (by simpa [href] using hroom)
      | none =>
        simp only [href, hsimple, if_true, Option.isSome_none, Bool.false_eq_true, if_false,
          Option.map_eq_some_iff, true_and] at hcode hcount hroom ⊢
        obtain ⟨codes, hcodes, rfl⟩ := hcount
        simp only [hcodes] at hcode ⊢
        refine leads_wordsByRefCode hb hk href hcode hvs ?_
        rw [Nat.zero_add]
        split <;> split at hroom <;> omega
    | false =>
      cases hsimple : id.symbol.type.code? with
      | some code =>
        simp only [href, hsimple, if_true, Option.isSome_some, Option.some.injEq,
          Bool.false_eq_true, false_and, if_false] at hcode hcount hroom ⊢
        subst hcount
        obtain ⟨v, rest, hv, hrest, rfl⟩ := mapM_range'_succ hvs
        obtain rfl : rest = [] := by simpa using hrest.symm
        cases hop : loadOpcode? code with
        | none =>
          simp only [hop] at hcode
          exact absurd hcode not_codeAt_refused
        | some op =>
          simp only [hop] at hcode ⊢
          simp only [Memory.wordOf, Option.bind_eq_bind, Option.bind_eq_some_iff] at hv
          obtain ⟨adr, hadr, hread⟩ := hv
          obtain ⟨r, hr, hplace⟩ := frame_of_addressOf hadr
          simp only [href, Bool.false_eq_true, if_false] at hplace
          subst hplace
          exact leads_loadValue hb (loadOpcode?_cases hop) (codeAt_cons.mp hcode).1 hr
            (by simpa using hread) (by omega)
      | none =>
        simp only [href, hsimple, Option.isSome_none, Bool.false_eq_true, if_false, false_and,
          Option.some.injEq] at hcode hcount hroom ⊢
        subst hcount
        by_cases hlay : id.symbol.type.hasLayout = true
        · simp only [hlay, if_true] at hcode ⊢
          exact leads_wordsDirectCode hb href hcode hvs hroom
        · simp only [hlay] at hcode
          exact absurd hcode not_codeAt_refused

/-! ## Literals and designators -/

/-- A list has a single word if it is a list of that word. -/
theorem single_eq_some {vs : List Value} {v : Value} (h : Memory.single vs = some v) :
    vs = [v] := by
  unfold Memory.single at h
  split at h
  · exact congrArg ([·]) (Option.some.inj h)
  · cases h

/-- The word at the address on the stack, or the address itself. -/
theorem leads_accessCode {e : Expr} {mode : Mode} {adr : Value} {a : Nat} {ws vs : List Value}
    (hb : b.Ready)
    (hcode : CodeAt b.image.code k a (accessCode mode e))
    (hvs : b.memory.at? mode adr = some vs) :
    Leads b a (ws ++ [adr]) b (a + (accessCode mode e).length) (ws ++ vs) := by
  cases mode with
  | address =>
    obtain rfl := Option.some.inj hvs
    exact Leads.refl b a (ws ++ [adr])
  | value =>
    simp only [Memory.at?, Option.map_eq_some_iff] at hvs
    obtain ⟨v, hread, rfl⟩ := hvs
    unfold accessCode loadCode at hcode ⊢
    simp only at hcode ⊢
    cases hsimple : e.type?.bind Ty.code? with
    | none =>
      simp only [hsimple] at hcode
      exact absurd hcode not_codeAt_refused
    | some code =>
      simp only [hsimple] at hcode ⊢
      exact leads_ldi hb (codeAt_cons.mp hcode).1 hread

/-- A literal is pushed as the constant that stands for it. -/
theorem leads_literal {code : TypeCode} {v c : Value} {a : Nat} {ws : List Value} (hb : b.Ready)
    (hk : k.constants = b.image.constants)
    (hkind : code = .integer ∨ code = .real ∨ code = .string ∨ code = .pointer)
    (hcode : CodeAt b.image.code k a [.const code v]) (hc : b.memory.literal v = some c)
    (hroom : (ws.length + 1 : Int) ≤ b.room) : Leads b a ws b (a + 1) (ws ++ [c]) := by
  obtain ⟨c', hc', -, h⟩ := leads_const hb hk hkind (codeAt_cons.mp hcode).1
    (show (ws.length : Int) < b.room by omega)
  obtain rfl := Option.some.inj (hc.symm.trans hc')
  exact h

/-- The index on the stack moves the address below it. -/
theorem leads_scaleCode {d : Dimension} {p i : Value} {a : Nat} {ws : List Value} (hb : b.Ready)
    (hk : k.constants = b.image.constants) (hcode : CodeAt b.image.code k a (scaleCode d))
    (hroom : (ws.length + 3 : Int) ≤ b.room) :
    Leads b a (ws ++ [p, i]) b (a + 3)
      (ws ++ [.ofAddress (p.toInt + (i.toInt - d.low) * d.stride)]) := by
  obtain ⟨hlow, htail⟩ := codeAt_cons.mp hcode
  obtain ⟨hsbi, htail⟩ := codeAt_cons.mp htail
  obtain ⟨hixa, -⟩ := codeAt_cons.mp htail
  obtain ⟨c, -, hsame, hpush⟩ := leads_const hb hk (.inl rfl) hlow
    (show ((ws ++ [p, i]).length : Int) < b.room by simp; omega)
  have hsub : Leads b (a + 1) ((ws ++ [p]) ++ [i, c]) b (a + 1 + 1)
      ((ws ++ [p]) ++ [Operator.subInt i c]) := leads_binary hb rfl hsbi
  have hmove : Leads b (a + 1 + 1) (ws ++ [p, Operator.subInt i c]) b (a + 1 + 1 + 1)
      (ws ++ [.ofAddress (p.toInt + (Operator.subInt i c).toInt * d.stride)]) := leads_ixa hb hixa
  simp only [List.append_assoc, List.cons_append, List.nil_append] at hpush hsub
  rw [Operator.subInt, Value.toInt_ofInt, Value.toInt_of_same hsame] at hmove
  rw [Operator.subInt, Value.toInt_of_same hsame] at hsub
  exact hpush.trans (hsub.trans hmove)

/-! ## Operators -/

/-- The instructions of an arithmetic operator compute what it means in every type. -/
theorem meaning?_of_arithmetic? {op : BinaryOp} {arith : Arithmetic}
    (h : arithmetic? op = some arith) (type : Ty) (v w : Value) :
    op.meaning? type v w =
      BinaryOp.numeric? type (arith.integer.bind (Operator.binary? · v w))
        (arith.real.bind (Operator.binary? · v w)) := by
  cases op <;> cases h <;> rfl

/-- The instruction of a comparison or logical operator computes what it means. -/
theorem meaning?_of_logical? {op : BinaryOp} {opcode : Opcode} (h : logical? op = some opcode)
    (type : Ty) (v w : Value) : op.meaning? type v w = Operator.binary? opcode v w := by
  cases op <;> cases h <;> rfl

/-- An operator has a meaning only if it is arithmetic or has an instruction of its own. -/
theorem exists_logical?_of_meaning? {op : BinaryOp} {type : Ty} {v w r : Value}
    (h : op.meaning? type v w = some r) (harith : arithmetic? op = none) :
    ∃ opcode, logical? op = some opcode := by
  cases op with
  | add | sub | mul | div | intDiv | mod => cases harith
  | eq | ne | lt | gt | le | ge | and | or | xor => exact ⟨_, rfl⟩
  | unknown n => cases h

/-- The instruction chosen for the type of an arithmetic expression computes its result. -/
theorem exists_opcode?_of_numeric? {arith : Arithmetic} {type : Ty} {v w r : Value}
    (h : BinaryOp.numeric? type (arith.integer.bind (Operator.binary? · v w))
      (arith.real.bind (Operator.binary? · v w)) = some r) :
    ∃ opcode comment, arith.opcode? type = some (opcode, comment) ∧
      Operator.binary? opcode v w = some r := by
  unfold BinaryOp.numeric? at h
  unfold Arithmetic.opcode?
  split at h
  · rename_i hinteger
    obtain ⟨opcode, hopcode, hr⟩ := Option.bind_eq_some_iff.mp h
    exact ⟨opcode, _, by rw [if_pos hinteger, hopcode]; rfl, hr⟩
  · rename_i hinteger
    split at h
    · rename_i hreal
      obtain ⟨opcode, hopcode, hr⟩ := Option.bind_eq_some_iff.mp h
      exact ⟨opcode, _, by rw [if_neg hinteger, if_pos hreal, hopcode]; rfl, hr⟩
    · cases h

/-- A unary operator is applied to the word on the stack. -/
theorem leads_unaryCode {op : UnaryOp} {operand : Expr} {v r : Value} {a : Nat} {ws : List Value}
    (hb : b.Ready) (hcode : CodeAt b.image.code k a (unaryCode op operand))
    (hr : op.meaning? (operand.type?.getD .missing) v = some r) :
    Leads b a (ws ++ [v]) b (a + (unaryCode op operand).length) (ws ++ [r]) := by
  cases op with
  | not =>
    obtain rfl := Option.some.inj hr
    exact leads_unary hb rfl (codeAt_cons.mp hcode).1
  | neg =>
    simp only [unaryCode, UnaryOp.meaning?] at hcode hr ⊢
    obtain rfl := Option.some.inj hr
    cases hreal : (operand.type?.getD .missing).isSimple .real with
    | true =>
      simp only [hreal, if_true] at hcode ⊢
      exact leads_unary hb rfl (codeAt_cons.mp hcode).1
    | false =>
      simp only [hreal, Bool.false_eq_true, if_false] at hcode ⊢
      exact leads_unary hb rfl (codeAt_cons.mp hcode).1
  | unknown n => cases hr

/-- A binary operator is applied to the words on the stack. -/
theorem leads_binaryCode {op : BinaryOp} {left : Expr} {type : Ty} {v w r : Value} {a : Nat}
    {ws : List Value} (hb : b.Ready) (hcode : CodeAt b.image.code k a (binaryCode op left type))
    (hr : op.meaning? type v w = some r) :
    Leads b a (ws ++ [v, w]) b (a + (binaryCode op left type).length) (ws ++ [r]) := by
  unfold binaryCode at hcode ⊢
  cases harith : arithmetic? op with
  | some arith =>
    rw [meaning?_of_arithmetic? harith] at hr
    obtain ⟨opcode, comment, hopcode, hcomputes⟩ := exists_opcode?_of_numeric? hr
    simp only [harith, hopcode] at hcode ⊢
    exact leads_binary hb hcomputes (codeAt_cons.mp hcode).1
  | none =>
    obtain ⟨opcode, hopcode⟩ := exists_logical?_of_meaning? hr harith
    rw [meaning?_of_logical? hopcode] at hr
    cases hleft : left.type?.bind Ty.code? with
    | some code =>
      simp only [harith, hopcode, hleft] at hcode ⊢
      exact leads_binary hb hr (codeAt_cons.mp hcode).1
    | none =>
      simp only [harith, hopcode, hleft] at hcode
      exact absurd hcode not_codeAt_refused

/-- A conversion keeps the word on the stack. -/
theorem leads_castCode {operand : Expr} {target : Ty} {a : Nat} {ws : List Value} (hb : b.Ready)
    (hcode : CodeAt b.image.code k a (castCode operand target)) :
    Leads b a ws b (a + (castCode operand target).length) ws := by
  unfold castCode at hcode ⊢
  simp only at hcode ⊢
  split at hcode
  · rename_i hreal
    rw [if_pos hreal]
    exact leads_op hb (codeAt_cons.mp hcode).1 fun _ _ m h => ⟨m, rfl, h⟩
  · rename_i hreal
    rw [if_neg hreal]
    split at hcode
    · rename_i hsame
      rw [if_pos hsame]
      exact Leads.refl b a ws
    · exact absurd hcode not_codeAt_refused

/-! ## Expressions -/

mutual

/-- Running the code of an expression pushes the words that the expression means. -/
theorem leads_exprCode (hb : b.Ready) (hk : k.constants = b.image.constants) (mode : Mode) :
    ∀ (e : Expr) {a : Nat} {ws vs : List Value},
      CodeAt b.image.code k a (exprCode mode e) → b.memory.eval mode e = some vs →
      (ws.length + depth mode e : Int) ≤ b.room →
      Leads b a ws b (a + (exprCode mode e).length) (ws ++ vs)
  | .missing, a, ws, vs, hcode, hvs, hroom => by
    simp only [Memory.eval, reduceCtorEq] at hvs
  | .ident pos id, a, ws, vs, hcode, hvs, hroom => by
    cases mode with
    | value =>
      simp only [exprCode, Memory.eval] at hcode hvs ⊢
      exact leads_identValueCode hb hk hcode hvs pos hroom
    | address =>
      simp only [exprCode, Memory.eval, depth, Option.map_eq_some_iff] at hcode hvs hroom ⊢
      obtain ⟨adr, hadr, rfl⟩ := hvs
      exact leads_identAddressCode hb hcode hadr (by omega)
  | .index pos base indices, a, ws, vs, hcode, hvs, hroom => by
    simp only [exprCode, Memory.eval, depth] at hcode hvs hroom ⊢
    cases hdim : dimensions? base indices.length with
    | none =>
      simp only [hdim] at hcode
      exact absurd (codeAt_append.mp hcode).1 not_codeAt_refused
    | some dimensions =>
    obtain ⟨ranges, elem, htype, -, rfl⟩ := exists_array_of_dimensions? hdim
    simp only [hdim] at hcode ⊢
    simp only [htype, Option.bind_eq_bind, Option.bind_eq_some_iff] at hvs
    obtain ⟨p, ⟨ps, hps, hp⟩, q, hq, hvs⟩ := hvs
    obtain rfl := single_eq_some hp
    obtain ⟨hboth, hload⟩ := codeAt_append.mp hcode
    obtain ⟨hbase, hindices⟩ := codeAt_append.mp hboth
    have h₁ : Leads b a ws b (a + (exprCode .address base).length) (ws ++ [p]) :=
      leads_exprCode hb hk .address base hbase hps (by omega)
    have h₂ := h₁.trans (leads_indicesCode hb hk ranges _ indices hindices hq (by omega))
    simp only [List.length_append, ← Nat.add_assoc] at hload ⊢
    exact h₂.trans (leads_accessCode hb hload hvs)
  | .field pos base f, a, ws, vs, hcode, hvs, hroom => by
    simp only [exprCode, Memory.eval, depth, Option.bind_eq_bind, Option.bind_eq_some_iff]
      at hcode hvs hroom ⊢
    obtain ⟨p, ⟨ps, hps, hp⟩, hvs⟩ := hvs
    obtain rfl := single_eq_some hp
    obtain ⟨hboth, hload⟩ := codeAt_append.mp hcode
    obtain ⟨hbase, hoffset⟩ := codeAt_append.mp hboth
    have h₁ : Leads b a ws b (a + (exprCode .address base).length) (ws ++ [p]) :=
      leads_exprCode hb hk .address base hbase hps (by omega)
    obtain ⟨hconst, htail⟩ := codeAt_cons.mp hoffset
    obtain ⟨hadi, -⟩ := codeAt_cons.mp htail
    obtain ⟨c, -, hsame, h₂⟩ := leads_const hb hk (.inl rfl) hconst
      (show ((ws ++ [p]).length : Int) < b.room by simp; omega)
    have h₃ : Leads b (a + (exprCode .address base).length + 1) (ws ++ [p, c]) b
        (a + (exprCode .address base).length + 1 + 1) (ws ++ [Operator.addInt p c]) :=
      leads_binary hb rfl hadi
    rw [Operator.addInt, Value.toInt_of_same hsame] at h₃
    rw [List.append_assoc] at h₂
    simp only [List.length_append, List.length_cons, List.length_nil, ← Nat.add_assoc] at hload ⊢
    exact h₁.trans (h₂.trans (h₃.trans (leads_accessCode hb hload hvs)))
  | .deref pos base, a, ws, vs, hcode, hvs, hroom => by
    simp only [exprCode, Memory.eval, depth, Option.bind_eq_bind, Option.bind_eq_some_iff]
      at hcode hvs hroom ⊢
    obtain ⟨p, ⟨ps, hps, hp⟩, hvs⟩ := hvs
    obtain rfl := single_eq_some hp
    obtain ⟨hbase, hload⟩ := codeAt_append.mp hcode
    have h₁ : Leads b a ws b (a + (exprCode .value base).length) (ws ++ [p]) :=
      leads_exprCode hb hk .value base hbase hps hroom
    rw [List.length_append, ← Nat.add_assoc]
    exact h₁.trans (leads_accessCode hb hload hvs)
  | .number pos x, a, ws, vs, hcode, hvs, hroom => by
    cases mode with
    | address =>
      simp only [exprCode] at hcode
      exact absurd hcode not_codeAt_refused
    | value =>
      simp only [exprCode, numberCode, Memory.eval, depth] at hcode hvs hroom ⊢
      cases hint : integerLiteral? x with
      | some i =>
        simp only [hint, Option.map_eq_some_iff] at hcode hvs ⊢
        obtain ⟨c, hc, rfl⟩ := hvs
        exact leads_literal hb hk (by simp) hcode hc hroom
      | none =>
        simp only [hint, Option.map_eq_some_iff] at hcode hvs ⊢
        obtain ⟨c, hc, rfl⟩ := hvs
        exact leads_literal hb hk (by simp) hcode hc hroom
  | .string pos s, a, ws, vs, hcode, hvs, hroom => by
    cases mode with
    | address =>
      simp only [exprCode] at hcode
      exact absurd hcode not_codeAt_refused
    | value =>
      simp only [exprCode, Memory.eval, depth, Option.map_eq_some_iff] at hcode hvs hroom ⊢
      obtain ⟨c, hc, rfl⟩ := hvs
      exact leads_literal hb hk (by simp) hcode hc hroom
  | .char pos code, a, ws, vs, hcode, hvs, hroom => by
    cases mode with
    | address =>
      simp only [exprCode] at hcode
      exact absurd hcode not_codeAt_refused
    | value =>
      simp only [exprCode, Memory.eval, depth] at hcode hvs hroom ⊢
      obtain rfl := Option.some.inj hvs
      exact leads_char hb (codeAt_cons.mp hcode).1 (by omega)
  | .bool pos t, a, ws, vs, hcode, hvs, hroom => by
    cases mode with
    | address =>
      simp only [exprCode] at hcode
      exact absurd hcode not_codeAt_refused
    | value =>
      simp only [exprCode, Memory.eval, depth] at hcode hvs hroom ⊢
      obtain rfl := Option.some.inj hvs
      exact leads_bool hb (codeAt_cons.mp hcode).1 (by omega)
  | .nil pos, a, ws, vs, hcode, hvs, hroom => by
    cases mode with
    | address =>
      simp only [exprCode] at hcode
      exact absurd hcode not_codeAt_refused
    | value =>
      simp only [exprCode, Memory.eval, depth, Option.map_eq_some_iff] at hcode hvs hroom ⊢
      obtain ⟨c, hc, rfl⟩ := hvs
      exact leads_literal hb hk (by simp) hcode hc hroom
  | .addressOf pos base, a, ws, vs, hcode, hvs, hroom => by
    cases mode with
    | address =>
      simp only [exprCode] at hcode
      exact absurd hcode not_codeAt_refused
    | value =>
      simp only [exprCode, Memory.eval, depth] at hcode hvs hroom ⊢
      exact leads_exprCode hb hk .address base hcode hvs hroom
  | .unary pos op operand, a, ws, vs, hcode, hvs, hroom => by
    cases mode with
    | address =>
      simp only [exprCode] at hcode
      exact absurd hcode not_codeAt_refused
    | value =>
      simp only [exprCode, Memory.eval, depth, Option.bind_eq_bind, Option.bind_eq_some_iff]
        at hcode hvs hroom ⊢
      obtain ⟨v, ⟨ws', hws', hv⟩, r, hr, hvs⟩ := hvs
      obtain rfl := single_eq_some hv
      obtain rfl := Option.some.inj hvs
      obtain ⟨hoperand, hop⟩ := codeAt_append.mp hcode
      have h₁ : Leads b a ws b (a + (exprCode .value operand).length) (ws ++ [v]) :=
        leads_exprCode hb hk .value operand hoperand hws' hroom
      rw [List.length_append, ← Nat.add_assoc]
      exact h₁.trans (leads_unaryCode hb hop hr)
  | .binary pos op left right type, a, ws, vs, hcode, hvs, hroom => by
    cases mode with
    | address =>
      simp only [exprCode] at hcode
      exact absurd hcode not_codeAt_refused
    | value =>
      simp only [exprCode, Memory.eval, depth, Option.bind_eq_bind, Option.bind_eq_some_iff]
        at hcode hvs hroom ⊢
      obtain ⟨v, ⟨us, hus, hv⟩, w, ⟨us', hus', hw⟩, r, hr, hvs⟩ := hvs
      obtain rfl := single_eq_some hv
      obtain rfl := single_eq_some hw
      obtain rfl := Option.some.inj hvs
      obtain ⟨hboth, hop⟩ := codeAt_append.mp hcode
      obtain ⟨hleft, hright⟩ := codeAt_append.mp hboth
      have h₁ : Leads b a ws b (a + (exprCode .value left).length) (ws ++ [v]) :=
        leads_exprCode hb hk .value left hleft hus (by omega)
      have h₂ : Leads b (a + (exprCode .value left).length) (ws ++ [v]) b
          (a + (exprCode .value left).length + (exprCode .value right).length)
          (ws ++ [v] ++ [w]) :=
        leads_exprCode hb hk .value right hright hus' (by simp; omega)
      rw [List.append_assoc] at h₂
      simp only [List.length_append, ← Nat.add_assoc] at hop ⊢
      exact h₁.trans (h₂.trans (leads_binaryCode hb hop hr))
  | .cast pos operand target, a, ws, vs, hcode, hvs, hroom => by
    cases mode with
    | address =>
      simp only [exprCode] at hcode
      exact absurd hcode not_codeAt_refused
    | value =>
      simp only [exprCode, Memory.eval, depth] at hcode hvs hroom ⊢
      obtain ⟨hoperand, hcast⟩ := codeAt_append.mp hcode
      rw [List.length_append, ← Nat.add_assoc]
      exact (leads_exprCode hb hk .value operand hoperand hvs hroom).trans (leads_castCode hb hcast)
  | .call pos callee args, a, ws, vs, hcode, hvs, hroom => by
    simp only [Memory.eval, reduceCtorEq] at hvs

/-- Running the code of indices moves the address on the stack. -/
theorem leads_indicesCode (hb : b.Ready) (hk : k.constants = b.image.constants) :
    ∀ (ranges : List IndexRange) (strides : List Int64) (indices : List Expr) {a : Nat}
      {ws : List Value} {p q : Value},
      CodeAt b.image.code k a (indicesCode (dimensionsOf ranges strides) indices) →
      b.memory.evalIndices p ranges strides indices = some q →
      (ws.length + depthIndices indices : Int) ≤ b.room →
      Leads b a (ws ++ [p]) b (a + (indicesCode (dimensionsOf ranges strides) indices).length)
        (ws ++ [q])
  | ranges, strides, [], a, ws, p, q, hcode, hq, hroom => by
    simp only [indicesCode_nil, Memory.evalIndices] at hq ⊢
    obtain rfl := Option.some.inj hq
    exact Leads.refl b a (ws ++ [p])
  | [], strides, index :: indices, a, ws, p, q, hcode, hq, hroom => by
    simp only [Memory.evalIndices, reduceCtorEq] at hq
  | range :: ranges, [], index :: indices, a, ws, p, q, hcode, hq, hroom => by
    simp only [Memory.evalIndices, reduceCtorEq] at hq
  | range :: ranges, stride :: strides, index :: indices, a, ws, p, q, hcode, hq, hroom => by
    simp only [dimensionsOf, indicesCode, Memory.evalIndices, depthIndices, Option.bind_eq_bind,
      Option.bind_eq_some_iff] at hcode hq hroom ⊢
    obtain ⟨i, ⟨is, his, hi⟩, hrest⟩ := hq
    obtain rfl := single_eq_some hi
    obtain ⟨hboth, htail⟩ := codeAt_append.mp hcode
    obtain ⟨hindex, hscale⟩ := codeAt_append.mp hboth
    have h₁ : Leads b a (ws ++ [p]) b (a + (exprCode .value index).length) (ws ++ [p] ++ [i]) :=
      leads_exprCode hb hk .value index hindex his (by simp; omega)
    rw [List.append_assoc] at h₁
    have h₂ := h₁.trans (leads_scaleCode hb hk hscale (by omega))
    simp only [List.length_append, ← Nat.add_assoc] at htail ⊢
    exact h₂.trans (leads_indicesCode hb hk ranges strides indices htail hrest (by omega))

end

end PCode.Machine
