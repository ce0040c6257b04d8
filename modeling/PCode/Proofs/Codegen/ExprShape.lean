import PCode.Proofs.Codegen.Shape

/-!
# The shape that expressions leave

The code of a typed expression adds as many words to the stack as its type has,
and that of a designator adds one for its address.  It has no jumps, and takes
away what it adds in between, the marks of calls included.

Main definitions and results:

- `Gen.Turns`: items replace a number of operands by another.
- `Gen.turns_invokeCode`: a call leaves what its callee returns.
- `Gen.moves_exprCode`: the code of a typed expression adds the words of its type.
-/

namespace PCode

namespace Gen

open Shape

/-! ## Identifiers and operators -/

section

variable {natives : Registry} {calls : Symbol → Nat → Prop}

/-- Sensible code has nothing in it that cannot be lowered. -/
theorem not_sensible_refused {items : List Item} (h : ∀ it ∈ items, it.Sensible calls)
    (hmem : Item.refused ∈ items) : False :=
  h _ hmem

private theorem moves_wordByRefCode (id : Ident) (i : Nat) (code : UInt8) (s : Shape) :
    Moves natives calls s (wordByRefCode id i code) (.word :: s) := by
  unfold wordByRefCode
  refine (moves_op (o := .lva) rfl s).cons ?_
  have hload : Moves natives calls (.word :: s) [.op .ldi (operandOfCode code) 0] (.word :: s) :=
    moves_op (o := .ldi) rfl s
  split
  · exact (((moves_const .integer _ _).cons (moves_op (o := .adi) rfl s))).append hload
  · exact hload

private theorem moves_wordsByRefCode (id : Ident) (i : Nat) (codes : List UInt8) (s : Shape) :
    Moves natives calls s (wordsByRefCode id i codes) (words codes.length ++ s) := by
  induction codes generalizing i s with
  | nil => exact moves_nil s
  | cons code rest ih =>
    have h := (moves_wordByRefCode id i code s).append (ih (i + 1) (.word :: s))
    rwa [words_append_word] at h

private theorem moves_wordsDirectCode (id : Ident) (i n : Nat) (s : Shape) :
    Moves natives calls s (wordsDirectCode id i n) (words n ++ s) := by
  induction n generalizing i s with
  | zero => exact moves_nil s
  | succ n ih =>
    have hfirst : Moves natives calls s
        [.op .lvi id.level (id.symbol.address + Int64.ofNat i)] (.word :: s) :=
      moves_op (o := .lvi) rfl s
    have h := hfirst.cons (ih (i + 1) (.word :: s))
    rwa [words_append_word] at h

/-- The address of an identifier is one word. -/
theorem moves_identAddressCode (id : Ident) (s : Shape) :
    Moves natives calls s (identAddressCode id) (.word :: s) := by
  unfold identAddressCode
  split
  · exact moves_op (o := .lva) rfl s
  · exact moves_op (o := .lda) rfl s

/-- A load pushes one word. -/
theorem arity_loadOpcode? {code : UInt8} {op : Opcode} (h : loadOpcode? code = some op) :
    op.arity? = some (0, 1) := by
  unfold loadOpcode? at h
  split at h <;> first
    | (obtain rfl := Option.some.inj h; rfl)
    | cases h

/-- A type with a code has one word. -/
theorem size_of_code? {t : Ty} {code : UInt8} (h : t.code? = some code) : t.size = 1 := by
  cases t <;> simp_all [Ty.code?, Ty.size]

/-- The value of an identifier has the words of its type. -/
theorem moves_identValueCode {id : Ident} (hsized : id.symbol.type.Sized)
    (h : ∀ it ∈ identValueCode id, it.Sensible calls) (s : Shape) :
    Moves natives calls s (identValueCode id)
      (words id.symbol.type.size.toNatClampNeg ++ s) := by
  unfold identValueCode at h ⊢
  split
  · simp_all [Item.Sensible]
  · rename_i hkind
    simp only [if_neg hkind] at h
    split
    · rename_i hbyRef
      simp only [hbyRef, if_true] at h
      split
      · rename_i code hcode
        rw [size_of_code? hcode]
        exact (moves_op (o := .lva) rfl s).cons (moves_op (o := .ldi) rfl s)
      · rename_i hcode
        simp only [hcode] at h
        split
        · rename_i codes hcodes
          have hlen := Ty.length_codes hsized hcodes
          have hcount : id.symbol.type.size.toNatClampNeg = codes.length := by
            rw [toNatClampNeg_eq, ← hlen, Int.toNat_natCast]
          rw [hcount]
          exact moves_wordsByRefCode id 0 codes s
        · rename_i hcodes
          simp [hcodes, Item.Sensible] at h
    · rename_i hbyRef
      simp only [hbyRef, if_false, Bool.false_eq_true] at h
      split
      · rename_i code hcode
        simp only [hcode] at h
        rw [size_of_code? hcode]
        split
        · rename_i op hop
          exact moves_op (arity_loadOpcode? hop) s
        · rename_i hop
          simp [hop, Item.Sensible] at h
      · rename_i hcode
        simp only [hcode] at h
        split
        · exact moves_wordsDirectCode id 0 _ s
        · rename_i hlayout
          simp [hlayout, Item.Sensible] at h

/-- Arithmetic makes one word of two. -/
theorem arity_arithmetic? {op : BinaryOp} {a : Arithmetic} {t : Ty} {r : Opcode × String}
    (ha : arithmetic? op = some a) (hr : a.opcode? t = some r) : r.1.arity? = some (2, 1) := by
  have hboth : ∀ o, a.integer = some o ∨ a.real = some o → o.arity? = some (2, 1) := by
    intro o ho
    cases op <;> simp only [arithmetic?, Option.some.injEq, reduceCtorEq] at ha <;> subst ha <;>
      rcases ho with ho | ho <;> cases ho <;> rfl
  unfold Arithmetic.opcode? at hr
  split at hr
  · obtain ⟨o, ho, rfl⟩ := Option.map_eq_some_iff.mp hr
    exact hboth o (.inl ho)
  · split at hr
    · obtain ⟨o, ho, rfl⟩ := Option.map_eq_some_iff.mp hr
      exact hboth o (.inr ho)
    · cases hr

/-- A comparison or logical operator makes one word of two. -/
theorem arity_logical? {op : BinaryOp} {o : Opcode} (h : logical? op = some o) :
    o.arity? = some (2, 1) := by
  cases op <;> simp only [logical?, Option.some.injEq, reduceCtorEq] at h <;> subst h <;> rfl

private theorem moves_binaryCode {op : BinaryOp} {left : Expr} {type : Ty}
    (h : ∀ it ∈ binaryCode op left type, it.Sensible calls) (s : Shape) :
    Moves natives calls (words 2 ++ s) (binaryCode op left type) (.word :: s) := by
  unfold binaryCode at h ⊢
  split
  · rename_i a ha
    simp only [ha] at h
    split
    · rename_i o comment ho
      exact moves_op (arity_arithmetic? ha ho) s
    · rename_i ho
      simp [ho, Item.Sensible] at h
  · rename_i ha
    simp only [ha] at h
    split
    · rename_i o code ho hcode
      exact moves_op (arity_logical? ho) s
    · rename_i hnone
      split at h
      · rename_i o code ho hcode
        exact absurd hcode (hnone o code ho)
      · exact (not_sensible_refused h (by simp)).elim

private theorem moves_unaryCode {op : UnaryOp} {operand : Expr}
    (h : ∀ it ∈ unaryCode op operand, it.Sensible calls) (s : Shape) :
    Moves natives calls (.word :: s) (unaryCode op operand) (.word :: s) := by
  cases op with
  | not => exact moves_op (o := .not) rfl s
  | neg =>
    simp only [unaryCode]
    split
    · exact moves_op (o := .ngr) rfl s
    · exact moves_op (o := .ngi) rfl s
  | unknown n => exact (not_sensible_refused h (by simp [unaryCode])).elim

private theorem moves_castCode {operand : Expr} {target : Ty}
    (h : ∀ it ∈ castCode operand target, it.Sensible calls) (s : Shape) :
    Moves natives calls s (castCode operand target) s := by
  unfold castCode at h ⊢
  simp only at h ⊢
  split
  · exact moves_op (o := .flt) rfl s
  · rename_i hreal
    rw [if_neg hreal] at h
    split
    · exact moves_nil s
    · rename_i hsame
      rw [if_neg hsame] at h
      exact (not_sensible_refused h (by simp)).elim

/-- What a cast is to has one word. -/
theorem size_cast {operand : Expr} {target : Ty}
    (h : ∀ it ∈ castCode operand target, it.Sensible calls) : target.size = 1 := by
  unfold castCode at h
  simp only at h
  split at h
  · rename_i hreal
    exact size_of_code? (by simpa [Ty.isSimple] using hreal.2)
  · split at h
    · rename_i hsame
      obtain ⟨hsome, heq⟩ := hsame
      obtain ⟨code, hcode⟩ := Option.isSome_iff_exists.mp hsome
      exact size_of_code? (heq ▸ hcode)
    · exact (not_sensible_refused h (by simp)).elim

private theorem moves_loadCode {e : Expr} (h : ∀ it ∈ loadCode e, it.Sensible calls) (s : Shape) :
    Moves natives calls (.word :: s) (loadCode e) (.word :: s) := by
  unfold loadCode at h ⊢
  split
  · exact moves_op (o := .ldi) rfl s
  · rename_i hcode
    simp [hcode, Item.Sensible] at h

/-- What is loaded through an address has one word. -/
theorem size_load {e : Expr} (h : ∀ it ∈ loadCode e, it.Sensible calls) :
    ∃ t, e.type? = some t ∧ t.size = 1 := by
  unfold loadCode at h
  split at h
  · rename_i code hcode
    obtain ⟨t, ht, hc⟩ := Option.bind_eq_some_iff.mp hcode
    exact ⟨t, ht, size_of_code? hc⟩
  · exact (not_sensible_refused h (by simp)).elim

private theorem moves_scaleCode (d : Dimension) (s : Shape) :
    Moves natives calls (.word :: .word :: s) (scaleCode d) (.word :: s) :=
  (moves_const .integer _ _).cons
    ((moves_op (o := .sbi) rfl (.word :: s)).cons (moves_op (o := .ixa) rfl s))

end

/-! ## Expressions -/

/-- What is known of a part of accepted code. -/
structure Accepted (calls : Symbol → Nat → Prop) (items : List Item) : Prop where
  sensible : ∀ it ∈ items, it.Sensible calls
  short : items.length < 2 ^ 63

/-- The parts of accepted code are accepted. -/
theorem Accepted.split {calls : Symbol → Nat → Prop} {a b : List Item}
    (h : Accepted calls (a ++ b)) : Accepted calls a ∧ Accepted calls b := by
  have hshort := h.short
  rw [List.length_append] at hshort
  exact ⟨⟨fun it hit => h.sensible it (List.mem_append_left _ hit), by omega⟩,
    fun it hit => h.sensible it (List.mem_append_right _ hit), by omega⟩

/-- Items, as part of accepted code, replace a number of operands by another. -/
def Turns (natives : Registry) (calls : Symbol → Nat → Prop) (popped : Nat) (items : List Item)
    (pushed : Nat) : Prop :=
  Accepted calls items → ∀ s, Moves natives calls (words popped ++ s) items (words pushed ++ s)

section

variable {natives : Registry} {calls : Symbol → Nat → Prop}

/-- The words that one piece of code leaves are those that the next one takes. -/
theorem Turns.append {is js : List Item} {m n k : Nat} (h₁ : Turns natives calls m is n)
    (h₂ : Turns natives calls n js k) : Turns natives calls m (is ++ js) k := by
  intro h s
  obtain ⟨hi, hj⟩ := h.split
  exact (h₁ hi s).append (h₂ hj s)

/-- Operands below stay where they are. -/
theorem Turns.over {items : List Item} {m n : Nat} (h : Turns natives calls m items n) (k : Nat) :
    Turns natives calls (k + m) items (k + n) := by
  intro hitems s
  have hmoves := h hitems (words k ++ s)
  rwa [← List.append_assoc, ← List.append_assoc, ← words_add, ← words_add, Nat.add_comm m,
    Nat.add_comm n] at hmoves

/-- What cannot be lowered may be said to turn words into any others. -/
theorem turns_refused (m n : Nat) : Turns natives calls m [.refused] n :=
  fun h => (not_sensible_refused h.sensible (by simp)).elim

/-- An instruction turns the words that it pops into those that it pushes. -/
theorem turns_op {o : Opcode} {m n : Nat} (h : o.arity? = some (m, n)) (x y : Int64) :
    Turns natives calls m [.op o x y] n :=
  fun _ s => moves_op h s

/-- The load of a constant leaves one word. -/
theorem turns_const (code : TypeCode) (v : Value) : Turns natives calls 0 [.const code v] 1 :=
  fun _ s => moves_const code v s

/-- The address of a designator is left, or replaced by the word there. -/
theorem turns_loadCode (e : Expr) : Turns natives calls 1 (loadCode e) 1 :=
  fun h s => moves_loadCode h.sensible s

end

section

variable {natives : Registry} {scopes : Scopes}

/-- What is known of the scopes around a place and of the registry. -/
structure Surroundings (natives : Registry) (scopes : Scopes) : Prop where
  built : ∀ s ∈ scopes, s.Built
  depth : scopes.length < 2 ^ 63
  natives : natives.size < 2 ^ 63

/-- The arguments of a call push the words that their callee takes. -/
structure Passes (natives : Registry) (scopes : Scopes) (args : List Arg) (items : List Item) :
    Prop where
  native : (∀ a ∈ args, a.OneWord) → Turns natives scopes.Calls 0 items args.length
  /-- no argument of a native procedure is without code -/
  length : (∀ a ∈ args, a.OneWord) → Accepted scopes.Calls items → args.length ≤ items.length
  user : ∀ params, (∀ p ∈ params, p.byRef = false → p.type.Sized) → ArgsMatch args params →
    Turns natives scopes.Calls 0 items (Ty.parameterWords params).toNat

/-- A call leaves what its callee returns. -/
theorem turns_invokeCode {callee : Ident} {args : List Arg} {arguments : List Item}
    (hs : Surroundings natives scopes) (hcall : CallTyped natives scopes callee args)
    (hpasses : Passes natives scopes args arguments) :
    Turns natives scopes.Calls 0 (invokeCode callee args arguments)
      (Item.results (!callee.symbol.resultType.isVoid)) := by
  intro h s
  obtain ⟨hresolves, hargs⟩ := hcall
  rcases hresolves.cases hs.built with ⟨hkind, k, hlevel, hk, hdeclared⟩
    | ⟨number, index, n, hn, rfl⟩
  · -- The callee is declared in one of the scopes around the call.
    unfold invokeCode at h ⊢
    cases htype : callee.symbol.type with
    | subprogram params result =>
      simp only [htype] at h ⊢
      cases hk' : callee.symbol.kind with
      | subprogram =>
        simp only [hk', htype] at h hargs ⊢
        obtain ⟨hsized, hmatch⟩ := hargs
        have hbound := hs.depth
        have hmark : callee.level.toNatClampNeg = k := by
          rw [hlevel, Int64.toNatClampNeg_ofNat_of_lt (by omega)]
        have hwords : (Ty.subprogram params result).paramWords.toNatClampNeg =
            (Ty.parameterWords params).toNat := by
          rw [toNatClampNeg_eq, Ty.toInt_paramWords hsized]
        obtain ⟨hfirst, hrest⟩ := Accepted.split (a := [.op .mst callee.level 0]) h
        have hmst : Moves natives scopes.Calls s [.op .mst callee.level 0] (.mark k :: s) :=
          hmark ▸ moves_mst callee.level 0 s
        have hpushed := hpasses.user params hsized.each hmatch hrest.split.1 (.mark k :: s)
        rw [← hwords] at hpushed
        split
        · exact hmst.cons (hpushed.append (moves_call (hdeclared hk') s))
        · rename_i hlayout
          rw [if_neg hlayout] at h
          exact (not_sensible_refused h.sensible (by simp)).elim
      | native => exact absurd hk' hkind
      | _ =>
        simp only [hk'] at h
        exact (not_sensible_refused h.sensible (by simp)).elim
    | _ =>
      simp only [htype] at h
      exact (not_sensible_refused h.sensible (by simp)).elim
  · -- The callee is a native procedure.
    have hitems : Accepted scopes.Calls arguments :=
      (Accepted.split (b := [.op .csp (Int64.ofNat args.length) (Int64.ofNat index)]) h).1
    have hindex : index < 2 ^ 63 := by
      have hlt : index < natives.size := (Array.getElem?_eq_some_iff.mp hn).1
      have := hs.natives
      omega
    have haddress : natives.at? (Int64.ofNat index).toNatClampNeg = some n := by
      rw [Int64.toNatClampNeg_ofNat_of_lt hindex, hn]
    have hlength : (Int64.ofNat args.length).toNatClampNeg = args.length := by
      have h₁ := hpasses.length hargs hitems
      have h₂ := hitems.short
      exact Int64.toNatClampNeg_ofNat_of_lt (by omega)
    have hpushed := hpasses.native hargs hitems s
    rw [← hlength] at hpushed
    rw [Scopes.isVoid_nativeSymbol, Bool.not_not]
    exact hpushed.append (moves_csp haddress s)

/-- The code of an expression pushes its words, and that of a designator its address. -/
structure Lowers (natives : Registry) (scopes : Scopes) (e : Expr) : Prop where
  value : ∀ t, e.type? = some t → t.isVoid = false →
    Turns natives scopes.Calls 0 (exprCode .value e) t.size.toNatClampNeg
  address : Turns natives scopes.Calls 0 (exprCode .address e) 1

/-- An expression of one word leaves one word. -/
theorem Lowers.oneWord {e : Expr} (h : Lowers natives scopes e) (he : e.OneWord) :
    Turns natives scopes.Calls 0 (exprCode .value e) 1 := by
  obtain ⟨t, ht, hsize, hvoid⟩ := he
  have hvalue := h.value t ht hvoid
  rwa [hsize] at hvalue

/-- An expression that leaves one word, and has no address. -/
theorem lowers_of_word {e : Expr} (hvalue : Turns natives scopes.Calls 0 (exprCode .value e) 1)
    (hsize : ∀ t, e.type? = some t → t.isVoid = false →
      Accepted scopes.Calls (exprCode .value e) → t.size = 1)
    (haddress : exprCode .address e = [.refused]) : Lowers natives scopes e where
  value t ht hvoid := by
    intro h s
    rw [hsize t ht hvoid h]
    exact hvalue h s
  address := by
    rw [haddress]
    exact turns_refused 0 1

/-- A designator that is reached through an address. -/
theorem lowers_of_access {e : Expr} {items : List Item}
    (hitems : Turns natives scopes.Calls 0 items 1)
    (hvalue : exprCode .value e = items ++ accessCode .value e)
    (haddress : exprCode .address e = items ++ accessCode .address e) :
    Lowers natives scopes e where
  value t ht hvoid := by
    rw [hvalue]
    intro h s
    obtain ⟨t', ht', hsize⟩ := size_load h.split.2.sensible
    obtain rfl : t' = t := Option.some.inj (ht'.symm.trans ht)
    rw [hsize]
    exact hitems.append (turns_loadCode e) h s
  address := by
    rw [haddress, accessCode, List.append_nil]
    exact hitems

/-- What a call in accepted code returns has one word, if anything. -/
theorem size_call {callee : Ident} {args : List Arg} {arguments : List Item}
    (hs : Surroundings natives scopes) (hcall : CallTyped natives scopes callee args)
    (hvoid : callee.symbol.resultType.isVoid = false)
    (h : Accepted scopes.Calls (invokeCode callee args arguments)) :
    callee.symbol.resultType.size = 1 := by
  rcases hcall.1.cases hs.built with ⟨hkind, k, -, -, hdeclared⟩ | ⟨number, index, n, -, rfl⟩
  · unfold invokeCode at h
    cases htype : callee.symbol.type with
    | subprogram params result =>
      simp only [htype] at h
      cases hk : callee.symbol.kind with
      | subprogram =>
        simp only [hk] at h
        split at h
        · exact h.sensible (.call (Ty.subprogram params result).paramWords callee.symbol)
            (by simp) k (hdeclared hk) hvoid
        · exact (not_sensible_refused h.sensible (by simp)).elim
      | native => exact absurd hk hkind
      | _ =>
        simp only [hk] at h
        exact (not_sensible_refused h.sensible (by simp)).elim
    | _ =>
      simp only [htype] at h
      exact (not_sensible_refused h.sensible (by simp)).elim
  · exact Scopes.size_nativeSymbol number index n.toNativeHeader

/-- One argument more. -/
theorem passes_cons {e : Expr} {byRef : Bool} {rest : List Arg} (he : Lowers natives scopes e)
    (hrest : Passes natives scopes rest (argsCode rest)) :
    Passes natives scopes (.mk e byRef :: rest) (argsCode (.mk e byRef :: rest)) := by
  simp only [argsCode]
  have hfirst : (byRef = false → e.OneWord) →
      Turns natives scopes.Calls 0 (exprCode (if byRef then .address else .value) e) 1 := by
    intro hword
    cases byRef with
    | true => exact he.address
    | false => exact he.oneWord (hword rfl)
  constructor
  · intro hwords
    have h := (hfirst (hwords _ (.head _))).append
      ((hrest.native fun a ha => hwords a (.tail _ ha)).over 1)
    rwa [Nat.add_comm] at h
  · intro hwords h
    have hlen := hrest.length (fun a ha => hwords a (.tail _ ha)) h.split.2
    have hne : (exprCode (if byRef then .address else .value) e).length ≠ 0 := by
      intro hnil
      have hmoves := hfirst (hwords _ (.head _)) h.split.1 []
      rw [List.eq_nil_of_length_eq_zero hnil] at hmoves
      exact absurd hmoves.shape (by simp [words])
    simp only [List.length_cons, List.length_append]
    omega
  · intro params hsized hmatch
    cases params with
    | nil => exact hmatch.elim
    | cons p params =>
      obtain ⟨⟨rfl, hvalue⟩, hmore⟩ := hmatch
      have hfirst : Turns natives scopes.Calls 0
          (exprCode (if p.byRef then .address else .value) e)
          (Ty.paramWordsOf p.type p.byRef).toNatClampNeg := by
        unfold Ty.paramWordsOf
        cases hbyRef : p.byRef with
        | true => exact he.address
        | false =>
          obtain ⟨t, ht, hsize, hvoid⟩ := hvalue hbyRef
          have h := he.value t ht hvoid
          rwa [hsize] at h
      have h := hfirst.append
        ((hrest.user params (fun q hq => hsized q (.tail _ hq)) hmore).over _)
      have hnonneg := Ty.paramWordsOf_nonneg (hsized p (.head _))
      have hnonneg' := Ty.parameterWords_nonneg fun q hq => hsized q (.tail _ hq)
      have hsum : (Ty.parameterWords (p :: params)).toNat =
          (Ty.paramWordsOf p.type p.byRef).toNatClampNeg + (Ty.parameterWords params).toNat := by
        have hcons : Ty.parameterWords (p :: params) =
          (Ty.paramWordsOf p.type p.byRef).toInt + Ty.parameterWords params := rfl
        rw [hcons, toNatClampNeg_eq]
        omega
      rwa [hsum]

mutual

/-- The code of a typed expression adds the words of its type, and that of a typed designator one
word for its address. -/
theorem moves_exprCode (hs : Surroundings natives scopes) :
    ∀ e : Expr, e.Typed natives scopes → Lowers natives scopes e
  | .missing, _ => by
    refine lowers_of_word ?_ (fun t ht => by cases ht) (by simp only [exprCode])
    simp only [exprCode]
    exact turns_refused 0 1
  | .ident pos id, h => by
    refine ⟨fun t ht _ => ?_, ?_⟩
    · obtain rfl := Option.some.inj ht
      rw [exprCode_ident_value]
      exact fun hitems s =>
        moves_identValueCode (by simpa only [Expr.Typed] using h) hitems.sensible s
    · rw [exprCode_ident_address]
      exact fun _ s => moves_identAddressCode id s
  | .index pos base indices, h => by
    simp only [Expr.Typed] at h
    have hbase := (moves_exprCode hs base h.1).address
    have hindices := turns_indicesCode hs indices h.2
    cases hd : dimensions? base indices.length with
    | none =>
      have hrefused : Turns natives scopes.Calls 0 [.refused] 1 := turns_refused 0 1
      refine lowers_of_access hrefused ?_ ?_ <;>
        simp only [exprCode, hd]
    | some dimensions =>
      refine lowers_of_access (hbase.append (hindices dimensions)) ?_ ?_ <;>
        simp only [exprCode, hd]
  | .field pos base f, h => by
    simp only [Expr.Typed] at h
    have hoffset : Turns natives scopes.Calls 1
        [.const .integer (.ofInt f.offset), .op .adi 0 0] 1 :=
      ((turns_const .integer (.ofInt f.offset)).over 1).append (turns_op (o := .adi) rfl 0 0)
    refine lowers_of_access ((moves_exprCode hs base h).address.append hoffset) ?_ ?_ <;>
      simp only [exprCode]
  | .deref pos base, h => by
    simp only [Expr.Typed] at h
    refine lowers_of_access ((moves_exprCode hs base h.2).oneWord h.1) ?_ ?_ <;>
      simp only [exprCode]
  | .number pos x, _ => by
    refine lowers_of_word ?_ ?_ (by simp only [exprCode])
    · simp only [exprCode, numberCode]
      split <;> exact turns_const _ _
    · intro t ht _ _
      simp only [Expr.type?] at ht
      split at ht <;> (obtain rfl := Option.some.inj ht; rfl)
  | .string pos text, _ => by
    refine lowers_of_word ?_ ?_ (by simp only [exprCode])
    · simp only [exprCode]
      exact turns_const _ _
    · rintro t ht _ _
      obtain rfl := Option.some.inj ht
      rfl
  | .char pos code, _ => by
    refine lowers_of_word ?_ ?_ (by simp only [exprCode])
    · simp only [exprCode]
      exact turns_op (o := .ldc) rfl _ _
    · rintro t ht _ _
      obtain rfl := Option.some.inj ht
      rfl
  | .bool pos b, _ => by
    refine lowers_of_word ?_ ?_ (by simp only [exprCode])
    · simp only [exprCode]
      exact turns_op (o := .ldc) rfl _ _
    · rintro t ht _ _
      obtain rfl := Option.some.inj ht
      rfl
  | .nil pos, _ => by
    refine lowers_of_word ?_ ?_ (by simp only [exprCode])
    · simp only [exprCode]
      exact turns_const _ _
    · rintro t ht _ _
      obtain rfl := Option.some.inj ht
      rfl
  | .addressOf pos base, h => by
    simp only [Expr.Typed] at h
    refine lowers_of_word ?_ ?_ (by simp only [exprCode])
    · simp only [exprCode]
      exact (moves_exprCode hs base h).address
    · intro t ht _ _
      obtain ⟨t', -, ht⟩ := Option.bind_eq_some_iff.mp ht
      obtain ⟨text, -, rfl⟩ := Option.map_eq_some_iff.mp ht
      rfl
  | .unary pos op operand, h => by
    simp only [Expr.Typed] at h
    have hoperand := (moves_exprCode hs operand h.2).oneWord h.1
    obtain ⟨t', ht', hsize, -⟩ := h.1
    refine lowers_of_word ?_ ?_ (by simp only [exprCode])
    · simp only [exprCode]
      exact hoperand.append fun hitems s => moves_unaryCode hitems.sensible s
    · intro t ht _ _
      cases op <;> simp only [Expr.type?, ht', Option.some.injEq] at ht <;> subst ht <;>
        first | exact hsize | rfl
  | .binary pos op left right type, h => by
    simp only [Expr.Typed] at h
    have hleft := (moves_exprCode hs left h.1.2).oneWord h.1.1
    have hright := (moves_exprCode hs right h.2.1.2).oneWord h.2.1.1
    refine lowers_of_word ?_ ?_ (by simp only [exprCode])
    · simp only [exprCode]
      exact (hleft.append (hright.over 1)).append fun hitems s => moves_binaryCode hitems.sensible s
    · intro t ht _ _
      obtain rfl := Option.some.inj ht
      exact h.2.2
  | .cast pos operand target, h => by
    simp only [Expr.Typed] at h
    have hoperand := (moves_exprCode hs operand h.2).oneWord h.1
    refine lowers_of_word ?_ ?_ (by simp only [exprCode])
    · simp only [exprCode]
      exact hoperand.append fun hitems s => moves_castCode hitems.sensible (.word :: s)
    · intro t ht _ hitems
      obtain rfl := Option.some.inj ht
      simp only [exprCode] at hitems
      exact size_cast hitems.split.2.sensible
  | .call pos callee args, h => by
    simp only [Expr.Typed] at h
    have hcall := turns_invokeCode hs h.1 (passes_argsCode hs args h.2)
    refine ⟨fun t ht hvoid => ?_, ?_⟩
    · obtain rfl := Option.some.inj ht
      simp only [exprCode]
      rw [hvoid] at hcall
      intro hitems s
      rw [size_call hs h.1 hvoid hitems]
      exact hcall hitems s
    · simp only [exprCode]
      exact turns_refused 0 1

/-- Each index moves the address by one dimension. -/
theorem turns_indicesCode (hs : Surroundings natives scopes) :
    ∀ indices : List Expr, IndicesTyped natives scopes indices → ∀ dimensions : List Dimension,
      Turns natives scopes.Calls 1 (indicesCode dimensions indices) 1
  | [], _, dimensions => by
    cases dimensions <;> simp only [indicesCode] <;> exact fun _ s => moves_nil _
  | e :: rest, h, [] => by
    simp only [indicesCode]
    exact fun _ s => moves_nil _
  | e :: rest, h, d :: dimensions => by
    simp only [IndicesTyped] at h
    simp only [indicesCode]
    have hindex := ((moves_exprCode hs e h.1.2).oneWord h.1.1).over 1
    have hscale : Turns natives scopes.Calls 2 (scaleCode d) 1 := fun _ s => moves_scaleCode d s
    exact (hindex.append hscale).append (turns_indicesCode hs rest h.2 dimensions)

/-- The arguments push the words that a callee takes. -/
theorem passes_argsCode (hs : Surroundings natives scopes) :
    ∀ args : List Arg, ArgsTyped natives scopes args →
      Passes natives scopes args (argsCode args)
  | [], _ => by
    simp only [argsCode]
    refine ⟨fun _ _ s => moves_nil s, fun _ _ => Nat.le_refl _, fun params _ hmatch _ s => ?_⟩
    cases params with
    | nil => exact moves_nil s
    | cons p params => exact hmatch.elim
  | .mk e byRef :: rest, h => by
    simp only [ArgsTyped] at h
    have he := moves_exprCode hs e h.1
    have hrest := passes_argsCode hs rest h.2
    exact passes_cons he hrest

end

end

end Gen

end PCode
