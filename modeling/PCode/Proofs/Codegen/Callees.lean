import PCode.Proofs.Codegen.ExprShape
import PCode.Proofs.Codegen.Linking

/-!
# What the code of a tree consists of

The code of an expression has no jumps, and calls exactly the subprograms that
the expression calls.  The code of a statement jumps only inside itself, apart
from its exit jumps.  Nothing here depends on the types in the tree.

Main definitions and results:

- `Expr.callees`, `Stmt.callees`: the subprograms that a tree calls.
- `Item.Straight`, `Item.Inner`: the items of an expression, and of a body.
- `Gen.straight_exprCode`, `Gen.inner_stmtCode`: all items of a tree are of these kinds.
- `Gen.calls_exprCode`, `Gen.calls_stmtCode`: every call of a tree is an item, or one is refused.
- `Gen.within_stmtCode`: jumps stay inside.
-/

namespace PCode

open Gen

/-! ## The calls of a tree -/

namespace Ident

/-- The subprogram that a call of an identifier calls; a native procedure is none. -/
def callees (callee : Ident) : List Symbol :=
  if callee.symbol.kind = .native then [] else [callee.symbol]

end Ident

mutual

/-- The subprograms that an expression calls. -/
def Expr.callees : Expr → List Symbol
  | .index _ base indices => base.callees ++ Expr.calleesOfAll indices
  | .field _ base _ | .deref _ base | .addressOf _ base => base.callees
  | .unary _ _ operand | .cast _ operand _ => operand.callees
  | .binary _ _ left right _ => left.callees ++ right.callees
  | .call _ callee args => callee.callees ++ Expr.calleesOfArgs args
  | _ => []

/-- The subprograms that expressions call. -/
def Expr.calleesOfAll : List Expr → List Symbol
  | [] => []
  | e :: rest => e.callees ++ Expr.calleesOfAll rest

/-- The subprograms that arguments call. -/
def Expr.calleesOfArgs : List Arg → List Symbol
  | [] => []
  | .mk e _ :: rest => e.callees ++ Expr.calleesOfArgs rest

end

mutual

/-- The subprograms that a statement calls. -/
def Stmt.callees : Stmt → List Symbol
  | .assign _ target value => target.callees ++ value.callees
  | .call _ callee args => callee.callees ++ Expr.calleesOfArgs args
  | .block _ body => Stmt.calleesOfAll body
  | .cond _ test yes no => test.callees ++ yes.callees ++ no.callees
  | .whileDo _ test body => test.callees ++ body.callees
  | .repeatUntil _ body test => Stmt.calleesOfAll body ++ test.callees
  | .forTo _ _ first last _ body => first.callees ++ last.callees ++ body.callees
  | .missing | .exit _ => []

/-- The subprograms that statements call. -/
def Stmt.calleesOfAll : List Stmt → List Symbol
  | [] => []
  | s :: rest => s.callees ++ Stmt.calleesOfAll rest

end

/-- The subprograms that the body of a subprogram calls. -/
def SubprogramHeader.callees (h : SubprogramHeader) : List Symbol := Stmt.calleesOfAll h.body

/-! ## Kinds of items -/

namespace Item

/-- An item that neither jumps nor returns, and calls only given subprograms.  Constants that do
not come from the pool are truth values and characters. -/
def Straight (callees : List Symbol) : Item → Prop
  | op o x _ => (o.arity?.isSome ∨ o = .mst ∨ o = .csp) ∧
      (o = .ldc → x = operandOfCode TypeCode.boolean.byte ∨ x = operandOfCode TypeCode.char.byte)
  | call _ sym => sym ∈ callees
  | const .. | refused => True
  | jump .. | leave => False

/-- An item of the body of a subprogram that calls only given subprograms. -/
def Inner (callees : List Symbol) : Item → Prop
  | jump o _ => o = .ujp ∨ o = .fjp ∨ o = .tjp
  | leave => True
  | it => it.Straight callees

variable {callees callees' : List Symbol}

private theorem Straight.mono {it : Item} (h : it.Straight callees) (hsub : callees ⊆ callees') :
    it.Straight callees' := by
  cases it with
  | call words sym => exact hsub h
  | _ => exact h

private theorem Straight.inner {it : Item} (h : it.Straight callees) : it.Inner callees := by
  cases it with
  | jump | leave => exact h.elim
  | _ => exact h

private theorem Inner.mono {it : Item} (h : it.Inner callees) (hsub : callees ⊆ callees') :
    it.Inner callees' := by
  cases it with
  | jump | leave => exact h
  | call words sym => exact hsub h
  | _ => exact h

/-- An instruction on operands other than the load of a constant. -/
theorem straight_op {o : Opcode} (h : o.arity?.isSome) (hldc : o ≠ .ldc) (x y : Int64) :
    (op o x y).Straight callees :=
  ⟨.inl h, fun heq => absurd heq hldc⟩

end Item

namespace Gen

section

variable {callees callees' : List Symbol}

/-- Items that neither jump nor return, and call only given subprograms. -/
def AllStraight (callees : List Symbol) (items : List Item) : Prop :=
  ∀ it ∈ items, it.Straight callees

/-- Items of a body that calls only given subprograms. -/
def AllInner (callees : List Symbol) (items : List Item) : Prop :=
  ∀ it ∈ items, it.Inner callees

/-- Empty code is straight. -/
@[simp]
theorem allStraight_nil : AllStraight callees [] := nofun

/-- Code is straight item by item. -/
@[simp]
theorem allStraight_cons {it : Item} {items : List Item} :
    AllStraight callees (it :: items) ↔ it.Straight callees ∧ AllStraight callees items :=
  List.forall_mem_cons

/-- Empty code is that of a body. -/
@[simp]
theorem allInner_nil : AllInner callees [] := nofun

/-- Code is that of a body item by item. -/
@[simp]
theorem allInner_cons {it : Item} {items : List Item} :
    AllInner callees (it :: items) ↔ it.Inner callees ∧ AllInner callees items :=
  List.forall_mem_cons

private theorem AllStraight.mono {items : List Item} (h : AllStraight callees items)
    (hsub : callees ⊆ callees') : AllStraight callees' items :=
  fun it hit => (h it hit).mono hsub

private theorem AllInner.mono {items : List Item} (h : AllInner callees items)
    (hsub : callees ⊆ callees') : AllInner callees' items :=
  fun it hit => (h it hit).mono hsub

/-- Straight code is that of a body. -/
theorem AllStraight.inner {items : List Item} (h : AllStraight callees items) :
    AllInner callees items :=
  fun it hit => (h it hit).inner

private theorem AllStraight.append {is js : List Item} (h₁ : AllStraight callees is)
    (h₂ : AllStraight callees' js) : AllStraight (callees ++ callees') (is ++ js) :=
  List.forall_mem_append.mpr
    ⟨h₁.mono (List.subset_append_left ..), h₂.mono (List.subset_append_right ..)⟩

/-- The callees of two pieces of code are those of both together. -/
theorem AllInner.append {is js : List Item} (h₁ : AllInner callees is)
    (h₂ : AllInner callees' js) : AllInner (callees ++ callees') (is ++ js) :=
  List.forall_mem_append.mpr
    ⟨h₁.mono (List.subset_append_left ..), h₂.mono (List.subset_append_right ..)⟩

/-- Code after that of a tree that calls nothing itself. -/
theorem AllStraight.followed {is js : List Item} (h₁ : AllStraight callees is)
    (h₂ : AllStraight [] js) : AllStraight callees (is ++ js) := by
  simpa using h₁.append h₂

end

/-! ## Expressions -/

/-- What cannot be lowered calls nothing. -/
theorem straight_refused : AllStraight [] [.refused] := by
  simp [Item.Straight]

private theorem straight_wordsByRefCode (id : Ident) (i : Nat) (codes : List UInt8) :
    AllStraight [] (wordsByRefCode id i codes) := by
  induction codes generalizing i with
  | nil => simp [wordsByRefCode]
  | cons code rest ih =>
    refine AllStraight.followed ?_ (ih (i + 1))
    unfold wordByRefCode
    split <;> simp [Item.Straight, Opcode.arity?]

private theorem straight_wordsDirectCode (id : Ident) (i count : Nat) :
    AllStraight [] (wordsDirectCode id i count) := by
  induction count generalizing i with
  | zero => simp [wordsDirectCode]
  | succ count ih =>
    exact allStraight_cons.mpr ⟨by simp [Item.Straight, Opcode.arity?], ih (i + 1)⟩

private theorem straight_identAddressCode (id : Ident) : AllStraight [] (identAddressCode id) := by
  unfold identAddressCode
  split <;> simp [Item.Straight, Opcode.arity?]

private theorem straight_identValueCode (id : Ident) : AllStraight [] (identValueCode id) := by
  unfold identValueCode
  split
  · exact straight_refused
  · split
    · split
      · simp [Item.Straight, Opcode.arity?]
      · split
        · exact straight_wordsByRefCode id 0 _
        · exact straight_refused
    · split
      · split
        · rename_i op hop
          have harity := arity_loadOpcode? hop
          refine List.forall_mem_singleton.mpr (Item.straight_op (by simp [harity]) ?_ _ _)
          rintro rfl
          unfold loadOpcode? at hop
          split at hop <;> cases hop
        · exact straight_refused
      · split
        · exact straight_wordsDirectCode id 0 _
        · exact straight_refused

private theorem straight_binaryCode (op : BinaryOp) (left : Expr) (type : Ty) :
    AllStraight [] (binaryCode op left type) := by
  have hop {o : Opcode} (h : o.arity? = some (2, 1)) (x y : Int64) :
      AllStraight [] [.op o x y] := by
    refine List.forall_mem_singleton.mpr (Item.straight_op (by simp [h]) ?_ _ _)
    rintro rfl
    cases h
  unfold binaryCode
  split
  · rename_i a ha
    split
    · rename_i o comment ho
      exact hop (arity_arithmetic? ha ho) _ _
    · exact straight_refused
  · split
    · rename_i o code ho hcode
      exact hop (arity_logical? ho) _ _
    · exact straight_refused

private theorem straight_unaryCode (op : UnaryOp) (operand : Expr) :
    AllStraight [] (unaryCode op operand) := by
  cases op with
  | neg =>
    simp only [unaryCode]
    split <;> simp [Item.Straight, Opcode.arity?]
  | _ => simp [unaryCode, Item.Straight, Opcode.arity?]

private theorem straight_castCode (operand : Expr) (target : Ty) :
    AllStraight [] (castCode operand target) := by
  unfold castCode
  simp only
  split
  · simp [Item.Straight, Opcode.arity?]
  · split <;> simp [Item.Straight]

private theorem straight_loadCode (e : Expr) : AllStraight [] (loadCode e) := by
  unfold loadCode
  split <;> simp [Item.Straight, Opcode.arity?]

private theorem straight_accessCode (mode : Mode) (e : Expr) :
    AllStraight [] (accessCode mode e) := by
  cases mode with
  | value => exact straight_loadCode e
  | address => simp [accessCode]

private theorem straight_numberCode (x : Float) : AllStraight [] (numberCode x) := by
  unfold numberCode
  split <;> simp [Item.Straight]

private theorem straight_scaleCode (d : Dimension) : AllStraight [] (scaleCode d) := by
  simp [scaleCode, Item.Straight, Opcode.arity?]

/-- The code of a call consists of that of its arguments and calls what it names. -/
theorem straight_invokeCode {callees : List Symbol} (callee : Ident) (args : List Arg)
    {arguments : List Item} (h : AllStraight callees arguments) :
    AllStraight (callee.callees ++ callees) (invokeCode callee args arguments) := by
  have harguments : AllStraight (callee.callees ++ callees) arguments :=
    h.mono (List.subset_append_right ..)
  have hrefused : AllStraight (callee.callees ++ callees) [.refused] :=
    straight_refused.mono (List.nil_subset _)
  unfold invokeCode
  cases htype : callee.symbol.type with
  | subprogram params result =>
    cases hkind : callee.symbol.kind with
    | native =>
      refine List.forall_mem_append.mpr ⟨harguments, ?_⟩
      simp [Item.Straight]
    | subprogram =>
      refine allStraight_cons.mpr ⟨by simp [Item.Straight], ?_⟩
      refine List.forall_mem_append.mpr ⟨harguments, ?_⟩
      split
      · simp [Item.Straight, Ident.callees, hkind]
      · exact hrefused
    | _ => exact hrefused
  | _ => exact hrefused

mutual

/-- The code of an expression is straight, and calls only what the expression calls. -/
theorem straight_exprCode : ∀ (e : Expr) (mode : Mode),
    AllStraight e.callees (exprCode mode e)
  | .missing, mode => by
    simp only [exprCode, Expr.callees]
    exact straight_refused
  | .ident _ id, mode => by
    simp only [exprCode, Expr.callees]
    cases mode with
    | value => exact straight_identValueCode id
    | address => exact straight_identAddressCode id
  | .index pos base indices, mode => by
    simp only [exprCode, Expr.callees]
    refine AllStraight.followed ?_ (straight_accessCode mode _)
    split
    · exact (straight_exprCode base .address).append (straight_indicesCode _ indices)
    · exact straight_refused.mono (List.nil_subset _)
  | .field pos base f, mode => by
    simp only [exprCode, Expr.callees]
    refine AllStraight.followed ?_ (straight_accessCode mode _)
    exact (straight_exprCode base .address).followed (by simp [Item.Straight, Opcode.arity?])
  | .deref pos base, mode => by
    simp only [exprCode, Expr.callees]
    exact (straight_exprCode base .value).followed (straight_accessCode mode _)
  | .number _ x, mode => by
    simp only [exprCode, Expr.callees]
    cases mode with
    | value => exact straight_numberCode x
    | address => exact straight_refused
  | .string .., mode | .nil _, mode => by
    simp only [exprCode, Expr.callees]
    cases mode <;> simp [Item.Straight]
  | .char _ code, mode => by
    simp only [exprCode, Expr.callees]
    cases mode <;> simp [charCode, Item.Straight, Opcode.arity?]
  | .bool _ b, mode => by
    simp only [exprCode, Expr.callees]
    cases mode <;> simp [boolCode, Item.Straight, Opcode.arity?]
  | .addressOf _ base, mode => by
    simp only [exprCode, Expr.callees]
    cases mode with
    | value => exact straight_exprCode base .address
    | address => exact straight_refused.mono (List.nil_subset _)
  | .unary _ op operand, mode => by
    simp only [exprCode, Expr.callees]
    cases mode with
    | value => exact (straight_exprCode operand .value).followed (straight_unaryCode op operand)
    | address => exact straight_refused.mono (List.nil_subset _)
  | .binary _ op left right type, mode => by
    simp only [exprCode, Expr.callees]
    cases mode with
    | value =>
      exact ((straight_exprCode left .value).append (straight_exprCode right .value)).followed
        (straight_binaryCode op left type)
    | address => exact straight_refused.mono (List.nil_subset _)
  | .cast _ operand target, mode => by
    simp only [exprCode, Expr.callees]
    cases mode with
    | value => exact (straight_exprCode operand .value).followed (straight_castCode operand target)
    | address => exact straight_refused.mono (List.nil_subset _)
  | .call _ callee args, mode => by
    simp only [exprCode, Expr.callees]
    cases mode with
    | value => exact straight_invokeCode callee args (straight_argsCode args)
    | address => exact straight_refused.mono (List.nil_subset _)

private theorem straight_indicesCode : ∀ (dimensions : List Dimension) (indices : List Expr),
    AllStraight (Expr.calleesOfAll indices) (indicesCode dimensions indices)
  | d :: dimensions, index :: indices => by
    simp only [indicesCode, Expr.calleesOfAll]
    exact ((straight_exprCode index .value).followed (straight_scaleCode d)).append
      (straight_indicesCode dimensions indices)
  | [], _ => by simp [indicesCode]
  | _ :: _, [] => by simp [indicesCode]

/-- The code of arguments has no jumps, and calls what the arguments call. -/
theorem straight_argsCode : ∀ args : List Arg,
    AllStraight (Expr.calleesOfArgs args) (argsCode args)
  | [] => by simp [argsCode]
  | .mk e byRef :: rest => by
    simp only [argsCode, Expr.calleesOfArgs]
    exact (straight_exprCode e _).append (straight_argsCode rest)

end

/-! ## Every call has its item -/

/-- A subprogram is called among items, unless one of them is refused. -/
def Calls (sym : Symbol) (items : List Item) : Prop :=
  .refused ∈ items ∨ ∃ words, Item.call words sym ∈ items

section

variable {sym : Symbol} {is js : List Item}

private theorem Calls.mono (h : Calls sym is) (hsub : is ⊆ js) : Calls sym js :=
  h.imp (fun hit => hsub hit) fun ⟨words, hit⟩ => ⟨words, hsub hit⟩

private theorem Calls.left (h : Calls sym is) (js : List Item) : Calls sym (is ++ js) :=
  h.mono (List.subset_append_left ..)

/-- A call stays one behind other code. -/
theorem Calls.right (is : List Item) (h : Calls sym js) : Calls sym (is ++ js) :=
  h.mono (List.subset_append_right ..)

private theorem calls_refused : Calls sym [.refused] :=
  .inl List.mem_cons_self

end

/-- The code of a call calls what it names and what its arguments call. -/
theorem calls_invokeCode {sym : Symbol} {callee : Ident} {args : List Arg} {callees : List Symbol}
    {arguments : List Item} (h : sym ∈ callee.callees ++ callees)
    (harguments : sym ∈ callees → Calls sym arguments) :
    Calls sym (invokeCode callee args arguments) := by
  unfold invokeCode
  cases htype : callee.symbol.type with
  | subprogram params result =>
    cases hkind : callee.symbol.kind with
    | native =>
      have hin : sym ∈ callees := by simpa [Ident.callees, hkind] using h
      exact (harguments hin).left _
    | subprogram =>
      refine Calls.right [_] ?_
      rcases List.mem_append.mp h with hnamed | hin
      · obtain rfl : sym = callee.symbol := by simpa [Ident.callees, hkind] using hnamed
        refine Calls.right _ ?_
        split
        · exact .inr ⟨_, List.mem_cons_self⟩
        · exact calls_refused
      · exact (harguments hin).left _
    | _ => exact calls_refused
  | _ => exact calls_refused

/-- An array has a dimension for each index. -/
theorem length_dimensions? {base : Expr} {count : Nat} {dimensions : List Dimension}
    (h : dimensions? base count = some dimensions) : count ≤ dimensions.length := by
  obtain ⟨ranges, elem, -, hcount, rfl⟩ := exists_array_of_dimensions? h
  rwa [length_dimensionsOf]

mutual

/-- Every call in an expression has its item. -/
theorem calls_exprCode : ∀ (e : Expr) (mode : Mode) {sym : Symbol},
    sym ∈ e.callees → Calls sym (exprCode mode e)
  | .index pos base indices, mode, sym, h => by
    simp only [Expr.callees, List.mem_append] at h
    simp only [exprCode]
    refine Calls.left ?_ _
    cases hdimensions : dimensions? base indices.length with
    | none => exact calls_refused
    | some dimensions =>
      rcases h with h | h
      · exact (calls_exprCode base .address h).left _
      · exact .right _ (calls_indicesCode dimensions indices (length_dimensions? hdimensions) h)
  | .field pos base f, mode, sym, h => by
    simp only [Expr.callees] at h
    simp only [exprCode]
    exact ((calls_exprCode base .address h).left _).left _
  | .deref pos base, mode, sym, h => by
    simp only [Expr.callees] at h
    simp only [exprCode]
    exact (calls_exprCode base .value h).left _
  | .addressOf _ base, mode, sym, h => by
    simp only [Expr.callees] at h
    simp only [exprCode]
    cases mode with
    | value => exact calls_exprCode base .address h
    | address => exact calls_refused
  | .unary _ op operand, mode, sym, h => by
    simp only [Expr.callees] at h
    simp only [exprCode]
    cases mode with
    | value => exact (calls_exprCode operand .value h).left _
    | address => exact calls_refused
  | .binary _ op left right type, mode, sym, h => by
    simp only [Expr.callees, List.mem_append] at h
    simp only [exprCode]
    cases mode with
    | value =>
      refine Calls.left ?_ _
      rcases h with h | h
      · exact (calls_exprCode left .value h).left _
      · exact .right _ (calls_exprCode right .value h)
    | address => exact calls_refused
  | .cast _ operand target, mode, sym, h => by
    simp only [Expr.callees] at h
    simp only [exprCode]
    cases mode with
    | value => exact (calls_exprCode operand .value h).left _
    | address => exact calls_refused
  | .call _ callee args, mode, sym, h => by
    simp only [Expr.callees] at h
    simp only [exprCode]
    cases mode with
    | value => exact calls_invokeCode h (calls_argsCode args)
    | address => exact calls_refused
  | .missing, _, sym, h | .ident .., _, sym, h | .number .., _, sym, h | .string .., _, sym, h
  | .char .., _, sym, h | .bool .., _, sym, h | .nil _, _, sym, h => by
    simp [Expr.callees] at h

private theorem calls_indicesCode :
    ∀ (dimensions : List Dimension) (indices : List Expr) {sym : Symbol},
    indices.length ≤ dimensions.length → sym ∈ Expr.calleesOfAll indices →
      Calls sym (indicesCode dimensions indices)
  | d :: dimensions, index :: indices, sym, hlength, h => by
    simp only [Expr.calleesOfAll, List.mem_append] at h
    simp only [indicesCode]
    rcases h with h | h
    · exact ((calls_exprCode index .value h).left _).left _
    · exact .right _ (calls_indicesCode dimensions indices (by simpa using hlength) h)
  | [], _ :: _, sym, hlength, h => by simp at hlength
  | _, [], sym, hlength, h => by simp [Expr.calleesOfAll] at h

private theorem calls_argsCode : ∀ (args : List Arg) {sym : Symbol},
    sym ∈ Expr.calleesOfArgs args → Calls sym (argsCode args)
  | [], sym, h => by simp [Expr.calleesOfArgs] at h
  | .mk e byRef :: rest, sym, h => by
    simp only [Expr.calleesOfArgs, List.mem_append] at h
    simp only [argsCode]
    rcases h with h | h
    · exact (calls_exprCode e _ h).left _
    · exact .right _ (calls_argsCode rest h)

end

/-! ## Statements -/

private theorem straight_setCounterCode {callees : List Symbol} (counter : Ident) (code : UInt8)
    {value : List Item} (h : AllStraight callees value) :
    AllStraight callees (setCounterCode counter code value) :=
  ((straight_identAddressCode counter).append h).followed (by simp [Item.Straight, Opcode.arity?])

private theorem straight_testCounterCode {callees : List Symbol} (counter : Ident) (code : UInt8)
    {last : List Item} (down : Bool) (h : AllStraight callees last) :
    AllStraight callees (testCounterCode counter code last down) := by
  refine ((straight_identValueCode counter).append h).followed ?_
  cases down <;> simp [Item.Straight, Opcode.arity?]

private theorem straight_stepCounterCode (counter : Ident) (code : UInt8) (down : Bool) :
    AllStraight [] (stepCounterCode counter code down) := by
  refine straight_setCounterCode counter code ((straight_identValueCode counter).followed ?_)
  cases down <;> simp [Item.Straight, Opcode.arity?]

/-- The code of a loop consists of that of its parts and jumps. -/
theorem inner_loopCode {callees callees' : List Symbol} {test body : List Item} {out : Opcode}
    (hout : out = .fjp ∨ out = .tjp) (htest : AllStraight callees test)
    (hbody : AllInner callees' body) : AllInner (callees ++ callees') (loopCode test out body) := by
  refine htest.inner.append (allInner_cons.mpr ⟨.inr hout, ?_⟩)
  refine List.forall_mem_append.mpr ⟨hbody, ?_⟩
  simp [Item.Inner]

mutual

/-- The code of a statement is code of a body that calls what the statement calls. -/
theorem inner_stmtCode : ∀ s : Stmt, AllInner s.callees (stmtCode s)
  | .missing => by simp [stmtCode]
  | .exit _ => by simp [stmtCode, Item.Inner]
  | .block _ body => by
    simp only [stmtCode, Stmt.callees]
    exact inner_stmtsCode body
  | .assign _ target value => by
    simp only [stmtCode, Stmt.callees]
    refine AllStraight.inner (AllStraight.followed ?_ ?_)
    · exact (straight_exprCode target .address).append (straight_exprCode value .value)
    · split <;> simp [Item.Straight, Opcode.arity?]
  | .call _ callee args => by
    simp only [stmtCode, Stmt.callees]
    have hcall : AllInner (callee.callees ++ Expr.calleesOfArgs args) (callCode callee args) :=
      (straight_invokeCode callee args (straight_argsCode args)).inner
    split
    · split
      · exact hcall
      · simp [Item.Inner, Item.Straight]
    · exact hcall
  | .cond _ test yes no => by
    simp only [stmtCode, Stmt.callees]
    have htest := (straight_exprCode test .value).inner
    have hyes := inner_stmtCode yes
    have hno := inner_stmtCode no
    split
    · refine AllInner.mono (htest.append (allInner_cons.mpr ⟨by simp [Item.Inner], hyes⟩)) ?_
      exact List.subset_append_left ..
    · rw [List.append_assoc]
      refine htest.append (allInner_cons.mpr ⟨by simp [Item.Inner], hyes.append ?_⟩)
      exact allInner_cons.mpr ⟨by simp [Item.Inner], hno⟩
  | .whileDo _ test body => by
    simp only [stmtCode, Stmt.callees]
    exact inner_loopCode (.inl rfl) (straight_exprCode test .value) (inner_stmtCode body)
  | .repeatUntil _ body test => by
    simp only [stmtCode, Stmt.callees]
    refine List.forall_mem_append.mpr ⟨?_, ?_⟩
    · exact (inner_stmtsCode body).append (straight_exprCode test .value).inner
    · simp [Item.Inner]
  | .forTo _ counter first last down body => by
    simp only [stmtCode, Stmt.callees]
    split
    · rename_i code hcode
      have hset := straight_setCounterCode counter code (straight_exprCode first .value)
      have htest := straight_testCounterCode counter code down (straight_exprCode last .value)
      have hbody : AllInner body.callees (stmtCode body ++ stepCounterCode counter code down) := by
        simpa using (inner_stmtCode body).append (straight_stepCounterCode counter code down).inner
      rw [List.append_assoc]
      exact hset.inner.append (inner_loopCode (.inr rfl) htest hbody)
    · simp [Item.Inner, Item.Straight]

/-- The code of statements calls what the statements call. -/
theorem inner_stmtsCode : ∀ body : List Stmt, AllInner (Stmt.calleesOfAll body) (stmtsCode body)
  | [] => by simp [stmtsCode]
  | s :: rest => by
    simp only [stmtsCode, Stmt.calleesOfAll]
    exact (inner_stmtCode s).append (inner_stmtsCode rest)

end

mutual

/-- Every call in a statement has its item. -/
theorem calls_stmtCode : ∀ (s : Stmt) {sym : Symbol}, sym ∈ s.callees → Calls sym (stmtCode s)
  | .missing, sym, h | .exit _, sym, h => by simp [Stmt.callees] at h
  | .block _ body, sym, h => by
    simp only [Stmt.callees] at h
    simp only [stmtCode]
    exact calls_stmtsCode body h
  | .assign _ target value, sym, h => by
    simp only [Stmt.callees, List.mem_append] at h
    simp only [stmtCode]
    refine Calls.left ?_ _
    rcases h with h | h
    · exact (calls_exprCode target .address h).left _
    · exact .right _ (calls_exprCode value .value h)
  | .call _ callee args, sym, h => by
    simp only [Stmt.callees] at h
    simp only [stmtCode]
    have hcall : Calls sym (callCode callee args) := calls_invokeCode h (calls_argsCode args)
    split
    · split
      · exact hcall
      · exact calls_refused
    · exact hcall
  | .cond _ test yes no, sym, h => by
    simp only [Stmt.callees, List.mem_append] at h
    simp only [stmtCode]
    rcases h with (h | h) | h
    · exact (calls_exprCode test .value h).mono (Segment.cond_test 0 _ _ _).subset
    · exact (calls_stmtCode yes h).mono (Segment.cond_yes 0 _ _ _).subset
    · cases no with
      | missing => simp [Stmt.callees] at h
      | _ =>
        refine Calls.right _ (Calls.right [_] (Calls.right _ (Calls.right [_] ?_)))
        exact calls_stmtCode _ h
  | .whileDo _ test body, sym, h => by
    simp only [Stmt.callees, List.mem_append] at h
    simp only [stmtCode, loopCode]
    rcases h with h | h
    · exact (calls_exprCode test .value h).left _
    · exact .right _ (.right [_] ((calls_stmtCode body h).left _))
  | .repeatUntil _ body test, sym, h => by
    simp only [Stmt.callees, List.mem_append] at h
    simp only [stmtCode]
    refine Calls.left ?_ _
    rcases h with h | h
    · exact (calls_stmtsCode body h).left _
    · exact .right _ (calls_exprCode test .value h)
  | .forTo _ counter first last down body, sym, h => by
    simp only [Stmt.callees, List.mem_append] at h
    simp only [stmtCode]
    split
    · rename_i code hcode
      rcases h with (h | h) | h
      · exact ((Calls.right _ (calls_exprCode first .value h)).left _).left _
      · exact .right _ (((Calls.right _ (calls_exprCode last .value h)).left _).left _)
      · exact .right _ (.right _ (.right [_] (((calls_stmtCode body h).left _).left _)))
    · exact calls_refused

/-- Every call in statements has its item. -/
theorem calls_stmtsCode : ∀ (body : List Stmt) {sym : Symbol},
    sym ∈ Stmt.calleesOfAll body → Calls sym (stmtsCode body)
  | [], sym, h => by simp [Stmt.calleesOfAll] at h
  | s :: rest, sym, h => by
    simp only [Stmt.calleesOfAll, List.mem_append] at h
    simp only [stmtsCode]
    rcases h with h | h
    · exact (calls_stmtCode s h).left _
    · exact .right _ (calls_stmtsCode rest h)

end

/-! ## Jumps -/

/-- Jumps among items lead at most so many items before the first and after the end. -/
def Within (before after : Nat) (items : List Item) : Prop :=
  ∀ (i : Nat) o d, items[i]? = some (.jump o d) →
    -(before : Int) ≤ i + d ∧ i + d ≤ items.length + after

section

variable {before after : Nat} {is js : List Item}

/-- Code without jumps stays in itself. -/
theorem AllStraight.within {callees : List Symbol} (h : AllStraight callees is) :
    Within before after is := by
  intro i o d hit
  exact absurd (h _ (List.mem_of_getElem? hit)) id

private theorem within_nil : Within before after [] := nofun

/-- Code that stays in itself does so among other code. -/
theorem Within.mono (h : Within 0 0 is) (before after : Nat) : Within before after is := by
  intro i o d hit
  have := h i o d hit
  omega

private theorem within_jump {o : Opcode} {d : Int} (hlow : -(before : Int) ≤ d)
    (hhigh : d ≤ after + 1) :
    Within before after [.jump o d] := by
  intro i o' d' hit
  obtain ⟨hlt, hjump⟩ := List.getElem?_eq_some_iff.mp hit
  obtain rfl : i = 0 := by simpa using hlt
  obtain ⟨-, rfl⟩ := Item.jump.inj hjump
  simp only [List.length_cons, List.length_nil]
  omega

/-- Two pieces of code stay in the whole if each stays in what is around it. -/
theorem Within.append (h₁ : Within before (js.length + after) is)
    (h₂ : Within (is.length + before) after js) : Within before after (is ++ js) := by
  intro i o d hit
  rw [List.length_append]
  rcases Nat.lt_or_ge i is.length with hlt | hge
  · rw [List.getElem?_append_left hlt] at hit
    have := h₁ i o d hit
    omega
  · rw [List.getElem?_append_right hge] at hit
    have := h₂ _ o d hit
    omega

/-- Code that starts with a jump. -/
theorem Within.cons {o : Opcode} {d : Int} (hlow : -(before : Int) ≤ d)
    (hhigh : d ≤ is.length + after + 1) (h : Within (before + 1) after is) :
    Within before after (.jump o d :: is) := by
  have hjump : Within before (is.length + after) [.jump o d] := within_jump hlow (by omega)
  refine hjump.append ?_
  rwa [List.length_singleton, Nat.add_comm]

end

private theorem within_condCode {callees : List Symbol} {test yes : List Item}
    {no : Option (List Item)} (htest : AllStraight callees test) (hyes : Within 0 0 yes)
    (hno : ∀ items, no = some items → Within 0 0 items) : Within 0 0 (condCode test yes no) := by
  cases no with
  | none => exact htest.within.append (.cons (by omega) (by omega) (hyes.mono _ _))
  | some no =>
    refine htest.within.append
      (.cons (by omega) (by simp; omega) (Within.append (hyes.mono _ _) ?_))
    exact .cons (by omega) (by omega) ((hno no rfl).mono _ _)

private theorem within_loopCode {callees : List Symbol} {test body : List Item} {out : Opcode}
    (htest : AllStraight callees test) (hbody : Within 0 0 body) :
    Within 0 0 (loopCode test out body) := by
  refine htest.within.append (.cons (by omega) (by simp; omega) (Within.append (hbody.mono _ _) ?_))
  exact within_jump (by omega) (by omega)

mutual

/-- Jumps in the code of a statement stay inside. -/
theorem within_stmtCode : ∀ s : Stmt, Within 0 0 (stmtCode s)
  | .missing => by
    simp only [stmtCode]
    exact within_nil
  | .exit _ => by
    simp only [stmtCode]
    intro i o d hit
    exact absurd (List.mem_of_getElem? hit) (by simp)
  | .block _ body => by
    simp only [stmtCode]
    exact within_stmtsCode body
  | .assign _ target value => by
    simp only [stmtCode]
    have hboth := (straight_exprCode target .address).append (straight_exprCode value .value)
    refine (hboth.followed ?_).within
    split <;> simp [Item.Straight, Opcode.arity?]
  | .call _ callee args => by
    simp only [stmtCode]
    have hcall := straight_invokeCode callee args (straight_argsCode args)
    split
    · split
      · exact hcall.within
      · exact straight_refused.within
    · exact hcall.within
  | .cond _ test yes no => by
    simp only [stmtCode]
    refine within_condCode (straight_exprCode test .value) (within_stmtCode yes)
      fun items hitems => ?_
    split at hitems
    · cases hitems
    · obtain rfl := Option.some.inj hitems
      exact within_stmtCode no
  | .whileDo _ test body => by
    simp only [stmtCode]
    exact within_loopCode (straight_exprCode test .value) (within_stmtCode body)
  | .repeatUntil _ body test => by
    simp only [stmtCode]
    refine Within.append (Within.append ((within_stmtsCode body).mono _ _) ?_) ?_
    · exact (straight_exprCode test .value).within
    · exact within_jump (by simp) (by omega)
  | .forTo _ counter first last down body => by
    simp only [stmtCode]
    split
    · rename_i code hcode
      have hset := straight_setCounterCode counter code (straight_exprCode first .value)
      have htest := straight_testCounterCode counter code down (straight_exprCode last .value)
      have hbody : Within 0 0 (stmtCode body ++ stepCounterCode counter code down) :=
        ((within_stmtCode body).mono _ _).append (straight_stepCounterCode counter code down).within
      exact hset.within.append ((within_loopCode htest hbody).mono _ _)
    · exact straight_refused.within

/-- The jumps of statements stay in their code, apart from their exit jumps. -/
theorem within_stmtsCode : ∀ body : List Stmt, Within 0 0 (stmtsCode body)
  | [] => by
    simp only [stmtsCode]
    exact within_nil
  | s :: rest => by
    simp only [stmtsCode]
    exact ((within_stmtCode s).mono _ _).append ((within_stmtsCode rest).mono _ _)

end

end Gen

end PCode
