import PCode.Proofs.Codegen.Blocks

/-!
# Where the parts of a program stand

Every expression and every statement of a program with the address of its code:
the code of a part is a part of the code of the whole, so an address can be
given to each by counting the items before it.

Main definitions and results:

- `Block.expressions`, `Block.statements`: the parts of a block with their addresses.
- `codeAt_expression`, `codeAt_statement`: the code of a part stands at its address.
-/

namespace PCode

open Gen

/-- An expression of which code is made, with the address of the code. -/
structure Piece where
  address : Nat
  mode : Mode
  expr : Expr

namespace Gen

/-! ## Expressions -/

/-- Whether code is made for a call. -/
def callable (callee : Ident) : Bool :=
  match callee.symbol.type with
  | .subprogram .. => callee.symbol.kind == .native || callee.symbol.kind == .subprogram
  | _ => false

/-- The number of instructions of a call before its arguments. -/
def markLength (callee : Ident) : Nat := if callee.symbol.kind = .native then 0 else 1

mutual

/-- The parts of an expression whose code stands at an address, itself included. -/
def exprPieces (a : Nat) (mode : Mode) : Expr → List Piece
  | .index pos base indices =>
    ⟨a, mode, .index pos base indices⟩ ::
      match dimensions? base indices.length with
      | some dimensions =>
        exprPieces a .address base ++
          indicesPieces (a + (exprCode .address base).length) dimensions indices
      | none => []
  | .field pos base f => ⟨a, mode, .field pos base f⟩ :: exprPieces a .address base
  | .deref pos base => ⟨a, mode, .deref pos base⟩ :: exprPieces a .value base
  | .addressOf pos base =>
    ⟨a, mode, .addressOf pos base⟩ ::
      match mode with
      | .value => exprPieces a .address base
      | .address => []
  | .unary pos op operand =>
    ⟨a, mode, .unary pos op operand⟩ ::
      match mode with
      | .value => exprPieces a .value operand
      | .address => []
  | .binary pos op left right type =>
    ⟨a, mode, .binary pos op left right type⟩ ::
      match mode with
      | .value =>
        exprPieces a .value left ++ exprPieces (a + (exprCode .value left).length) .value right
      | .address => []
  | .cast pos operand target =>
    ⟨a, mode, .cast pos operand target⟩ ::
      match mode with
      | .value => exprPieces a .value operand
      | .address => []
  | .call pos callee args =>
    ⟨a, mode, .call pos callee args⟩ ::
      match mode with
      | .value => if callable callee then argsPieces (a + markLength callee) args else []
      | .address => []
  | e => [⟨a, mode, e⟩]

/-- The parts of indices whose code stands at an address. -/
def indicesPieces (a : Nat) : List Dimension → List Expr → List Piece
  | d :: dimensions, index :: indices =>
    exprPieces a .value index ++
      indicesPieces (a + (exprCode .value index ++ scaleCode d).length) dimensions indices
  | _, _ => []

/-- The parts of arguments whose code stands at an address. -/
def argsPieces (a : Nat) : List Arg → List Piece
  | [] => []
  | .mk e byRef :: rest =>
    let mode : Mode := if byRef then .address else .value
    exprPieces a mode e ++ argsPieces (a + (exprCode mode e).length) rest

end

/-- The parts of a call whose code stands at an address. -/
def callPieces (a : Nat) (callee : Ident) (args : List Arg) : List Piece :=
  if callable callee then argsPieces (a + markLength callee) args else []

end Gen

section

variable {code : Array Word} {k : Linking}

/-- The code of the arguments is a part of the code of a call. -/
theorem codeAt_arguments {callee : Ident} {args : List Arg} {arguments : List Item} {a : Nat}
    (hcallable : callable callee = true)
    (hcode : CodeAt code k a (invokeCode callee args arguments)) :
    CodeAt code k (a + markLength callee) arguments := by
  unfold callable at hcallable
  unfold invokeCode at hcode
  unfold markLength
  cases htype : callee.symbol.type with
  | subprogram params result =>
    cases hkind : callee.symbol.kind with
    | native =>
      simp only [htype, hkind, codeAt_append] at hcode
      exact hcode.1
    | subprogram =>
      simp only [htype, hkind, codeAt_cons, codeAt_append] at hcode
      exact hcode.2.1
    | _ => simp [htype, hkind] at hcallable
  | _ => simp [htype] at hcallable

mutual

/-- The code of a part of an expression is a part of its code. -/
theorem codeAt_exprPieces : ∀ (e : Expr) {a : Nat} {mode : Mode} {p : Piece},
    p ∈ exprPieces a mode e → CodeAt code k a (exprCode mode e) →
      CodeAt code k p.address (exprCode p.mode p.expr)
  | .index pos base indices, a, mode, p, hp, hcode => by
    simp only [exprPieces, List.mem_cons] at hp
    rcases hp with rfl | hp
    · exact hcode
    · simp only [exprCode] at hcode
      cases hdim : dimensions? base indices.length with
      | none => simp [hdim] at hp
      | some dimensions =>
        simp only [hdim, List.mem_append] at hp hcode
        obtain ⟨hboth, -⟩ := codeAt_append.mp hcode
        obtain ⟨hbase, hindices⟩ := codeAt_append.mp hboth
        rcases hp with hp | hp
        · exact codeAt_exprPieces base hp hbase
        · exact codeAt_indicesPieces dimensions indices hp hindices
  | .field pos base f, a, mode, p, hp, hcode => by
    simp only [exprPieces, List.mem_cons] at hp
    rcases hp with rfl | hp
    · exact hcode
    · simp only [exprCode, codeAt_append] at hcode
      exact codeAt_exprPieces base hp hcode.1.1
  | .deref pos base, a, mode, p, hp, hcode => by
    simp only [exprPieces, List.mem_cons] at hp
    rcases hp with rfl | hp
    · exact hcode
    · simp only [exprCode, codeAt_append] at hcode
      exact codeAt_exprPieces base hp hcode.1
  | .addressOf pos base, a, mode, p, hp, hcode => by
    simp only [exprPieces, List.mem_cons] at hp
    rcases hp with rfl | hp
    · exact hcode
    · cases mode with
      | address => simp at hp
      | value =>
        simp only [exprCode] at hcode
        exact codeAt_exprPieces base hp hcode
  | .unary pos op operand, a, mode, p, hp, hcode => by
    simp only [exprPieces, List.mem_cons] at hp
    rcases hp with rfl | hp
    · exact hcode
    · cases mode with
      | address => simp at hp
      | value =>
        simp only [exprCode, codeAt_append] at hcode
        exact codeAt_exprPieces operand hp hcode.1
  | .binary pos op left right type, a, mode, p, hp, hcode => by
    simp only [exprPieces, List.mem_cons] at hp
    rcases hp with rfl | hp
    · exact hcode
    · cases mode with
      | address => simp at hp
      | value =>
        simp only [exprCode, codeAt_append] at hcode
        rcases List.mem_append.mp hp with hp | hp
        · exact codeAt_exprPieces left hp hcode.1.1
        · exact codeAt_exprPieces right hp hcode.1.2
  | .cast pos operand target, a, mode, p, hp, hcode => by
    simp only [exprPieces, List.mem_cons] at hp
    rcases hp with rfl | hp
    · exact hcode
    · cases mode with
      | address => simp at hp
      | value =>
        simp only [exprCode, codeAt_append] at hcode
        exact codeAt_exprPieces operand hp hcode.1
  | .call pos callee args, a, mode, p, hp, hcode => by
    simp only [exprPieces, List.mem_cons] at hp
    rcases hp with rfl | hp
    · exact hcode
    · cases mode with
      | address => simp at hp
      | value =>
        simp only [exprCode] at hcode
        cases hcall : callable callee with
        | false => simp [hcall] at hp
        | true =>
          simp only [hcall, if_true] at hp
          exact codeAt_argsPieces args hp (codeAt_arguments hcall hcode)
  | .missing, a, mode, p, hp, hcode | .number .., a, mode, p, hp, hcode
  | .string .., a, mode, p, hp, hcode | .char .., a, mode, p, hp, hcode
  | .bool .., a, mode, p, hp, hcode | .nil _, a, mode, p, hp, hcode
  | .ident .., a, mode, p, hp, hcode => by
    simp only [exprPieces, List.mem_singleton] at hp
    subst hp
    exact hcode

private theorem codeAt_indicesPieces :
    ∀ (dimensions : List Dimension) (indices : List Expr) {a : Nat}
    {p : Piece}, p ∈ indicesPieces a dimensions indices →
      CodeAt code k a (indicesCode dimensions indices) →
      CodeAt code k p.address (exprCode p.mode p.expr)
  | d :: dimensions, index :: indices, a, p, hp, hcode => by
    simp only [indicesPieces, List.mem_append] at hp
    simp only [indicesCode, codeAt_append] at hcode
    rcases hp with hp | hp
    · exact codeAt_exprPieces index hp hcode.1.1
    · exact codeAt_indicesPieces dimensions indices hp hcode.2
  | [], _, a, p, hp, hcode => by simp [indicesPieces] at hp
  | _ :: _, [], a, p, hp, hcode => by simp [indicesPieces] at hp

private theorem codeAt_argsPieces : ∀ (args : List Arg) {a : Nat} {p : Piece},
    p ∈ argsPieces a args → CodeAt code k a (argsCode args) →
      CodeAt code k p.address (exprCode p.mode p.expr)
  | [], a, p, hp, hcode => by simp [argsPieces] at hp
  | .mk e byRef :: rest, a, p, hp, hcode => by
    simp only [argsPieces, List.mem_append] at hp
    simp only [argsCode, codeAt_append] at hcode
    rcases hp with hp | hp
    · exact codeAt_exprPieces e hp hcode.1
    · exact codeAt_argsPieces rest hp hcode.2

end

private theorem codeAt_callPieces {callee : Ident} {args : List Arg} {a : Nat} {p : Piece}
    (hp : p ∈ callPieces a callee args) (hcode : CodeAt code k a (callCode callee args)) :
    CodeAt code k p.address (exprCode p.mode p.expr) := by
  unfold callPieces at hp
  split at hp
  · rename_i hcall
    exact codeAt_argsPieces args hp (codeAt_arguments hcall hcode)
  · simp at hp

end

/-! ## Statements -/

namespace Gen

mutual

/-- The statements in a statement whose code stands at an address, itself included. -/
def stmtPieces (a : Nat) : Stmt → List (Nat × Stmt)
  | .block pos body => (a, .block pos body) :: stmtsPieces a body
  | .cond pos test yes no =>
    (a, .cond pos test yes no) ::
      (stmtPieces (a + (exprCode .value test).length + 1) yes ++
        if no.isMissing then []
        else stmtPieces (a + (exprCode .value test).length + 1 + (stmtCode yes).length + 1) no)
  | .whileDo pos test body =>
    (a, .whileDo pos test body) :: stmtPieces (a + (exprCode .value test).length + 1) body
  | .repeatUntil pos body test => (a, .repeatUntil pos body test) :: stmtsPieces a body
  | .forTo pos counter first last down body =>
    (a, .forTo pos counter first last down body) ::
      match counter.symbol.type.code? with
      | some code =>
        stmtPieces (a + (setCounterCode counter code (exprCode .value first)).length +
          (testCounterCode counter code (exprCode .value last) down).length + 1) body
      | none => []
  | s => [(a, s)]

/-- The statements in statements whose code stands at an address. -/
def stmtsPieces (a : Nat) : List Stmt → List (Nat × Stmt)
  | [] => []
  | s :: rest => stmtPieces a s ++ stmtsPieces (a + (stmtCode s).length) rest

end

/-- The expressions of a statement itself, when its code stands at an address. -/
def ownPieces (a : Nat) : Stmt → List Piece
  | .assign _ target value =>
    exprPieces a .address target ++
      exprPieces (a + (exprCode .address target).length) .value value
  | .call _ callee args => callPieces a callee args
  | .cond _ test _ _ | .whileDo _ test _ => exprPieces a .value test
  | .repeatUntil _ body test => exprPieces (a + (stmtsCode body).length) .value test
  | .forTo _ counter first last down body =>
    match counter.symbol.type.code? with
    | some code =>
      let set := setCounterCode counter code (exprCode .value first)
      let test := testCounterCode counter code (exprCode .value last) down
      let step := a + set.length + test.length + 1 + (stmtCode body).length
      ⟨a, .address, .ident {} counter⟩ :: ⟨a + set.length, .value, .ident {} counter⟩ ::
        ⟨step, .address, .ident {} counter⟩ :: ⟨step + 1, .value, .ident {} counter⟩ ::
        (exprPieces (a + 1) .value first ++
          exprPieces (a + set.length + (identValueCode counter).length) .value last)
    | none => []
  | _ => []

end Gen

mutual

/-- The code of a statement in a statement is a part of its code. -/
theorem segment_stmtPieces : ∀ (s : Stmt) {a : Nat} {p : Nat × Stmt}, p ∈ stmtPieces a s →
    Segment a (stmtCode s) p.1 (stmtCode p.2)
  | .block pos body, a, p, hp => by
    simp only [stmtPieces, List.mem_cons] at hp
    rcases hp with rfl | hp
    · exact .refl ..
    · simp only [stmtCode]
      exact segment_stmtsPieces body hp
  | .cond pos test yes no, a, p, hp => by
    simp only [stmtPieces, List.mem_cons, List.mem_append] at hp
    rcases hp with rfl | hp | hp
    · exact .refl ..
    · simp only [stmtCode]
      exact (Segment.cond_yes ..).trans (segment_stmtPieces yes hp)
    · simp only [stmtCode]
      split at hp
      · simp at hp
      · rename_i hno
        simp only [hno]
        exact (Segment.cond_no ..).trans (segment_stmtPieces no hp)
  | .whileDo pos test body, a, p, hp => by
    simp only [stmtPieces, List.mem_cons] at hp
    rcases hp with rfl | hp
    · exact .refl ..
    · simp only [stmtCode]
      exact (Segment.loop_body ..).trans (segment_stmtPieces body hp)
  | .repeatUntil pos body test, a, p, hp => by
    simp only [stmtPieces, List.mem_cons] at hp
    rcases hp with rfl | hp
    · exact .refl ..
    · simp only [stmtCode, List.append_assoc]
      exact (Segment.left ..).trans (segment_stmtsPieces body hp)
  | .forTo pos counter first last down body, a, p, hp => by
    simp only [stmtPieces, List.mem_cons] at hp
    rcases hp with rfl | hp
    · exact .refl ..
    · simp only [stmtCode]
      cases hcode : counter.symbol.type.code? with
      | none => simp [hcode] at hp
      | some code =>
        simp only [hcode] at hp
        exact (Segment.right ..).trans ((Segment.loop_body ..).trans
          ((Segment.left ..).trans (segment_stmtPieces body hp)))
  | .missing, a, p, hp | .assign .., a, p, hp | .call .., a, p, hp | .exit _, a, p, hp => by
    simp only [stmtPieces, List.mem_singleton] at hp
    subst hp
    exact .refl ..

private theorem segment_stmtsPieces : ∀ (body : List Stmt) {a : Nat} {p : Nat × Stmt},
    p ∈ stmtsPieces a body → Segment a (stmtsCode body) p.1 (stmtCode p.2)
  | [], a, p, hp => by simp [stmtsPieces] at hp
  | s :: rest, a, p, hp => by
    simp only [stmtsPieces, List.mem_append] at hp
    simp only [stmtsCode]
    rcases hp with hp | hp
    · exact (Segment.left ..).trans (segment_stmtPieces s hp)
    · exact (Segment.right ..).trans (segment_stmtsPieces rest hp)

end

/-- The code of an expression of a statement is a part of the code of the statement. -/
theorem codeAt_ownPieces {code : Array Word} {k : Linking} {s : Stmt} {a : Nat} {p : Piece}
    (hp : p ∈ ownPieces a s) (hcode : CodeAt code k a (stmtCode s)) :
    CodeAt code k p.address (exprCode p.mode p.expr) := by
  cases s with
  | assign pos target value =>
    simp only [ownPieces, List.mem_append] at hp
    simp only [stmtCode, codeAt_append] at hcode
    rcases hp with hp | hp
    · exact codeAt_exprPieces target hp hcode.1.1
    · exact codeAt_exprPieces value hp hcode.1.2
  | call pos callee args =>
    simp only [ownPieces] at hp
    simp only [stmtCode] at hcode
    cases htype : callee.symbol.type with
    | subprogram params result =>
      simp only [htype] at hcode
      split at hcode
      · exact codeAt_callPieces hp hcode
      · exact absurd hcode not_codeAt_refused
    | _ =>
      simp only [htype] at hcode
      exact codeAt_callPieces hp hcode
  | cond pos test yes no =>
    simp only [ownPieces] at hp
    simp only [stmtCode] at hcode
    refine codeAt_exprPieces test hp ?_
    cases hno : no.isMissing <;> simp only [hno, if_true, Bool.false_eq_true, if_false, condCode,
      codeAt_append] at hcode <;> exact hcode.1
  | whileDo pos test body =>
    simp only [ownPieces] at hp
    simp only [stmtCode, loopCode, codeAt_append] at hcode
    exact codeAt_exprPieces test hp hcode.1
  | repeatUntil pos body test =>
    simp only [ownPieces] at hp
    simp only [stmtCode, codeAt_append] at hcode
    exact codeAt_exprPieces test hp hcode.1.2
  | forTo pos counter first last down body =>
    simp only [ownPieces] at hp
    simp only [stmtCode] at hcode
    cases htype : counter.symbol.type.code? with
    | none => simp [htype] at hp
    | some c =>
      simp only [htype, List.mem_cons, List.mem_append] at hp hcode
      obtain ⟨hset, hloop⟩ := codeAt_append.mp hcode
      have hbody := (Segment.loop_body ..).codeAt hloop
      have hstep := (codeAt_append.mp hbody).2
      have htest := (codeAt_append.mp (show CodeAt code k _ (_ ++ _) from hloop)).1
      obtain ⟨hset₁, hset₂, -⟩ := codeAt_setCounterCode hset
      obtain ⟨hstep₁, hstep₂, -⟩ := codeAt_setCounterCode hstep
      rw [testCounterCode, codeAt_append, codeAt_append] at htest
      rcases hp with rfl | rfl | rfl | rfl | hp | hp
      · exact exprCode_ident_address .. ▸ hset₁
      · exact exprCode_ident_value .. ▸ htest.1.1
      · exact exprCode_ident_address .. ▸ hstep₁
      · exact exprCode_ident_value .. ▸ (codeAt_append.mp hstep₂).1
      · exact codeAt_exprPieces first hp hset₂
      · exact codeAt_exprPieces last hp htest.1.2
  | _ => simp [ownPieces] at hp

/-! ## Blocks -/

namespace Block

/-- The statements of a block with their addresses. -/
def statements (b : Block) : List (Nat × Stmt) := stmtsPieces b.body b.header.body

/-- The expressions of a block with their addresses. -/
def expressions (b : Block) : List Piece := b.statements.flatMap fun p => ownPieces p.1 p.2

end Block

section

variable {im : Image} {l : Ledger} {b : Block}

/-- The code of a statement stands at its address, inside its block. -/
theorem codeAt_statement (h : im.Holds l) (hp : l.Placed) (hb : b ∈ l.blocks) {p : Nat × Stmt}
    (hs : p ∈ b.statements) :
    CodeAt im.code (l.finalLinking im) p.1 (stmtCode p.2) ∧ b.entry ≤ p.1 ∧
      p.1 + (stmtCode p.2).length ≤ b.exit := by
  have hblock := h.codeAt_block hp hb
  have hbody : CodeAt im.code (l.finalLinking im) b.body (stmtsCode b.header.body) := by
    unfold Block.code SubprogramHeader.code at hblock
    exact (codeAt_append.mp (codeAt_append.mp hblock).1).2
  have hseg := segment_stmtsPieces b.header.body hs
  have hrange := hseg.range
  refine ⟨hseg.codeAt hbody, ?_, ?_⟩
  · have : b.entry ≤ b.body := Nat.le_add_right ..
    omega
  · exact hrange.2

/-- The code of an expression stands at its address. -/
theorem codeAt_expression (h : im.Holds l) (hp : l.Placed) (hb : b ∈ l.blocks) {p : Piece}
    (he : p ∈ b.expressions) :
    CodeAt im.code (l.finalLinking im) p.address (exprCode p.mode p.expr) := by
  obtain ⟨q, hq, hpq⟩ := List.mem_flatMap.mp he
  exact codeAt_ownPieces hpq (codeAt_statement h hp hb hq).1

end

end PCode
