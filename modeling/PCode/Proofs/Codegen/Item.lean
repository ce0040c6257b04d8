import Mathlib.Algebra.Order.Ring.Int
import PCode.Codegen.Program

/-!
# Code as a list of items

Generation writes code into an image piece by piece, interns constants as it
goes and fills in jumps and calls when their targets are known.  This module
says what code is generated, without any state: the code of a tree is a list of
items, in which a constant stands for itself, a jump is a distance, and a call
names the symbol that it calls.  So the code of a part is a part of the code of
the whole, wherever it is placed.  What cannot be lowered is an item too, one
that stands in no image, so the code of an accepted program has none.

Main definitions:

- `Item`: one instruction before addresses are known.
- `exprCode`, `stmtCode`: the code of an expression and of a statement.
- `SubprogramHeader.code`: the code of a subprogram.
-/

namespace PCode

/-- One instruction of generated code, before addresses are known. -/
inductive Item where
  /-- an instruction whose operands are fixed -/
  | op (op : Opcode) (operand1 operand2 : Int64)
  /-- the load of a constant from the pool -/
  | const (code : TypeCode) (value : Value)
  /-- a jump over a distance, which is counted from the jump itself -/
  | jump (op : Opcode) (distance : Int)
  /-- the jump of an exit statement -/
  | leave
  /-- the call of a subprogram with a number of argument words -/
  | call (words : Int64) (symbol : Symbol)
  /-- what cannot be lowered -/
  | refused
  deriving Inhabited

namespace Gen

/-! ## Identifiers -/

/-- The code that loads one word of a composite parameter passed by reference. -/
def wordByRefCode (id : Ident) (i : Nat) (code : UInt8) : List Item :=
  Item.op .lva id.level id.symbol.address ::
    ((if 0 < i then [Item.const .integer (.ofInt (Int64.ofNat i)), Item.op .adi 0 0] else []) ++
      [Item.op .ldi (operandOfCode code) 0])

/-- The code of `wordsByRef`. -/
def wordsByRefCode (id : Ident) : Nat → List UInt8 → List Item
  | _, [] => []
  | i, code :: rest => wordByRefCode id i code ++ wordsByRefCode id (i + 1) rest

/-- The code of `wordsDirect`. -/
def wordsDirectCode (id : Ident) : Nat → Nat → List Item
  | _, 0 => []
  | i, count + 1 =>
    Item.op .lvi id.level (id.symbol.address + Int64.ofNat i) :: wordsDirectCode id (i + 1) count

/-- The code of `identValue`. -/
def identValueCode (id : Ident) : List Item :=
  if id.symbol.kind = .subprogram ∨ id.symbol.kind = .native then [.refused]
  else if id.symbol.byRef then
    match id.symbol.type.code? with
    | some code => [.op .lva id.level id.symbol.address, .op .ldi (operandOfCode code) 0]
    | none =>
      match id.symbol.type.codes? with
      | some codes => wordsByRefCode id 0 codes
      | none => [.refused]
  else
    match id.symbol.type.code? with
    | some code =>
      match loadOpcode? code with
      | some op => [.op op id.level id.symbol.address]
      | none => [.refused]
    | none =>
      if id.symbol.type.hasLayout then wordsDirectCode id 0 id.symbol.type.size.toNatClampNeg
      else [.refused]

/-- The code of `identAddress`. -/
def identAddressCode (id : Ident) : List Item :=
  [.op (if id.symbol.byRef then .lva else .lda) id.level id.symbol.address]

/-! ## Operators -/

/-- The code of `applyBinary`. -/
def binaryCode (op : BinaryOp) (left : Expr) (type : Ty) : List Item :=
  match arithmetic? op with
  | some a =>
    match a.opcode? type with
    | some (code, _) => [.op code 0 0]
    | none => [.refused]
  | none =>
    match logical? op, left.type?.bind Ty.code? with
    | some opcode, some code => [.op opcode (operandOfCode code) 0]
    | _, _ => [.refused]

/-- The code of `applyUnary`. -/
def unaryCode (op : UnaryOp) (operand : Expr) : List Item :=
  match op with
  | .not => [.op .not 0 0]
  | .neg => [.op (if (operand.type?.getD .missing).isSimple .real then .ngr else .ngi) 0 0]
  | .unknown _ => [.refused]

/-- The code of `applyCast`. -/
def castCode (operand : Expr) (target : Ty) : List Item :=
  let source := operand.type?.getD .missing
  if source.isSimple .integer ∧ target.isSimple .real then [.op .flt 0 0]
  else if source.code?.isSome ∧ source.code? = target.code? then []
  else [.refused]

/-- The code of `loadIndirect`. -/
def loadCode (e : Expr) : List Item :=
  match e.type?.bind Ty.code? with
  | some code => [.op .ldi (operandOfCode code) 0]
  | none => [.refused]

/-- The code that follows the address of a designator. -/
def accessCode (mode : Mode) (e : Expr) : List Item :=
  match mode with
  | .value => loadCode e
  | .address => []

/-! ## Literals -/

/-- The code of `numberValue`. -/
def numberCode (x : Float) : List Item :=
  match integerLiteral? x with
  | some i => [.const .integer (.ofInt i)]
  | none => [.const .real (.ofReal x)]

/-- The code of `boolValue`. -/
def boolCode (b : Bool) : List Item :=
  [.op .ldc (operandOfCode TypeCode.boolean.byte) (if b then 1 else 0)]

/-- The code of `charValue`. -/
def charCode (code : Int64) : List Item := [.op .ldc (operandOfCode TypeCode.char.byte) code]

/-! ## Indices -/

/-- The dimensions through which an array is indexed, unless it cannot be. -/
def dimensions? (base : Expr) (count : Nat) : Option (List Dimension) :=
  match base.type? with
  | some (.array ranges elem) =>
    if count = 0 ∨ ranges.length < count then none
    else if elem.hasLayout then some (dimensionsOf ranges (Ty.stridesOf elem.size ranges))
    else none
  | _ => none

/-- What can be indexed is an array with a dimension for each index. -/
theorem exists_array_of_dimensions? {base : Expr} {count : Nat} {dimensions : List Dimension}
    (h : dimensions? base count = some dimensions) :
    ∃ ranges elem, base.type? = some (.array ranges elem) ∧ count ≤ ranges.length ∧
      dimensions = dimensionsOf ranges (Ty.stridesOf elem.size ranges) := by
  unfold dimensions? at h
  split at h
  · rename_i ranges elem htype
    split at h
    · cases h
    · split at h
      · exact ⟨ranges, elem, htype, by omega, (Option.some.inj h).symm⟩
      · cases h
  · cases h

/-- An array has as many dimensions as index ranges. -/
theorem length_dimensionsOf (size : Int64) (ranges : List IndexRange) :
    (dimensionsOf ranges (Ty.stridesOf size ranges)).length = ranges.length := by
  induction ranges with
  | nil => rfl
  | cons r ranges ih => exact congrArg (· + 1) ih

/-- The code of `scaleIndex`. -/
def scaleCode (d : Dimension) : List Item :=
  [.const .integer (.ofInt d.low), .op .sbi 0 0, .op .ixa 0 d.stride]

/-! ## Calls -/

/-- The code of a call, given that of its arguments. -/
def invokeCode (callee : Ident) (args : List Arg) (arguments : List Item) : List Item :=
  match callee.symbol.type with
  | .subprogram params result =>
    match callee.symbol.kind with
    | .native => arguments ++ [.op .csp (Int64.ofNat args.length) callee.symbol.address]
    | .subprogram =>
      Item.op .mst callee.level 0 ::
        (arguments ++
          if callee.symbol.type.paramsHaveLayout then
            [.call (Ty.subprogram params result).paramWords callee.symbol]
          else [.refused])
    | _ => [.refused]
  | _ => [.refused]

/-! ## The walk -/

mutual

/-- The code of `lower`. -/
def exprCode (mode : Mode) : Expr → List Item
  | .missing => [.refused]
  | .ident _ id =>
    match mode with
    | .value => identValueCode id
    | .address => identAddressCode id
  | .index pos base indices =>
    (match dimensions? base indices.length with
      | some dimensions => exprCode .address base ++ indicesCode dimensions indices
      | none => [.refused]) ++ accessCode mode (.index pos base indices)
  | .field pos base f =>
    exprCode .address base ++ [.const .integer (.ofInt f.offset), .op .adi 0 0] ++
      accessCode mode (.field pos base f)
  | .deref pos base =>
    exprCode .value base ++
      accessCode mode (.deref pos base)
  | .number _ x =>
    match mode with
    | .value => numberCode x
    | .address => [.refused]
  | .string _ s =>
    match mode with
    | .value => [.const .string (.ofString s)]
    | .address => [.refused]
  | .char _ code =>
    match mode with
    | .value => charCode code
    | .address => [.refused]
  | .bool _ b =>
    match mode with
    | .value => boolCode b
    | .address => [.refused]
  | .nil _ =>
    match mode with
    | .value => [.const .pointer .nil]
    | .address => [.refused]
  | .addressOf _ base =>
    match mode with
    | .value => exprCode .address base
    | .address => [.refused]
  | .unary _ op operand =>
    match mode with
    | .value => exprCode .value operand ++ unaryCode op operand
    | .address => [.refused]
  | .binary _ op left right type =>
    match mode with
    | .value => exprCode .value left ++ exprCode .value right ++ binaryCode op left type
    | .address => [.refused]
  | .cast _ operand target =>
    match mode with
    | .value => exprCode .value operand ++ castCode operand target
    | .address => [.refused]
  | .call _ callee args =>
    match mode with
    | .value => invokeCode callee args (argsCode args)
    | .address => [.refused]

/-- The code of `lowerIndices`. -/
def indicesCode : List Dimension → List Expr → List Item
  | d :: dimensions, index :: indices =>
    exprCode .value index ++ scaleCode d ++ indicesCode dimensions indices
  | _, _ => []

/-- The code of `lowerArgs`. -/
def argsCode : List Arg → List Item
  | [] => []
  | .mk e byRef :: rest => exprCode (if byRef then .address else .value) e ++ argsCode rest

end

/-- Without indices there is nothing to scale. -/
theorem indicesCode_nil (dimensions : List Dimension) : indicesCode dimensions [] = [] := by
  cases dimensions <;> simp only [indicesCode]

/-- The code of an identifier as a value. -/
theorem exprCode_ident_value (pos : Pos) (id : Ident) :
    exprCode .value (.ident pos id) = identValueCode id := by
  simp only [exprCode]

/-- The code of an identifier as a designator. -/
theorem exprCode_ident_address (pos : Pos) (id : Ident) :
    exprCode .address (.ident pos id) = identAddressCode id := by
  simp only [exprCode]

/-- The code of `lowerCall`. -/
def callCode (callee : Ident) (args : List Arg) : List Item :=
  invokeCode callee args (argsCode args)

/-! ## Statements -/

/-- The code that sets the counter of a loop to the word that another code leaves. -/
def setCounterCode (counter : Ident) (code : UInt8) (value : List Item) : List Item :=
  identAddressCode counter ++ value ++ [.op .sti (operandOfCode code) 0]

/-- The code that tests whether the counter of a loop has passed the last value. -/
def testCounterCode (counter : Ident) (code : UInt8) (last : List Item) (down : Bool) :
    List Item :=
  identValueCode counter ++ last ++ [.op (if down then .les else .grt) (operandOfCode code) 0]

/-- The code that moves the counter of a loop one step. -/
def stepCounterCode (counter : Ident) (code : UInt8) (down : Bool) : List Item :=
  setCounterCode counter code
    (identValueCode counter ++ [.op (if down then .dec else .inc) (operandOfCode code) 0])

/-- The code of a conditional, given that of its parts. -/
def condCode (test yes : List Item) : Option (List Item) → List Item
  | none => test ++ Item.jump .fjp (yes.length + 1) :: yes
  | some no =>
    test ++ Item.jump .fjp (yes.length + 2) :: (yes ++ Item.jump .ujp (no.length + 1) :: no)

/-- The code of a loop with its test at the top, given the instruction that leaves it. -/
def loopCode (test : List Item) (out : Opcode) (body : List Item) : List Item :=
  test ++ Item.jump out (body.length + 2) ::
    (body ++ [Item.jump .ujp (-(test.length + (body.length + 1) : Nat))])

mutual

/-- The code of `lowerStmt`. -/
def stmtCode : Stmt → List Item
  | .missing => []
  | .block _ body => stmtsCode body
  | .assign _ target value =>
    exprCode .address target ++ exprCode .value value ++
    (match value.type?.bind Ty.code? with
      | some code => [.op .sti (operandOfCode code) 0]
      | none => [.refused])
  | .call _ callee args =>
    match callee.symbol.type with
    | .subprogram _ result => if result.isVoid then callCode callee args else [.refused]
    | _ => callCode callee args
  | .cond _ test yes no =>
    condCode (exprCode .value test) (stmtCode yes)
      (if no.isMissing then none else some (stmtCode no))
  | .whileDo _ test body => loopCode (exprCode .value test) .fjp (stmtCode body)
  | .repeatUntil _ body test =>
    stmtsCode body ++ exprCode .value test ++
      [.jump .fjp (-((stmtsCode body).length + (exprCode .value test).length : Nat))]
  | .forTo _ counter first last down body =>
    match counter.symbol.type.code? with
    | some code =>
      setCounterCode counter code (exprCode .value first) ++
        loopCode (testCounterCode counter code (exprCode .value last) down) .tjp
          (stmtCode body ++ stepCounterCode counter code down)
    | none => [.refused]
  | .exit _ => [.leave]

/-- The code of `lowerStmts`. -/
def stmtsCode : List Stmt → List Item
  | [] => []
  | s :: rest => stmtCode s ++ stmtsCode rest

end

/-! ## Subprograms -/

/-- The code of `initialiseWords`. -/
def initialiseWordsCode (tc : TypedConst) (base : Nat) : Nat → List UInt8 → List Item
  | _, [] => []
  | i, code :: rest =>
    Item.op .lda 0 (tc.symbol.address + Int64.ofNat i) ::
      Item.const .pointer (.ofAddress (Int64.ofNat (base + i))) ::
      Item.op .ldi (operandOfCode code) 0 :: Item.op .sti (operandOfCode code) 0 ::
      initialiseWordsCode tc base (i + 1) rest

/-- The code of `initialise`, with the words of the typed constant at an address. -/
def initialiseCode (tc : TypedConst) (base : Nat) : List Item :=
  match tc.symbol.type.codes? with
  | some codes =>
    if codes.length = tc.data.size then initialiseWordsCode tc base 0 codes else [.refused]
  | none => [.refused]

/-- The code of `initialiseAll`, with the words of the first typed constant at an address. -/
def initialiseAllCode : Nat → List TypedConst → List Item
  | _, [] => []
  | base, tc :: rest => initialiseCode tc base ++ initialiseAllCode (base + tc.data.size) rest

/-- The type code byte that a subprogram returns with, unless it has none. -/
def returnCode? (h : SubprogramHeader) : Option UInt8 :=
  if h.kind = .function then h.result.code? else some TypeCode.void.byte

/-- The return of a subprogram. -/
def returnItem (h : SubprogramHeader) : Item :=
  match returnCode? h with
  | some code => .op .rtn (operandOfCode code) 0
  | none => .refused

end Gen

/-- The words of the typed constants of a subprogram, one after another. -/
def SubprogramHeader.typedWords (h : SubprogramHeader) : List Value :=
  h.typedConsts.flatMap (·.data.toList)

/-- The code of a subprogram before its body, with the words of its typed constants at an
address. -/
def SubprogramHeader.prologue (h : SubprogramHeader) (typed : Nat) : List Item :=
  Item.op .ent 0 h.frameSize :: Gen.initialiseAllCode typed h.typedConsts

/-- The code of a subprogram, with the words of its typed constants at an address. -/
def SubprogramHeader.code (h : SubprogramHeader) (typed : Nat) : List Item :=
  h.prologue typed ++ Gen.stmtsCode h.body ++ [Gen.returnItem h]

end PCode
