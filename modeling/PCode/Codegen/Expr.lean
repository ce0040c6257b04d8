import PCode.Codegen.Basic

/-!
# Code for expressions

An expression leaves its value on the stack, and a designator can also leave its
address.  Both are made by one walk with a mode, since the code for the address
of an element, field or pointed-to word is also the first part of the code for
its value.
-/

namespace PCode.Gen

/-- What code for an expression leaves on the stack. -/
inductive Mode where
  | value
  | address
  deriving DecidableEq, Inhabited, Repr

/-! ## Identifiers -/

/-- The instruction that loads a variable of a simple type; strings are loaded like characters. -/
def loadOpcode? (code : UInt8) : Option Opcode :=
  match TypeCode.ofByte? code with
  | some .pointer => some .lva
  | some .boolean => some .lvb
  | some .char | some .string => some .lvc
  | some .integer => some .lvi
  | some .real => some .lvr
  | _ => none

/-- Load the words of a composite parameter passed by reference, from a word on. -/
def wordsByRef (pos : Pos) (id : Ident) : Nat → List UInt8 → Gen Unit
  | _, [] => pure ()
  | i, code :: rest => do
    let name := id.symbol.name
    put pos .lva id.level id.symbol.address ("address of " ++ name)
    if 0 < i then
      putConstant pos .integer (.ofInt (Int64.ofNat i)) s!"offset {i}"
      put pos .adi 0 0 ""
    put pos .ldi (operandOfCode code) 0 s!"value of {name} at index {i}"
    wordsByRef pos id (i + 1) rest

/-- Load words of a composite variable, a number of them from a word on. -/
def wordsDirect (pos : Pos) (id : Ident) : Nat → Nat → Gen Unit
  | _, 0 => pure ()
  | i, count + 1 => do
    put pos .lvi id.level (id.symbol.address + Int64.ofNat i)
      s!"value of {id.symbol.name} at index {i}"
    wordsDirect pos id (i + 1) count

/-- The value of an identifier: all its words. -/
def identValue (pos : Pos) (id : Ident) : Gen Unit := do
  let sym := id.symbol
  if sym.kind = .subprogram ∨ sym.kind = .native then
    report pos (.usedAsValue sym.kind sym.name)
  else if sym.byRef then
    match sym.type.code? with
    | some code =>
      put pos .lva id.level sym.address ("address of " ++ sym.name)
      put pos .ldi (operandOfCode code) 0 ("value of " ++ sym.name)
    | none =>
      match sym.type.codes? with
      | some codes => wordsByRef pos id 0 codes
      | none => throw ⟨⟩
  else
    match sym.type.code? with
    | some code =>
      match loadOpcode? code with
      | some op => put pos op id.level sym.address ("value of " ++ sym.name)
      | none => report pos (.noLoad sym.type)
    | none =>
      if sym.type.hasLayout then wordsDirect pos id 0 sym.type.size.toNatClampNeg
      else throw ⟨⟩

/-- The address of an identifier; the place of a parameter passed by reference holds it. -/
def identAddress (pos : Pos) (id : Ident) : Gen Unit :=
  put pos (if id.symbol.byRef then .lva else .lda) id.level id.symbol.address
    ("address of " ++ id.symbol.name)

/-! ## Operators -/

/-- What is known of an arithmetic operator: a verb, and its instructions for integers and reals. -/
structure Arithmetic where
  verb : String
  integer : Option Opcode
  real : Option Opcode

/-- The arithmetic operators. -/
def arithmetic? : BinaryOp → Option Arithmetic
  | .add => some ⟨"add", some .adi, some .adr⟩
  | .sub => some ⟨"subtract", some .sbi, some .sbr⟩
  | .mul => some ⟨"multiply", some .mpi, some .mpr⟩
  | .div => some ⟨"divide", none, some .dvr⟩
  | .intDiv => some ⟨"divide", some .dvi, none⟩
  | .mod => some ⟨"mod", some .mod, none⟩
  | _ => none

/-- The instruction of a comparison or logical operator. -/
def logical? : BinaryOp → Option Opcode
  | .eq => some .equ
  | .ne => some .neq
  | .lt => some .les
  | .gt => some .grt
  | .le => some .leq
  | .ge => some .geq
  | .and => some .and
  | .or => some .ior
  | .xor => some .xor
  | _ => none

/-- The instruction of an arithmetic operator for operands of a type, with its comment. -/
def Arithmetic.opcode? (a : Arithmetic) (t : Ty) : Option (Opcode × String) :=
  if t.isSimple .integer then a.integer.map fun op => (op, a.verb ++ " integers")
  else if t.isSimple .real then a.real.map fun op => (op, a.verb ++ " reals")
  else none

/-- Apply a binary operator to the operands on the stack. -/
def applyBinary (pos : Pos) (op : BinaryOp) (left : Expr) (type : Ty) : Gen Unit := do
  match arithmetic? op with
  | some a =>
    match a.opcode? type with
    | some (code, comment) => put pos code 0 0 comment
    | none => report pos (.arithmeticType a.verb type)
  | none =>
    match logical? op with
    | none => report pos (.binaryOperator op)
    | some opcode =>
      let t ← typeOf left
      match t.code? with
      | some code => put pos opcode (operandOfCode code) 0 op.text
      | none => report pos (.logicalType op t)

/-- Apply a unary operator to the operand on the stack. -/
def applyUnary (pos : Pos) (op : UnaryOp) (operand : Expr) : Gen Unit := do
  match op with
  | .not => put pos .not 0 0 "logical not"
  | .neg =>
    let t ← typeOf operand
    if t.isSimple .real then put pos .ngr 0 0 "real sign inversion"
    else put pos .ngi 0 0 "integer sign inversion"
  | .unknown _ => report pos (.unaryOperator op)

/-- Convert the operand on the stack. -/
def applyCast (pos : Pos) (operand : Expr) (target : Ty) : Gen Unit := do
  let source ← typeOf operand
  if source.isSimple .integer ∧ target.isSimple .real then put pos .flt 0 0 "cast to float"
  else if source.code?.isSome ∧ source.code? = target.code? then pure ()
  else report pos (.castTypes source target)

/-- Load the word at the address on the stack. -/
def loadIndirect (e : Expr) (comment : String) : Gen Unit := do
  let t ← typeOf e
  match t.code? with
  | some code => put e.pos .ldi (operandOfCode code) 0 comment
  | none => report e.pos (.loadedType t)

/-! ## Literals -/

/-- The value of a number literal. -/
def numberValue (pos : Pos) (x : Float) : Gen Unit :=
  match integerLiteral? x with
  | some i => putConstant pos .integer (.ofInt i) s!"constant value {i.toInt}"
  | none => putConstant pos .real (.ofReal x) ("constant value " ++ Real.text x)

/-- The value of a boolean literal. -/
def boolValue (pos : Pos) (b : Bool) : Gen Unit :=
  put pos .ldc (operandOfCode TypeCode.boolean.byte) (if b then 1 else 0)
    (if b then "boolean true" else "boolean false")

/-- The value of a character literal. -/
def charValue (pos : Pos) (code : Int64) : Gen Unit :=
  put pos .ldc (operandOfCode TypeCode.char.byte) code
    ("char '" ++ String.singleton (Value.charOfCode code) ++ "'")

/-! ## Indices -/

/-- One dimension of an array: its lower bound, its stride, and whether it is the last. -/
structure Dimension where
  low : Int64
  stride : Int64
  last : Bool
  deriving Inhabited

/-- The dimensions of an array type, given its ranges and strides. -/
def dimensionsOf : List IndexRange → List Int64 → List Dimension
  | r :: ranges, stride :: strides => ⟨r.low, stride, ranges.isEmpty⟩ :: dimensionsOf ranges strides
  | _, _ => []

/-- Move the address below the top of the stack by the index on top. -/
def scaleIndex (pos : Pos) (d : Dimension) : Gen Unit := do
  putConstant pos .integer (.ofInt d.low) s!"lower bound {d.low.toInt}"
  put pos .sbi 0 0 "subtract lower bound"
  let what := if d.last then "element" else "slice"
  put pos .ixa 0 d.stride s!"address of array {what} (size {d.stride.toInt})"

/-- The dimensions through which an array is indexed, unless it cannot be. -/
def indexedDimensions (pos : Pos) (base : Expr) (count : Nat) : Gen (Option (List Dimension)) := do
  match ← typeOf base with
  | .array ranges elem =>
    if count = 0 ∨ ranges.length < count then
      report pos (.indexCount ranges.length count)
      return none
    else if elem.hasLayout then return some (dimensionsOf ranges (Ty.stridesOf elem.size ranges))
    else throw ⟨⟩
  | t =>
    report pos (.indexedType t)
    return none

/-! ## Calls -/

/-- What a signature is called: a function if it has a result. -/
def callKind (result : Ty) : String := if result.isVoid then "procedure" else "function"

/-- Call a subprogram whose mark and arguments are on the stack. -/
def putUserCall (pos : Pos) (sym : Symbol) (argumentWords : Int64) : Gen Unit := do
  let entry := (← get).entries.lookup sym.id
  let address ← emit pos .cup argumentWords (Int64.ofNat (entry.getD 0)) ("call " ++ sym.name)
  match entry, address with
  | none, some a =>
    modify fun g =>
      let pending :=
        if g.pending.any (·.symbol.id == sym.id) then
          g.pending.map fun p =>
            if p.symbol.id == sym.id then { p with addresses := a :: p.addresses } else p
        else ⟨sym, [a], pos⟩ :: g.pending
      { g with pending }
  | _, _ => pure ()

/-- Code for a call, given that for its arguments: a mark, the arguments and the call for a
subprogram, the arguments and the call for a native procedure. -/
def invoke (pos : Pos) (callee : Ident) (args : List Arg) (arguments : Gen Unit) : Gen Unit := do
  let sym := callee.symbol
  match sym.type with
  | .subprogram params result =>
    let kind := callKind result
    match sym.kind with
    | .native =>
      arguments
      put pos .csp (Int64.ofNat args.length) sym.address s!"call system {kind} {sym.name}"
    | .subprogram =>
      put pos .mst callee.level 0 ("set up mark for " ++ kind)
      arguments
      if sym.type.paramsHaveLayout then
        putUserCall pos sym (Ty.subprogram params result).paramWords
      else throw ⟨⟩
    | other => report pos (.cannotCall other sym.name)
  | _ => report pos (.notCallable sym.name)

/-! ## The walk -/

mutual

/-- Code that leaves the value or the address of an expression on the stack. -/
def lower (mode : Mode) : Expr → Gen Unit
  | .missing =>
    match mode with
    | .value => report {} .missingExpression
    | .address => report {} .missingDesignator
  | .ident pos id =>
    match mode with
    | .value => identValue pos id
    | .address => identAddress pos id
  | .index pos base indices => do
    match ← indexedDimensions pos base indices.length with
    | some dimensions =>
      lower .address base
      lowerIndices pos dimensions indices
    | none => pure ()
    match mode with
    | .value => loadIndirect (.index pos base indices) "load value of array element"
    | .address => pure ()
  | .field pos base f => do
    lower .address base
    putConstant pos .integer (.ofInt f.offset) ("offset of field " ++ Text.quote f.name)
    put pos .adi 0 0 "add offset to record address"
    match mode with
    | .value => loadIndirect (.field pos base f) "load value of record field"
    | .address => pure ()
  | .deref pos base => do
    lower .value base
    match mode with
    | .value => loadIndirect (.deref pos base) "load value pointed to by pointer"
    | .address => pure ()
  | .number pos x =>
    match mode with
    | .value => numberValue pos x
    | .address => report pos (.notDesignator (Expr.number pos x).kindName)
  | .string pos s =>
    match mode with
    | .value => putConstant pos .string (.ofString s) ("string '" ++ s ++ "'")
    | .address => report pos (.notDesignator (Expr.string pos s).kindName)
  | .char pos code =>
    match mode with
    | .value => charValue pos code
    | .address => report pos (.notDesignator (Expr.char pos code).kindName)
  | .bool pos b =>
    match mode with
    | .value => boolValue pos b
    | .address => report pos (.notDesignator (Expr.bool pos b).kindName)
  | .nil pos =>
    match mode with
    | .value => putConstant pos .pointer .nil "nil pointer"
    | .address => report pos (.notDesignator (Expr.nil pos).kindName)
  | .addressOf pos base =>
    match mode with
    | .value => lower .address base
    | .address => report pos (.notDesignator (Expr.addressOf pos base).kindName)
  | .unary pos op operand =>
    match mode with
    | .value => do
      lower .value operand
      applyUnary pos op operand
    | .address => report pos (.notDesignator (Expr.unary pos op operand).kindName)
  | .binary pos op left right type =>
    match mode with
    | .value => do
      lower .value left
      lower .value right
      applyBinary pos op left type
    | .address => report pos (.notDesignator (Expr.binary pos op left right type).kindName)
  | .cast pos operand target =>
    match mode with
    | .value => do
      lower .value operand
      applyCast pos operand target
    | .address => report pos (.notDesignator (Expr.cast pos operand target).kindName)
  | .call pos callee args =>
    match mode with
    | .value => invoke pos callee args (lowerArgs args)
    | .address => report pos (.notDesignator (Expr.call pos callee args).kindName)

/-- Code that moves the address on the stack by the indices, dimension by dimension. -/
def lowerIndices (pos : Pos) : List Dimension → List Expr → Gen Unit
  | d :: dimensions, index :: indices => do
    lower .value index
    scaleIndex pos d
    lowerIndices pos dimensions indices
  | _, _ => pure ()

/-- Code for arguments, from left to right. -/
def lowerArgs : List Arg → Gen Unit
  | [] => pure ()
  | .mk e byRef :: rest => do
    lower (if byRef then .address else .value) e
    lowerArgs rest

end

/-- Code for a call. -/
def lowerCall (pos : Pos) (callee : Ident) (args : List Arg) : Gen Unit :=
  invoke pos callee args (lowerArgs args)

end PCode.Gen
