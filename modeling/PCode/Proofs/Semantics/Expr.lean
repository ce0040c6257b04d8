import PCode.Proofs.Codegen.Item
import PCode.Machine.Operators
import PCode.Machine.Basic

/-!
# What expressions mean

A reference evaluator for expressions without calls.  It reads a memory, which
is what a machine shows to an expression: the store with its gap between stack
and heap, the base of the active frame and the pool of constants.  A variable
has its words from one address on, in its frame or, when it was passed by
reference, where its frame says.  An expression has no meaning where it reads an
address that cannot be accessed, divides by zero, applies an operator to more
or less than one word, or calls a subprogram.

Main definitions:

- `Memory`: what an expression can read.
- `Memory.eval`: the words that an expression means.
- `Gen.depth`: how many words are on the stack at most while it is evaluated.
-/

namespace PCode

/-- What an expression can read. -/
structure Memory where
  store : Array Value
  /-- one past the top of the stack, where the gap begins -/
  sp : Int64
  /-- lowest word of the heap, where the gap ends -/
  np : Int64
  /-- base of the active frame -/
  mp : Int64
  constants : Array Value

/-- What a machine shows to an expression. -/
def Machine.memory (m : Machine) : Memory := ⟨m.store, m.sp, m.np, m.mp, m.image.constants⟩

namespace Memory

/-! ## Reading -/

/-- Whether an address is in the store and not in the gap. -/
def accessible (mem : Memory) (a : Int64) : Prop :=
  0 ≤ a ∧ a < Int64.ofNat mem.store.size ∧ (a < mem.sp ∨ mem.np ≤ a)

instance (mem : Memory) (a : Int64) : Decidable (mem.accessible a) :=
  inferInstanceAs (Decidable (_ ∧ _))

/-- The word at an address that can be accessed. -/
def read (mem : Memory) (a : Int64) : Option Value :=
  if mem.accessible a then some (mem.store.getD a.toNatClampNeg .undefined) else none

/-- Follow the static link a number of times, starting from a frame. -/
def outer (mem : Memory) : Nat → Int64 → Option Int64
  | 0, base => some base
  | level + 1, base => do
    let link ← mem.read (base + Int64.ofNat markStaticLink)
    mem.outer level link.toInt

/-- The frame that lies a number of levels out from the active one. -/
def frame (mem : Memory) (level : Int64) : Option Int64 := mem.outer level.toNatClampNeg mem.mp

/-- The constant that stands for a literal. -/
def literal (mem : Memory) (v : Value) : Option Value := mem.constants.find? (·.same v)

/-! ## Identifiers -/

/-- The place of an identifier in its frame. -/
def place (mem : Memory) (id : Ident) : Option Int64 :=
  (mem.frame id.level).map (· + id.symbol.address)

/-- The address of an identifier as a word: a place passed by reference holds it. -/
def addressOf (mem : Memory) (id : Ident) : Option Value := do
  let place ← mem.place id
  if id.symbol.byRef then mem.read place else some (.ofAddress place)

/-- The word of an identifier at a distance from its first. -/
def wordOf (mem : Memory) (id : Ident) (i : Nat) : Option Value := do
  let address ← mem.addressOf id
  mem.read (address.toInt + Int64.ofNat i)

end Memory

/-- The number of words of an identifier's value.  Those of a composite parameter passed by
reference are counted by their type codes. -/
def Ident.words? (id : Ident) : Option Nat :=
  if id.symbol.type.code?.isSome then some 1
  else if id.symbol.byRef then id.symbol.type.codes?.map List.length
  else some id.symbol.type.size.toNatClampNeg

namespace Memory

/-- The value of an identifier: all its words. -/
def valueOf (mem : Memory) (id : Ident) : Option (List Value) :=
  id.words?.bind fun count => (List.range count).mapM (mem.wordOf id)

end Memory

/-! ## Operators -/

namespace Operator

/-- What the instruction of an opcode computes from two words.  Expressions have their meaning
without it; a simulation relates the two. -/
def binary? (op : Opcode) (a b : Value) : Option Value :=
  match op with
  | .adi => some (addInt a b)
  | .sbi => some (subInt a b)
  | .mpi => some (mulInt a b)
  | .dvi => (divInt a b).toOption
  | .mod => (modInt a b).toOption
  | .adr => some (addReal a b)
  | .sbr => some (subReal a b)
  | .mpr => some (mulReal a b)
  | .dvr => (divReal a b).toOption
  | .equ => some (equal a b)
  | .neq => some (notEqual a b)
  | .les => some (less a b)
  | .grt => some (greater a b)
  | .leq => some (lessEqual a b)
  | .geq => some (greaterEqual a b)
  | .and => some (and a b)
  | .ior => some (or a b)
  | .xor => some (xor a b)
  | _ => none

end Operator

namespace BinaryOp

/-- The result of arithmetic in a type, given that for integers and that for reals. -/
def numeric? (type : Ty) (integer real : Option Value) : Option Value :=
  if type.isSimple .integer then integer else if type.isSimple .real then real else none

/-- The meaning of a binary operator in an expression of a type. -/
def meaning? (op : BinaryOp) (type : Ty) (a b : Value) : Option Value :=
  match op with
  | .add => numeric? type (some (Operator.addInt a b)) (some (Operator.addReal a b))
  | .sub => numeric? type (some (Operator.subInt a b)) (some (Operator.subReal a b))
  | .mul => numeric? type (some (Operator.mulInt a b)) (some (Operator.mulReal a b))
  | .div => numeric? type none (Operator.divReal a b).toOption
  | .intDiv => numeric? type (Operator.divInt a b).toOption none
  | .mod => numeric? type (Operator.modInt a b).toOption none
  | .eq => some (Operator.equal a b)
  | .ne => some (Operator.notEqual a b)
  | .lt => some (Operator.less a b)
  | .gt => some (Operator.greater a b)
  | .le => some (Operator.lessEqual a b)
  | .ge => some (Operator.greaterEqual a b)
  | .and => some (Operator.and a b)
  | .or => some (Operator.or a b)
  | .xor => some (Operator.xor a b)
  | .unknown _ => none

end BinaryOp

/-- The meaning of a unary operator for an operand of a type. -/
def UnaryOp.meaning? (op : UnaryOp) (type : Ty) (a : Value) : Option Value :=
  match op with
  | .not => some (Operator.not a)
  | .neg => some (if type.isSimple .real then Operator.negReal a else Operator.negInt a)
  | .unknown _ => none

/-! ## Expressions -/

namespace Memory

open Gen (Mode)

/-- The word of a list of one. -/
def single : List Value → Option Value
  | [v] => some v
  | _ => none

/-- What an expression means that has its word at an address. -/
def at? (mem : Memory) (mode : Mode) (address : Value) : Option (List Value) :=
  match mode with
  | .value => (mem.read address.toInt).map ([·])
  | .address => some [address]

mutual

/-- The words that an expression means as a value, or the address that it means as a
designator. -/
def eval (mem : Memory) (mode : Mode) : Expr → Option (List Value)
  | .missing => none
  | .ident _ id =>
    match mode with
    | .value => mem.valueOf id
    | .address => (mem.addressOf id).map ([·])
  | .index _ base indices =>
    match base.type? with
    | some (.array ranges elem) => do
      let address ← (eval mem .address base).bind single
      let address ← mem.evalIndices address ranges (Ty.array ranges elem).strides indices
      mem.at? mode address
    | _ => none
  | .field _ base f => do
    let address ← (eval mem .address base).bind single
    mem.at? mode (.ofInt (address.toInt + f.offset))
  | .deref _ base => do
    let address ← (eval mem .value base).bind single
    mem.at? mode address
  | .number _ x =>
    match integerLiteral? x with
    | some i => (mem.literal (.ofInt i)).map ([·])
    | none => (mem.literal (.ofReal x)).map ([·])
  | .string _ s => (mem.literal (.ofString s)).map ([·])
  | .char _ code => some [.ofCharCode code]
  | .bool _ b => some [.ofBool b]
  | .nil _ => (mem.literal .nil).map ([·])
  | .addressOf _ base => eval mem .address base
  | .unary _ op operand => do
    let v ← (eval mem .value operand).bind single
    let r ← op.meaning? (operand.type?.getD .missing) v
    return [r]
  | .binary _ op left right type => do
    let v ← (eval mem .value left).bind single
    let w ← (eval mem .value right).bind single
    let r ← op.meaning? type v w
    return [r]
  | .cast _ operand _ => eval mem .value operand
  | .call .. => none

/-- The address that indices lead to: each moves it by its distance from the least index, in
strides. -/
def evalIndices (mem : Memory) (address : Value) :
    List IndexRange → List Int64 → List Expr → Option Value
  | range :: ranges, stride :: strides, index :: indices => do
    let i ← (eval mem .value index).bind single
    mem.evalIndices (.ofAddress (address.toInt + (i.toInt - range.low) * stride)) ranges strides
      indices
  | _, _, [] => some address
  | _, _, _ :: _ => none

end

end Memory

/-! ## Depth -/

namespace Gen

mutual

/-- How many words are on the stack at most while an expression is evaluated. -/
def depth (mode : Mode) : Expr → Nat
  | .missing => 0
  | .ident _ id =>
    match mode with
    | .value =>
      let count := id.words?.getD 0
      if id.symbol.byRef ∧ 1 < count then count + 1 else count
    | .address => 1
  | .index _ base indices => max (depth .address base) (depthIndices indices)
  | .field _ base _ => max (depth .address base) 2
  | .deref _ base => depth .value base
  | .number .. | .string .. | .char .. | .bool .. | .nil _ => 1
  | .addressOf _ base => depth .address base
  | .unary _ _ operand => depth .value operand
  | .binary _ _ left right _ => max (depth .value left) (1 + depth .value right)
  | .cast _ operand _ => depth .value operand
  | .call .. => 0

/-- How many words are on the stack at most while an address is moved by indices. -/
def depthIndices : List Expr → Nat
  | [] => 1
  | index :: indices => max (max (1 + depth .value index) 3) (depthIndices indices)

end

end Gen

end PCode
