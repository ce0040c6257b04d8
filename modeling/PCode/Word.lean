import PCode.Opcode

/-!
# Instruction words

An instruction is one 32-bit word of three fields: the opcode in bits 0 to 7,
operand 1 in bits 8 to 16 and operand 2 in bits 17 to 31.  Packing refuses an
operand that does not fit in its field; every word unpacks.

Main results:

- `Word.encode_eq_ok_iff`: packing succeeds exactly when both operands fit.
-/

namespace PCode

/-- One packed instruction. -/
structure Word where
  bits : UInt32
  deriving DecidableEq, Inhabited, Repr

/-- Largest value of operand 1. -/
def maxOperand1 : Nat := 511

/-- Largest value of operand 2. -/
def maxOperand2 : Nat := 32767

/-- The operand fields of a word. -/
inductive OperandField where
  | first
  | second
  deriving DecidableEq, Inhabited, Repr

namespace OperandField

/-- The position of the field, counted from one. -/
def number : OperandField → Nat
  | first => 1
  | second => 2

/-- The largest value the field holds. -/
def limit : OperandField → Nat
  | first => maxOperand1
  | second => maxOperand2

end OperandField

/-- An operand that does not fit in its field. -/
structure EncodingError where
  opcode : UInt8
  field : OperandField
  value : Int64
  deriving DecidableEq, Inhabited, Repr

namespace EncodingError

/-- The wording of an encoding error. -/
def message (e : EncodingError) : String :=
  let name := Opcode.nameOfByte e.opcode
  let operand := s!"operand{e.field.number}: {e.value.toInt}"
  if e.value < 0 then s!"{name}: negative {operand}"
  else s!"{name}: too large {operand} (max {e.field.limit})"

end EncodingError

namespace Word

/-! ## Fields -/

/-- The opcode byte. -/
def opcode (w : Word) : UInt8 := w.bits.toUInt8

/-- The first operand. -/
def operand1 (w : Word) : Nat := (w.bits.toNat / 256) % 512

/-- The second operand. -/
def operand2 (w : Word) : Nat := w.bits.toNat / 131072

/-- The word with the given fields; operands are expected to fit. -/
def pack (opcode : UInt8) (operand1 operand2 : Nat) : Word :=
  ⟨UInt32.ofNat (opcode.toNat + operand1 * 256 + operand2 * 131072)⟩

/-- Whether a number lies between zero and a limit. -/
def fits (x : Int64) (limit : Nat) : Bool := decide (0 ≤ x.toInt ∧ x.toInt ≤ limit)

/-- Pack an opcode byte and two operands; the first operand that does not fit is reported. -/
def encode (opcode : UInt8) (operand1 operand2 : Int64) : Except EncodingError Word :=
  if !fits operand1 maxOperand1 then .error ⟨opcode, .first, operand1⟩
  else if !fits operand2 maxOperand2 then .error ⟨opcode, .second, operand2⟩
  else .ok (pack opcode operand1.toInt.toNat operand2.toInt.toNat)

/-- The same instruction with another second operand. -/
def withOperand2 (w : Word) (operand2 : Int64) : Except EncodingError Word :=
  encode w.opcode (Int64.ofNat w.operand1) operand2

/-! ## Text -/

/-- The instruction as text: mnemonic and both operands in decimal. -/
def text (w : Word) : String :=
  s!"{Opcode.nameOfByte w.opcode} {w.operand1} {w.operand2}"

/-! ## Laws -/

/-- The first operand never exceeds its limit. -/
theorem operand1_le (w : Word) : w.operand1 ≤ maxOperand1 := by
  unfold operand1 maxOperand1; omega

/-- The second operand never exceeds its limit. -/
theorem operand2_le (w : Word) : w.operand2 ≤ maxOperand2 := by
  have := w.bits.toNat_lt
  unfold operand2 maxOperand2; omega

/-- The three fields make up the whole word. -/
theorem pack_fields (w : Word) : pack w.opcode w.operand1 w.operand2 = w := by
  have h := w.bits.toNat_lt
  cases w with
  | mk bits =>
    simp only [pack, opcode, operand1, operand2, Word.mk.injEq]
    apply UInt32.toNat_inj.mp
    simp only [UInt32.toNat_ofNat', UInt32.toNat_toUInt8]
    simp only at h
    omega

/-- Packing keeps the opcode. -/
theorem opcode_pack (op : UInt8) (a b : Nat) : (pack op a b).opcode = op := by
  have h := op.toNat_lt
  apply UInt8.toNat_inj.mp
  simp only [pack, opcode, UInt32.toNat_toUInt8, UInt32.toNat_ofNat']
  omega

/-- Packing keeps the first operand. -/
theorem operand1_pack (op : UInt8) {a : Nat} (b : Nat) (ha : a ≤ maxOperand1) :
    (pack op a b).operand1 = a := by
  have h := op.toNat_lt
  simp only [maxOperand1] at ha
  simp only [pack, operand1, UInt32.toNat_ofNat']
  omega

/-- Packing keeps the second operand. -/
theorem operand2_pack (op : UInt8) {a b : Nat} (ha : a ≤ maxOperand1) (hb : b ≤ maxOperand2) :
    (pack op a b).operand2 = b := by
  have h := op.toNat_lt
  simp only [maxOperand1, maxOperand2] at ha hb
  simp only [pack, operand2, UInt32.toNat_ofNat']
  omega

/-- Packing succeeds exactly when both operands fit. -/
theorem encode_eq_ok_iff (op : UInt8) (a b : Int64) (w : Word) :
    encode op a b = .ok w ↔
      fits a maxOperand1 ∧ fits b maxOperand2 ∧ w = pack op a.toInt.toNat b.toInt.toNat := by
  unfold encode
  cases ha : fits a maxOperand1 <;> cases hb : fits b maxOperand2 <;> simp [eq_comm]

end Word

end PCode
