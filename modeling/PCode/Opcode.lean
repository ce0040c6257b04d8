import PCode.Text.Hex

/-!
# Opcodes and type codes

The instruction set is that of the 1978 UCSD p-code: sixty opcodes numbered
without gaps from zero, and nine simple type codes that typed instructions carry
in their first operand.  An instruction word has room for 256 opcodes and 512
type codes, so both are kept as bytes in words, and these types name the ones
that have a meaning.

Main results:

- `Opcode.ofByte?_byte` and `Opcode.byte_of_ofByte?`: the byte of an opcode and
  the opcode of a byte are inverse to each other.
- `TypeCode.ofByte?_byte`: the same for type codes.
-/

namespace PCode

/-! ## Opcodes -/

/-- An operation of the machine. -/
inductive Opcode where
  /- subprogram linkage -/
  | cup | csp | ent | mst | rtn
  /- comparison -/
  | equ | neq | grt | geq | les | leq
  /- integer arithmetic -/
  | adi | sbi | ngi | mpi | dvi | mod | abi | sqi | inc | dec
  /- real arithmetic -/
  | adr | sbr | ngr | mpr | dvr | abr | sqr
  /- boolean operations -/
  | ior | and | xor | not
  /- set operations, reserved -/
  | inn | uni | int | dif | cmp | sgs
  /- jumps -/
  | ujp | xjp | fjp | tjp
  /- conversion -/
  | flt | flo | trc | rnd | chr | ord
  /- termination -/
  | stp
  /- data reference -/
  | lda | ldc | ldi | lva | lvb | lvc | lvi | lvr | lvs | sti | ixa
  deriving DecidableEq, Inhabited, Repr

namespace Opcode

/-- Every opcode, at the index that is its byte. -/
def all : Array Opcode := #[
  cup, csp, ent, mst, rtn,
  equ, neq, grt, geq, les, leq,
  adi, sbi, ngi, mpi, dvi, mod, abi, sqi, inc, dec,
  adr, sbr, ngr, mpr, dvr, abr, sqr,
  ior, and, xor, not,
  inn, uni, int, dif, cmp, sgs,
  ujp, xjp, fjp, tjp,
  flt, flo, trc, rnd, chr, ord,
  stp,
  lda, ldc, ldi, lva, lvb, lvc, lvi, lvr, lvs, sti, ixa]

/-- The number an instruction word holds for the opcode. -/
def byte (op : Opcode) : UInt8 := op.ctorIdx.toUInt8

/-- The opcode that a byte stands for, if it stands for one. -/
def ofByte? (b : UInt8) : Option Opcode := all[b.toNat]?

/-- The mnemonic of an opcode. -/
def mnemonic : Opcode → String
  | cup => "CUP" | csp => "CSP" | ent => "ENT" | mst => "MST" | rtn => "RTN"
  | equ => "EQU" | neq => "NEQ" | grt => "GRT" | geq => "GEQ" | les => "LES" | leq => "LEQ"
  | adi => "ADI" | sbi => "SBI" | ngi => "NGI" | mpi => "MPI" | dvi => "DVI" | mod => "MOD"
  | abi => "ABI" | sqi => "SQI" | inc => "INC" | dec => "DEC"
  | adr => "ADR" | sbr => "SBR" | ngr => "NGR" | mpr => "MPR" | dvr => "DVR" | abr => "ABR"
  | sqr => "SQR"
  | ior => "IOR" | and => "AND" | xor => "XOR" | not => "NOT"
  | inn => "INN" | uni => "UNI" | int => "INT" | dif => "DIF" | cmp => "CMP" | sgs => "SGS"
  | ujp => "UJP" | xjp => "XJP" | fjp => "FJP" | tjp => "TJP"
  | flt => "FLT" | flo => "FLO" | trc => "TRC" | rnd => "RND" | chr => "CHR" | ord => "ORD"
  | stp => "STP"
  | lda => "LDA" | ldc => "LDC" | ldi => "LDI" | lva => "LVA" | lvb => "LVB" | lvc => "LVC"
  | lvi => "LVI" | lvr => "LVR" | lvs => "LVS" | sti => "STI" | ixa => "IXA"

/-- The opcode with a given mnemonic. -/
def ofMnemonic? (name : String) : Option Opcode := all.find? (·.mnemonic == name)

/-- What a listing shows for an opcode byte: its mnemonic, or `OP_` and its number in hexadecimal.
-/
def nameOfByte (b : UInt8) : String :=
  match ofByte? b with
  | some op => op.mnemonic
  | none => "OP_" ++ Text.hexByte 'A' b

/-- The table lists every opcode at its own number. -/
@[simp] theorem ofByte?_byte (op : Opcode) : ofByte? op.byte = some op := by
  cases op <;> rfl

/-- Only the byte of an opcode stands for it. -/
theorem byte_of_ofByte? {b : UInt8} {op : Opcode} (h : ofByte? b = some op) : op.byte = b := by
  have hlt : b.toNat < all.size := by
    unfold ofByte? at h
    exact (Array.getElem?_eq_some_iff.mp h).1
  have key : ∀ n : Fin 60, ∀ op, all[n.val]? = some op → op.byte.toNat = n.val := by decide
  exact UInt8.toNat_inj.mp (key ⟨b.toNat, hlt⟩ op h)

end Opcode

/-! ## Type codes -/

/-- A simple type, as typed instructions name it. -/
inductive TypeCode where
  /-- an address -/
  | pointer
  | boolean
  | char
  | integer
  | real
  | string
  /-- reserved -/
  | set
  /-- the result type of a procedure -/
  | void
  /-- a parameter type that accepts every word -/
  | any
  deriving DecidableEq, Inhabited, Repr

namespace TypeCode

/-- Every type code, at the index that is its byte. -/
def all : Array TypeCode := #[pointer, boolean, char, integer, real, string, set, void, any]

/-- The number an instruction word holds for the type code. -/
def byte (t : TypeCode) : UInt8 := t.ctorIdx.toUInt8

/-- The type code that a byte stands for, if it stands for one. -/
def ofByte? (b : UInt8) : Option TypeCode := all[b.toNat]?

/-- The language-level name of a type code. -/
def name : TypeCode → String
  | pointer => "pointer"
  | boolean => "boolean"
  | char => "char"
  | integer => "integer"
  | real => "real"
  | string => "string"
  | set => "set"
  | void => "void"
  | any => "any"

/-- The one-letter suffix of a type code. -/
def letter : TypeCode → Char
  | pointer => 'A'
  | boolean => 'B'
  | char => 'C'
  | integer => 'I'
  | real => 'R'
  | string => 'S'
  | set => 'T'
  | void => 'P'
  | any => 'X'

/-- The name shown for a type code byte. -/
def nameOfByte (b : UInt8) : String :=
  match ofByte? b with
  | some t => t.name
  | none => s!"type({b.toNat})"

/-- The letter shown for a type code byte; a byte without meaning shows a question mark. -/
def letterOfByte (b : UInt8) : Char :=
  match ofByte? b with
  | some t => t.letter
  | none => '?'

/-- The type code with a given letter. -/
def ofLetter? (c : Char) : Option TypeCode := all.find? (·.letter == c)

/-- The table lists every type code at its own number. -/
@[simp] theorem ofByte?_byte (t : TypeCode) : ofByte? t.byte = some t := by
  cases t <;> rfl

end TypeCode

/-! ## The mark -/

/-- The words at the bottom of every frame, lowest address first: return value, static link,
dynamic link, extreme pointer, return address. -/
def markSize : Nat := 5

/-- Offset in the mark of the value a function returns. -/
def markReturnValue : Nat := 0

/-- Offset in the mark of the frame that encloses this one in the program text. -/
def markStaticLink : Nat := 1

/-- Offset in the mark of the caller's frame. -/
def markDynamicLink : Nat := 2

/-- Offset in the mark of the extreme pointer, which this machine leaves zero. -/
def markExtremePointer : Nat := 3

/-- Offset in the mark of the address at which the caller goes on. -/
def markReturnAddress : Nat := 4

end PCode
