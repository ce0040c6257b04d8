import PCode.Real.Format

/-!
# Binary items

Data items of the Concise Binary Object Representation, and their canonical
encoding: heads are as short as they can be, floats are as narrow as they can be
without loss, and the entries of a map stand in the order in which they are given.

An item starts with a head: three bits for its major type, and an argument in the
other five bits or in the bytes that follow.
-/

namespace PCode.Cbor

/-- A sequence of bytes. -/
abbrev Bytes := List UInt8

/-- A data item. -/
inductive Item where
  | unsigned (n : UInt64)
  /-- the integer `-1 - n` -/
  | negative (n : UInt64)
  | bytes (content : Bytes)
  | text (content : String)
  /-- a text whose bytes are not UTF-8 -/
  | badText
  | array (items : List Item)
  | map (entries : List (Item × Item))
  | tagged (tag : UInt64) (content : Item)
  | bool (b : Bool)
  | null
  | undefined
  /-- a simple value without a meaning -/
  | simple (n : UInt8)
  | float (x : Float)
  deriving Inhabited

/-! ## Numbers as bytes -/

/-- A number in a given number of bytes, the most significant first. -/
def bigEndian : Nat → Nat → Bytes
  | 0, _ => []
  | width + 1, n => UInt8.ofNat (n / Nat.pow 256 width) :: bigEndian width n

/-- The number that bytes stand for, the most significant first. -/
def ofBigEndian (bytes : Bytes) : Nat := bytes.foldl (fun n b => 256 * n + b.toNat) 0

/-- A number is written with the bytes asked for. -/
@[simp] theorem length_bigEndian (width n : Nat) : (bigEndian width n).length = width := by
  induction width with
  | zero => rfl
  | succ width ih => simp [bigEndian, ih]

/-! ## Encoding -/

/-- The first byte of an item. -/
def firstByte (major info : Nat) : UInt8 := UInt8.ofNat (32 * major + info)

/-- The shortest head with a given argument. -/
def head (major argument : Nat) : Bytes :=
  if argument < 24 then [firstByte major argument]
  else if argument < 256 then firstByte major 24 :: bigEndian 1 argument
  else if argument < 65536 then firstByte major 25 :: bigEndian 2 argument
  else if argument < 4294967296 then firstByte major 26 :: bigEndian 4 argument
  else firstByte major 27 :: bigEndian 8 argument

/-- The narrowest float that holds a double; all NaN are written alike. -/
def encodeFloat (x : Float) : Bytes :=
  if x.isNaN then firstByte 7 25 :: bigEndian 2 0x7e00
  else
    match Real.narrow? Real.half x, Real.narrow? Real.single x with
    | some bits, _ => firstByte 7 25 :: bigEndian 2 bits
    | none, some bits => firstByte 7 26 :: bigEndian 4 bits
    | none, none => firstByte 7 27 :: bigEndian 8 x.toBits.toNat

/-- The bytes of a text. -/
def utf8 (s : String) : Bytes := s.toUTF8.toList

mutual

/-- The bytes of an item.  A text that is not one is written as an empty one. -/
def Item.encode : Item → Bytes
  | .unsigned n => head 0 n.toNat
  | .negative n => head 1 n.toNat
  | .bytes content => head 2 content.length ++ content
  | .text content => head 3 (utf8 content).length ++ utf8 content
  | .badText => head 3 0
  | .array items => head 4 items.length ++ encodeAll items
  | .map entries => head 5 entries.length ++ encodeEntries entries
  | .tagged tag content => head 6 tag.toNat ++ content.encode
  | .bool b => [firstByte 7 (if b then 21 else 20)]
  | .null => [firstByte 7 22]
  | .undefined => [firstByte 7 23]
  | .simple n => head 7 n.toNat
  | .float x => encodeFloat x

/-- The bytes of items one after another. -/
def encodeAll : List Item → Bytes
  | [] => []
  | item :: rest => item.encode ++ encodeAll rest

/-- The bytes of map entries one after another. -/
def encodeEntries : List (Item × Item) → Bytes
  | [] => []
  | (key, value) :: rest => key.encode ++ value.encode ++ encodeEntries rest

end

/-! ## Construction -/

/-- An integer item. -/
def Item.ofInt64 (i : Int64) : Item :=
  if 0 ≤ i then .unsigned i.toUInt64 else .negative (-1 - i).toUInt64

/-- A map with texts for keys. -/
def Item.ofFields (fields : List (String × Item)) : Item :=
  .map (fields.map fun (name, value) => (.text name, value))

end PCode.Cbor
