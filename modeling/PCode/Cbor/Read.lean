import PCode.Cbor.Item

/-!
# Reading binary items

The reader accepts every well-formed item, not only canonical ones: arguments may
be longer than they need be, and strings, arrays and maps may be of indefinite
length, which ends with a break byte.  Items may be nested only so deep, and
arrays and maps may have only so many members.

Main definition: `read?`, an item and the bytes after it.
-/

namespace PCode.Cbor

/-- How deep arrays, maps and tags on tags may be nested. -/
def maxDepth : Nat := 32

/-- How many items an array may have, and how many entries a map. -/
def maxMembers : Nat := 131072

/-- The byte that ends an item of indefinite length. -/
def breakByte : UInt8 := 0xff

/-! ## Heads -/

/-- The head of an item. -/
structure Head where
  major : Nat
  /-- the low five bits of the first byte -/
  info : Nat
  argument : Nat
  deriving DecidableEq, Inhabited, Repr

/-- Whether the length is not given in the head. -/
def Head.isIndefinite (h : Head) : Bool := h.info == 31

/-- As many bytes as asked for, and the rest. -/
def split? (count : Nat) (bytes : Bytes) : Option (Bytes × Bytes) :=
  let taken := bytes.take count
  if taken.length = count then some (taken, bytes.drop count) else none

/-- The number of bytes of the argument for the values 24 to 27 of the low five bits. -/
def argumentWidth (info : Nat) : Nat := Nat.pow 2 (info - 24)

/-- The head of an item and the bytes after it. -/
def readHead? : Bytes → Option (Head × Bytes)
  | [] => none
  | first :: rest =>
    let major := first.toNat / 32
    let info := first.toNat % 32
    if info < 24 then some (⟨major, info, info⟩, rest)
    else if info < 28 then
      match split? (argumentWidth info) rest with
      | none => none
      | some (argument, rest) =>
        let n := ofBigEndian argument
        if major = 7 ∧ info = 24 ∧ n < 32 then none else some (⟨major, info, n⟩, rest)
    else if info = 31 ∧ 2 ≤ major ∧ major ≤ 5 then some (⟨major, info, 0⟩, rest)
    else none

/-! ## Strings -/

/-- The chunks of a string of indefinite length, each a string of the same type and of definite
length. -/
def readChunks? (major : Nat) : Nat → Bytes → Option (List Bytes × Bytes)
  | 0, _ => none
  | fuel + 1, bytes =>
    if bytes.head? = some breakByte then some ([], bytes.drop 1)
    else
      match readHead? bytes with
      | none => none
      | some (h, rest) =>
        if h.major = major ∧ !h.isIndefinite then
          match split? h.argument rest with
          | none => none
          | some (chunk, rest) =>
            match readChunks? major fuel rest with
            | none => none
            | some (chunks, rest) => some (chunk :: chunks, rest)
        else none

/-- The chunks of a string with a given head. -/
def readString? (h : Head) (bytes : Bytes) : Option (List Bytes × Bytes) :=
  if h.isIndefinite then readChunks? h.major bytes.length bytes
  else (split? h.argument bytes).map fun (content, rest) => ([content], rest)

/-- A text of chunks, each of which must be UTF-8. -/
def textOfChunks (chunks : List Bytes) : Item :=
  match chunks.mapM fun c => String.fromUTF8? ⟨c.toArray⟩ with
  | some parts => .text (String.join parts)
  | none => .badText

/-! ## Members -/

/-- A given number of items, after those read so far, the latest of which is first. -/
def readMany? (item : Bytes → Option (Item × Bytes)) :
    Nat → List Item → Bytes → Option (List Item × Bytes)
  | 0, sofar, bytes => some (sofar.reverse, bytes)
  | count + 1, sofar, bytes =>
    match item bytes with
    | none => none
    | some (i, rest) => readMany? item count (i :: sofar) rest

/-- Items up to a break, after those read so far, the latest of which is first. -/
def readToBreak? (item : Bytes → Option (Item × Bytes)) :
    Nat → List Item → Bytes → Option (List Item × Bytes)
  | 0, _, _ => none
  | fuel + 1, sofar, bytes =>
    if bytes.head? = some breakByte then some (sofar.reverse, bytes.drop 1)
    else
      match item bytes with
      | none => none
      | some (i, rest) => readToBreak? item fuel (i :: sofar) rest

/-- The members of an array or map with a given head, which counts them in groups. -/
def readMembers? (item : Bytes → Option (Item × Bytes)) (group : Nat) (h : Head) (bytes : Bytes) :
    Option (List Item × Bytes) :=
  if h.isIndefinite then
    match readToBreak? item bytes.length [] bytes with
    | none => none
    | some (items, rest) =>
      if items.length % group = 0 ∧ items.length / group ≤ maxMembers then some (items, rest)
      else none
  else if h.argument ≤ maxMembers then readMany? item (group * h.argument) [] bytes
  else none

/-- Items two by two. -/
def pairs : List Item → List (Item × Item)
  | key :: value :: rest => (key, value) :: pairs rest
  | _ => []

/-! ## Items -/

/-- The tags that stand before an item, the depth of that item, and the bytes from there. -/
def readTags? : Nat → Nat → Bytes → Option (List UInt64 × Nat × Bytes)
  | 0, _, _ => none
  | fuel + 1, depth, bytes =>
    match readHead? bytes with
    | none => none
    | some (h, rest) =>
      if h.major = 6 then
        if depth < maxDepth then
          (readTags? fuel (depth + 1) rest).map fun (tags, more) =>
            (UInt64.ofNat h.argument :: tags, more)
        else none
      else some ([], depth, bytes)

/-- An item under tags, the first of which is outermost. -/
def withTags (tags : List UInt64) (item : Item) : Item := tags.foldr Item.tagged item

/-- An item of major type seven. -/
def simpleItem (h : Head) : Item :=
  match h.info with
  | 20 => .bool false
  | 21 => .bool true
  | 22 => .null
  | 23 => .undefined
  | 25 => .float (Real.widen Real.half h.argument)
  | 26 => .float (Real.widen Real.single h.argument)
  | 27 => .float (Float.ofBits (UInt64.ofNat h.argument))
  | _ => .simple (UInt8.ofNat h.argument)

/-- An item that is no tag, given its head and a reader of its members. -/
def readBody? (member : Bytes → Option (Item × Bytes)) (depth : Nat) (h : Head) (bytes : Bytes) :
    Option (Item × Bytes) :=
  match h.major with
  | 0 => some (.unsigned (UInt64.ofNat h.argument), bytes)
  | 1 => some (.negative (UInt64.ofNat h.argument), bytes)
  | 2 => (readString? h bytes).map fun (chunks, rest) => (.bytes chunks.flatten, rest)
  | 3 => (readString? h bytes).map fun (chunks, rest) => (textOfChunks chunks, rest)
  | 4 =>
    if depth < maxDepth then
      (readMembers? member 1 h bytes).map fun (items, rest) => (.array items, rest)
    else none
  | 5 =>
    if depth < maxDepth then
      (readMembers? member 2 h bytes).map fun (items, rest) => (.map (pairs items), rest)
    else none
  | 7 => some (simpleItem h, bytes)
  | _ => none

/-- An item at a given depth.  The first number bounds the recursion: it is above the number of
levels that are left. -/
def readItem? : Nat → Nat → Bytes → Option (Item × Bytes)
  | 0, _, _ => none
  | height + 1, depth, bytes =>
    match readHead? bytes with
    | none => none
    | some (h, rest) =>
      if h.major = 6 then
        match readTags? (maxDepth + 1) depth rest with
        | none => none
        | some (tags, depth, rest) =>
          match readHead? rest with
          | none => none
          | some (inner, rest) =>
            (readBody? (readItem? height (depth + 1)) depth inner rest).map fun (item, rest) =>
              (withTags (UInt64.ofNat h.argument :: tags) item, rest)
      else readBody? (readItem? height (depth + 1)) depth h rest

/-- An item and the bytes after it. -/
def read? (bytes : Bytes) : Option (Item × Bytes) := readItem? (maxDepth + 1) 0 bytes

end PCode.Cbor
