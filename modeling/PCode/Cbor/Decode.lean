import PCode.Cbor.Read

/-!
# Reading items as data

How items are read as integers, reals, texts and records.  Null and undefined
leave what they stand for at its default.  Tags are passed over, except that a
few of them restrict their content and that a tagged big number is an integer.
The fields of a record are found by their names, in which case does not count;
the first entry for a field is taken, and unknown entries are skipped.  Their
keys, too, must be texts or integers.
-/

namespace PCode.Cbor

namespace Item

/-- Whether an item leaves things at their default. -/
def isVoid : Item → Bool
  | null | undefined => true
  | _ => false

/-- Whether an item is a text. -/
def isText : Item → Bool
  | text _ | badText => true
  | _ => false

/-- Whether an item is a number. -/
def isNumber : Item → Bool
  | unsigned _ | negative _ | float _ => true
  | _ => false

/-- Whether an item is a byte string. -/
def isBytes : Item → Bool
  | bytes _ => true
  | _ => false

/-- The tag of items that only say that they are items. -/
def selfDescribedTag : UInt64 := 55799

/-- An item without tags that have no meaning here.  There is none if a tag has a content that it
must not have: a time text must be a text, an epoch time a number, and a big number a byte string.
-/
def untagged? : Item → Option Item
  | tagged tag content =>
    if tag = 0 then if content.isText then some content else none
    else if tag = 1 then if content.isNumber then some content else none
    else if tag = 2 ∨ tag = 3 then
      if content.isBytes then some (tagged tag content) else none
    else content.untagged?
  | item => some item

/-! ## Numbers -/

/-- The integer that an untagged item stands for, between the least signed and the greatest
unsigned integer of 64 bits. -/
def integer? : Item → Option Int
  | unsigned n => some n.toNat
  | negative n => if n.toNat < 9223372036854775808 then some (-1 - (n.toNat : Int)) else none
  | simple n => some n.toNat
  | tagged 2 (bytes b) =>
    if ofBigEndian b < 18446744073709551616 then some (ofBigEndian b) else none
  | tagged 3 (bytes b) =>
    if ofBigEndian b < 9223372036854775808 then some (-1 - (ofBigEndian b : Int)) else none
  | _ => none

/-- Read an item as something, with a default for void items. -/
def as? {α : Type} (default : α) (decode : Item → Option α) (item : Item) : Option α :=
  match item.untagged? with
  | none => none
  | some item => if item.isVoid then some default else decode item

/-- An integer within bounds, the upper one excluded. -/
def within? (low high : Int) (item : Item) : Option Int :=
  item.as? 0 fun item =>
    match item.integer? with
    | some n => if low ≤ n ∧ n < high then some n else none
    | none => none

/-- A signed integer. -/
def int64? (item : Item) : Option Int64 :=
  (item.within? (-9223372036854775808) 9223372036854775808).map Int64.ofInt

/-- An unsigned integer. -/
def uint64? (item : Item) : Option UInt64 :=
  (item.within? 0 18446744073709551616).map fun n => UInt64.ofNat n.toNat

/-- A byte. -/
def uint8? (item : Item) : Option UInt8 := (item.within? 0 256).map fun n => UInt8.ofNat n.toNat

/-- A real, for which an integer may stand. -/
def real? (item : Item) : Option Float :=
  item.as? 0 fun item =>
    match item with
    | float x => some x
    | item => item.integer?.map Float.ofInt

/-! ## Other data -/

/-- A truth value. -/
def bool? (item : Item) : Option Bool :=
  item.as? false fun item =>
    match item with
    | bool b => some b
    | _ => none

/-- A text. -/
def string? (item : Item) : Option String :=
  item.as? "" fun item =>
    match item with
    | text s => some s
    | _ => none

/-- A given number of bytes: a byte string of this length, or an array, of which as many items are
taken. -/
def fixedBytes? (count : Nat) (item : Item) : Option (Vector UInt8 count) :=
  item.as? (Vector.replicate count 0) fun item =>
    match item with
    | bytes b | tagged _ (bytes b) =>
      if h : b.length = count then some ⟨b.toArray, by simpa using h⟩ else none
    | array items =>
      ((items.take count).mapM uint8?).map fun bs => Vector.ofFn fun i => bs.getD i 0
    | _ => none

/-- A list, for which void stands as none. -/
def list? {α : Type} (member : Item → Option α) (item : Item) : Option (Option (Array α)) :=
  item.as? none fun item =>
    match item with
    | array items => (items.mapM member).map fun xs => some xs.toArray
    | _ => none

/-! ## Records -/

/-- Whether an item may be a key of a record: a text, or an integer, negative ones within 64 bits.
-/
def isRecordKey : Item → Bool
  | text _ | unsigned _ => true
  | negative n => n.toNat < 9223372036854775808
  | _ => false

/-- The entries of a record.  A void item has none. -/
def entries? (item : Item) : Option (List (Item × Item)) :=
  item.as? [] fun item =>
    match item with
    | map entries => if entries.all fun (key, _) => key.isRecordKey then some entries else none
    | _ => none

/-- Whether a key is a given name, in which case does not count. -/
def isKey (name : String) : Item → Bool
  | text key => key.map Char.toLower == name
  | _ => false

/-- The first entry for a name. -/
def entry? (entries : List (Item × Item)) (name : String) : Option Item :=
  match entries with
  | [] => none
  | (key, value) :: rest => if key.isKey name then some value else entry? rest name

/-- Read a field of a record, which has a default when there is no entry for it. -/
def field? {α : Type} (entries : List (Item × Item)) (name : String) (default : α)
    (decode : Item → Option α) : Option α :=
  match entry? entries name with
  | some item => decode item
  | none => some default

end Item

end PCode.Cbor
