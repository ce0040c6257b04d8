import PCode.Text.Hex

/-!
# Settings documents

The parts of a document in TOML: keys, values, and the lines that they stand in.
Floats and times are kept as they are written.
-/

namespace PCode.Toml

/-- A key: one or more names, from the outermost table inward. -/
abbrev Key := List String

/-- A value without parts. -/
inductive Scalar where
  | string (s : String)
  | integer (n : Int64)
  | float (written : String)
  | bool (b : Bool)
  | time (written : String)
  deriving Inhabited, Repr

/-- A value. -/
inductive Value where
  | scalar (s : Scalar)
  | array (items : List Value)
  /-- a table on one line -/
  | table (entries : List (Key × Value))
  deriving Inhabited

/-- A line of a document: the head of a table, the head of a table in an array of tables, or an
entry of the table above it. -/
inductive Line where
  | table (key : Key)
  | tableArray (key : Key)
  | entry (key : Key) (value : Value)
  deriving Inhabited

/-! ## Characters -/

/-- Whether a character can stand in a name without quotes. -/
def isBare (c : Char) : Bool := c.isAlphanum || c == '_' || c == '-'

/-- Whether a character separates words on a line. -/
def isBlank (c : Char) : Bool := c == ' ' || c == '\t'

/-- Whether a character ends a line.  A return stands only before a newline. -/
def isNewline (c : Char) : Bool := c == '\n' || c == '\r'

/-- Whether a character must not stand in a document: controls, except the ones that make up
blanks and line ends. -/
def isForbidden (c : Char) : Bool :=
  (c.toNat < 32 && !isBlank c && !isNewline c) || c.toNat == 127

/-! ## Text of keys -/

/-- A character inside a quoted name. -/
def quotedChar (c : Char) : List Char :=
  match c with
  | '"' => ['\\', '"']
  | '\\' => ['\\', '\\']
  | '\t' => ['\\', 't']
  | '\n' => ['\\', 'n']
  | '\r' => ['\\', 'r']
  | '\x08' => ['\\', 'b']
  | '\x0c' => ['\\', 'f']
  | c =>
    if isForbidden c then '\\' :: 'u' :: Text.hexDigits 'a' 4 c.toNat
    else [c]

/-- A name, in quotes unless it is bare. -/
def nameText (name : String) : String :=
  if !name.isEmpty && name.toList.all isBare then name
  else "\"" ++ String.ofList (name.toList.flatMap quotedChar) ++ "\""

/-- A key as it is written. -/
def Key.text (key : Key) : String := String.intercalate "." (key.map nameText)

end PCode.Toml
