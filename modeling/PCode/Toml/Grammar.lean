import PCode.Toml.Number

/-!
# Lines of settings documents

The grammar of documents, as readers of characters: each gives what it read and
the characters after it, or nothing if the document is not well formed.

Main definition: `lines?`.
-/

namespace PCode.Toml

/-! ## Between the words -/

/-- Characters without blanks in front. -/
def skipBlanks (cs : List Char) : List Char := cs.dropWhile isBlank

/-- Characters without blanks, line ends and comments in front.  The flag tells that a comment is
being skipped. -/
def skipSpace : Bool → List Char → List Char
  | _, [] => []
  | true, c :: rest => skipSpace (!isNewline c) rest
  | false, c :: rest =>
    if isBlank c || isNewline c then skipSpace false rest
    else if c = '#' then skipSpace true rest
    else c :: rest

/-- The characters after the end of a line, before which a comment may stand. -/
def endOfLine? (cs : List Char) : Option (List Char) :=
  match skipBlanks cs with
  | [] => some []
  | c :: rest =>
    if isNewline c then some rest
    else if c = '#' then some (rest.dropWhile fun c => !isNewline c)
    else none

/-! ## Keys -/

/-- A name of a key. -/
def name? (cs : List Char) : Option (String × List Char) :=
  match cs with
  | '"' :: rest => basicString? rest
  | '\'' :: rest => literalString? rest
  | cs =>
    let bare := cs.takeWhile isBare
    if bare.isEmpty then none else some (String.ofList bare, cs.dropWhile isBare)

/-- A key up to a closing character, after the names read so far, the latest of which is first. -/
def key? (close : Char) : Nat → List String → List Char → Option (Key × List Char)
  | 0, _, _ => none
  | fuel + 1, sofar, cs =>
    match name? (skipBlanks cs) with
    | none => none
    | some (name, rest) =>
      match skipBlanks rest with
      | c :: rest =>
        if c = '.' then key? close fuel (name :: sofar) rest
        else if c = close then some ((name :: sofar).reverse, rest)
        else none
      | [] => none

/-! ## Values -/

/-- A value without parts. -/
def scalar? (cs : List Char) : Option (Scalar × List Char) :=
  match cs with
  | '"' :: '"' :: '"' :: rest => (multilineString? rest).map fun (s, rest) => (.string s, rest)
  | '"' :: rest => (basicString? rest).map fun (s, rest) => (.string s, rest)
  | '\'' :: '\'' :: '\'' :: rest => (multilineLiteral? rest).map fun (s, rest) => (.string s, rest)
  | '\'' :: rest => (literalString? rest).map fun (s, rest) => (.string s, rest)
  | 't' :: 'r' :: 'u' :: 'e' :: rest => some (.bool true, rest)
  | 'f' :: 'a' :: 'l' :: 's' :: 'e' :: rest => some (.bool false, rest)
  | 'i' :: 'n' :: 'f' :: rest => some (.float "inf", rest)
  | 'n' :: 'a' :: 'n' :: rest => some (.float "nan", rest)
  | c :: _ => if c.isDigit || c == '+' || c == '-' then number? cs else none
  | [] => none

mutual

/-- A value.  The number bounds the parts that are read. -/
def value? : Nat → List Char → Option (Value × List Char)
  | 0, _ => none
  | fuel + 1, cs =>
    match skipBlanks cs with
    | '[' :: rest => arrayItems? fuel [] rest
    | '\x7b' :: rest => tableEntries? fuel [] rest
    | cs => (scalar? cs).map fun (s, rest) => (.scalar s, rest)

/-- The items of an array up to its end, after those read so far, the latest of which is first. -/
def arrayItems? : Nat → List Value → List Char → Option (Value × List Char)
  | 0, _, _ => none
  | fuel + 1, sofar, cs =>
    match skipSpace false cs with
    | ']' :: rest => some (.array sofar.reverse, rest)
    | cs =>
      match value? fuel cs with
      | none => none
      | some (v, rest) =>
        match skipSpace false rest with
        | ',' :: rest => arrayItems? fuel (v :: sofar) rest
        | ']' :: rest => some (.array (v :: sofar).reverse, rest)
        | _ => none

/-- The entries of a table on one line up to its end, after those read so far, the latest of which
is first. -/
def tableEntries? : Nat → List (Key × Value) → List Char → Option (Value × List Char)
  | 0, _, _ => none
  | fuel + 1, sofar, cs =>
    match skipSpace false cs with
    | '\x7d' :: rest => some (.table sofar.reverse, rest)
    | cs =>
      match key? '=' cs.length [] cs with
      | none => none
      | some (key, rest) =>
        match value? fuel rest with
        | none => none
        | some (v, rest) =>
          match skipSpace false rest with
          | ',' :: rest => tableEntries? fuel ((key, v) :: sofar) rest
          | '\x7d' :: rest => some (.table ((key, v) :: sofar).reverse, rest)
          | _ => none

end

/-! ## Lines -/

/-- A line and the characters after it. -/
def line? (cs : List Char) : Option (Line × List Char) :=
  match cs with
  | '[' :: '[' :: rest =>
    match key? ']' rest.length [] rest with
    | some (key, ']' :: rest) => (endOfLine? rest).map fun rest => (.tableArray key, rest)
    | _ => none
  | '[' :: rest =>
    match key? ']' rest.length [] rest with
    | some (key, rest) => (endOfLine? rest).map fun rest => (.table key, rest)
    | none => none
  | cs =>
    match key? '=' cs.length [] cs with
    | none => none
    | some (key, rest) =>
      match value? (2 * rest.length + 1) rest with
      | none => none
      | some (v, rest) => (endOfLine? rest).map fun rest => (.entry key v, rest)

/-- The lines that characters hold, after those read so far, the latest of which is first. -/
def linesFrom? : Nat → List Line → List Char → Option (List Line)
  | 0, _, _ => none
  | fuel + 1, sofar, cs =>
    match skipSpace false cs with
    | [] => some sofar.reverse
    | cs =>
      match line? cs with
      | none => none
      | some (line, rest) => linesFrom? fuel (line :: sofar) rest

/-- Whether characters are fit for a document: no controls, and no return without a newline. -/
def areFit : List Char → Bool
  | [] => true
  | '\r' :: rest => rest.head? == some '\n' && areFit rest
  | c :: rest => !isForbidden c && areFit rest

/-- The lines of a document. -/
def lines? (text : String) : Option (List Line) :=
  let cs := text.toList
  if areFit cs then linesFrom? (cs.length + 1) [] cs else none

end PCode.Toml
